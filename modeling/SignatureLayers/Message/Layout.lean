import SignatureLayers.Message.Fault
import SignatureLayers.Number.Shortest
import SignatureLayers.Text.CodePoint
import SignatureLayers.Text.Digit

namespace SignatureLayers.Message

open Text (CodePoint)

/-- Numbers that a template writes out are no greater. -/
def greatestNumeral : Nat := Number.powerOfTwo 63 - 1

def mostRoom : Nat := 100000000

structure Layout where
  fill : CodePoint := .ofChar ' '
  align : Option Char := none
  sign : Option Char := none
  coerceZero : Bool := false
  alternate : Bool := false
  /-- Zeros fill the field between sign and digits. -/
  zeros : Bool := false
  width : Option Nat := none
  separator : Option Char := none
  precision : Option Nat := none
  kind : Option Char := none
deriving DecidableEq, Repr

namespace Layout

def isAlign (c : Char) : Bool := c = '<' || c = '>' || c = '=' || c = '^'

def isSign (c : Char) : Bool := c = ' ' || c = '+' || c = '-'

def numeral? (s : List Char) : Except MessageFault (Option Nat × List Char) :=
  let (n, rest) := Text.numeral 0 s
  if greatestNumeral < n then .error .malformed
  else if rest.length = s.length then .ok (none, s)
  else .ok (some n, rest)

def align? (p : CodePoint) : Option Char := p.char?.filter isAlign

def takeAlign (l : Layout) : List CodePoint → Layout × List CodePoint
  | f :: a :: s =>
    match align? a, align? f with
    | some a, _ => ({ l with fill := f, align := some a }, s)
    | none, some f => ({ l with align := some f }, a :: s)
    | none, none => (l, f :: a :: s)
  | [a] => match align? a with
    | some a => ({ l with align := some a }, [])
    | none => (l, [a])
  | [] => (l, [])

def takeSign (l : Layout) : List Char → Layout × List Char
  | c :: s => if isSign c then ({ l with sign := some c }, s) else (l, c :: s)
  | [] => (l, [])

/-- Reads the marks before the width. A zero fills the field unless a filling character is given. -/
def takeFlags (l : Layout) (hasFill : Bool) (s : List Char) : Layout × List Char :=
  let (l, s) := match s with
    | 'z' :: s => ({ l with coerceZero := true }, s)
    | s => (l, s)
  let (l, s) := match s with
    | '#' :: s => ({ l with alternate := true }, s)
    | s => (l, s)
  match s with
  | '0' :: s' => if hasFill then (l, s) else ({ l with fill := .ofChar '0', zeros := true }, s')
  | s => (l, s)

def takeSeparator (l : Layout) (s : List Char) : Except MessageFault (Layout × List Char) :=
  match s with
  | ',' :: '_' :: _ | '_' :: ',' :: _ => .error .malformed
  | ',' :: s => .ok ({ l with separator := some ',' }, s)
  | '_' :: s => .ok ({ l with separator := some '_' }, s)
  | s => .ok (l, s)

def takePrecision (l : Layout) (s : List Char) : Except MessageFault (Layout × List Char) :=
  match s with
  | '.' :: s =>
    match numeral? s with
    | .ok (some n, s) => .ok ({ l with precision := some n }, s)
    | _ => .error .malformed
  | s => .ok (l, s)

/-- Whether digits of this kind may stand in groups: decimal ones always, others only with a low
line between the groups. -/
def mayGroup (separator : Char) : Option Char → Bool
  | none => true
  | some k => "defgEG%F".toList.contains k || (separator = '_' && "boxX".toList.contains k)

/-- Reads a layout. What is not said of the kind is `usual`. -/
def ofCodePoints (usual : Char) (s : List CodePoint) : Except MessageFault Layout := do
  let (l, s') := takeAlign {} s
  let hasFill := s.length = s'.length + 2
  let s ← match s'.mapM CodePoint.char? with
    | some s => .ok s
    | none => .error .malformed
  let (l, s) := takeSign l s
  let (l, s) := takeFlags l hasFill s
  let (width, s) ← numeral? s
  let (l, s) ← takeSeparator { l with width } s
  let (l, s) ← takePrecision l s
  let l ← match s with
    | [] => .ok { l with kind := some usual }
    | [k] => .ok { l with kind := some k }
    | _ => .error .malformed
  match l.separator with
  | some c => if mayGroup c l.kind then .ok l else .error .malformed
  | none => .ok l

def spaces (p : CodePoint) (n : Nat) : List CodePoint := List.replicate n p

def place (l : Layout) (align : Char) (s : List CodePoint) : List CodePoint :=
  let room := l.width.getD 0 - s.length
  match align with
  | '<' => s ++ spaces l.fill room
  | '^' => spaces l.fill (room / 2) ++ s ++ spaces l.fill (room - room / 2)
  | _ => spaces l.fill room ++ s

def isOversized (n : Option Nat) : Bool := n.any (mostRoom < ·)

def text (l : Layout) (s : List CodePoint) : Except MessageFault (List CodePoint) :=
  if l.kind != some 's' || l.sign.isSome || l.coerceZero || l.alternate || l.align == some '=' then
    .error .malformed
  else if isOversized l.width then .error .noRoom
  else
    let kept := match l.precision with
      | some n => s.take n
      | none => s
    .ok (l.place (l.align.getD '<') kept)

/-- Digits, last one first, in groups of `size` from the last on, with zeros up to a width. -/
def groups (size : Nat) (separator : Char) : Nat → Nat → List Char → List Char
  | 0, _, s => s
  | n + 1, width, s =>
    let count := min size (max (max s.length width) 1)
    let group := s.take count ++ List.replicate (count - s.length) '0'
    let rest := s.drop count
    if rest.isEmpty && width ≤ count then group
    else group ++ separator :: groups size separator n (width - count - 1) rest

def grouped (l : Layout) (width : Nat) (digits : List Char) : List Char :=
  match l.separator with
  | none => List.replicate (width - digits.length) '0' ++ digits
  | some c =>
    let size := if "boxX".toList.contains (l.kind.getD 'd') then 4 else 3
    (groups size c (digits.length + width + 1) width digits.reverse).reverse

structure Parts where
  isNegative : Bool
  lead : List Char := []
  digits : List Char
  tail : List Char := []

def signOf (l : Layout) (isNegative : Bool) : List Char :=
  if isNegative then ['-']
  else match l.sign with
    | some '+' => ['+']
    | some ' ' => [' ']
    | _ => []

def join (l : Layout) (p : Parts) : List CodePoint :=
  let align := l.align.getD (if l.zeros then '=' else '>')
  let lead := l.signOf p.isNegative ++ p.lead
  let width := l.width.getD 0 - (lead.length + p.tail.length)
  let digits :=
    if p.digits.isEmpty then []
    else l.grouped (if l.fill = .ofChar '0' && align = '=' then width else 0) p.digits
  if align = '=' then
    lead.map .ofChar ++ spaces l.fill (width - digits.length) ++ (digits ++ p.tail).map .ofChar
  else l.place align ((lead ++ digits ++ p.tail).map .ofChar)

def written (l : Layout) (p : Parts) : Except MessageFault (List CodePoint) :=
  if isOversized l.width then .error .noRoom else .ok (l.join p)

def whole (l : Layout) (n : Int) (base : Nat) (mark : List Char) : Parts where
  isNegative := n < 0
  lead := if l.alternate then mark else []
  digits := Nat.toDigits base n.natAbs

def Parts.toUpper (p : Parts) : Parts :=
  { p with lead := p.lead.map Char.toUpper, digits := p.digits.map Char.toUpper }

def fraction (l : Layout) (digits : List Char) : List Char :=
  if digits.isEmpty && !l.alternate then [] else '.' :: digits

def power (mark : Char) (n : Nat) : List Char :=
  mark :: (Number.exponentText n).toList

def dropZeros (s : List Char) : List Char := (s.reverse.dropWhile (· = '0')).reverse

def fractionParts (l : Layout) (kind : Char) (precision n : Nat) (isNegative : Bool) : Parts :=
  match kind with
  | 'e' | 'E' =>
    let (ds, e) := Number.leadingDigits (precision + 1) n
    { isNegative, digits := ds.take 1, tail := l.fraction (ds.drop 1) ++ power kind e }
  | 'g' | 'G' =>
    let count := max precision 1
    let (ds, e) := Number.leadingDigits count n
    let point := if e < count then e + 1 else 1
    let behind := if l.alternate then ds.drop point else dropZeros (ds.drop point)
    { isNegative
      digits := ds.take point
      tail := l.fraction behind ++
        if e < count then [] else power (if kind = 'g' then 'e' else 'E') e }
  | _ =>
    { isNegative
      digits := Nat.toDigits 10 n
      tail := l.fraction (List.replicate precision '0') }

def rounded (n : Nat) : Except MessageFault Nat :=
  let kept := Number.keepBits 53 n
  if Number.powerOfTwo 1024 ≤ kept then .error .tooLarge else .ok kept

def fractional (l : Layout) (kind : Char) (n : Int) : Except MessageFault (List CodePoint) := do
  let m ← rounded n.natAbs
  let precision := l.precision.getD 6
  if Number.powerOfTwo 31 ≤ precision then .error .malformed
  else if isOversized l.precision then .error .noRoom
  else if kind = '%' then
    match rounded (100 * m) with
    | .error _ => l.written ⟨n < 0, [], [], ['i', 'n', 'f', '%']⟩
    | .ok m =>
      let p := l.fractionParts 'f' precision m (n < 0)
      l.written { p with tail := p.tail ++ ['%'] }
  else l.written (l.fractionParts kind precision m (n < 0))

def codePoint (l : Layout) (n : Int) : Except MessageFault (List CodePoint) :=
  if l.sign.isSome || l.alternate then .error .malformed
  else if h : 0 ≤ n ∧ n < 0x110000 then
    if isOversized l.width then .error .noRoom
    else .ok (l.place (l.align.getD '>') [⟨n.toNat, by omega⟩])
  else .error .tooLarge

/-- A number in the way that the kind asks for. -/
def number (l : Layout) (n : Int) : Except MessageFault (List CodePoint) :=
  let kind := l.kind.getD 'd'
  if "eEfFgG%".toList.contains kind then l.fractional kind n
  else if l.precision.isSome || l.coerceZero then .error .malformed
  else match kind with
    | 'd' | 'n' => l.written (l.whole n 10 [])
    | 'b' => l.written (l.whole n 2 ['0', 'b'])
    | 'o' => l.written (l.whole n 8 ['0', 'o'])
    | 'x' => l.written (l.whole n 16 ['0', 'x'])
    | 'X' => l.written (l.whole n 16 ['0', 'x']).toUpper
    | 'c' => l.codePoint n
    | _ => .error .malformed

end Layout
end SignatureLayers.Message
