import SignatureLayers.Text.Blank
import SignatureLayers.Text.Word
import SignatureLayers.Toml.Value

namespace SignatureLayers.Toml

open Text (after? isDigit isUpper isLower)

abbrev Reader (α : Type) := List Char → Option (α × List Char)

def isSpace (c : Char) : Bool := c == ' ' || c == '\t'

def isSpaceOrFeed (c : Char) : Bool := isSpace c || c == '\n'

def isControl (c : Char) : Bool := c.toNat < 32 || c.toNat == 127

def isIllegal (c : Char) : Bool := isControl c && c != '\t'

def isIllegalInLines (c : Char) : Bool := isIllegal c && c != '\n'

def hexValue? (c : Char) : Option Nat :=
  let n := c.toNat
  if isDigit c then some (n - 48)
  else if 97 ≤ n && n ≤ 102 then some (n - 87)
  else if 65 ≤ n && n ≤ 70 then some (n - 55)
  else none

def numeral (base : Nat) (digits : List Char) : Nat :=
  digits.foldl (fun n c => n * base + (hexValue? c).getD 0) 0

def hexChar (width : Nat) : Reader Char := fun s =>
  let digits := s.take width
  let n := numeral 16 digits
  if digits.length = width && digits.all (fun c => (hexValue? c).isSome) && n.isValidChar then
    some (Char.ofNat n, s.drop width)
  else none

/-- Reads what follows a backslash. In a string of several lines a backslash in front of a line
break takes all blanks behind it out. -/
def escape (inLines : Bool) : Reader (List Char)
  | 'b' :: s => some (['\x08'], s)
  | 't' :: s => some (['\t'], s)
  | 'n' :: s => some (['\n'], s)
  | 'f' :: s => some (['\x0c'], s)
  | 'r' :: s => some (['\r'], s)
  | '"' :: s => some (['"'], s)
  | '\\' :: s => some (['\\'], s)
  | 'u' :: s => (hexChar 4 s).map fun (c, s) => ([c], s)
  | 'U' :: s => (hexChar 8 s).map fun (c, s) => ([c], s)
  | c :: s =>
    if inLines && isSpaceOrFeed c then
      match (c :: s).dropWhile isSpace with
      | '\n' :: s => some ([], s.dropWhile isSpaceOrFeed)
      | [] => some ([], [])
      | _ => none
    else none
  | [] => none

def basicFrom (inLines : Bool) : Nat → List Char → Reader (List Char)
  | 0, _, _ => none
  | n + 1, done, s =>
    match s with
    | [] => none
    | '"' :: s =>
      if inLines then
        match s with
        | '"' :: '"' :: s => some (done.reverse, s)
        | _ => basicFrom inLines n ('"' :: done) s
      else some (done.reverse, s)
    | '\\' :: s => (escape inLines s).bind fun (cs, s) => basicFrom inLines n (cs.reverse ++ done) s
    | c :: s =>
      if (if inLines then isIllegalInLines c else isIllegal c) then none
      else basicFrom inLines n (c :: done) s

/-- Up to two marks more than three at the end of a string belong to it. -/
def extraMarks (mark : Char) (body : List Char) (s : List Char) : List Char × List Char :=
  match s with
  | a :: b :: rest =>
    if a = mark then if b = mark then (body ++ [mark, mark], rest) else (body ++ [mark], b :: rest)
    else (body, s)
  | [a] => if a = mark then (body ++ [mark], []) else (body, s)
  | [] => (body, s)

def dropFeed : List Char → List Char
  | '\n' :: s => s
  | s => s

def literalLines (done : List Char) : Reader (List Char)
  | [] => none
  | '\'' :: '\'' :: '\'' :: s => some (done.reverse, s)
  | c :: s => if isIllegalInLines c then none else literalLines (c :: done) s

def literalLine (s : List Char) : Option (List Char × List Char) :=
  let body := s.takeWhile (· ≠ '\'')
  match s.dropWhile (· ≠ '\'') with
  | [] => none
  | _ :: rest => if body.any isIllegal then none else some (body, rest)

def stringValue : Reader String := fun s =>
  let made (r : Option (List Char × List Char)) : Option (String × List Char) :=
    r.map fun (body, rest) => (String.ofList body, rest)
  match s with
  | '"' :: '"' :: '"' :: s =>
    made ((basicFrom true (s.length + 1) [] (dropFeed s)).map fun (b, r) => extraMarks '"' b r)
  | '"' :: s => made (basicFrom false (s.length + 1) [] s)
  | '\'' :: '\'' :: '\'' :: s =>
    made ((literalLines [] (dropFeed s)).map fun (b, r) => extraMarks '\'' b r)
  | '\'' :: s => made (literalLine s)
  | _ => none

def isBare (c : Char) : Bool := isUpper c || isLower c || isDigit c || c == '-' || c == '_'

def keyPart : Reader String := fun s =>
  match s with
  | '"' :: r => (basicFrom false (r.length + 1) [] r).map fun (b, r) => (String.ofList b, r)
  | '\'' :: r => (literalLine r).map fun (b, r) => (String.ofList b, r)
  | _ => match s.takeWhile isBare with
    | [] => none
    | body => some (String.ofList body, s.dropWhile isBare)

def keyFrom : Nat → Reader (List String)
  | 0, _ => none
  | n + 1, s => (keyPart s).bind fun (part, s) =>
    match s.dropWhile isSpace with
    | '.' :: s => (keyFrom n (s.dropWhile isSpace)).map fun (parts, s) => (part :: parts, s)
    | s => some ([part], s)

def key : Reader (List String) := fun s => keyFrom (s.length + 1) s

def moreDigits (ok : Char → Bool) : List Char → List Char × List Char
  | '_' :: c :: s =>
    if ok c then
      let more := moreDigits ok s
      (c :: more.1, more.2)
    else ([], '_' :: c :: s)
  | c :: s =>
    if ok c then
      let more := moreDigits ok s
      (c :: more.1, more.2)
    else ([], c :: s)
  | [] => ([], [])

/-- Reads at least one digit; the low lines between digits are left out. -/
def digits (ok : Char → Bool) : Reader (List Char)
  | c :: s =>
    if ok c then
      let more := moreDigits ok s
      some (c :: more.1, more.2)
    else none
  | [] => none

def based (base : Nat) (ok : Char → Bool) (s : List Char) : Option (Value × List Char) :=
  (digits ok s).map fun (ds, rest) => (.integer (numeral base ds), rest)

def signed (negative : Bool) (n : Nat) : Int := if negative then -n else n

def nearestFloat (m : Nat) (e : Int) : Float :=
  let magnitude := ((Nat.toDigits 10 m).length : Int) + e
  if m = 0 || magnitude < -400 then 0
  else if 400 < magnitude then 1 / 0
  else Float.ofScientific m (e < 0) e.natAbs

def sign : List Char → Bool × List Char
  | '-' :: s => (true, s)
  | '+' :: s => (false, s)
  | s => (false, s)

def wholePart : Reader (List Char)
  | '0' :: s => some (['0'], s)
  | s => digits isDigit s

def fraction? : Reader (List Char)
  | '.' :: s => digits isDigit s
  | _ => none

def exponent? : Reader Int
  | c :: s =>
    if c == 'e' || c == 'E' then
      let (negative, s) := sign s
      (digits isDigit s).map fun (ds, s) => (signed negative (numeral 10 ds), s)
    else none
  | [] => none

/-- Reads a whole number or a float. A whole number of too many digits is refused with their
number. -/
def decimal : Reader (Except Nat Value) := fun s =>
  let (negative, s) := sign s
  (wholePart s).map fun (whole, s) =>
    let fraction := fraction? s
    let s := (fraction.map (·.2)).getD s
    let power := exponent? s
    let rest := (power.map (·.2)).getD s
    if fraction.isNone && power.isNone then
      if mostDigits < whole.length then (.error whole.length, rest)
      else (.ok (.integer (signed negative (numeral 10 whole))), rest)
    else
      let places := (fraction.map (·.1)).getD []
      let exponent := (power.map (·.1)).getD 0 - places.length
      let x := nearestFloat (numeral 10 (whole ++ places)) exponent
      (.ok (.float (if negative then -x else x)), rest)

def isHex (c : Char) : Bool := (hexValue? c).isSome

def number : Reader (Except Nat Value) := fun s =>
  let other : Option (Value × List Char) := match s with
    | '0' :: 'x' :: s => based 16 isHex s
    | '0' :: 'b' :: s => based 2 (fun c => c == '0' || c == '1') s
    | '0' :: 'o' :: s => based 8 (fun c => '0' ≤ c && c ≤ '7') s
    | _ => none
  match other with
  | some (v, s) => some (.ok v, s)
  | none => decimal s

def specialFloat : Reader Value := fun s =>
  let (negative, r) := sign s
  match r with
  | 'i' :: 'n' :: 'f' :: s => some (.float (if negative then -(1 / 0) else 1 / 0), s)
  | 'n' :: 'a' :: 'n' :: s => some (.float (0 / 0), s)
  | _ => none

def field (width low high : Nat) : Reader Nat := fun s =>
  let ds := s.take width
  let n := numeral 10 ds
  if ds.length = width && ds.all isDigit && low ≤ n && n ≤ high then some (n, s.drop width)
  else none

def mark (c : Char) : Reader Unit
  | d :: s => if c = d then some ((), s) else none
  | [] => none

/-- Reads parts of a second; from the seventh place on they are dropped. -/
def microseconds (s : List Char) : Nat × List Char :=
  match s with
  | '.' :: r =>
    match r.takeWhile isDigit with
    | [] => (0, s)
    | ds =>
      let kept := ds.take 6
      (numeral 10 (kept ++ List.replicate (6 - kept.length) '0'), r.dropWhile isDigit)
  | _ => (0, s)

def clock : Reader Clock := fun s => do
  let (hour, s) ← field 2 0 23 s
  let (_, s) ← mark ':' s
  let (minute, s) ← field 2 0 59 s
  let (_, s) ← mark ':' s
  let (second, s) ← field 2 0 59 s
  let (microsecond, s) := microseconds s
  some (⟨hour, minute, second, microsecond⟩, s)

def offset : Reader Int := fun s =>
  match s with
  | 'Z' :: s | 'z' :: s => some (0, s)
  | c :: s =>
    if c == '+' || c == '-' then do
      let (hour, s) ← field 2 0 23 s
      let (_, s) ← mark ':' s
      let (minute, s) ← field 2 0 59 s
      let n := ((hour * 60 + minute : Nat) : Int)
      some (if c == '-' then -n else n, s)
    else none
  | [] => none

def daysIn (year month : Nat) : Nat :=
  if month = 2 then
    if year % 4 = 0 && (year % 100 != 0 || year % 400 = 0) then 29 else 28
  else if month = 4 || month = 6 || month = 9 || month = 11 then 30
  else 31

def date : Reader Date := fun s => do
  let (year, s) ← field 4 0 9999 s
  let (_, s) ← mark '-' s
  let (month, s) ← field 2 1 12 s
  let (_, s) ← mark '-' s
  let (day, s) ← field 2 1 31 s
  some (⟨year, month, day⟩, s)

def Date.isReal (d : Date) : Bool := 1 ≤ d.year && d.day ≤ daysIn d.year d.month

def timeBehind (s : List Char) : Option (Clock × List Char) :=
  match s with
  | c :: s => if c == 'T' || c == 't' || c == ' ' then clock s else none
  | [] => none

/-- Reads a date with or without a time, or a time. A date that no calendar has is refused, and
`none` inside says so. -/
def moment : Reader (Option Moment) := fun s =>
  match date s with
  | some (d, s) =>
    let made (m : Moment) : Option Moment := if d.isReal then some m else none
    match timeBehind s with
    | none => some (made (.date d), s)
    | some (c, s) =>
      match offset s with
      | none => some (made (.both d c none), s)
      | some (o, s) => some (made (.both d c (some o)), s)
  | none => (clock s).map fun (c, s) => (some (.clock c), s)

end SignatureLayers.Toml
