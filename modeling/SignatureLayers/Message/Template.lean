import SignatureLayers.Message.Part

namespace SignatureLayers

namespace Message

open Text (CodePoint)

def position? (s : List Char) : Except MessageFault (Option Nat) :=
  match Layout.numeral? s with
  | .ok (some n, []) => .ok (some n)
  | .ok _ => .ok none
  | .error e => .error e

inductive Access
  | attribute (name : List Char)
  | element (name : List Char)
  /-- The rest is not well formed. -/
  | broken
deriving DecidableEq, Repr

def accesses : Nat → List Char → List Access
  | 0, _ => []
  | _ + 1, [] => []
  | n + 1, '.' :: s =>
    let isEnd (c : Char) : Bool := c = '.' || c = '['
    match s.takeWhile (!isEnd ·), s.dropWhile (!isEnd ·) with
    | [], _ => [.broken]
    | name, rest => .attribute name :: accesses n rest
  | n + 1, '[' :: s =>
    match s.takeWhile (· ≠ ']'), s.dropWhile (· ≠ ']') with
    | _, [] | [], _ => [.broken]
    | name, _ :: rest => .element name :: accesses n rest
  | _ + 1, _ :: _ => [.broken]

def access (p : Part) : Access → Except MessageFault Part
  | .broken => .error .malformed
  | .attribute name =>
    match p.attribute? (String.ofList name) with
    | some p => .ok p
    | none => .error .unknownAttribute
  | .element name => do
    match ← position? name with
    | some n => p.element (.number n)
    | none => p.element (.text (String.ofList name))

/-- The parameter or part of one that the name of a field stands for. No parameter goes by a
position. -/
def find (ps : Parameters) (field : List Char) : Except MessageFault Part := do
  let isEnd (c : Char) : Bool := c = '.' || c = '['
  let name := field.takeWhile (!isEnd ·)
  if name.isEmpty || (← position? name).isSome then .error .unknownPosition
  else
    match ps.lookup (String.ofList name) with
    | none => .error .unknownName
    | some p => (accesses field.length (field.dropWhile (!isEnd ·))).foldlM access (.parameter p)

inductive Piece
  | literal (c : Char)
  | field (name : List Char) (conversion : Option Char) (layout : List Char)
  /-- The rest is not well formed. -/
  | broken
deriving DecidableEq, Repr

def fieldName : List Char → List Char × List Char
  | [] => ([], [])
  | '[' :: s =>
    let (name, rest) := inBracket s
    ('[' :: name, rest)
  | c :: s =>
    if c = '\x7d' || c = ':' || c = '!' || c = '\x7b' then ([], c :: s)
    else
      let (name, rest) := fieldName s
      (c :: name, rest)
where
  /-- The same inside brackets. -/
  inBracket : List Char → List Char × List Char
    | [] => ([], [])
    | c :: s =>
      let (name, rest) := if c = ']' then fieldName s else inBracket s
      (c :: name, rest)

def layoutText (depth : Nat) : List Char → Option (List Char × List Char)
  | [] => none
  | c :: s =>
    if c = '\x7d' then
      match depth with
      | 0 => some ([], s)
      | depth + 1 => (layoutText depth s).map fun (l, rest) => (c :: l, rest)
    else
      (layoutText (if c = '\x7b' then depth + 1 else depth) s).map fun (l, rest) => (c :: l, rest)

def field? (s : List Char) : Option (Piece × List Char) :=
  let (name, rest) := fieldName s
  match rest with
  | '\x7d' :: rest => some (.field name none [], rest)
  | ':' :: rest => (layoutText 0 rest).map fun (l, rest) => (.field name none l, rest)
  | '!' :: c :: '\x7d' :: rest => some (.field name (some c) [], rest)
  | '!' :: c :: ':' :: rest =>
    (layoutText 0 rest).map fun (l, rest) => (.field name (some c) l, rest)
  | _ => none

/-- The pieces of a template; a brace that is written twice stands for itself. -/
def pieces : Nat → List Char → List Piece
  | 0, _ => []
  | _ + 1, [] => []
  | n + 1, '\x7b' :: '\x7b' :: s => .literal '\x7b' :: pieces n s
  | n + 1, '\x7d' :: '\x7d' :: s => .literal '\x7d' :: pieces n s
  | _ + 1, '\x7d' :: _ => [.broken]
  | n + 1, '\x7b' :: s =>
    match field? s with
    | some (f, rest) => f :: pieces n rest
    | none => [.broken]
  | n + 1, c :: s => .literal c :: pieces n s

/-- Fills the fields of a template in order. Layouts are templates themselves if they have braces,
nested no deeper than `depth`. -/
def fill (ps : Parameters) : Nat → List Char → Except MessageFault (List CodePoint)
  | 0, _ => .error .malformed
  | depth + 1, template =>
    let one (piece : Piece) : Except MessageFault (List CodePoint) :=
      match piece with
      | .literal c => .ok [.ofChar c]
      | .broken => .error .malformed
      | .field name conversion layout => do
        let p ← find ps name
        let p ← match conversion with
          | none => .ok p
          | some mark => match p.convert? mark with
            | some p => .ok p
            | none => .error .malformed
        let layout ← if layout.contains '\x7b' then fill ps depth layout
          else .ok (layout.map .ofChar)
        p.laidOut layout
    ((pieces template.length template).mapM one).map List.flatten

def format (template : String) (ps : Parameters) : Except MessageFault (List CodePoint) :=
  fill ps 2 template.toList

end Message
end SignatureLayers
