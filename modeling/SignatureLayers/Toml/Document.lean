import SignatureLayers.Toml.Scalar

namespace SignatureLayers.Toml

inductive Fault
  | malformed
  /-- A whole number has so many digits. -/
  | tooManyDigits (count : Nat)
deriving DecidableEq, Repr

abbrev Scan (α : Type) := List Char → Except Fault (α × List Char)

def demand {α : Type} : Option α → Except Fault α
  | some a => .ok a
  | none => .error .malformed

def comment (s : List Char) : Option (List Char) :=
  match s with
  | '#' :: r =>
    if (r.takeWhile (· ≠ '\n')).any isIllegal then none else some (r.dropWhile (· ≠ '\n'))
  | _ => some s

def filler : Nat → List Char → Option (List Char)
  | 0, s => some s
  | n + 1, s =>
    match s.dropWhile isSpaceOrFeed with
    | '#' :: r => (comment ('#' :: r)).bind (filler n)
    | s => some s

def skipFiller (s : List Char) : Option (List Char) := filler (s.length + 1) s

def arrayFrom (item : Scan Value) : Nat → List Value → Scan Value
  | 0, _, _ => .error .malformed
  | n + 1, done, s =>
    match s with
    | ']' :: s => .ok (.array done, s)
    | _ => do
      let (v, s) ← item s
      match ← demand (skipFiller s) with
      | ']' :: s => .ok (.array (done ++ [v]), s)
      | ',' :: s => arrayFrom item n (done ++ [v]) (← demand (skipFiller s))
      | _ => .error .malformed

def keyAndValue (item : Scan Value) : Scan (List String × Value) := fun s => do
  let (k, s) ← demand (key s)
  let (_, s) ← demand (mark '=' s)
  let (v, s) ← item (s.dropWhile isSpace)
  return ((k, v), s)

def isNest : Value → Bool
  | .array _ | .table _ => true
  | _ => false

/-- Reads the entries of a table within braces. What stands behind a key of `closed` is complete. -/
def inlineFrom (item : Scan Value) : Nat → List (List String) → Table → Scan Value
  | 0, _, _, _ => .error .malformed
  | n + 1, closed, t, s => do
    let ((k, v), s) ← keyAndValue item s
    if closed.any (·.isPrefixOf k) then .error .malformed
    else
      let t ← demand (Table.within false (Table.add? (k.getLast?.getD "") v) k.dropLast t)
      match s.dropWhile isSpace with
      | '\x7d' :: s => .ok (.table t, s)
      | ',' :: s =>
        inlineFrom item n (if isNest v then k :: closed else closed) t (s.dropWhile isSpace)
      | _ => .error .malformed

def inlineTable (item : Scan Value) : Scan Value := fun s =>
  match s.dropWhile isSpace with
  | '\x7d' :: s => .ok (.table [], s)
  | s => inlineFrom item (s.length + 1) [] [] s

/-- Reads what is no string, truth value or nest: a date or time, else a number. -/
def plainValue : Scan Value := fun s =>
  match moment s with
  | some (some m, s) => .ok (.moment m, s)
  | some (none, _) => .error .malformed
  | none =>
    match number s with
    | some (.ok v, s) => .ok (v, s)
    | some (.error count, _) => .error (.tooManyDigits count)
    | none => demand (specialFloat s)

def value : Nat → Scan Value
  | 0, _ => .error .malformed
  | depth + 1, s =>
    match s with
    | '"' :: _ | '\'' :: _ => demand ((stringValue s).map fun (v, s) => (.string v, s))
    | 't' :: 'r' :: 'u' :: 'e' :: s => .ok (.boolean true, s)
    | 'f' :: 'a' :: 'l' :: 's' :: 'e' :: s => .ok (.boolean false, s)
    | '[' :: s => do
      let s ← demand (skipFiller s)
      arrayFrom (value depth) (s.length + 1) [] s
    | '\x7b' :: s => inlineTable (value depth) s
    | _ => plainValue s

/-- What is known of a key: its table has been declared, or all behind it is complete. -/
inductive Mark
  | declared (key : List String)
  | complete (key : List String)
deriving DecidableEq

def Mark.key : Mark → List String
  | .declared k => k
  | .complete k => k

structure Document where
  root : Table := []
  marks : List Mark := []
  /-- Tables opened by dotted keys, which no later header may declare. -/
  pending : List (List String) := []
  header : List String := []

namespace Document

def isDeclared (d : Document) (k : List String) : Bool := d.marks.any (· == .declared k)

def isComplete (d : Document) (k : List String) : Bool :=
  d.marks.any fun
    | .complete c => c.isPrefixOf k
    | _ => false

/-- Begins a section: what dotted keys have opened counts as declared from here on. -/
def settle (d : Document) : Document :=
  { d with marks := d.pending.map .declared ++ d.marks, pending := [] }

def openTable (d : Document) (k : List String) : Option Document :=
  if d.isDeclared k || d.isComplete k then none
  else (Table.within true some k d.root).map fun root =>
    { d with root, marks := .declared k :: d.marks, header := k }

def appendTo (name : String) (t : Table) : Option Table :=
  match t.lookup name with
  | none => some (t ++ [(name, .array [.table []])])
  | some (.array items) => some (Table.set name (.array (items ++ [.table []])) t)
  | some _ => none

def openElement (d : Document) (k : List String) : Option Document :=
  if d.isComplete k then none
  else (Table.within true (appendTo (k.getLast?.getD "")) k.dropLast d.root).map fun root =>
    { d with
      root
      marks := .declared k :: d.marks.filter (fun m => !k.isPrefixOf m.key)
      header := k }

def assign (d : Document) (k : List String) (v : Value) : Option Document :=
  let dotted := (List.range k.length).tail.map fun n => d.header ++ k.take n
  let place := d.header ++ k.dropLast
  if dotted.any d.isDeclared || d.isComplete place then none
  else (Table.within true (Table.add? (k.getLast?.getD "") v) place d.root).map fun root =>
    { d with
      root
      marks := if isNest v then .complete (d.header ++ k) :: d.marks else d.marks
      pending := dotted ++ d.pending }

def statement (d : Document) : Scan Document := fun s =>
  match s with
  | '[' :: '[' :: s => do
    let (k, s) ← demand (key (s.dropWhile isSpace))
    let (_, s) ← demand (mark ']' s)
    let (_, s) ← demand (mark ']' s)
    return (← demand (d.settle.openElement k), s)
  | '[' :: s => do
    let (k, s) ← demand (key (s.dropWhile isSpace))
    let (_, s) ← demand (mark ']' s)
    return (← demand (d.settle.openTable k), s)
  | '#' :: _ => .ok (d, s)
  | _ => do
    let ((k, v), s) ← keyAndValue (value (s.length + 1)) s
    return (← demand (d.assign k v), s)

def statements : Nat → Document → List Char → Except Fault Document
  | 0, _, _ => .error .malformed
  | n + 1, d, s =>
    match s.dropWhile isSpace with
    | [] => .ok d
    | '\n' :: s => statements n d s
    | s => do
      let (d, s) ← d.statement s
      match ← demand (comment (s.dropWhile isSpace)) with
      | [] => .ok d
      | '\n' :: s => statements n d s
      | _ => .error .malformed

end Document

def joinBreaks : List Char → List Char
  | '\r' :: '\n' :: rest => '\n' :: joinBreaks rest
  | c :: rest => c :: joinBreaks rest
  | [] => []

/-- The table that a document describes. -/
def read (source : String) : Except Fault Table :=
  let s := joinBreaks source.toList
  (Document.statements (s.length + 1) {} s).map Document.root

end SignatureLayers.Toml
