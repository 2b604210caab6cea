import SignatureLayers.Text.Quoted
import SignatureLayers.Toml.Display

namespace SignatureLayers.Toml

def encodeChar (c : Char) : List Char :=
  match c with
  | '"' => ['\\', '"']
  | '\\' => ['\\', '\\']
  | '\n' => ['\\', 'n']
  | '\r' => ['\\', 'r']
  | '\t' => ['\t']
  | c =>
    if c.toNat = 8 then ['\\', 'b']
    else if c.toNat = 12 then ['\\', 'f']
    else if c.toNat < 32 || c.toNat = 127 then '\\' :: 'u' :: Text.Quoted.hex 4 c.toNat
    else [c]

def quote (s : String) : String := String.ofList ('"' :: s.toList.flatMap encodeChar ++ ['"'])

def keyText (k : String) : String :=
  let isBare (c : Char) : Bool := c.isAlphanum || c = '-' || c = '_'
  if !k.isEmpty && k.toList.all isBare then k else quote k

def margin (depth : Nat) : String := String.ofList (List.replicate (4 * depth) ' ')

namespace Value

mutual

/-- A value behind its key, inside `depth` arrays: an element of an array has a line of its own,
a table stands between braces. -/
def written (depth : Nat) : Value → String
  | string s => quote s
  | boolean b => if b then "true" else "false"
  | integer n => toString n
  | float x => Number.floatText x
  | moment m => m.text
  | array [] => "[]"
  | array (v :: rest) =>
    "[\n" ++ String.join (writtenItems (depth + 1) (v :: rest)) ++ margin depth ++ "]"
  | table [] => "\x7b\x7d"
  | table (e :: rest) =>
    "\x7b " ++ String.intercalate ", " (writtenEntries (e :: rest)) ++ " \x7d"

def writtenItems (depth : Nat) : List Value → List String
  | [] => []
  | v :: rest => (margin depth ++ written depth v ++ ",\n") :: writtenItems depth rest

def writtenEntries : List (String × Value) → List String
  | [] => []
  | (k, v) :: rest => (keyText k ++ " = " ++ written 0 v) :: writtenEntries rest

end

/-- Whether a table fits on a line of an array. -/
def isShort (v : Value) : Bool :=
  let line := margin 1 ++ v.written 0 ++ ","
  line.length ≤ 100 && !line.toList.contains '\n'

def isTable : Value → Bool
  | table _ => true
  | _ => false

/-- Whether a value is written as sections: a table, or an array of tables too long for a line. -/
def isSection : Value → Bool
  | table _ => true
  | array items => !items.isEmpty && items.all isTable && !items.all isShort
  | _ => false

end Value

namespace Table

/-- A section: its header, its values, and the sections below it, blank lines between them. The
header is left out where a section below makes the table known. -/
def written (name : String) (isElement : Bool) (t : Table) (below : List String) : String :=
  let values := t.filter (!·.2.isSection)
  let header :=
    if isElement then s!"[[{name}]]\n"
    else if !name.isEmpty && (!values.isEmpty || below.isEmpty) then s!"[{name}]\n"
    else ""
  let lines := values.map fun (k, v) => keyText k ++ " = " ++ v.written 0 ++ "\n"
  let own := header ++ String.join lines
  String.intercalate "\n" (if own.isEmpty then below else own :: below)

def sectionName (above key : String) : String :=
  if above.isEmpty then keyText key else above ++ "." ++ keyText key

mutual

def sections (name : String) : List (String × Value) → List String
  | [] => []
  | (k, .table t) :: rest =>
    let below := sectionName name k
    written below false t (sections below t) :: sections name rest
  | (k, .array items) :: rest =>
    let here := elementSections (sectionName name k) items
    (if (Value.array items).isSection then here else []) ++ sections name rest
  | _ :: rest => sections name rest

def elementSections (name : String) : List Value → List String
  | [] => []
  | .table t :: rest => written name true t (sections name t) :: elementSections name rest
  | _ :: rest => elementSections name rest

end

def print (t : Table) : String := written "" false t (sections "" t)

end Table
end SignatureLayers.Toml
