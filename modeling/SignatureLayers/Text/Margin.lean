

namespace SignatureLayers.Text

def isMargin (c : Char) : Bool := c = ' ' || c = '\t'

def commonLead : List Char → List Char → List Char
  | a :: s, b :: t => if a = b then a :: commonLead s t else []
  | _, _ => []

def margin (lines : List (List Char)) : List Char :=
  match (lines.filter fun l => l.any (!isMargin ·)).map (·.takeWhile isMargin) with
  | [] => []
  | first :: rest => rest.foldl commonLead first

/-- A line without the margin; a line of blanks and tabs alone is left empty. -/
def withoutMargin (width : Nat) (line : List Char) : List Char :=
  if line.all isMargin then [] else line.drop width

/-- A text moved to the left until some line has no margin. -/
def flushLeft (s : String) : String :=
  let lines := (s.splitOn "\n").map String.toList
  let width := (margin lines).length
  String.intercalate "\n" (lines.map fun l => String.ofList (withoutMargin width l))

end SignatureLayers.Text
