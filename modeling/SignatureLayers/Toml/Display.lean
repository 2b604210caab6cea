import SignatureLayers.Number.Shortest
import SignatureLayers.Text.Quoted
import SignatureLayers.Toml.Value

namespace SignatureLayers.Toml

def padded (width n : Nat) : String :=
  let digits := Nat.toDigits 10 n
  String.ofList (List.replicate (width - digits.length) '0' ++ digits)

namespace Date

def text (d : Date) : String := s!"{padded 4 d.year}-{padded 2 d.month}-{padded 2 d.day}"

def fields (d : Date) : List Nat := [d.year, d.month, d.day]

end Date

namespace Clock

def text (c : Clock) : String :=
  s!"{padded 2 c.hour}:{padded 2 c.minute}:{padded 2 c.second}" ++
    (if c.microsecond = 0 then "" else "." ++ padded 6 c.microsecond)

def fields (c : Clock) : List Nat :=
  [c.hour, c.minute] ++
    if c.microsecond != 0 then [c.second, c.microsecond]
    else if c.second != 0 then [c.second]
    else []

end Clock

def offsetText (minutes : Int) : String :=
  let n := minutes.natAbs
  (if minutes < 0 then "-" else "+") ++ padded 2 (n / 60) ++ ":" ++ padded 2 (n % 60)

/-- An offset as the days and seconds that make it up, no seconds below zero. -/
def offsetDisplay (minutes : Int) : String :=
  if minutes = 0 then "datetime.timezone.utc"
  else if 0 < minutes then s!"datetime.timezone(datetime.timedelta(seconds={minutes * 60}))"
  else
    let seconds := minutes * 60 + 86400
    let seconds := if seconds = 0 then "" else s!", seconds={seconds}"
    s!"datetime.timezone(datetime.timedelta(days=-1{seconds}))"

namespace Moment

def text : Moment → String
  | date d => d.text
  | clock c => c.text
  | both d c offset => d.text ++ " " ++ c.text ++ (offset.map offsetText).getD ""

def call (name : String) (fields : List String) : String :=
  "datetime." ++ name ++ "(" ++ String.intercalate ", " fields ++ ")"

def display : Moment → String
  | date d => call "date" (d.fields.map toString)
  | clock c => call "time" (c.fields.map toString)
  | both d c offset =>
    call "datetime" ((d.fields ++ c.fields).map toString ++
      (offset.map fun o => "tzinfo=" ++ offsetDisplay o).toList)

end Moment

namespace Value

mutual

def display : Value → String
  | string s => Text.Quoted.encode s
  | integer n => toString n
  | float x => Number.floatText x
  | boolean b => if b then "True" else "False"
  | moment m => m.display
  | array items => "[" ++ String.intercalate ", " (displayItems items) ++ "]"
  | table entries => "\x7b" ++ String.intercalate ", " (displayEntries entries) ++ "\x7d"

def displayItems : List Value → List String
  | [] => []
  | v :: rest => display v :: displayItems rest

def displayEntries : List (String × Value) → List String
  | [] => []
  | (k, v) :: rest => (Text.Quoted.encode k ++ ": " ++ display v) :: displayEntries rest

end

/-- Texts stand for themselves, and moments are written as in a calendar. -/
def text : Value → String
  | string s => s
  | moment m => m.text
  | v => v.display

end Value
end SignatureLayers.Toml
