import SignatureLayers.Command.Merge

namespace SignatureLayers.Command

structure Console where
  catalog : Catalog := {}
  /-- Notices and the messages for debugging are shown, too. -/
  verbose : Bool := false
  /-- Messages are shown with their control sequences. -/
  color : Bool := false
  /-- The result is, too. -/
  colorResult : Bool := color
  /-- Messages are not shown at all. -/
  mute : Bool := false

/-- What a command leaves: how far it was run, what it has printed, and what was told on the way. -/
structure Outcome where
  run : Run
  output : String
  messages : String

namespace Console

def escapeChar : Char := Char.ofNat 27

def control (code : String) : String := escapeChar.toString ++ "[" ++ code ++ "m"

def colorCode? : Level → Option String
  | .debug => some "90"
  | .success => some "32"
  | .warning => some "33"
  | .error => some "31"
  | .info => none

def styled (level : Level) (text : String) : String :=
  ((colorCode? level).map control).getD "" ++ text ++ control "0"

def isParameter (c : Char) : Bool := c.isDigit || c = ';' || c = '?'

/-- What follows a control sequence whose opening bracket stands in front. -/
def afterControl? (s : List Char) : Option (List Char) :=
  match s.dropWhile isParameter with
  | c :: rest => if c.isAlpha then some rest else none
  | [] => none

def plainFrom : Nat → List Char → List Char
  | 0, s => s
  | _ + 1, [] => []
  | n + 1, c :: s =>
    if c = escapeChar && s.head? == some '[' then
      match afterControl? s.tail with
      | some rest => plainFrom n rest
      | none => c :: plainFrom n s
    else c :: plainFrom n s

def plain (s : String) : String := String.ofList (plainFrom s.length s.toList)

/-- A text as the terminal takes it. -/
def shown (c : Console) (s : String) : String := if c.color then s else plain s

/-- A result as the standard output takes it. -/
def emitted (c : Console) (s : String) : String := if c.colorResult then s else plain s

/-- The words of a message, for which an apology stands in where there are none or they are no
text. -/
def words (c : Console) (m : Message) : String :=
  match m.words c.catalog with
  | .ok text => (Text.CodePoint.toString? text).getD m.apology
  | .error _ => m.apology

def fault? (c : Console) : Event → Option MessageFault
  | .noticed _ => none
  | .sent m =>
    if c.mute then none
    else match m.words c.catalog with
      | .ok _ => none
      | .error e => some e

/-- A run as far as it can be told. All messages are looked up in the same languages, so an event
that can not be told is the first message, and nothing is written before that one. -/
def follow (c : Console) (s : Store) (r : Run) : Run :=
  match r.events.findSome? c.fault? with
  | none => r
  | some e =>
    { store := s
      events := r.events.takeWhile fun event => (c.fault? event).isNone
      ending := .broken (.message e) }

def isShown (c : Console) (m : Message) : Bool := !c.mute && (c.verbose || m.level != .debug)

def line (c : Console) : Event → String
  | .noticed n => if c.verbose then s!"DEBUG {n.line}\n" else ""
  | .sent m => if c.isShown m then c.shown (styled m.level (c.words m)) ++ "\n" else ""

def lines (c : Console) (events : List Event) : String := String.join (events.map c.line)

def outcome (c : Console) (s : Store) (r : Run) : Outcome :=
  let run := c.follow s r
  { run, output := c.emitted run.printed, messages := c.lines run.events }

end Console
end SignatureLayers.Command
