import SignatureLayers.Message.Catalog
import SignatureLayers.Message.Id

namespace SignatureLayers

inductive Level
  | debug
  | info
  | success
  | warning
  | error
deriving DecidableEq, Repr, Inhabited

namespace Level

def label : Level → String
  | debug => "debug"
  | info => "info"
  | success => "success"
  | warning => "warning"
  | error => "error"

def ofLabel? (s : String) : Option Level :=
  [debug, info, success, warning, error].find? (·.label == s)

theorem ofLabel?_label (l : Level) : ofLabel? l.label = some l := by
  cases l <;> decide

end Level

open Text (CodePoint)

structure Message where
  level : Level
  id : String
  parameters : Parameters := []
deriving DecidableEq, Repr, Inhabited

namespace Message

/-- Names that a message has for its own parts. -/
def reservedNames : List String := ["self", "level", "msg_id"]

def isReserved (m : Message) : Bool := m.parameters.any fun p => reservedNames.contains p.1

/-- What is shown of a message whose parameters do not fit its template. -/
def apology (m : Message) : String := s!"<formatting_error for '{m.id}'>"

/-- The words of a message. A parameter that is missing does not stop it. -/
def words (m : Message) (c : Catalog) : Except MessageFault (List CodePoint) :=
  match c.template m.id none with
  | .error e => .error (.language e)
  | .ok template =>
    match format template m.parameters with
    | .error .unknownName => .ok (CodePoint.ofString m.apology)
    | r => r

end Message

/-- A bus hands messages on, if somebody listens. -/
structure Bus where
  catalog : Catalog := {}
  isHeard : Bool := false

namespace Bus

def send (b : Bus) (m : Message) : Except MessageFault (List (Level × List CodePoint)) :=
  if m.isReserved then .error .reservedName
  else if b.isHeard then (m.words b.catalog).map fun t => [(m.level, t)]
  else .ok []

end Bus

structure Recorder where
  messages : List Message := []

namespace Recorder

def send (r : Recorder) (m : Message) : Except MessageFault Recorder :=
  if m.isReserved then .error .reservedName else .ok ⟨r.messages ++ [m]⟩

def has (r : Recorder) (id : String) (level : Option String) : Bool :=
  r.messages.any fun m => m.id == id && level.all (· == m.level.label)

/-- What is to be said when an id was not sent. -/
def complaint? (r : Recorder) (id : String) (level : Option String) : Option String :=
  if r.has id level then none
  else
    let ids := Text.Quoted.encodeList (r.messages.map Message.id)
    some s!"Message with ID '{id}' was not sent.\nCaptured IDs: {ids}"

end Recorder
end SignatureLayers
