

namespace SignatureLayers

/-- Two ids are equal when their segments are; a segment may itself hold a dot. -/
structure MessageId where
  segments : List String
deriving DecidableEq, Repr, Inhabited

namespace MessageId

def root : MessageId := ⟨[]⟩

/-- The id one segment below; a segment that begins with a low line is no part of an id. -/
def child? (m : MessageId) (segment : String) : Option MessageId :=
  if segment.startsWith "_" then none else some ⟨m.segments ++ [segment]⟩

def ofPath? (segments : List String) : Option MessageId := segments.foldlM child? root

def text (m : MessageId) : String := String.intercalate "." m.segments

def display (m : MessageId) : String := s!"<SemanticPointer: '{m.text}'>"

end MessageId
end SignatureLayers
