

namespace SignatureLayers

/-- What tells a declaration from its siblings. Members and declarations of one name differ. -/
structure Key where
  name : String
  member : Bool
deriving DecidableEq, Repr, Inhabited

/-- The containers around a declaration, outermost first, and its key. The segments are kept
apart, since a segment may itself hold the separator. -/
structure QualifiedName where
  scope : List String
  key : Key
deriving DecidableEq, Repr, Inhabited

namespace QualifiedName

def path (q : QualifiedName) : List String := q.scope ++ [q.key.name]

/-- The segments joined by `::`, with `#` before the name of a member. -/
def text (q : QualifiedName) : String :=
  match String.intercalate "::" q.scope with
  | "" => q.key.name
  | scope => scope ++ (if q.key.member then "#" else "::") ++ q.key.name

/-- The name of what `q` owns under `key`; a member owns nothing. -/
def child? (q : QualifiedName) (key : Key) : Option QualifiedName :=
  if q.key.member then none else some ⟨q.path, key⟩

def isWithin (q : QualifiedName) (path : List String) : Bool := path.isPrefixOf q.scope

def childless (q : QualifiedName) : String := s!"Member '{q.text}' cannot own children"

end QualifiedName
end SignatureLayers
