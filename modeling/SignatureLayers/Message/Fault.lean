import SignatureLayers.Store.Tree

namespace SignatureLayers

inductive MessageFault
  /-- The template, or the layout of a field, is not well formed. -/
  | malformed
  | unknownName
  /-- No parameter has this position. -/
  | unknownPosition
  /-- A number has no elements, and a text has none with a name. -/
  | noElements
  | unknownAttribute
  /-- Only texts and numbers have layouts. -/
  | noLayout
  | tooLarge
  /-- There is no room for a text as long as the layout asks for. -/
  | noRoom
  /-- A parameter has a name that messages use themselves. -/
  | reservedName
  /-- The templates of a language can not be looked for. -/
  | language (e : StoreFault)
deriving DecidableEq, Repr

end SignatureLayers
