import SignatureLayers.Decl.Kind
import SignatureLayers.Text.Quoted

namespace SignatureLayers

inductive SourceFault
  | unbalanced
  | unexpectedEnd
  | danglingAnnot
  | unexpectedToken (head : String)
  | memberOutside (kind : MemberKind) (name : String)
  | lateUse
  | missingEnd (name : String)
deriving DecidableEq, Repr

def SourceFault.message : SourceFault → String
  | .unbalanced => "Unbalanced brackets"
  | .unexpectedEnd => "Unexpected 'end'"
  | .danglingAnnot => "Annotation is not followed by a declaration"
  | .unexpectedToken head => s!"Unexpected token: {Text.Quoted.encode head}"
  | .memberOutside kind name =>
    s!"{kind.label} '{name}' must be declared inside a class, module or interface"
  | .lateUse => "'use' clauses must come before any declaration"
  | .missingEnd name => s!"'{name}' is missing 'end'"

/-- A message with the place it speaks of in front; a text without a file has a name of its own. -/
def located (file : String) (line : Option Int) (message : String) : String :=
  let place := if file.isEmpty then "<string>" else file
  match line with
  | none => s!"{place}: {message}"
  | some n => s!"{place}:{n}: {message}"

structure SourceError where
  fault : SourceFault
  file : String
  line : Nat
deriving DecidableEq, Repr

def SourceError.message (e : SourceError) : String :=
  located e.file (some (e.line : Int)) e.fault.message

end SignatureLayers
