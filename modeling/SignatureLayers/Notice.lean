import SignatureLayers.Decl.Name

namespace SignatureLayers

inductive Notice
  | duplicate (name : QualifiedName)
  | overrideMissing (name : QualifiedName)
  | deleteMissing (name : QualifiedName)
  | anchorMissing (anchor : String) (name : QualifiedName)
  | useRepeated (name : String)
  | variableRepeated (name : QualifiedName)
  | positionKept (name : QualifiedName) (anchor : String)
  | layerMerged (count : Nat) (file : String)
  | fileSkipped (file : String)
deriving DecidableEq, Repr

namespace Notice

def channel : Notice → String
  | .duplicate _ => "rbspatch.engine.indexer"
  | .positionKept .. => "rbspatch.engine.relocation"
  | .layerMerged .. | .fileSkipped _ => "rbspatch.app.core"
  | _ => "rbspatch.engine.merger"

def text : Notice → String
  | .duplicate q => s!"Duplicate declaration '{q.text}'"
  | .overrideMissing q => s!"Override target '{q.text}' not found, dropped"
  | .deleteMissing q => s!"Delete target '{q.text}' not found, ignored"
  | .anchorMissing anchor q => s!"Anchor '{anchor}' for '{q.text}' not found, dropped"
  | .useRepeated name => s!"'{name}' already present"
  | .variableRepeated q => s!"Variable '{q.text}' already declared"
  | .positionKept q anchor =>
    s!"Cannot relocate '{q.text}' relative to '{anchor}', keeping its position"
  | .layerMerged count file =>
    let file := if file.isEmpty then "<string>" else file
    s!"Merging {count} declarations from {file}"
  | .fileSkipped file => s!"Skipping already applied file {file}"

def line (n : Notice) : String := s!"{n.channel}: {n.text}"

end Notice
end SignatureLayers
