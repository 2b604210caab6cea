import SignatureLayers.Config
import SignatureLayers.Text.Margin
import SignatureLayers.Toml.Printer

namespace SignatureLayers

/-- What a project shall hold: its settings, its name, and its signature files in the order in
which they are written. -/
structure Fixture where
  settings : Option Toml.Table := none
  name : Option String := none
  signatures : List (Path × String) := []

namespace Fixture

def document (f : Fixture) : Toml.Table :=
  (f.settings.map fun t => ("tool", .table [("rbs-patch", .table t)])).toList ++
    (f.name.map fun n => ("project", .table [("name", .string n)])).toList

def writeText (s : Store) (p : Path) (text : String) : Except StoreFault Store :=
  s.write p text.toUTF8

/-- Writes the signature files, each without the margin of its text. -/
def writeSignatures (s : Store) (root : Path) : List (Path × String) → Except StoreFault Store
  | [] => .ok s
  | (path, text) :: rest => do
    let target := root.join path
    let s ← s.ensureDirectories target.parent
    let s ← writeText s target (Text.flushLeft text)
    writeSignatures s root rest

def build (f : Fixture) (s : Store) (root : Path) : Except StoreFault Store := do
  let s ← if f.document.isEmpty then .ok s
    else writeText s (root.child Config.fileName) (Toml.Table.print f.document)
  writeSignatures s root f.signatures

end Fixture
end SignatureLayers
