import SignatureLayers.Store.Tree
import SignatureLayers.Toml.Display
import SignatureLayers.Toml.Document

namespace SignatureLayers

inductive ConfigFault
  /-- The project file can not be looked for or read. -/
  | store (e : StoreFault)
  | undecodable
  | document (e : Toml.Fault)
  /-- A value has a whole number with too many digits to be written. -/
  | unwritable
  /-- The section, or what it stands in, is no table. -/
  | notTable
  /-- A list of values is wanted. -/
  | notList
deriving DecidableEq, Repr

/-- Values are kept as they are written; those that can not be used are refused where they are. -/
structure Config where
  patchPaths : List String := []
  output : Option Toml.Value := none
  suffixes : List Toml.Value := [.string ".rbs"]
  syncStandIns : Bool := false
  /-- The directory of the project file. -/
  root : Option Path := none

namespace Config

def fileName : String := "pyproject.toml"

/-- The first directory that holds a project file, from one with the given names up to the root,
the names being those of the directory and of the ones above it in turn. -/
def find (s : Store) (anchor : String) : List String → Except StoreFault (Option Path)
  | [] => do return if ← s.isFile ⟨anchor, [fileName]⟩ then some ⟨anchor, []⟩ else none
  | name :: above => do
    let dir : Path := ⟨anchor, (name :: above).reverse⟩
    if ← s.isFile (dir.child fileName) then return some dir else find s anchor above

def home (s : Store) (search : Path) : Except StoreFault (Option Path) :=
  let start := s.cwd.resolve search
  if search.fault? = some .unnameable then .error .unnameable
  else find s start.anchor start.parts.reverse

def subtable? (name : String) : Toml.Value → Except ConfigFault Toml.Value
  | .table entries => .ok ((entries.lookup name).getD (.table []))
  | _ => .error .notTable

/-- The elements of a list. A text has its characters for elements, and a table its keys. -/
def elements : Toml.Value → Except ConfigFault (List Toml.Value)
  | .array items => .ok items
  | .string s => .ok (s.toList.map fun c => .string c.toString)
  | .table entries => .ok (entries.map fun e => .string e.1)
  | _ => .error .notList

def written (v : Toml.Value) : Except ConfigFault String :=
  if v.isWritable then .ok v.text else .error .unwritable

def ofSection (root : Path) : Toml.Value → Except ConfigFault Config
  | .table entries => do
    let patchPaths ← (entries.lookup "patch_paths").mapM elements
    let patchPaths ← (patchPaths.getD []).mapM written
    let suffixes ← (entries.lookup "suffixes").mapM elements
    return {
      patchPaths
      output := entries.lookup "output"
      suffixes := suffixes.getD [.string ".rbs"]
      syncStandIns := (entries.lookup "sync_stand_ins").any Toml.Value.isTrue
      root }
  | _ => .error .notTable

def ofBytes (root : Path) (bytes : ByteArray) : Except ConfigFault Config :=
  match String.fromUTF8? bytes with
  | none => .error .undecodable
  | some source =>
    match Toml.read source with
    | .error e => .error (.document e)
    | .ok document =>
      subtable? "tool" (.table document) >>= subtable? "rbs-patch" >>= ofSection root

/-- The settings of the project that a path belongs to; without one, the usual settings. -/
def load (s : Store) (search : Path) : Except ConfigFault Config :=
  match home s search with
  | .error e => .error (.store e)
  | .ok none => .ok {}
  | .ok (some home) =>
    match s.read (home.child fileName) with
    | .error e => .error (.store e)
    | .ok bytes => ofBytes home bytes

/-- A path of the settings, as seen from the project's directory. -/
def resolve (c : Config) (path : String) : Path :=
  let p := Path.ofText path
  match c.root with
  | none => p
  | some root => root.join p

/-- The suffixes that are texts: no other value is equal to one of a file. -/
def suffixTexts (c : Config) : List String :=
  c.suffixes.filterMap fun
    | .string s => some s
    | _ => none

end Config
end SignatureLayers
