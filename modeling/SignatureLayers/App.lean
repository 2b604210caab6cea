import SignatureLayers.Grammar.Nesting
import SignatureLayers.Merge.Layer
import SignatureLayers.Printer
import SignatureLayers.Store.Walk
import SignatureLayers.Text.Decoded

namespace SignatureLayers

inductive ApplyFault
  | ambiguous
  | missing (path : Path)
  | undecodable
  | source (e : SourceError)
  | edit (e : EditFault)
  | store (e : StoreFault)
deriving DecidableEq, Repr

def missingMessage (path : Path) : String := s!"No such file or directory: '{path.text}'"

def ApplyFault.message? : ApplyFault → Option String
  | .ambiguous => some "apply() takes either source text or path=, not both"
  | .missing path => some (missingMessage path)
  | .source e => some e.message
  | .edit e => e.message?
  | _ => none

structure App where
  engine : Engine := {}
  /-- The files that have been merged. -/
  seen : List Path := []
  suffixes : List String := [".rbs"]
deriving Repr

namespace App

def ofSettings (suffixes : List String) (syncStandIns : Bool) : App where
  engine := { syncStandIns }
  suffixes

def note (a : App) (n : Notice) : App :=
  { a with engine := { a.engine with log := a.engine.log ++ [n] } }

/-- Merges a text as one layer. A text that is refused leaves everything as it is. -/
def applyText (a : App) (file source : String) : Option ApplyFault × App :=
  match parse file source with
  | .error e => (some (.source e), a)
  | .ok layer =>
    let a := a.note (.layerMerged layer.length file)
    let (fault, engine) := a.engine.mergeLayer layer
    (fault.map .edit, { a with engine })

theorem applyText_of_error {a : App} {file source : String} {e : SourceError}
    (h : parse file source = .error e) : a.applyText file source = (some (.source e), a) := by
  rw [applyText, h]

theorem applyText_of_ok {a : App} {file source : String} {layer : Forest}
    (h : parse file source = .ok layer) :
    let noted := a.note (.layerMerged layer.length file)
    let merging := noted.engine.mergeLayer layer
    a.applyText file source = (merging.1.map .edit, { noted with engine := merging.2 }) := by
  rw [applyText, h]

def applyFile (a : App) (s : Store) (path : Path) : Option ApplyFault × App :=
  match s.read path with
  | .error e => (some (.store e), a)
  | .ok bytes =>
    match Text.decode? bytes with
    | none => (some .undecodable, a)
    | some source =>
      match a.applyText path.text source with
      | (none, a) => (none, { a with seen := s.cwd.resolve path :: a.seen })
      | r => r

/-- Merges files in order up to the first that fails; `done` are those merged so far. -/
def applyFiles (a : App) (s : Store) (done : List Path) :
    List Path → Except ApplyFault (List Path) × App
  | [] => (.ok done, a)
  | path :: rest =>
    if s.cwd.resolve path ∈ a.seen then (a.note (.fileSkipped path.text)).applyFiles s done rest
    else match a.applyFile s path with
      | (none, a) => a.applyFiles s (done ++ [path]) rest
      | (some e, a) => (.error e, a)

/-- Merges all signature files at a path, and returns those that were merged now. -/
def applyPath (a : App) (s : Store) (path : Path) : Except ApplyFault (List Path) × App :=
  let walk := s.signatureFiles (· ∈ a.suffixes) path
  match a.applyFiles s [] walk.files, walk.fault with
  | (.ok _, a), some .missing => (.error (.missing path), a)
  | (.ok _, a), some e => (.error (.store e), a)
  | result, _ => result

/-- Merges a text or what is at a path, of which exactly one is given. -/
def apply (a : App) (s : Store) (source : Option String) (path : Option Path) :
    Except ApplyFault (List Path) × App :=
  match source, path with
  | some source, none =>
    match a.applyText "" source with
    | (none, a) => (.ok [], a)
    | (some e, a) => (.error e, a)
  | none, some path => a.applyPath s path
  | _, _ => (.error .ambiguous, a)

def render (a : App) : String := Printer.print 2 a.engine.tree

end App
end SignatureLayers
