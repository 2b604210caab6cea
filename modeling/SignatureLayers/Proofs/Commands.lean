import Mathlib.Data.List.TakeWhile
import SignatureLayers.Command.Merge
import SignatureLayers.Proofs.Outcomes
import SignatureLayers.Proofs.Plain
import SignatureLayers.Proofs.Resumption
import SignatureLayers.Proofs.Walks

namespace SignatureLayers

namespace App
variable {a : App} {s : Store} {path : Path} {seen files done merged : List Path}

end App

namespace Config
variable {s : Store} {c : Config} {search root : Path}

end Config

namespace Command
variable {console : Console} {s : Store} {c : Config} {paths inputs : List Path}
  {output target : Option Path}
  {p : Progress} {r : App.Record} {suffixes : List String}

/-- The files that the walks of inputs come to, in order. -/
def walked (s : Store) (suffixes : List String) (inputs : List Path) : List Path :=
  inputs.flatMap fun p => (s.signatureFiles (· ∈ suffixes) p).files

/-- The same with each file once, where a walk first comes to it. -/
def distinct (s : Store) (suffixes : List String) (inputs : List Path) : List Path :=
  App.unseen s.cwd [] (walked s suffixes inputs)

/-- Why inputs are refused: there are none, nothing stands at one of them, the walk of one breaks
off, or a file that a walk comes to holds no layer. -/
inductive Refused (s : Store) (suffixes : List String) (inputs : List Path) : Prop
  | empty (h : inputs = [])
  | missing (p : Path) (hp : p ∈ inputs) (h : s.lookup p = .ok none)
  | broken (p : Path) (hp : p ∈ inputs)
    (h : (s.signatureFiles (· ∈ suffixes) p).fault ≠ none)
  | file (f : Path) (hf : f ∈ walked s suffixes inputs) (h : s.layer? f = none)
    (hread : f ∈ distinct s suffixes inputs ∨ ∃ bytes, s.read f = .ok bytes)

/-- Where the result goes to: to the given file, else to the one in the project file, which is seen
from its directory, else it is printed. -/
inductive Destination (s : Store) (c : Config) : Option Path → Option Path → Prop
  | given (path : Path) : Destination s c (some path) (some path)
  | configured (root : Path) (text : String) (h : Config.home s s.cwd = .ok (some root))
    (houtput : c.output = some (.string text)) (htext : text ≠ "") :
    Destination s c none (some (root.join (Path.ofText text)))
  | printed (h : ∀ v ∈ c.output, v.isTrue = false) : Destination s c none none

/-- What is written of layers that are merged in order. -/
def rendering (layers : List Forest) : String := Printer.print 2 (Engine.afterLayers layers).tree

/-- A command that has merged one layer for each of some files and has brought the result to a
target, and nothing else anywhere. -/
structure Merged (c : Console) (s : Store) (files : List Path) (layers : List Forest)
    (target : Option Path) (o : Outcome) : Prop where
  exitCode : o.run.ending.exitCode = 0
  summary : ∀ n, Event.summary n ∈ o.run.events ↔ n = files.length
  printed : target = none → o.run.store = s ∧ c.Emits (rendering layers) o.output
  written : ∀ path ∈ target, o.output = "" ∧
    ∃ place n, o.run.store.locate path = .ok (place, n) ∧
      n.written? = some (rendering layers).toUTF8 ∧
      ∀ x : List String × FileTree, x.1 ≠ place →
        (x ∈ o.run.store.tree.leaves ↔ x ∈ s.tree.leaves)

def Progress.of (s : Store) (c : Config) (inputs : List Path) : Progress :=
  mergeInputs s { app := App.ofSettings c.suffixTexts c.syncStandIns } inputs

end Command
end SignatureLayers
