import SignatureLayers.App
import SignatureLayers.Config
import SignatureLayers.Message.Bus

namespace SignatureLayers.Command

inductive Event
  | noticed (n : Notice)
  | sent (m : Message)
deriving DecidableEq, Repr

inductive Fault
  | config (e : ConfigFault)
  | apply (e : ApplyFault)
  | store (e : StoreFault)
  /-- The configured output is no path. -/
  | output
  | message (e : MessageFault)
deriving DecidableEq, Repr

/-- How a command ends: as asked for, with a fault that the user was told of, or broken off. -/
inductive Ending
  | done
  | failed
  | broken (f : Fault)
deriving DecidableEq, Repr

def Ending.exitCode : Ending → UInt32
  | .done => 0
  | .failed | .broken _ => 1

structure Run where
  store : Store
  events : List Event := []
  printed : String := ""
  ending : Ending := .done

namespace Event

def applied (path : Path) : Event :=
  .sent ⟨.debug, "merge.layer.applied", [("path", .text path.text)]⟩

def skipped (path : Path) : Event :=
  .sent ⟨.debug, "merge.layer.skipped", [("path", .text path.text)]⟩

def summary (count : Nat) : Event := .sent ⟨.info, "merge.summary", [("count", .number count)]⟩

def written (path : Path) : Event :=
  .sent ⟨.success, "merge.output.written", [("path", .text path.text)]⟩

def noInputs : Event := .sent ⟨.error, "merge.error.no_inputs", []⟩

def notFound (path : Path) : Event :=
  .sent ⟨.error, "merge.error.not_found", [("path", .text path.text)]⟩

def refused (e : SourceError) : Event :=
  .sent ⟨.error, "merge.error.syntax", [("error", .text e.message)]⟩

end Event

/-- What is told of a fault, and how the command ends with it. -/
def faultEnding (path : Path) : ApplyFault → List Event × Ending
  | .missing _ | .store .missing => ([.notFound path], .failed)
  | .source e => ([.refused e], .failed)
  | e => ([], .broken (.apply e))

def appliedEvents (input : Path) (files : List Path) : List Event :=
  (if files.isEmpty then [.skipped input] else []) ++ files.map .applied

/-- The inputs merged so far, with the events on the way and the number of files. -/
structure Progress where
  app : App
  events : List Event := []
  count : Nat := 0
  ending : Ending := .done

def mergeInput (s : Store) (p : Progress) (input : Path) : Progress :=
  let (result, app) := p.app.applyPath s input
  let notices := (app.engine.log.drop p.app.engine.log.length).map Event.noticed
  match result with
  | .ok files =>
    { p with
      app
      events := p.events ++ notices ++ appliedEvents input files
      count := p.count + files.length }
  | .error e =>
    let (events, ending) := faultEnding input e
    { p with app, events := p.events ++ notices ++ events, ending }

/-- Merges inputs in order up to the first that fails. -/
def mergeInputs (s : Store) (p : Progress) : List Path → Progress
  | [] => p
  | input :: rest =>
    let p := mergeInput s p input
    if p.ending = .done then mergeInputs s p rest else p

/-- Where the result goes: to the given file, else to the configured one, else it is printed. -/
def target? (c : Config) (output : Option Path) : Except Fault (Option Path) :=
  match output, c.output with
  | some p, _ => .ok (some p)
  | none, none => .ok none
  | none, some v =>
    if !v.isTrue then .ok none
    else match v with
      | .string s => .ok (some (c.resolve s))
      | _ => .error .output

def writeResult (s : Store) (target : Path) (text : String) : Store × Option StoreFault :=
  match s.ensureDirectories target.parent with
  | .error e => (s, some e)
  | .ok s =>
    match s.write target text.toUTF8 with
    | .error e => (s, some e)
    | .ok s => (s, none)

def emit (s : Store) (c : Config) (output : Option Path) (p : Progress) : Run :=
  let events := p.events ++ [.summary p.count]
  match target? c output with
  | .error f => { store := s, events, ending := .broken f }
  | .ok none => { store := s, events, printed := p.app.render }
  | .ok (some target) =>
    match writeResult s target p.app.render with
    | (s, some e) => { store := s, events, ending := .broken (.store e) }
    | (s, none) => { store := s, events := events ++ [.written target] }

def inputs (c : Config) (paths : List Path) : List Path :=
  if paths.isEmpty then c.patchPaths.map c.resolve else paths

def isUnnameable (p : Path) : Bool := p.fault? = some .unnameable

/-- Merges paths with the settings of the project around the working directory. -/
def merge (s : Store) (paths : List Path) (output : Option Path) : Run :=
  if paths.any isUnnameable || output.any isUnnameable then
    { store := s, ending := .broken (.store .unnameable) }
  else match Config.load s s.cwd with
  | .error e => { store := s, ending := .broken (.config e) }
  | .ok c =>
    match inputs c paths with
    | [] => { store := s, events := [.noInputs], ending := .failed }
    | inputs =>
      let p := mergeInputs s { app := App.ofSettings c.suffixTexts c.syncStandIns } inputs
      if p.ending = .done then emit s c output p
      else { store := s, events := p.events, ending := p.ending }

end SignatureLayers.Command
