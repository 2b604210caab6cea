import SignatureLayers.Command.Console
import SignatureLayers.Command.Request

namespace SignatureLayers.Command.Program

def doesExist (path : Path) : IO Bool := do ((← IO.currentDir) / path.text).pathExists

def isDirectory (path : Path) : IO Bool := do ((← IO.currentDir) / path.text).isDir

def isRegular (path : Path) : IO Bool := do
  return (← ((← IO.currentDir) / path.text).metadata).type == .file

/-- The names of the entries of a directory, if it can be listed. -/
def namesIn? (path : Path) : IO (Option (List String)) := do
  try
    let entries ← ((← IO.currentDir) / path.text).readDir
    return some (entries.toList.map fun e => e.fileName)
  catch _ => return none

/-- What stands at a path that is no directory. It is read if it is `wanted`, and left empty
otherwise. -/
def leafAt (path : Path) (wanted : Bool) : IO FileTree := do
  let content : Except StoreFault ByteArray ←
    try
      if wanted then pure (.ok (← IO.FS.readBinFile path.text)) else pure (.ok ByteArray.empty)
    catch _ => pure (.error .refused)
  match ← isRegular path, content with
  | true, .ok bytes => return .file bytes
  | true, .error _ => return .file ByteArray.empty { read := false }
  | false, given => return .special given (.ok ByteArray.empty)

def withDirectory (s : Store) (path : Path) : Store := (s.ensureDirectories path).toOption.getD s

def withNode (s : Store) (path : Path) (n : FileTree) : Store :=
  let s := withDirectory s path.parent
  match s.tree.holder (s.base path) path.parts with
  | .ok h => { s with tree := .put h.name n h.place s.tree }
  | .error _ => s

/-- Adds what stands at a path to the picture, a directory with all below it. Files that are not
accepted are left empty. -/
partial def capture (accepts : String → Bool) (s : Store) (path : Path) : IO Store := do
  if ← isDirectory path then
    match ← namesIn? path with
    | none => return withNode s path (.directory [] { read := false })
    | some names =>
      names.foldlM (fun s name => do
        let inner := path.child name
        if ← isDirectory inner then capture accepts s inner
        else return withNode s inner (← leafAt inner (accepts (Path.suffix name))))
        (withDirectory s path)
  else if ← doesExist path then return withNode s path (← leafAt path true)
  else return s

def trail (path : Path) : List Path :=
  (List.range (path.parts.length + 1)).map fun n => { path with parts := path.parts.take n }

/-- Adds to the picture what stands in the way to a path and is not on it yet. -/
def captureTrail (s : Store) (path : Path) : IO Store :=
  (trail path).foldlM (fun s p => do
    if (s.locate p).isOk then return s
    else if ← isDirectory p then return withDirectory s p
    else if ← doesExist p then return withNode s p (← leafAt p false)
    else return s) s

def captureProject : IO Store := do
  let cwd := Path.ofText (← IO.currentDir).toString
  let start : Store := { tree := .directory [], cwd }
  (trail cwd).foldlM (fun s dir => do
    let file := dir.child Config.fileName
    if !(← doesExist file) || (← isDirectory file) then return s
    else return withNode s file (← leafAt file true)) (withDirectory start cwd)

def captureMerge (s : Store) (c : Config) (paths : List Path) (target : Option Path) :
    IO Store := do
  let accepts (suffix : String) : Bool := c.suffixTexts.contains suffix
  let s ← (inputs c paths).foldlM (capture accepts) s
  match target with
  | some path => captureTrail s path
  | none => return s

def usage (catalog : Catalog) : String :=
  let line (id : String) : String := (catalog.template id none).toOption.getD id ++ "\n"
  "Usage: rbs-patch [-v] merge [PATHS]... [-o FILE]\n\n" ++ line "cli.app.description" ++
    "\nmerge   " ++ line "cli.command.merge.help" ++
    "  PATHS         " ++ line "cli.argument.paths.help" ++
    "  -o, --output  " ++ line "cli.option.output.help" ++
    "-v, --verbose   " ++ line "cli.option.verbose.help"

def runMerge (console : Console) (paths : List Path) (output : Option Path) : IO UInt32 := do
  let s ← captureProject
  let c := (Config.load s s.cwd).toOption.getD {}
  let target := (target? c output).toOption.getD none
  let s ← captureMerge s c paths target
  let outcome := console.outcome s (merge s paths output)
  IO.eprint outcome.messages
  IO.print outcome.output
  match outcome.run.ending, target with
  | .done, some path =>
    IO.FS.createDirAll path.parent.text
    let written := (outcome.run.store.locate path).toOption.bind (·.2.written?)
    IO.FS.writeBinFile path.text (written.getD ByteArray.empty)
  | .broken fault, _ => IO.eprintln s!"{repr fault}"
  | _, _ => pure ()
  return outcome.run.ending.exitCode

end SignatureLayers.Command.Program

open SignatureLayers Command in
/-- Does what the words of the command line ask for. -/
def main (words : List String) : IO UInt32 := do
  let catalog : Catalog := { wanted := ← IO.getEnv "RBS_PATCH_LANG" }
  match Request.ofWords words with
  | .help =>
    IO.print (Program.usage catalog)
    return 0
  | .misuse =>
    IO.eprint (Program.usage catalog)
    return 2
  | .merge verbose paths output =>
    let console : Console :=
      { catalog, verbose, color := ← (← IO.getStderr).isTty,
        colorResult := ← (← IO.getStdout).isTty }
    Program.runMerge console (paths.map Path.ofText) (output.map Path.ofText)
