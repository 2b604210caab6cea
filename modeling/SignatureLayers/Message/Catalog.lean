import SignatureLayers.Message.Template
import SignatureLayers.Store.Tree

namespace SignatureLayers

def englishTemplates : List (String × String) :=
  [("cli.app.description", "Merge and patch RBS signature files with annotation directives."),
    ("cli.command.merge.help",
      "Apply signature files and directories in order and print the merged result."),
    ("cli.option.verbose.help", "Enable debug logging."),
    ("cli.option.output.help", "Write the merged signatures to this file instead of stdout."),
    ("cli.argument.paths.help",
      "Files or directories to apply, in order. Defaults to [tool.rbs-patch].patch_paths."),
    ("merge.layer.applied", "Applied \x7bpath\x7d"),
    ("merge.layer.skipped", "Skipped \x7bpath\x7d (already applied)"),
    ("merge.summary", "Merged \x7bcount\x7d signature file(s)"),
    ("merge.output.written", "Merged signatures written to \x7bpath\x7d"),
    ("merge.error.no_inputs", "No input paths given and no patch_paths configured."),
    ("merge.error.syntax", "Syntax error: \x7berror\x7d"),
    ("merge.error.not_found", "Path not found: \x7bpath\x7d")]

/-- The directories above those of the languages, outermost first. No path leads to the first of
them from the root, as it has no name. -/
def languageHome : List String := ["", "src", "rbspatch", "common", "assets", "needle"]

/-- The directories beside one of a name, which a path may lead through. -/
def besides : String → List String
  | "common" => ["app", "cli", "config", "engine", "io", "spec", "test_utils"]
  | "assets" => ["messaging"]
  | _ => []

/-- Where the languages stand: each has a directory of its own. -/
def languageStore : Store where
  tree := (languageHome ++ ["en"]).foldr
    (fun name t => .directory ((name, t) :: (besides name).map (·, .directory [])))
    (.directory [])
  cwd := ⟨"/", languageHome⟩

/-- The templates of a language, which is named by the path of its directory. A directory that is
not there has none; a path that is too long is refused. -/
def templatesOf (language : String) : Except StoreFault (List (String × String)) :=
  match languageStore.locate (Path.ofText language) with
  | .error .tooLong => .error .tooLong
  | .error _ => .ok []
  | .ok (place, _) => .ok (if place = languageHome ++ ["en"] then englishTemplates else [])

structure Catalog where
  usual : String := "en"
  /-- The language that the environment asks for. -/
  wanted : Option String := none
deriving DecidableEq, Repr, Inhabited

namespace Catalog

/-- The language that templates are looked up in first: the given one, unless its name is empty,
else the wanted one. -/
def firstLanguage (c : Catalog) : Option String → String
  | some l => if l.isEmpty then c.wanted.getD c.usual else l
  | none => c.wanted.getD c.usual

/-- The template of an id in a language. The usual language stands in for an id that is not there,
and the id for one that nobody knows. -/
def template (c : Catalog) (id : String) (language : Option String) : Except StoreFault String := do
  let language := c.firstLanguage language
  match (← templatesOf language).lookup id with
  | some t => return t
  | none =>
    if language = c.usual then return id
    else return ((← templatesOf c.usual).lookup id).getD id

end Catalog
end SignatureLayers
