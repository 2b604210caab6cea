import SignatureLayers.Text.Word

namespace SignatureLayers.Command

inductive Request
  | help
  | misuse
  | merge (verbose : Bool) (paths : List String) (output : Option String)
deriving DecidableEq, Repr

inductive GeneralWord
  | help
  | verbose
  | terminator
  | unknown
  | command
deriving DecidableEq, Repr

def isOption (s : List Char) : Bool := 1 < s.length && s.head? == some '-'

/-- Short options may stand together behind one dash. -/
def GeneralWord.ofText (word : String) : GeneralWord :=
  if word = "--" then .terminator
  else if !isOption word.toList then .command
  else if word = "--help" then .help
  else if word = "--verbose" then .verbose
  else if word.toList.tail.all (· = 'v') then .verbose
  else .unknown

structure General where
  help : Bool := false
  verbose : Bool := false
deriving DecidableEq, Repr

def General.read (g : General) : List String → Option (General × List String)
  | [] => some (g, [])
  | word :: rest =>
    match GeneralWord.ofText word with
    | .help => General.read { g with help := true } rest
    | .verbose => General.read { g with verbose := true } rest
    | .terminator => some (g, rest)
    | .command => some (g, word :: rest)
    | .unknown => none

inductive MergeWord
  | help
  | path
  | output (value : String)
  /-- The value is the next word. -/
  | outputNext
  | terminator
  | unknown
deriving DecidableEq, Repr

def MergeWord.ofText (word : String) : MergeWord :=
  if word = "--" then .terminator
  else if !isOption word.toList then .path
  else if word = "--help" then .help
  else if word = "--output" then .outputNext
  else match word.toList with
    | '-' :: '-' :: 'o' :: 'u' :: 't' :: 'p' :: 'u' :: 't' :: '=' :: value =>
      .output (String.ofList value)
    | ['-', 'o'] => .outputNext
    | '-' :: 'o' :: value => .output (String.ofList value)
    | _ => .unknown

structure MergeWords where
  help : Bool := false
  paths : List String := []
  output : Option String := none
deriving DecidableEq, Repr

/-- Reads options and paths in any order; the last output wins. -/
def MergeWords.read (m : MergeWords) : List String → Option MergeWords
  | [] => some m
  | word :: rest =>
    match MergeWord.ofText word with
    | .help => MergeWords.read { m with help := true } rest
    | .path => MergeWords.read { m with paths := m.paths ++ [word] } rest
    | .output value => MergeWords.read { m with output := some value } rest
    | .outputNext =>
      match rest with
      | [] => none
      | value :: rest => MergeWords.read { m with output := some value } rest
    | .terminator => some { m with paths := m.paths ++ rest }
    | .unknown => none

def beginsAsOption (name : String) : Bool :=
  match name.toList with
  | [] => false
  | c :: _ => c = '_' || !Text.isWord c

namespace Request

def ofMergeWords (verbose : Bool) (words : List String) : Request :=
  match MergeWords.read {} words with
  | none => .misuse
  | some m => if m.help then .help else .merge verbose m.paths m.output

/-- What a command line asks for. A name that begins as an option and is no command asks for help,
whatever follows it. -/
def ofWords (words : List String) : Request :=
  if words.isEmpty then .help
  else match General.read {} words with
    | none => .misuse
    | some (g, rest) =>
      if g.help then .help
      else match rest with
        | [] => .misuse
        | "merge" :: rest => ofMergeWords g.verbose rest
        | name :: _ => if beginsAsOption name then .help else .misuse

end Request
end SignatureLayers.Command
