import SignatureLayers.Store.Path

namespace SignatureLayers

inductive StoreFault
  | missing
  | isDirectory
  | notDirectory
  | exists
  /-- Any other reason that the system has: a name or a path is too long, a right is missing, or
  nothing answers. Callers do not tell these apart. -/
  | refused
  /-- A path holds the character that ends one. -/
  | unnameable
deriving DecidableEq, Repr

@[match_pattern] abbrev StoreFault.tooLong : StoreFault := .refused

@[match_pattern] abbrev StoreFault.denied : StoreFault := .refused

structure Rights where
  read : Bool := true
  write : Bool := true
  /-- Paths may lead on from the directory. -/
  enter : Bool := true
deriving DecidableEq, Repr, Inhabited

/-- Files, directories, and the special files, which are devices, pipes and sockets. Of a special
file it is known what reading it gives and what it was sent last, unless it is refused. -/
inductive FileTree
  | file (bytes : ByteArray) (rights : Rights := {})
  | directory (entries : List (String × FileTree)) (rights : Rights := {})
  | special (given sent : Except StoreFault ByteArray)
deriving Inhabited

def longestName : Nat := 255

def longestPath : Nat := 4095

def isTooLong (name : String) : Bool := longestName < name.utf8ByteSize

/-- Why a path is refused before anything is looked at. -/
def Path.fault? (p : Path) : Option StoreFault :=
  if p.text.contains '\x00' then some .unnameable
  else if longestPath < p.text.utf8ByteSize then some .tooLong
  else none

namespace FileTree

def entries : FileTree → List (String × FileTree)
  | directory es _ => es
  | _ => []

def rights? : FileTree → Option Rights
  | directory _ rights => some rights
  | _ => none

def isDirectory (t : FileTree) : Bool := t.rights?.isSome

def isFile : FileTree → Bool
  | file _ _ => true
  | _ => false

def content : FileTree → Except StoreFault ByteArray
  | file bytes rights => if rights.read then .ok bytes else .error .denied
  | directory _ rights => .error (if rights.read then .isDirectory else .denied)
  | special given _ => given

def overwrite (bytes : ByteArray) : FileTree → Except StoreFault FileTree
  | file _ rights => if rights.write then .ok (.file bytes rights) else .error .denied
  | directory _ _ => .error .isDirectory
  | special given sent => sent.map fun _ => .special given (.ok bytes)

/-- What a file holds, or what a special file was sent last. -/
def written? : FileTree → Option ByteArray
  | file bytes _ => some bytes
  | special _ (.ok bytes) => some bytes
  | _ => none

end FileTree

/-- A node of a tree with the names that lead to it from the root and the nodes above it, of both
the nearest first. -/
structure Spot where
  names : List String := []
  trail : List FileTree := []
  node : FileTree

namespace Spot

def above (a : Spot) : Spot :=
  match a.names, a.trail with
  | _ :: names, node :: trail => { names, trail, node }
  | _, _ => a

def below (a : Spot) (name : String) (node : FileTree) : Spot where
  names := name :: a.names
  trail := a.node :: a.trail
  node

/-- Follows one segment of a path. Nobody asks for rights on the way to the working directory. -/
def step (asks : Bool) (a : Spot) (name : String) : Except StoreFault Spot :=
  match a.node with
  | .directory es rights =>
    if asks && !rights.enter then .error .denied
    else if name = ".." then .ok a.above
    else if isTooLong name then .error .tooLong
    else match es.lookup name with
      | none => .error .missing
      | some node => .ok (a.below name node)
  | _ => .error .notDirectory

def follow (asks : Bool) (a : Spot) (parts : List String) : Except StoreFault Spot :=
  parts.foldlM (step asks) a

end Spot

namespace FileTree

def spot (t : FileTree) (base parts : List String) : Except StoreFault Spot := do
  let start ← Spot.follow false { node := t } base
  start.follow true parts

/-- The same as segments from the root without double dots, and the node. -/
def locate (t : FileTree) (base parts : List String) : Except StoreFault (List String × FileTree) :=
  (t.spot base parts).map fun a => (a.names.reverse, a.node)

def node? (t : FileTree) (parts : List String) : Option FileTree :=
  (t.locate [] parts).toOption.map Prod.snd

def setEntry (name : String) (n : FileTree) : List (String × FileTree) → List (String × FileTree)
  | [] => [(name, n)]
  | (m, old) :: rest => if m = name then (m, n) :: rest else (m, old) :: setEntry name n rest

/-- Puts a node under a name into the directory that segments without double dots lead to. -/
def put (name : String) (n : FileTree) : List String → FileTree → FileTree
  | [], .directory es rights => .directory (setEntry name n es) rights
  | p :: rest, .directory es rights =>
    match es.lookup p with
    | some next => .directory (setEntry p (put name n rest next) es) rights
    | none => .directory es rights
  | _, t => t

structure Holder where
  place : List String
  name : String
  entries : List (String × FileTree)
  rights : Rights

def holder (t : FileTree) (base parts : List String) : Except StoreFault Holder :=
  match parts.getLast? with
  | none => .error .isDirectory
  | some name =>
    match t.locate base parts.dropLast with
    | .error e => .error e
    | .ok (place, .directory entries rights) =>
      if !rights.enter then .error .denied
      else if isTooLong name then .error .tooLong
      else .ok { place, name, entries, rights }
    | .ok _ => .error .notDirectory

def makeDirectory (t : FileTree) (base parts : List String) : Except StoreFault FileTree :=
  match t.holder base parts with
  | .error .isDirectory => .error .exists
  | .error e => .error e
  | .ok h =>
    if h.name = ".." || (h.entries.lookup h.name).isSome then .error .exists
    else if h.rights.write then .ok (put h.name (.directory []) h.place t)
    else .error .denied

def hasDirectory (t : FileTree) (base parts : List String) : Bool :=
  match t.locate base parts with
  | .ok (_, n) => n.isDirectory
  | .error _ => false

def ensureDirectory (t : FileTree) (base parts : List String) : Except StoreFault FileTree :=
  match t.makeDirectory base parts with
  | .ok t => .ok t
  | .error e => if t.hasDirectory base parts then .ok t else .error e

/-- Makes a directory after those above it, outermost first; those that are there stay. -/
def ensureDirectories (t : FileTree) (base parts : List String) : Except StoreFault FileTree :=
  match _h : parts with
  | [] => t.ensureDirectory base []
  | _ :: _ =>
    match t.makeDirectory base parts with
    | .ok t => .ok t
    | .error .missing =>
      match ensureDirectories t base parts.dropLast with
      | .error e => .error e
      | .ok t => t.ensureDirectory base parts
    | .error e => if t.hasDirectory base parts then .ok t else .error e
termination_by parts.length
decreasing_by subst _h; simp

def write (t : FileTree) (base parts : List String) (bytes : ByteArray) :
    Except StoreFault FileTree :=
  match t.holder base parts with
  | .error e => .error e
  | .ok h =>
    if h.name = ".." then .error .isDirectory
    else match h.entries.lookup h.name with
      | some old => (old.overwrite bytes).map fun n => put h.name n h.place t
      | none =>
        if h.rights.write then .ok (put h.name (.file bytes) h.place t) else .error .denied

/-- All nodes that are no directories, with their segments from `above` on, in the order of the
entries. -/
def leavesIn (above : List String) : List (String × FileTree) → List (List String × FileTree)
  | [] => []
  | (name, .file bytes rights) :: rest =>
    (above ++ [name], .file bytes rights) :: leavesIn above rest
  | (name, .special given sent) :: rest =>
    (above ++ [name], .special given sent) :: leavesIn above rest
  | (name, .directory es _) :: rest => leavesIn (above ++ [name]) es ++ leavesIn above rest

def leaves (t : FileTree) : List (List String × FileTree) := leavesIn [] t.entries

def files (t : FileTree) : List (List String × ByteArray) :=
  t.leaves.filterMap fun
    | (place, .file bytes _) => some (place, bytes)
    | _ => none

end FileTree

structure Store where
  tree : FileTree
  cwd : Path

namespace Store

def base (s : Store) (p : Path) : List String := if p.isAbsolute then [] else s.cwd.parts

/-- Lets a path through that is not refused at once. -/
def allow (p : Path) : Except StoreFault Unit :=
  match p.fault? with
  | some e => .error e
  | none => .ok ()

def locate (s : Store) (p : Path) : Except StoreFault (List String × FileTree) := do
  allow p
  s.tree.locate (s.base p) p.parts

/-- What stands at a path. Where nothing can stand there, nothing does; but the system may refuse to
look. -/
def lookup (s : Store) (p : Path) : Except StoreFault (Option FileTree) :=
  match s.locate p with
  | .ok (_, n) => .ok (some n)
  | .error .refused => .error .refused
  | .error _ => .ok none

def isFile (s : Store) (p : Path) : Except StoreFault Bool := (s.lookup p).map (·.any (·.isFile))

def read (s : Store) (p : Path) : Except StoreFault ByteArray := do (← s.locate p).2.content

def write (s : Store) (p : Path) (bytes : ByteArray) : Except StoreFault Store := do
  allow p
  return { s with tree := ← s.tree.write (s.base p) p.parts bytes }

/-- Makes a directory and those above it. -/
def ensureDirectories (s : Store) (p : Path) : Except StoreFault Store := do
  allow p
  return { s with tree := ← s.tree.ensureDirectories (s.base p) p.parts }

end Store
end SignatureLayers
