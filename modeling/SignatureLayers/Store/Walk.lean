import SignatureLayers.Store.Tree

namespace SignatureLayers

/-- The files that a walk comes to, and what ends it too soon, if anything does. -/
structure Walk where
  files : List Path
  fault : Option StoreFault := none
deriving DecidableEq, Repr

def Walk.ofFound : List (Except StoreFault Path) → Walk
  | [] => ⟨[], none⟩
  | .error e :: _ => ⟨[], some e⟩
  | .ok p :: rest => let w := ofFound rest; { w with files := p :: w.files }

namespace FileTree

def inOrder {α : Type} (parts : List (String × List α)) : List α :=
  (parts.mergeSort fun a b => a.1 ≤ b.1).flatMap (·.2)

/-- Whether an entry is a directory, if the system lets it be looked at. What has a path that can
not be named counts as none. -/
def look (rights : Rights) (path : Path) (name : String) (isDirectory : Bool) :
    Except StoreFault Bool :=
  match path.fault? with
  | some .unnameable => .ok false
  | some e => .error e
  | none =>
    if !rights.enter then .error .denied
    else if isTooLong name then .error .tooLong
    else .ok isDirectory

/-- What a walk finds at an entry: what is `below` it if it is a directory, and else the entry, if its
suffix is accepted. -/
def entered (accepts : String → Bool) (rights : Rights) (path : Path) (name : String)
    (below : Option (List (Except StoreFault Path))) : List (Except StoreFault Path) :=
  match look rights path name below.isSome with
  | .error e => [.error e]
  | .ok true => below.getD []
  | .ok false => if accepts (Path.suffix name) then [.ok path] else []

def listed (rights : Rights) (parts : List (String × List (Except StoreFault Path))) :
    List (Except StoreFault Path) :=
  if rights.read then inOrder parts else [.error .denied]

def found (accepts : String → Bool) (dir : Path) (rights : Rights) :
    List (String × FileTree) → List (String × List (Except StoreFault Path))
  | [] => []
  | (name, .file _ _) :: rest | (name, .special _ _) :: rest =>
    (name, entered accepts rights (dir.child name) name none) :: found accepts dir rights rest
  | (name, .directory es inner) :: rest =>
    (name, entered accepts rights (dir.child name) name
      (some (listed inner (found accepts (dir.child name) inner es)))) ::
      found accepts dir rights rest

/-- The accepted files below a directory: entries in the order of their names, directories walked
where they stand. -/
def walk (accepts : String → Bool) (dir : Path) (rights : Rights) (es : List (String × FileTree)) :
    Walk :=
  .ofFound (listed rights (found accepts dir rights es))

end FileTree

namespace Store

/-- The signature files at a path. A file given directly is taken whatever its suffix; a special file
is not, and can not be walked either. -/
def signatureFiles (s : Store) (accepts : String → Bool) (p : Path) : Walk :=
  match s.lookup p with
  | .error e => ⟨[], some e⟩
  | .ok none => ⟨[], some .missing⟩
  | .ok (some (.file _ _)) => ⟨[p], none⟩
  | .ok (some (.special _ _)) => ⟨[], some .notDirectory⟩
  | .ok (some (.directory es rights)) => FileTree.walk accepts p rights es

end Store
end SignatureLayers
