import SignatureLayers.Index.Basic

namespace SignatureLayers

structure Engine where
  tree : Forest := []
  index : Index := .ofForest []
  log : List Notice := []
  /-- The first identity that no declaration has had yet. -/
  next : Nat := 1
  syncStandIns : Bool := false
  /-- What layers have taken out, as it was then, newest first. -/
  removed : Forest := []
deriving Repr

/-- A step of a merge. A step that fails keeps what it has changed before. -/
abbrev Merge := EStateM EditFault Engine

namespace Engine

/-- An engine over a forest, whose declarations get identities of their own. -/
def ofForest (f : Forest) (syncStandIns : Bool) : Engine :=
  let (tree, next) := f.number 1
  { tree, index := .ofForest tree, log := Index.duplicates [] [] tree, next, syncStandIns }

/-- The trailing comments of a container, as they are or were when it was taken out. -/
def trailingOf (e : Engine) (id : Nat) : List String :=
  (((e.tree.node? id).or (e.removed.node? id)).map Decl.trailing).getD []

end Engine

namespace Merge

def notify (notices : List Notice) : Merge Unit :=
  modify fun e => { e with log := e.log ++ notices }

def childrenOf (o : Owner) : Merge Forest := return (← get).tree.childrenOf o

def setChildren (o : Owner) (children : Forest) : Merge Unit :=
  modify fun e => { e with tree := e.tree.updateChildren o fun _ => children }

def setIndex (i : Index) : Merge Unit := modify fun e => { e with index := i }

def lift {α : Type} : Except EditFault α → Merge α
  | .ok a => pure a
  | .error e => throw e

def qualifiedName (o : Owner) (d : Decl) : Merge QualifiedName := do
  lift ((← get).index.qualifiedName o d)

def locationOf (r : Ref) : Merge (Option Location) :=
  return ((← get).tree.node? r.id).bind Decl.location

def positionOf (e : Entry) : Merge Nat := do
  let tree := (← get).tree
  match e.position? tree with
  | some p => pure p
  | none => throw (.detached (((tree.node? e.node.id).map Decl.name).getD ""))

def reportInserted (o : Owner) (d : Decl) : Merge Unit := do
  let (i, notices) ← lift ((← get).index.inserted o (← childrenOf o) d)
  setIndex i
  notify notices

def reportRemoved (o : Owner) (d : Decl) : Merge Unit := do
  setIndex (← lift ((← get).index.removed o (← childrenOf o) d))

def reportMoved (o : Owner) (key : Key) : Merge Unit := do
  setIndex (← lift ((← get).index.moved o (← childrenOf o) key))

/-- Remembers a declaration that is taken out. -/
def retire (d : Decl) : Merge Unit := modify fun e => { e with removed := d :: e.removed }

def insertAt (o : Owner) (position : Nat) (d : Decl) : Merge Unit := do
  setChildren o ((← childrenOf o).place position d)
  reportInserted o d

def removeAt (o : Owner) (position : Nat) : Merge Unit := do
  let children ← childrenOf o
  match children[position]? with
  | none => throw .outOfRange
  | some d =>
    setChildren o (children.eraseIdx position)
    retire d
    reportRemoved o d

def replaceAt (o : Owner) (position : Nat) (d : Decl) : Merge Unit := do
  let children ← childrenOf o
  match children[position]? with
  | none => throw .outOfRange
  | some old =>
    setChildren o (children.set position d)
    retire old
    reportRemoved o old
    reportInserted o d

/-- Moves the child at `source` next to the one at `target`; the report is left to the caller. -/
def moveBeside (o : Owner) (source target : Nat) (after : Bool) : Merge Unit := do
  match (← childrenOf o).moveBeside? source target after with
  | none => throw .outOfRange
  | some children => setChildren o children

def change (r : Ref) (f : Decl → Decl) : Merge Unit :=
  modify fun e => { e with tree := e.tree.update r.id f }

end Merge
end SignatureLayers
