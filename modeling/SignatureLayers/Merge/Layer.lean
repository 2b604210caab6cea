import SignatureLayers.Merge.Move

namespace SignatureLayers.Merge

/-- The container that the children of a settled declaration go to. Those of a container that the
layer has just brought keep their order (`fresh`), those of an older one are placed by rule. -/
structure Destination where
  owner : Owner
  fresh : Bool
deriving DecidableEq, Repr

/-- A declaration put into the tree takes its children along later. -/
def insertHollow (o : Owner) (position : Nat) (d : Decl) : Merge (Option Destination) := do
  insertAt o position d.hollow
  return some ⟨.container d.id, true⟩

/-- The trailing comments of a container with those of another that it does not have yet. -/
def addTrailing (own more : List String) : List String :=
  more.foldl (fun own c => if c ∈ own then own else own ++ [c]) own

def absorbTrailing (more : List String) : Decl → Decl
  | .container k h cs t => .container k h cs (addTrailing t more)
  | d => d

def absorb (existing : Ref) (d : Decl) : Merge (Option Destination) := do
  change existing (absorbTrailing d.trailing)
  return some ⟨.container existing.id, false⟩

/-- Replaces the first declaration with the key of `d` and takes the others out. -/
def override (o : Owner) (d : Decl) (existing : Option Entry) (token : Nat) :
    Merge (Option Destination) := do
  match existing with
  | none =>
    notify [.overrideMissing (← qualifiedName o d)]
    return none
  | some e =>
    let d := (d.dropAnnot token).withLocation (← locationOf e.node)
    match (← childrenOf o).positions d.key with
    | [] => throw .outOfRange
    | first :: later =>
      later.reverse.forM (removeAt o)
      replaceAt o first d.hollow
      return some ⟨.container d.id, true⟩

/-- Takes every declaration with the key of `d` out. -/
def delete (o : Owner) (d : Decl) (existing : Option Entry) : Merge (Option Destination) := do
  match existing with
  | none => notify [.deleteMissing (← qualifiedName o d)]
  | some _ => ((← childrenOf o).positions d.key).reverse.forM (removeAt o)
  return none

/-- Puts a declaration beside its anchor; a container that is there already is moved instead. -/
def insertBeside (o : Owner) (d : Decl) (existing : Option Entry) (token : Nat) (side : Side)
    (anchor : String) : Merge (Option Destination) := do
  match existing.filter fun e => d.isContainer && e.node.container with
  | some e =>
    relocate o e d side anchor
    absorb e.node d
  | none =>
    match ← lift ((← get).index.findSibling o anchor) with
    | none =>
      notify [.anchorMissing anchor (← qualifiedName o d)]
      return none
    | some target =>
      let d := (d.dropAnnot token).withLocation (← locationOf target.node)
      let position ← positionOf target
      insertHollow o (if side = .after then position + 1 else position) d

/-- Use clauses stay ahead of all declarations: a new one follows the last. -/
def usePosition (children : Forest) : Nat :=
  (children.zipIdx.filter (·.1.kind == .leaf .useClause)).getLast?.elim 0 (·.2 + 1)

/-- A variable follows the last of its kind, or else precedes the first method. The neighbour and
the position are returned. -/
def variablePlace? (kind : Kind) (children : Forest) : Option (Decl × Nat) :=
  match (children.zipIdx.filter (·.1.kind == kind)).getLast? with
  | some (d, p) => some (d, p + 1)
  | none => (children.zipIdx.filter (·.1.kind == .member .method)).head?

def placeVariable (o : Owner) (d : Decl) : Merge (Option Destination) := do
  let children ← childrenOf o
  match variablePlace? d.kind children with
  | some (neighbour, position) => insertHollow o position (d.withLocation neighbour.location)
  | none => insertHollow o children.length d

def add (o : Owner) (fresh : Bool) (d : Decl) (existing : Option Entry) :
    Merge (Option Destination) := do
  match existing.filter fun e => d.isContainer && e.node.container with
  | some e => absorb e.node d
  | none =>
    let children ← childrenOf o
    if d.kind = .leaf .useClause then
      if existing.isSome then
        notify [.useRepeated d.name]
        return none
      else insertHollow o (usePosition children) d
    else if fresh then insertHollow o children.length d
    else if d.kind.isVariable then
      if existing.isSome then
        notify [.variableRepeated (← qualifiedName o d)]
        return none
      else placeVariable o d
    else if d.kind.isVisibility && children.any (·.kind == d.kind) then return none
    else insertHollow o children.length d

/-- What the name that a declaration takes below `o` stands for already. -/
def existing? (o : Owner) (d : Decl) : Merge (Option Entry) :=
  return (← get).index.get? (← qualifiedName o d)

/-- Settles a declaration of a layer among the children of `o`, its own children left aside. -/
def settle (o : Owner) (fresh : Bool) (d : Decl) : Merge (Option Destination) := do
  let existing ← existing? o d
  match Directive.winner? d.annotations with
  | none => add o fresh d existing
  | some (token, .override) => override o d existing token
  | some (_, .delete) => delete o d existing
  | some (token, .placed side anchor) => insertBeside o d existing token side anchor

def mergeAll (o : Owner) (fresh : Bool) : Forest → Merge Unit
  | [] => pure ()
  | .container k h cs t :: rest =>
    settle o fresh (.container k h cs t) >>= fun
      | some into => mergeAll into.owner into.fresh cs >>= fun _ => mergeAll o fresh rest
      | none => mergeAll o fresh rest
  | d :: rest => settle o fresh d >>= fun _ => mergeAll o fresh rest
termination_by layer => layer.size
decreasing_by
  · exact Forest.size_inner_lt k h cs t rest
  · exact Forest.size_tail_lt _ rest
  · exact Forest.size_tail_lt _ rest
  · exact Forest.size_tail_lt d rest

end Merge

namespace Engine

/-- Merges a layer. A fault leaves what was merged before it. -/
def mergeLayer (e : Engine) (layer : Forest) : Option EditFault × Engine :=
  let (layer, next) := layer.number e.next
  match Merge.mergeAll .root false layer { e with next } with
  | .ok _ e => (none, e)
  | .error fault e => (some fault, e)

end Engine
end SignatureLayers
