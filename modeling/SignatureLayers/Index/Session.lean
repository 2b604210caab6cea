import SignatureLayers.Index.Basic

namespace SignatureLayers

structure Session where
  tree : Forest
  index : Index
  /-- The declarations taken out, in order. -/
  taken : List Nat := []
  /-- What was taken out, as it is now. -/
  detached : Forest := []
  held : List (String × Option Entry) := []
  log : List Notice := []
  next : Nat
deriving Repr

/-- An entry as it is shown: `owner` is the name of the owner, or nothing for the root. -/
structure EntryView where
  kind : Kind
  text : List String
  owner : Option String
  position : Nat
deriving Repr

namespace Session

def ofForest (f : Forest) : Session :=
  let (tree, next) := f.number 1
  { tree, index := .ofForest tree, log := Index.duplicates [] [] tree, next }

def node? (s : Session) (id : Nat) : Option Decl := (s.tree.node? id).or (s.detached.node? id)

def childrenOf? (s : Session) : Owner → Option Forest
  | .root => some s.tree
  | .container id => match s.node? id with
    | some (.container _ _ cs _) => some cs
    | _ => none

def childrenOf (s : Session) (o : Owner) : Except EditFault Forest :=
  match s.childrenOf? o with
  | some cs => .ok cs
  | none => .error .notOwner

def setChildren (s : Session) (o : Owner) (children : Forest) : Session :=
  { s with
    tree := s.tree.updateChildren o fun _ => children
    detached := match o with
      | .root => s.detached
      | o => s.detached.updateChildren o fun _ => children }

/-- Whether a number has no more than 64 bits, one of them for the sign. Edits take no others for
positions. -/
def isPosition (n : Int) : Bool := -9223372036854775808 ≤ n && n < 9223372036854775808

/-- A position counted from the front, or from the back if it is negative, where a declaration
can be put. -/
def slot (length : Nat) (position : Int) : Except EditFault Nat :=
  if !isPosition position then .error .tooLarge
  else .ok (min length (if position < 0 then (position + length).toNat else position.toNat))

/-- What stands at a position counted likewise, and its place from the front. -/
def standing? {α : Type} (xs : List α) (position : Int) : Option (Nat × α) :=
  let p := if position < 0 then position + xs.length else position
  if p < 0 then none else (xs[p.toNat]?).map (p.toNat, ·)

def at? {α : Type} (xs : List α) (position : Int) : Option α := (standing? xs position).map (·.2)

def standing (children : Forest) (position : Int) : Except EditFault (Nat × Decl) :=
  if !isPosition position then .error .tooLarge
  else match standing? children position with
    | some found => .ok found
    | none => .error .outOfRange

/-- The declaration at the end of a list of child positions, none for the empty list. -/
def descend (f : Forest) : List Int → Except EditFault (Option Decl)
  | [] => .ok none
  | p :: rest =>
    match at? f p, rest with
    | none, _ => .error .outOfRange
    | some d, [] => .ok (some d)
    | some (.container _ _ cs _), rest => descend cs rest
    | some _, _ => .error .notOwner

def takenAt (s : Session) (position : Int) : Except EditFault Decl :=
  match (at? s.taken position).bind s.node? with
  | some d => .ok d
  | none => .error .outOfRange

def noted (s : Session) (notices : List Notice) : Session := { s with log := s.log ++ notices }

def reportInserted (s : Session) (o : Owner) (d : Decl) : Option EditFault × Session :=
  match s.index.inserted o ((s.childrenOf? o).getD []) d with
  | .ok (index, notices) => (none, { s with index, log := s.log ++ notices })
  | .error e => (some e, s)

def reportRemoved (s : Session) (o : Owner) (d : Decl) : Option EditFault × Session :=
  match s.index.removed o ((s.childrenOf? o).getD []) d with
  | .ok index => (none, { s with index })
  | .error e => (some e, s)

def reportMoved (s : Session) (o : Owner) (d : Decl) : Option EditFault × Session :=
  match s.index.moved o ((s.childrenOf? o).getD []) d.key with
  | .ok index => (none, { s with index })
  | .error e => (some e, s)

def adopt (s : Session) (d : Decl) : Decl × Session :=
  match Forest.number s.next [d] with
  | (d :: _, next) => (d, { s with next })
  | ([], next) => (d, { s with next })

/-- Puts a declaration among the children of an owner. A refused report leaves it there. -/
def insert (s : Session) (o : Owner) (position : Int) (d : Decl) (report : Bool) :
    Option EditFault × Session :=
  match s.childrenOf o with
  | .error e => (some e, s)
  | .ok children =>
    match slot children.length position with
    | .error e => (some e, s)
    | .ok p =>
      let s := s.setChildren o (children.place p d)
      if report then s.reportInserted o d else (none, s)

def remove (s : Session) (o : Owner) (position : Int) (report : Bool) :
    Option EditFault × Session :=
  match s.childrenOf o with
  | .error e => (some e, s)
  | .ok children =>
    match standing children position with
    | .error e => (some e, s)
    | .ok (p, d) =>
      let s := s.setChildren o (children.eraseIdx p)
      let s := { s with
        taken := s.taken ++ [d.id]
        detached := if (s.detached.node? d.id).isSome then s.detached else s.detached ++ [d] }
      if report then s.reportRemoved o d else (none, s)

/-- Takes a child out and puts it back elsewhere among its siblings. -/
def move (s : Session) (o : Owner) (source target : Int) (report : Bool) :
    Option EditFault × Session :=
  match s.childrenOf o with
  | .error e => (some e, s)
  | .ok children =>
    match standing children source with
    | .error e => (some e, s)
    | .ok (p, d) =>
      let rest := children.eraseIdx p
      match slot rest.length target with
      | .error e => (some e, s.setChildren o rest)
      | .ok target =>
        let s := s.setChildren o (Forest.place target d rest)
        if report then s.reportMoved o d else (none, s)

def rebuild (s : Session) : Session :=
  { s with
    index := .ofForest s.tree
    log := s.log ++ Index.duplicates [] [] s.tree }

def names (s : Session) : List QualifiedName := s.index.names s.tree

def ownerName (s : Session) : Owner → Option String
  | .root => none
  | .container id => (s.node? id).map Decl.name

def position (s : Session) (e : Entry) : Except EditFault Nat :=
  match ((s.childrenOf? e.owner).getD []).findIdx? (·.id == e.node.id) with
  | some p => .ok p
  | none => .error (.detached (((s.node? e.node.id).map Decl.name).getD ""))

def view (s : Session) (e : Entry) : Except EditFault EntryView :=
  match s.node? e.node.id with
  | none => .error .unknownOwner
  | some d => (s.position e).map fun p => ⟨d.kind, d.header.text, s.ownerName e.owner, p⟩

def hold (s : Session) (label : String) (e : Option Entry) : Session :=
  { s with held := (label, e) :: s.held }

end Session
end SignatureLayers
