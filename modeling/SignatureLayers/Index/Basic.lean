import SignatureLayers.Decl.Forest
import SignatureLayers.Notice

namespace SignatureLayers

/-- A declaration as the index knows it. -/
structure Ref where
  id : Nat
  container : Bool
deriving DecidableEq, Repr, Inhabited

def Decl.ref (d : Decl) : Ref := ⟨d.id, d.isContainer⟩

inductive EditFault
  | unknownOwner
  | detached (name : String)
  | outOfRange
  /-- A number is too great, or too small, for any position. -/
  | tooLarge
  | notOwner
deriving DecidableEq, Repr

def EditFault.message? : EditFault → Option String
  | .detached name => some s!"'{name}' is no longer a child of its owner"
  | _ => none

/-- The path of an owner, and its children by key. -/
structure Scope where
  path : List String
  siblings : List (Key × Ref)
deriving DecidableEq, Repr

namespace Scope

def get? (s : Scope) (key : Key) : Option Ref := s.siblings.lookup key

def erase (s : Scope) (key : Key) : Scope :=
  { s with siblings := s.siblings.filter (·.1 != key) }

def set (s : Scope) (key : Key) (r : Ref) : Scope :=
  { s with siblings := (key, r) :: (s.erase key).siblings }

/-- Looks up afresh which of the children has a key first. -/
def resolve (s : Scope) (key : Key) (children : Forest) : Scope :=
  match List.find? (·.key == key) children with
  | some d => s.set key d.ref
  | none => s.erase key

def ofChildren (path : List String) (children : Forest) : Scope :=
  ⟨path, children.foldl (fun s d =>
    if (s.lookup d.key).isSome then s else s ++ [(d.key, d.ref)]) []⟩

end Scope

structure Index where
  scopes : List (Owner × Scope)
deriving DecidableEq, Repr

structure Entry where
  node : Ref
  owner : Owner
deriving DecidableEq, Repr

namespace Index

def empty : Index := ⟨[]⟩

def scope? (i : Index) (o : Owner) : Option Scope := i.scopes.lookup o

def erase (i : Index) (o : Owner) : Index := ⟨i.scopes.filter (·.1 != o)⟩

def set (i : Index) (o : Owner) (s : Scope) : Index := ⟨(o, s) :: (i.erase o).scopes⟩

def nested (path : List String) : Forest → List (Owner × Scope)
  | [] => []
  | .container _ h cs _ :: rest =>
    let inner := path ++ [h.name]
    (.container h.id, .ofChildren inner cs) :: (nested inner cs ++ nested path rest)
  | _ :: rest => nested path rest

/-- The notices of keys that come up again, in order of traversal; `seen` came up before. -/
def duplicates (path : List String) (seen : List Key) : Forest → List Notice
  | [] => []
  | .container k h cs t :: rest =>
    let key := (Decl.container k h cs t).key
    (if key ∈ seen then [.duplicate ⟨path, key⟩] else []) ++
      (duplicates (path ++ [h.name]) [] cs ++ duplicates path (key :: seen) rest)
  | d :: rest =>
    (if d.key ∈ seen then [.duplicate ⟨path, d.key⟩] else []) ++
      duplicates path (d.key :: seen) rest

def enter (i : Index) (o : Owner) (path : List String) (children : Forest) : Index :=
  ((o, .ofChildren path children) :: nested path children).foldl (fun i s => i.set s.1 s.2) i

def ofForest (f : Forest) : Index := empty.enter .root [] f

/-- Takes out the containers on a stack and all those below them. The children of what is taken
from the stack are put on it one after the other, so that the last of them comes next. -/
def forget (i : Index) : Forest → Index
  | [] => i
  | d :: stack =>
    forget (if d.isContainer then i.erase (.container d.id) else i) (d.children.reverse ++ stack)
termination_by stack => Forest.size stack
decreasing_by
  rw [Forest.size_append, Forest.size_reverse, ← Forest.size_append]
  exact Forest.size_children_lt d stack

def inserted (i : Index) (o : Owner) (children : Forest) (d : Decl) :
    Except EditFault (Index × List Notice) :=
  match i.scope? o with
  | none => .error .unknownOwner
  | some s =>
    let (s, notices) := match s.get? d.key with
      | none => (s.set d.key d.ref, [])
      | some r =>
        if r.id = d.id then (s, [])
        else (s.resolve d.key children, [.duplicate ⟨s.path, d.key⟩])
    let i := i.set o s
    if d.isContainer then
      let path := s.path ++ [d.name]
      .ok (i.enter (.container d.id) path d.children, notices ++ duplicates path [] d.children)
    else .ok (i, notices)

/-- A declaration has been taken out of the children of `o`, of which `children` are left. -/
def removed (i : Index) (o : Owner) (children : Forest) (d : Decl) : Except EditFault Index :=
  match i.scope? o with
  | none => .error .unknownOwner
  | some s =>
    let first := (s.get? d.key).any (·.id = d.id)
    let i := if first then i.set o (s.resolve d.key children) else i
    .ok (if d.isContainer then i.forget [d] else i)

def moved (i : Index) (o : Owner) (children : Forest) (key : Key) : Except EditFault Index :=
  match i.scope? o with
  | none => .error .unknownOwner
  | some s => .ok (i.set o (s.resolve key children))

def pathOf (i : Index) (o : Owner) : Except EditFault (List String) :=
  match i.scope? o with
  | none => .error .unknownOwner
  | some s => .ok s.path

def qualifiedName (i : Index) (o : Owner) (d : Decl) : Except EditFault QualifiedName :=
  (i.pathOf o).map fun path => ⟨path, d.key⟩

def childAt? (i : Index) (o : Owner) (key : Key) : Option Ref :=
  (i.scope? o).bind (·.get? key)

/-- The container below `o` that a path leads to. -/
def descend? (i : Index) (o : Owner) : List String → Option Owner
  | [] => some o
  | name :: path =>
    match i.childAt? o ⟨name, false⟩ with
    | some r => if r.container then i.descend? (.container r.id) path else none
    | none => none

/-- The owner that a path leads to. -/
def containerFor? (i : Index) (path : List String) : Option Owner := i.descend? .root path

def get? (i : Index) (q : QualifiedName) : Option Entry :=
  (i.containerFor? q.scope).bind fun o => (i.childAt? o q.key).map fun r => ⟨r, o⟩

def contains (i : Index) (q : QualifiedName) : Bool := (i.get? q).isSome

/-- The sibling that an anchor names: a member first, else a declaration. -/
def findSibling (i : Index) (o : Owner) (name : String) : Except EditFault (Option Entry) :=
  match i.scope? o with
  | none => .error .unknownOwner
  | some s => .ok (((s.get? ⟨name, true⟩).or (s.get? ⟨name, false⟩)).map fun r => ⟨r, o⟩)

/-- The name of a child of `o`, if the index resolves it to that child. -/
def named (i : Index) (o : Owner) (path : List String) (d : Decl) : List QualifiedName :=
  if (i.childAt? o d.key).any (·.id = d.id) then [⟨path, d.key⟩] else []

/-- The names that the index resolves among the children of `o` and below, in order of
traversal. -/
def namesFrom (i : Index) (o : Owner) (path : List String) : Forest → List QualifiedName
  | [] => []
  | .container k h cs t :: rest =>
    let here := i.named o path (.container k h cs t)
    let below := if here.isEmpty then [] else namesFrom i (.container h.id) (path ++ [h.name]) cs
    here ++ below ++ namesFrom i o path rest
  | d :: rest => i.named o path d ++ namesFrom i o path rest
termination_by f => f.size
decreasing_by
  · exact Forest.size_inner_lt k h cs t rest
  · exact Forest.size_tail_lt _ rest
  · exact Forest.size_tail_lt d rest

def names (i : Index) (f : Forest) : List QualifiedName := i.namesFrom .root [] f

end Index

namespace Entry

def position? (e : Entry) (f : Forest) : Option Nat :=
  (f.childrenOf e.owner).findIdx? (·.id == e.node.id)

end Entry
end SignatureLayers
