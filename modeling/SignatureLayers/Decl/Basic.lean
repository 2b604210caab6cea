import SignatureLayers.Decl.Kind
import SignatureLayers.Decl.Name
import SignatureLayers.Text.Quoted

namespace SignatureLayers

/-- The first and the last line of a declaration in its source. -/
structure Location where
  start : Int
  stop : Int
deriving DecidableEq, Repr, Inhabited

/-- An annotation: what its delimiters enclose, and the whole token. -/
structure Annot where
  payload : String
  token : String
deriving DecidableEq, Repr, Inhabited

/-- What every declaration has. `id` tells the declarations of one tree apart and is 0 outside a
tree; `text` is the declaration without annotations and comments. -/
structure Header where
  id : Nat := 0
  name : String
  text : List String := []
  annotations : List Annot := []
  comments : List String := []
  location : Option Location := none
deriving DecidableEq, Repr, Inhabited

inductive Decl
  | container (kind : ContainerKind) (header : Header) (children : List Decl)
      (trailing : List String)
  | leaf (kind : LeafKind) (header : Header)
  | member (kind : MemberKind) (header : Header) (oldName : Option String)
deriving Repr, Inhabited

namespace Decl

def header : Decl → Header
  | .container _ h _ _ => h
  | .leaf _ h => h
  | .member _ h _ => h

def kind : Decl → Kind
  | .container k _ _ _ => .container k
  | .leaf k _ => .leaf k
  | .member k _ _ => .member k

def children : Decl → List Decl
  | .container _ _ cs _ => cs
  | _ => []

def trailing : Decl → List String
  | .container _ _ _ t => t
  | _ => []

def id (d : Decl) : Nat := d.header.id
def name (d : Decl) : String := d.header.name
def location (d : Decl) : Option Location := d.header.location
def annotations (d : Decl) : List Annot := d.header.annotations

def isContainer : Decl → Bool
  | .container .. => true
  | _ => false

def isMember (d : Decl) : Bool := d.kind.isMember

def key (d : Decl) : Key := ⟨d.name, d.isMember⟩

def mapHeader (f : Header → Header) : Decl → Decl
  | .container k h cs t => .container k (f h) cs t
  | .leaf k h => .leaf k (f h)
  | .member k h o => .member k (f h) o

def mapChildren (f : List Decl → List Decl) : Decl → Decl
  | .container k h cs t => .container k h (f cs) t
  | d => d

def withLocation (d : Decl) (location : Option Location) : Decl :=
  d.mapHeader fun h => { h with location }

def hollow (d : Decl) : Decl := d.mapChildren fun _ => []

@[simp] theorem header_mapHeader (f : Header → Header) (d : Decl) :
    (d.mapHeader f).header = f d.header := by cases d <;> rfl

@[simp] theorem kind_mapHeader (f : Header → Header) (d : Decl) :
    (d.mapHeader f).kind = d.kind := by cases d <;> rfl

@[simp] theorem children_mapHeader (f : Header → Header) (d : Decl) :
    (d.mapHeader f).children = d.children := by cases d <;> rfl

@[simp] theorem header_mapChildren (f : List Decl → List Decl) (d : Decl) :
    (d.mapChildren f).header = d.header := by cases d <;> rfl

@[simp] theorem kind_mapChildren (f : List Decl → List Decl) (d : Decl) :
    (d.mapChildren f).kind = d.kind := by cases d <;> rfl

@[simp] theorem children_hollow (d : Decl) : d.hollow.children = [] := by cases d <;> rfl

end Decl

inductive KindFault
  | unknown (label : String)
  | notContainer (kind : Kind)
  | notLeaf (kind : Kind)
  | notMember (kind : Kind)
deriving DecidableEq, Repr

def KindFault.message : KindFault → String
  | .unknown label => s!"{Text.Quoted.encode label} is not a valid NodeKind"
  | .notContainer kind => s!"{kind.label} is not a container kind"
  | .notLeaf kind => s!"{kind.label} is not a declaration kind"
  | .notMember kind => s!"{kind.label} is not a member kind"

namespace Decl

def container? (kind : Kind) (header : Header) (children : List Decl) (trailing : List String) :
    Except KindFault Decl :=
  match kind with
  | .container k => .ok (.container k header children trailing)
  | k => .error (.notContainer k)

def leaf? (kind : Kind) (header : Header) : Except KindFault Decl :=
  match kind with
  | .leaf k => .ok (.leaf k header)
  | k => .error (.notLeaf k)

def member? (kind : Kind) (header : Header) (oldName : Option String) : Except KindFault Decl :=
  match kind with
  | .member k => .ok (.member k header oldName)
  | k => .error (.notMember k)

end Decl
end SignatureLayers
