import Mathlib.Data.List.Basic
import SignatureLayers.Proofs.Context

namespace SignatureLayers

namespace Forest

def anonymous : Forest → Forest
  | [] => []
  | .container k h cs t :: rest =>
    .container k { h with id := 0 } (anonymous cs) t :: anonymous rest
  | d :: rest => d.mapHeader (fun h => { h with id := 0 }) :: anonymous rest

end Forest

namespace Decl

def anonymous (d : Decl) : Decl :=
  (d.mapHeader fun h => { h with id := 0 }).mapChildren Forest.anonymous

variable (d : Decl)

@[simp] theorem kind_anonymous : d.anonymous.kind = d.kind := by cases d <;> rfl

@[simp] theorem name_anonymous : d.anonymous.name = d.name := by cases d <;> rfl

@[simp] theorem annotations_anonymous : d.anonymous.annotations = d.annotations := by
  cases d <;> rfl

@[simp] theorem location_anonymous : d.anonymous.location = d.location := by cases d <;> rfl

@[simp] theorem trailing_anonymous : d.anonymous.trailing = d.trailing := by cases d <;> rfl

@[simp] theorem isContainer_anonymous : d.anonymous.isContainer = d.isContainer := by
  cases d <;> rfl

@[simp] theorem key_anonymous : d.anonymous.key = d.key := by cases d <;> rfl

@[simp] theorem children_anonymous : d.anonymous.children = Forest.anonymous d.children := by
  cases d with
  | container => rfl
  | leaf | member => simp [anonymous, mapHeader, mapChildren, children, Forest.anonymous]

end Decl

namespace Forest

theorem anonymous_cons (d : Decl) (rest : Forest) :
    anonymous (d :: rest) = d.anonymous :: anonymous rest := by
  cases d <;> simp [anonymous, Decl.anonymous, Decl.mapHeader, Decl.mapChildren]

theorem anonymous_eq_map (f : Forest) : anonymous f = f.map Decl.anonymous := by
  induction f with
  | nil => simp [anonymous]
  | cons d rest ih => rw [anonymous_cons, ih, List.map_cons]

theorem preorder_anonymous (f : Forest) :
    preorder (anonymous f) = (preorder f).map Decl.anonymous := by
  induction f using Forest.induct with
  | nil => simp [anonymous]
  | cons d rest inner tail =>
    rw [anonymous_cons, preorder_cons, preorder_cons, Decl.children_anonymous, inner, tail,
      List.map_cons, List.map_append]

def numbered (next : Nat) (d : Decl) : Decl :=
  (d.mapHeader fun h => { h with id := next }).mapChildren fun cs => (number (next + 1) cs).1

theorem number_cons (next : Nat) (d : Decl) (rest : Forest) :
    (number next (d :: rest)).1 =
      numbered next d :: (number (next + 1 + size d.children) rest).1 := by
  cases d with
  | container k h cs t =>
    simp only [number, number_snd]
    rfl
  | leaf | member =>
    simp only [number, Decl.children, size, Nat.add_zero]
    rfl

theorem children_numbered (next : Nat) (d : Decl) :
    (numbered next d).children = (number (next + 1) d.children).1 := by
  cases d with
  | container => rfl
  | leaf | member =>
    simp only [numbered, Decl.mapHeader, Decl.mapChildren, Decl.children, number]

theorem anonymous_numbered (next : Nat) (d : Decl)
    (h : anonymous (number (next + 1) d.children).1 = anonymous d.children) :
    (numbered next d).anonymous = d.anonymous := by
  cases d with
  | container k header cs t =>
    simp only [numbered, Decl.anonymous, Decl.mapHeader, Decl.mapChildren]
    congr 1
  | leaf | member => rfl

theorem anonymous_number (next : Nat) (f : Forest) : anonymous (number next f).1 = anonymous f := by
  induction f using Forest.induct generalizing next with
  | nil => rw [number]
  | cons d rest inner tail =>
    rw [number_cons, anonymous_cons, anonymous_cons, tail, anonymous_numbered next d (inner _)]

section Blind
variable {p : Decl → Prop} (hp : ∀ d, p d.anonymous ↔ p d)
include hp

theorem forall_anonymous_iff {f : Forest} :
    (∀ d ∈ preorder (anonymous f), p d) ↔ ∀ d ∈ preorder f, p d := by
  rw [preorder_anonymous, List.forall_mem_map]
  exact forall₂_congr fun d _ => hp d

/-- What does not speak of identities holds of a numbered forest as it does of the forest. -/
theorem forall_number_iff {next : Nat} {f : Forest} :
    (∀ d ∈ preorder (number next f).1, p d) ↔ ∀ d ∈ preorder f, p d := by
  rw [← forall_anonymous_iff hp, anonymous_number, forall_anonymous_iff hp]

end Blind
end Forest
end SignatureLayers
