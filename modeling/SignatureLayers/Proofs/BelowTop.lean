import SignatureLayers.Proofs.LocalMerge

namespace SignatureLayers

open Forest
open Merge (absorbTrailing)

/-- What the siblings of a declaration can tell of it. -/
def Decl.shape (d : Decl) : Nat × Kind × String := (d.id, d.kind, d.name)

namespace Decl
variable {d d' : Decl}

theorem id_of_shape (h : d'.shape = d.shape) : d'.id = d.id := congrArg Prod.fst h

theorem kind_of_shape (h : d'.shape = d.shape) : d'.kind = d.kind := congrArg (·.2.1) h

theorem name_of_shape (h : d'.shape = d.shape) : d'.name = d.name := congrArg (·.2.2) h

theorem key_of_shape (h : d'.shape = d.shape) : d'.key = d.key := by
  rw [key, key, isMember, isMember, kind_of_shape h, name_of_shape h]

theorem ref_of_shape (h : d'.shape = d.shape) : d'.ref = d.ref := by
  have hkind := kind_of_shape h
  have hcontainer : d'.isContainer = d.isContainer := by
    cases d <;> cases d' <;> cases hkind <;> rfl
  rw [ref, ref, hcontainer, id_of_shape h]

theorem shape_withLocation (d : Decl) (location : Option Location) :
    (d.withLocation location).shape = d.shape := by cases d <;> rfl

theorem shape_absorbTrailing (more : List String) (d : Decl) :
    (absorbTrailing more d).shape = d.shape := by cases d <;> rfl

theorem shape_mapChildren (f : List Decl → List Decl) (d : Decl) :
    (d.mapChildren f).shape = d.shape := by cases d <;> rfl

theorem PutAs.shape (h : d.PutAs d') : d'.shape = d.shape := by
  obtain ⟨_, _, -, rfl⟩ := h
  cases d <;> rfl

end Decl

namespace Forest
variable {f g : Forest}

def shapes (f : Forest) : List (Nat × Kind × String) := f.map Decl.shape

theorem shapes_append (f g : Forest) : shapes (f ++ g) = shapes f ++ shapes g := List.map_append

theorem shapes_cons (d : Decl) (f : Forest) : shapes (d :: f) = d.shape :: shapes f := rfl

theorem map_id_of_shapes (h : shapes f = shapes g) : f.map Decl.id = g.map Decl.id := by
  have hmap := congrArg (List.map Prod.fst) h
  rwa [shapes, shapes, List.map_map, List.map_map] at hmap

theorem first?_of_shapes (h : shapes f = shapes g) : first? f = first? g := by
  funext key
  induction f generalizing g with
  | nil => rw [List.map_eq_nil_iff.1 h.symm]
  | cons d f ih =>
    obtain ⟨d', g, rfl, hd, hg⟩ := List.map_eq_cons_iff.1 h.symm
    rw [first?_cons, first?_cons, Decl.key_of_shape hd, Decl.ref_of_shape hd, ih hg.symm]

theorem shapes_update (id : Nat) {h : Decl → Decl} (hh : ∀ d, (h d).shape = d.shape) (f : Forest) :
    shapes (update id h f) = shapes f := by
  induction f with
  | nil => rw [update]
  | cons d f ih =>
    rw [update_cons, shapes_cons, shapes_cons, ih]
    split
    · rw [hh]
    · rw [Decl.shape_mapChildren]

end Forest

namespace Index

theorem view_root_enter (i : Index) (id : Nat) (path : List String) (children : Forest) :
    (i.enter (.container id) path children).view .root = i.view .root := by
  have hset : ∀ (l : List (Owner × Scope)) (i : Index), .root ∉ l.map Prod.fst →
      (l.foldl (fun i s => i.set s.1 s.2) i).view .root = i.view .root := by
    intro l
    induction l with
    | nil => exact fun _ _ => rfl
    | cons s l ih =>
      intro i hroot
      rw [List.map_cons, List.mem_cons, not_or] at hroot
      rw [List.foldl_cons, ih _ hroot.2, view_set, if_neg hroot.1]
  refine hset _ i ?_
  rw [List.map_cons, map_fst_nested, List.mem_cons, not_or]
  exact ⟨nofun, root_not_mem_owners children⟩

theorem view_root_set {o : Owner} (ho : o ≠ .root) (i : Index) (s : Scope) :
    (i.set o s).view .root = i.view .root := by
  rw [view_set, if_neg (Ne.symm ho)]

theorem view_root_inserted {i i' : Index} {o : Owner} {children : Forest} {d : Decl}
    {notices : List Notice} (ho : o ≠ .root)
    (h : i.inserted o children d = .ok (i', notices)) : i'.view .root = i.view .root := by
  cases hs : i.scope? o with
  | none =>
    rw [inserted, hs] at h
    cases h
  | some s =>
    obtain ⟨s', _, -, -, hok⟩ := inserted_eq hs children d
    obtain ⟨rfl, -⟩ := Prod.mk.inj (Except.ok.inj (h.symm.trans hok))
    split
    · rw [view_root_enter, view_root_set ho]
    · exact view_root_set ho i s'

theorem view_root_removed {i i' : Index} {o : Owner} {children : Forest} {d : Decl}
    (ho : o ≠ .root) (h : i.removed o children d = .ok i') : i'.view .root = i.view .root := by
  cases hs : i.scope? o with
  | none =>
    rw [removed, hs] at h
    cases h
  | some s =>
    rw [removed, hs] at h
    cases h
    split
    · rw [view_forget, if_neg (root_not_mem_owners _)]
      split
      · exact view_root_set ho i _
      · rfl
    · split
      · exact view_root_set ho i _
      · rfl

theorem view_root_moved {i i' : Index} {o : Owner} {children : Forest} {key : Key}
    (ho : o ≠ .root) (h : i.moved o children key = .ok i') : i'.view .root = i.view .root := by
  cases hs : i.scope? o with
  | none =>
    rw [moved, hs] at h
    cases h
  | some s =>
    rw [moved, hs] at h
    cases h
    exact view_root_set ho i _

end Index

/-- The tops of two trees look the same, and so does what their indexes know of them. -/
structure Engine.SameTop (e e' : Engine) : Prop where
  view : e'.index.view .root = e.index.view .root
  same : shapes e'.tree = shapes e.tree
  next : e'.next = e.next

namespace Engine.SameTop
variable {e₁ e₂ e₃ : Engine}

theorem refl (e : Engine) : e.SameTop e := ⟨rfl, rfl, rfl⟩

theorem trans (h : e₁.SameTop e₂) (h' : e₂.SameTop e₃) : e₁.SameTop e₃ :=
  ⟨h'.view.trans h.view, h'.same.trans h.same, h'.next.trans h.next⟩

end Engine.SameTop

namespace Merge
variable {α β : Type} {m : Merge α} {o : Owner} {d : Decl} {e e' : Engine}

/-- A run ends in `Q`, or with a fault in `R`. -/
def Ends (Q : α → Engine → Prop) (R : Engine → Prop) : EStateM.Result EditFault Engine α → Prop
  | .ok a e => Q a e
  | .error _ e => R e

section Ends
variable {Q Q' : α → Engine → Prop} {R R' : Engine → Prop}

theorem Ends.mono {r : EStateM.Result EditFault Engine α} (h : Ends Q R r)
    (hQ : ∀ a e, Q a e → Q' a e) (hR : ∀ e, R e → R' e) : Ends Q' R' r := by
  cases r with
  | ok a e => exact hQ a e h
  | error fault e => exact hR e h

theorem Ends.bind {P : β → Engine → Prop} {f : α → Merge β} (h : Ends Q R (m e))
    (hf : ∀ a e', Q a e' → Ends P R (f a e')) : Ends P R ((m >>= f) e) := by
  show Ends P R (EStateM.bind m f e)
  unfold EStateM.bind
  revert h
  generalize m e = r
  cases r with
  | ok a e' => exact hf a e'
  | error fault e' => exact id

theorem Ends.after {P : β → Engine → Prop} {f : α → Merge β} {a : α} (hm : m e = .ok a e')
    (h : Ends P R (f a e')) : Ends P R ((m >>= f) e) := by
  rwa [bind_apply hm]

theorem Ends.lift {P : β → Engine → Prop} {x : Except EditFault α} {f : α → Merge β} (he : R e)
    (h : ∀ a, x = .ok a → Ends P R (f a e)) : Ends P R ((lift x >>= f) e) := by
  cases x with
  | ok a => exact h a rfl
  | error fault => exact he

end Ends

/-- A step that leaves the top of the tree as it is, with a fault or without, and returns what `Q`
says. -/
def Keeps (m : Merge α) (Q : α → Prop) : Prop :=
  ∀ e : Engine, Ends (fun a e' => e.SameTop e' ∧ Q a) e.SameTop (m e)

abbrev Any : α → Prop := fun _ => True

variable {Q : α → Prop}

theorem keeps_pure {a : α} (h : Q a) : Keeps (pure a) Q := fun e => ⟨.refl e, h⟩

theorem keeps_throw (fault : EditFault) : Keeps (throw fault : Merge α) Q :=
  fun e => Engine.SameTop.refl e

theorem Keeps.bind {P : β → Prop} {f : α → Merge β} (hm : Keeps m Q)
    (hf : ∀ a, Q a → Keeps (f a) P) : Keeps (m >>= f) P := fun e =>
  (hm e).bind (R := e.SameTop) fun a e' h => (hf a h.2 e').mono
    (fun _ _ h' => ⟨h.1.trans h'.1, h'.2⟩) fun _ h' => h.1.trans h'

theorem keeps_get {f : Engine → Merge α} (hf : ∀ e, Keeps (f e) Q) : Keeps (get >>= f) Q :=
  fun e => hf e e

theorem keeps_modify {f : Engine → Engine} (h : ∀ e : Engine, e.SameTop (f e)) :
    Keeps (modify f) Any :=
  fun e => ⟨h e, trivial⟩

theorem keeps_lift (x : Except EditFault α) : Keeps (lift x) Any := by
  cases x with
  | ok a => exact keeps_pure trivial
  | error fault => exact keeps_throw fault

theorem keeps_forM {f : α → Merge Unit} (hf : ∀ a, Keeps (f a) Any) (l : List α) :
    Keeps (l.forM f) Any := by
  induction l with
  | nil => exact keeps_pure trivial
  | cons a l ih => exact (hf a).bind fun _ _ => ih

theorem keeps_notify (notices : List Notice) : Keeps (notify notices) Any :=
  keeps_modify fun _ => ⟨rfl, rfl, rfl⟩

theorem keeps_retire (d : Decl) : Keeps (retire d) Any := keeps_modify fun _ => ⟨rfl, rfl, rfl⟩

theorem keeps_change (r : Ref) {f : Decl → Decl} (hf : ∀ d, (f d).shape = d.shape) :
    Keeps (change r f) Any :=
  keeps_modify fun e => ⟨rfl, shapes_update r.id hf e.tree, rfl⟩

theorem keeps_childrenOf (o : Owner) : Keeps (childrenOf o) Any :=
  keeps_get fun _ => keeps_pure trivial

theorem keeps_qualifiedName (o : Owner) (d : Decl) : Keeps (qualifiedName o d) Any :=
  keeps_get fun _ => keeps_lift _

theorem keeps_locationOf (r : Ref) : Keeps (locationOf r) Any :=
  keeps_get fun _ => keeps_pure trivial

theorem keeps_positionOf (entry : Entry) : Keeps (positionOf entry) Any := by
  refine keeps_get fun e => ?_
  cases h : entry.position? e.tree with
  | none => simp only [h]; exact keeps_throw _
  | some p => simp only [h]; exact keeps_pure trivial

theorem keeps_existing? (o : Owner) (d : Decl) : Keeps (existing? o d) Any :=
  keeps_get fun _ => (keeps_qualifiedName o d).bind fun _ _ => keeps_pure trivial

theorem keeps_setChildren (ho : o ≠ .root) (children : Forest) :
    Keeps (setChildren o children) Any := by
  cases o with
  | root => exact absurd rfl ho
  | container id =>
    exact keeps_modify fun e => ⟨rfl, shapes_update id (Decl.shape_mapChildren _) e.tree, rfl⟩

theorem keeps_reportInserted (ho : o ≠ .root) (d : Decl) : Keeps (reportInserted o d) Any :=
  fun e => Ends.lift (.refl e) fun _ h => ⟨⟨Index.view_root_inserted ho h, rfl, rfl⟩, trivial⟩

theorem keeps_reportRemoved (ho : o ≠ .root) (d : Decl) : Keeps (reportRemoved o d) Any :=
  fun e => Ends.lift (.refl e) fun _ h => ⟨⟨Index.view_root_removed ho h, rfl, rfl⟩, trivial⟩

theorem keeps_reportMoved (ho : o ≠ .root) (key : Key) : Keeps (reportMoved o key) Any :=
  fun e => Ends.lift (.refl e) fun _ h => ⟨⟨Index.view_root_moved ho h, rfl, rfl⟩, trivial⟩

theorem keeps_insertAt (ho : o ≠ .root) (position : Nat) (d : Decl) :
    Keeps (insertAt o position d) Any :=
  (keeps_childrenOf o).bind fun _ _ => (keeps_setChildren ho _).bind fun _ _ =>
    keeps_reportInserted ho d

theorem keeps_removeAt (ho : o ≠ .root) (position : Nat) : Keeps (removeAt o position) Any := by
  refine (keeps_childrenOf o).bind fun children _ => ?_
  cases children[position]? with
  | none => exact keeps_throw _
  | some d =>
    exact (keeps_setChildren ho _).bind fun _ _ => (keeps_retire d).bind fun _ _ =>
      keeps_reportRemoved ho d

theorem keeps_replaceAt (ho : o ≠ .root) (position : Nat) (d : Decl) :
    Keeps (replaceAt o position d) Any := by
  refine (keeps_childrenOf o).bind fun children _ => ?_
  cases children[position]? with
  | none => exact keeps_throw _
  | some old =>
    exact (keeps_setChildren ho _).bind fun _ _ => (keeps_retire old).bind fun _ _ =>
      (keeps_reportRemoved ho old).bind fun _ _ => keeps_reportInserted ho d

theorem keeps_moveBeside (ho : o ≠ .root) (source target : Nat) (after : Bool) :
    Keeps (moveBeside o source target after) Any := by
  refine (keeps_childrenOf o).bind fun children _ => ?_
  cases children.moveBeside? source target after with
  | none => exact keeps_throw _
  | some children => exact keeps_setChildren ho children

theorem keeps_syncSibling (moved : Ref) (name anchor : String) (after : Bool) (sibling : Decl) :
    Keeps (syncSibling moved name anchor after sibling) Any := by
  have hne : Owner.container sibling.id ≠ .root := nofun
  unfold syncSibling
  split
  · exact keeps_pure trivial
  · dsimp only
    split
    · split
      · exact keeps_pure trivial
      · refine (keeps_moveBeside hne _ _ _).bind fun _ _ => ?_
        split
        · exact keeps_reportMoved hne _
        · exact keeps_pure trivial
    · exact keeps_pure trivial

theorem keeps_relocate (ho : o ≠ .root) (existing : Entry) (d : Decl) (side : Side)
    (anchor : String) : Keeps (relocate o existing d side anchor) Any := by
  refine keeps_get fun e => (keeps_lift _).bind fun found _ => ?_
  cases found with
  | none => exact (keeps_qualifiedName o d).bind fun _ _ => keeps_notify _
  | some target =>
    dsimp only
    split
    · exact (keeps_qualifiedName o d).bind fun _ _ => keeps_notify _
    · refine (keeps_positionOf existing).bind fun _ _ => (keeps_positionOf target).bind fun _ _ =>
        (keeps_moveBeside ho _ _ _).bind fun _ _ => (keeps_locationOf _).bind fun location _ =>
          (keeps_change _ (Decl.shape_withLocation · location)).bind fun _ _ =>
            (keeps_reportMoved ho _).bind fun _ _ => keeps_get fun e => ?_
      split
      · exact (keeps_childrenOf o).bind fun children _ =>
          keeps_forM (keeps_syncSibling _ _ _ _) children
      · exact keeps_pure trivial

/-- The children of a settled declaration go below the top, if anywhere. -/
def Below (into : Option Destination) : Prop := ∀ x ∈ into, x.owner ≠ .root

theorem below_none : Below none := fun _ h => by cases h

theorem below_container (id : Nat) (fresh : Bool) : Below (some ⟨.container id, fresh⟩) := by
  rintro _ ⟨⟩ h
  cases h

theorem keeps_insertHollow (ho : o ≠ .root) (position : Nat) (d : Decl) :
    Keeps (insertHollow o position d) Below :=
  (keeps_insertAt ho _ _).bind fun _ _ => keeps_pure (below_container _ _)

theorem keeps_absorb (existing : Ref) (d : Decl) : Keeps (absorb existing d) Below :=
  (keeps_change _ (Decl.shape_absorbTrailing d.trailing)).bind fun _ _ =>
    keeps_pure (below_container _ _)

theorem keeps_refused {m : Merge α} (hm : Keeps m Any) (notices : α → List Notice) :
    Keeps (m >>= fun a => notify (notices a) >>= fun _ => pure none) Below :=
  hm.bind fun _ _ => (keeps_notify _).bind fun _ _ => keeps_pure below_none

theorem keeps_override (ho : o ≠ .root) (d : Decl) (existing : Option Entry) (token : Nat) :
    Keeps (override o d existing token) Below := by
  cases existing with
  | none => exact keeps_refused (keeps_qualifiedName o d) _
  | some e =>
    refine (keeps_locationOf _).bind fun _ _ => (keeps_childrenOf o).bind fun children _ => ?_
    split
    · exact keeps_throw _
    · exact (keeps_forM (keeps_removeAt ho) _).bind fun _ _ => (keeps_replaceAt ho _ _).bind
        fun _ _ => keeps_pure (below_container _ _)

theorem keeps_delete (ho : o ≠ .root) (d : Decl) (existing : Option Entry) :
    Keeps (delete o d existing) Below := by
  cases existing with
  | none => exact keeps_refused (keeps_qualifiedName o d) _
  | some e =>
    exact (keeps_childrenOf o).bind fun _ _ => (keeps_forM (keeps_removeAt ho) _).bind fun _ _ =>
      keeps_pure below_none

theorem keeps_insertBeside (ho : o ≠ .root) (d : Decl) (existing : Option Entry) (token : Nat)
    (side : Side) (anchor : String) :
    Keeps (insertBeside o d existing token side anchor) Below := by
  unfold insertBeside
  split
  · exact (keeps_relocate ho _ _ _ _).bind fun _ _ => keeps_absorb _ _
  · refine keeps_get fun e => (keeps_lift _).bind fun found _ => ?_
    cases found with
    | none => exact keeps_refused (keeps_qualifiedName o d) _
    | some target =>
      exact (keeps_locationOf _).bind fun _ _ => (keeps_positionOf target).bind fun _ _ =>
        keeps_insertHollow ho _ _

theorem keeps_placeVariable (ho : o ≠ .root) (d : Decl) : Keeps (placeVariable o d) Below := by
  refine (keeps_childrenOf o).bind fun children _ => ?_
  split <;> exact keeps_insertHollow ho _ _

theorem keeps_add (ho : o ≠ .root) (fresh : Bool) (d : Decl) (existing : Option Entry) :
    Keeps (add o fresh d existing) Below := by
  unfold add
  split
  · exact keeps_absorb _ _
  · refine (keeps_childrenOf o).bind fun children _ => ?_
    have hnew (position : Nat) : Keeps (insertHollow o position d) Below :=
      keeps_insertHollow ho position d
    split
    · split
      · exact (keeps_notify _).bind fun _ _ => keeps_pure below_none
      · exact hnew _
    split
    · exact hnew _
    split
    · split
      · exact keeps_refused (keeps_qualifiedName o d) _
      · exact keeps_placeVariable ho d
    split
    · exact keeps_pure below_none
    · exact hnew _

theorem keeps_settle (ho : o ≠ .root) (fresh : Bool) (d : Decl) :
    Keeps (settle o fresh d) Below := by
  refine (keeps_existing? o d).bind fun existing _ => ?_
  split
  · exact keeps_add ho _ _ _
  · exact keeps_override ho _ _ _
  · exact keeps_delete ho _ _
  · exact keeps_insertBeside ho _ _ _ _ _

/-- A merge into a container leaves the top of the tree as it is. -/
theorem keeps_mergeAll (ho : o ≠ .root) (fresh : Bool) (layer : Forest) :
    Keeps (mergeAll o fresh layer) Any := by
  induction layer using Forest.induct generalizing o fresh with
  | nil =>
    rw [mergeAll_nil]
    exact keeps_pure trivial
  | cons d rest inner tail =>
    rw [mergeAll_cons]
    refine (keeps_settle ho fresh d).bind fun into hinto => ?_
    have hbelow : Keeps (mergeInto d.children into) Any := by
      cases into with
      | none => exact keeps_pure trivial
      | some into => exact inner (hinto into rfl) into.fresh
    exact hbelow.bind fun _ _ => tail ho fresh

end Merge

end SignatureLayers
