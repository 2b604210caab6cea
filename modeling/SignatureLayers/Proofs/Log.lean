import SignatureLayers.Proofs.LocalMerge

namespace SignatureLayers

/-- Engines that differ in their logs alone. -/
def Engine.Alike (e e' : Engine) : Prop := ∃ log, e' = { e with log }

theorem Engine.Alike.trans {e₁ e₂ e₃ : Engine} (h : e₁.Alike e₂) (h' : e₂.Alike e₃) :
    e₁.Alike e₃ := by
  obtain ⟨_, rfl⟩ := h
  obtain ⟨log, rfl⟩ := h'
  exact ⟨log, rfl⟩

namespace Merge
variable {α β : Type} {m : Merge α}

/-- Results of a step on engines that differ in their logs alone. -/
inductive Agree : EStateM.Result EditFault Engine α → EStateM.Result EditFault Engine α → Prop
  | ok (a : α) {e e' : Engine} (h : e.Alike e') : Agree (.ok a e) (.ok a e')
  | error (fault : EditFault) {e e' : Engine} (h : e.Alike e') :
    Agree (.error fault e) (.error fault e')

/-- A step that does not look at the log. -/
structure Blind (m : Merge α) : Prop where
  agree : ∀ e e', e.Alike e' → Agree (m e) (m e')

theorem blind_pure (a : α) : Blind (pure a) := ⟨fun _ _ h => .ok a h⟩

theorem blind_throw (fault : EditFault) : Blind (throw fault : Merge α) :=
  ⟨fun _ _ h => .error fault h⟩

theorem blind_modify {f : Engine → Engine} (h : ∀ e log, (f e).Alike (f { e with log })) :
    Blind (modify f) := by
  constructor
  rintro e _ ⟨log, rfl⟩
  exact .ok () (h e log)

theorem Blind.bind {f : α → Merge β} (hm : Blind m) (hf : ∀ a, Blind (f a)) :
    Blind (m >>= f) := by
  refine ⟨fun e e' h => ?_⟩
  have hfirst := hm.agree e e' h
  show Agree (EStateM.bind m f e) (EStateM.bind m f e')
  unfold EStateM.bind
  revert hfirst
  generalize m e = r
  generalize m e' = r'
  rintro (⟨a, h⟩ | ⟨fault, h⟩)
  · exact (hf a).agree _ _ h
  · exact .error fault h

theorem blind_get {f : Engine → Merge β} (hf : ∀ e, Blind (f e))
    (hlog : ∀ e log, f { e with log } = f e) : Blind (get >>= f) := by
  constructor
  rintro e _ ⟨log, rfl⟩
  show Agree (f e e) (f { e with log } { e with log })
  rw [hlog e log]
  exact (hf e).agree e _ ⟨log, rfl⟩

theorem blind_lift (x : Except EditFault α) : Blind (lift x) := by
  cases x with
  | ok a => exact blind_pure a
  | error e => exact blind_throw e

theorem blind_forM {f : α → Merge Unit} (hf : ∀ a, Blind (f a)) (l : List α) :
    Blind (l.forM f) := by
  induction l with
  | nil => exact blind_pure ()
  | cons a l ih => exact (hf a).bind fun _ => ih

theorem blind_notify (notices : List Notice) : Blind (notify notices) :=
  blind_modify fun _ _ => ⟨_, rfl⟩

theorem blind_childrenOf (o : Owner) : Blind (childrenOf o) :=
  blind_get (fun _ => blind_pure _) fun _ _ => rfl

theorem blind_setChildren (o : Owner) (children : Forest) : Blind (setChildren o children) :=
  blind_modify fun _ log => ⟨log, rfl⟩

theorem blind_setIndex (i : Index) : Blind (setIndex i) := blind_modify fun _ log => ⟨log, rfl⟩

theorem blind_retire (d : Decl) : Blind (retire d) := blind_modify fun _ log => ⟨log, rfl⟩

theorem blind_change (r : Ref) (f : Decl → Decl) : Blind (change r f) :=
  blind_modify fun _ log => ⟨log, rfl⟩

theorem blind_qualifiedName (o : Owner) (d : Decl) : Blind (qualifiedName o d) :=
  blind_get (fun _ => blind_lift _) fun _ _ => rfl

theorem blind_locationOf (r : Ref) : Blind (locationOf r) :=
  blind_get (fun _ => blind_pure _) fun _ _ => rfl

theorem blind_positionOf (entry : Entry) : Blind (positionOf entry) := by
  refine blind_get (fun e => ?_) fun _ _ => rfl
  cases h : entry.position? e.tree with
  | none => simp only [h]; exact blind_throw _
  | some p => simp only [h]; exact blind_pure p

theorem blind_reportInserted (o : Owner) (d : Decl) : Blind (reportInserted o d) :=
  blind_get (fun _ => (blind_childrenOf o).bind fun _ => (blind_lift _).bind fun _ =>
    (blind_setIndex _).bind fun _ => blind_notify _) fun _ _ => rfl

theorem blind_reportRemoved (o : Owner) (d : Decl) : Blind (reportRemoved o d) :=
  blind_get (fun _ => (blind_childrenOf o).bind fun _ => (blind_lift _).bind blind_setIndex)
    fun _ _ => rfl

theorem blind_reportMoved (o : Owner) (key : Key) : Blind (reportMoved o key) :=
  blind_get (fun _ => (blind_childrenOf o).bind fun _ => (blind_lift _).bind blind_setIndex)
    fun _ _ => rfl

theorem blind_insertAt (o : Owner) (position : Nat) (d : Decl) : Blind (insertAt o position d) :=
  (blind_childrenOf o).bind fun _ => (blind_setChildren o _).bind fun _ => blind_reportInserted o d

theorem blind_removeAt (o : Owner) (position : Nat) : Blind (removeAt o position) := by
  refine (blind_childrenOf o).bind fun children => ?_
  cases children[position]? with
  | none => exact blind_throw _
  | some d =>
    exact (blind_setChildren o _).bind fun _ => (blind_retire d).bind fun _ =>
      blind_reportRemoved o d

theorem blind_replaceAt (o : Owner) (position : Nat) (d : Decl) :
    Blind (replaceAt o position d) := by
  refine (blind_childrenOf o).bind fun children => ?_
  cases children[position]? with
  | none => exact blind_throw _
  | some old =>
    exact (blind_setChildren o _).bind fun _ => (blind_retire old).bind fun _ =>
      (blind_reportRemoved o old).bind fun _ => blind_reportInserted o d

theorem blind_moveBeside (o : Owner) (source target : Nat) (after : Bool) :
    Blind (moveBeside o source target after) := by
  refine (blind_childrenOf o).bind fun children => ?_
  cases children.moveBeside? source target after with
  | none => exact blind_throw _
  | some children => exact blind_setChildren o children

theorem blind_syncSibling (moved : Ref) (name anchor : String) (after : Bool) (sibling : Decl) :
    Blind (syncSibling moved name anchor after sibling) := by
  unfold syncSibling
  split
  · exact blind_pure ()
  · dsimp only
    split
    · split
      · exact blind_pure ()
      · refine (blind_moveBeside ..).bind fun _ => ?_
        split
        · exact blind_reportMoved ..
        · exact blind_pure ()
    · exact blind_pure ()

theorem blind_relocate (o : Owner) (existing : Entry) (d : Decl) (side : Side) (anchor : String) :
    Blind (relocate o existing d side anchor) := by
  refine blind_get (fun e => (blind_lift _).bind fun found => ?_) fun _ _ => rfl
  cases found with
  | none => exact (blind_qualifiedName o d).bind fun _ => blind_notify _
  | some target =>
    dsimp only
    split
    · exact (blind_qualifiedName o d).bind fun _ => blind_notify _
    · refine (blind_positionOf existing).bind fun _ => (blind_positionOf target).bind fun _ =>
        (blind_moveBeside ..).bind fun _ => (blind_locationOf _).bind fun _ =>
          (blind_change ..).bind fun _ => (blind_reportMoved ..).bind fun _ =>
            blind_get (fun e => ?_) fun _ _ => rfl
      split
      · exact (blind_childrenOf o).bind fun children =>
          blind_forM (blind_syncSibling _ _ _ _) children
      · exact blind_pure ()

theorem blind_insertHollow (o : Owner) (position : Nat) (d : Decl) :
    Blind (insertHollow o position d) :=
  (blind_insertAt ..).bind fun _ => blind_pure _

theorem blind_absorb (existing : Ref) (d : Decl) : Blind (absorb existing d) :=
  (blind_change ..).bind fun _ => blind_pure _

theorem blind_override (o : Owner) (d : Decl) (existing : Option Entry) (token : Nat) :
    Blind (override o d existing token) := by
  cases existing with
  | none =>
    exact (blind_qualifiedName o d).bind fun _ => (blind_notify _).bind fun _ => blind_pure _
  | some e =>
    refine (blind_locationOf _).bind fun _ => (blind_childrenOf o).bind fun children => ?_
    split
    · exact blind_throw _
    · exact (blind_forM (blind_removeAt o) _).bind fun _ => (blind_replaceAt ..).bind fun _ =>
        blind_pure _

theorem blind_delete (o : Owner) (d : Decl) (existing : Option Entry) :
    Blind (delete o d existing) := by
  cases existing with
  | none =>
    exact (blind_qualifiedName o d).bind fun _ => (blind_notify _).bind fun _ => blind_pure _
  | some e =>
    exact (blind_childrenOf o).bind fun _ => (blind_forM (blind_removeAt o) _).bind fun _ =>
      blind_pure _

theorem blind_insertBeside (o : Owner) (d : Decl) (existing : Option Entry) (token : Nat)
    (side : Side) (anchor : String) : Blind (insertBeside o d existing token side anchor) := by
  unfold insertBeside
  split
  · exact (blind_relocate ..).bind fun _ => blind_absorb ..
  · refine blind_get (fun e => (blind_lift _).bind fun found => ?_) fun _ _ => rfl
    cases found with
    | none =>
      exact (blind_qualifiedName o d).bind fun _ => (blind_notify _).bind fun _ => blind_pure _
    | some target =>
      exact (blind_locationOf _).bind fun _ => (blind_positionOf target).bind fun _ =>
        blind_insertHollow ..

theorem blind_placeVariable (o : Owner) (d : Decl) : Blind (placeVariable o d) := by
  refine (blind_childrenOf o).bind fun children => ?_
  split <;> exact blind_insertHollow ..

theorem blind_add (o : Owner) (fresh : Bool) (d : Decl) (existing : Option Entry) :
    Blind (add o fresh d existing) := by
  unfold add
  split
  · exact blind_absorb ..
  · refine (blind_childrenOf o).bind fun children => ?_
    have hnew : Blind (insertHollow o children.length d) := blind_insertHollow ..
    split
    · split
      · exact (blind_notify _).bind fun _ => blind_pure _
      · exact blind_insertHollow ..
    split
    · exact hnew
    split
    · split
      · exact (blind_qualifiedName o d).bind fun _ => (blind_notify _).bind fun _ => blind_pure _
      · exact blind_placeVariable o d
    split
    · exact blind_pure _
    · exact hnew

theorem blind_existing? (o : Owner) (d : Decl) : Blind (existing? o d) :=
  blind_get (fun _ => (blind_qualifiedName o d).bind fun _ => blind_pure _) fun _ _ => rfl

theorem blind_settle (o : Owner) (fresh : Bool) (d : Decl) : Blind (settle o fresh d) := by
  refine (blind_existing? o d).bind fun existing => ?_
  split
  · exact blind_add ..
  · exact blind_override ..
  · exact blind_delete ..
  · exact blind_insertBeside ..

theorem blind_mergeAll (o : Owner) (fresh : Bool) (layer : Forest) :
    Blind (mergeAll o fresh layer) := by
  induction layer using Forest.induct generalizing o fresh with
  | nil =>
    rw [mergeAll_nil]
    exact blind_pure ()
  | cons d rest inner tail =>
    rw [mergeAll_cons]
    refine (blind_settle o fresh d).bind fun into => ?_
    have hinto : Blind (mergeInto d.children into) := by
      cases into with
      | none => exact blind_pure ()
      | some into => exact inner into.owner into.fresh
    exact hinto.bind fun _ => tail o fresh

end Merge

/-- A layer makes the same of engines that differ in their logs alone. -/
theorem Engine.mergeLayer_alike {e e' : Engine} (h : e.Alike e') (layer : Forest) :
    (e'.mergeLayer layer).1 = (e.mergeLayer layer).1 ∧
      (e.mergeLayer layer).2.Alike (e'.mergeLayer layer).2 := by
  obtain ⟨log, rfl⟩ := h
  let started : Engine := { e with next := (layer.number e.next).2 }
  have hmerged := (Merge.blind_mergeAll .root false (layer.number e.next).1).agree started
    { started with log } ⟨log, rfl⟩
  revert hmerged
  simp only [Engine.mergeLayer, started]
  generalize Merge.mergeAll .root false (layer.number e.next).1 _ = r
  generalize Merge.mergeAll .root false (layer.number e.next).1 _ = r'
  rintro (⟨_, h⟩ | ⟨fault, h⟩)
  · exact ⟨rfl, h⟩
  · exact ⟨rfl, h⟩

end SignatureLayers
