import Mathlib.Data.List.Perm.Subperm
import SignatureLayers.Proofs.Calls
import SignatureLayers.Proofs.TopLevel

namespace SignatureLayers

open Forest
open Merge (absorbTrailing usePosition variablePlace?)

namespace Forest
variable {f g new : Forest} {o : Owner} {id : Nat} {more : List (Nat × Kind × String)}

def contents (f : Forest) : List (Nat × Kind × String) := shapes (preorder f)

theorem contents_nil : contents [] = [] := by rw [contents, preorder_nil, shapes, List.map_nil]

theorem contents_cons (d : Decl) (rest : Forest) :
    contents (d :: rest) = d.shape :: (contents d.children ++ contents rest) := by
  rw [contents, preorder_cons, shapes_cons, shapes_append]
  rfl

theorem contents_append (f g : Forest) : contents (f ++ g) = contents f ++ contents g := by
  rw [contents, preorder_append, shapes_append]
  rfl

theorem map_fst_contents (f : Forest) : (contents f).map Prod.fst = ids f := by
  rw [contents, shapes, List.map_map]
  rfl

theorem exists_context (h : .container id ∈ owners f) :
    ∃ (l : Shell) (c : Context) (cs : Forest), f = l.plug (c.plug cs) ∧
      Context.ownerFrom (.container l.header.id) c = .container id := by
  induction f using Forest.induct with
  | nil => simp [owners] at h
  | cons d rest inner tail =>
    rw [owners_cons, List.mem_append, List.mem_append] at h
    rcases h with h | h | h
    · cases d with
      | container k header cs t =>
        exact ⟨⟨[], k, header, t, rest⟩, [], cs, rfl, (List.mem_singleton.1 h).symm⟩
      | leaf | member => simp [Decl.isContainer] at h
    · cases d with
      | container k header cs t =>
        obtain ⟨l, c, ds, hplug, howner⟩ := inner h
        exact ⟨⟨[], k, header, t, rest⟩, l :: c, ds,
          congrArg (fun cs => Decl.container k header cs t :: rest) hplug, howner⟩
      | leaf | member => simp [owners, Decl.children] at h
    · obtain ⟨l, c, ds, rfl, howner⟩ := tail h
      exact ⟨{ l with before := d :: l.before }, c, ds, rfl, howner⟩

theorem updateChildren_absent (h : .container id ∉ owners f) :
    f.childrenOf (.container id) = [] ∧ ∀ g, f.updateChildren (.container id) g = f := by
  induction f using Forest.induct with
  | nil =>
    refine ⟨?_, fun g => by rw [updateChildren, update]⟩
    rw [childrenOf, childrenOf?, node?]
    rfl
  | cons d rest inner tail =>
    rw [owners_cons, List.mem_append, List.mem_append, not_or, not_or] at h
    obtain ⟨hd, hbelow, hrest⟩ := h
    obtain ⟨hchildren, hsame⟩ := inner hbelow
    obtain ⟨hnone, hkept⟩ := tail hrest
    have hleaf (hid : d.id = id) : d.isContainer = false := by
      subst hid
      simpa using hd
    rw [childrenOf, childrenOf?] at hchildren hnone
    constructor
    · rw [childrenOf, childrenOf?, node?_cons]
      split
      · next hid => exact Decl.children_eq_nil (hleaf hid)
      · cases hfound : node? id d.children with
        | none => exact hnone
        | some x =>
          rw [hfound] at hchildren
          exact hchildren
    · intro g
      rw [updateChildren, update_cons, show update id _ rest = rest from hkept g,
        show update id _ = fun cs => update id (·.mapChildren g) cs from rfl]
      split
      · next hid =>
        have := hleaf hid
        cases d with
        | container => cases this
        | leaf | member => rfl
      · cases d with
        | container k header cs t =>
          show Decl.container k header (update id _ cs) t :: rest = _
          rw [show update id _ cs = cs from hsame g]
        | leaf | member => rfl

theorem absent_or_plug (o : Owner) (hn : (ids f).Nodup) :
    (f.childrenOf o = [] ∧ ∀ g, f.updateChildren o g = f) ∨
      ∃ c : Context, c.owner = o ∧ f = c.plug (f.childrenOf o) ∧
        ∀ g, f.updateChildren o g = c.plug (g (f.childrenOf o)) := by
  have hplug (c : Context) (cs : Forest) (hf : f = c.plug cs) :
      f = c.plug (f.childrenOf c.owner) ∧
        ∀ g, f.updateChildren c.owner g = c.plug (g (f.childrenOf c.owner)) := by
    subst hf
    rw [Context.childrenOf_plug hn]
    exact ⟨rfl, fun g => Context.updateChildren_plug g hn⟩
  cases o with
  | root => exact .inr ⟨[], rfl, hplug [] f rfl⟩
  | container id =>
    by_cases h : .container id ∈ owners f
    · obtain ⟨l, c, cs, hf, howner⟩ := exists_context h
      have hlc : Context.owner (l :: c) = .container id := howner
      exact .inr ⟨l :: c, hlc, hlc ▸ hplug (l :: c) cs hf⟩
    · exact .inl (updateChildren_absent h)

theorem exists_around (c : Context) :
    ∃ around, ∀ cs, (contents (c.plug cs)).Perm (around ++ contents cs) := by
  induction c with
  | nil => exact ⟨[], fun cs => .refl _⟩
  | cons l c ih =>
    obtain ⟨around, hc⟩ := ih
    let shell : Decl := .container l.kind l.header [] l.trailing
    refine ⟨contents l.before ++ shell.shape :: contents l.after ++ around, fun cs => ?_⟩
    have hinner : (contents (Context.plug c cs) ++ contents l.after).Perm
        (contents l.after ++ (around ++ contents cs)) :=
      ((hc cs).append_right _).trans List.perm_append_comm
    have hplug : contents (Context.plug (l :: c) cs) =
        contents l.before ++ shell.shape :: (contents (Context.plug c cs) ++ contents l.after) := by
      rw [Context.plug_cons, Shell.plug, contents_append, contents_cons]
      rfl
    rw [hplug, List.append_assoc, List.append_assoc]
    exact (hinner.cons _).append_left _

theorem contents_updateChildren (hn : (ids f).Nodup)
    (hnew : (contents new).Subperm (more ++ contents (f.childrenOf o))) :
    (contents (f.updateChildren o fun _ => new)).Subperm (more ++ contents f) := by
  rcases absent_or_plug o hn with ⟨-, hsame⟩ | ⟨c, -, hf, hupdate⟩
  · rw [hsame]
    exact (List.sublist_append_right _ _).subperm
  · obtain ⟨around, haround⟩ := exists_around c
    have hmiddle : (around ++ (more ++ contents (f.childrenOf o))).Perm (more ++ contents f) :=
      (List.perm_append_comm_assoc ..).trans ((hf ▸ (haround _).symm).append_left more)
    rw [hupdate]
    exact ((haround new).subperm.trans ((List.Subperm.refl around).append hnew)).trans
      hmiddle.subperm

theorem nodup_updateChildren (hn : (ids f).Nodup)
    (hnew : (contents new).Subperm (contents (f.childrenOf o))) :
    (ids (f.updateChildren o fun _ => new)).Nodup := by
  have hnew' : (contents new).Subperm ([] ++ contents (f.childrenOf o)) := hnew
  obtain ⟨l, hl, hsub⟩ := contents_updateChildren hn hnew'
  rw [← map_fst_contents] at hn ⊢
  exact (hl.map _).nodup_iff.1 (hn.sublist (hsub.map _))

/-- When the children of an owner are exchanged, the forest loses no more than they do. -/
theorem contents_updateChildren_spares {P : Nat × Kind × String → Prop} (hn : (ids f).Nodup)
    (hnew : ∀ s ∈ contents (f.childrenOf o), s ∈ contents new ∨ P s) :
    ∀ s ∈ contents f, s ∈ contents (f.updateChildren o fun _ => new) ∨ P s := by
  intro s hs
  rcases absent_or_plug o hn with ⟨-, hsame⟩ | ⟨c, -, hf, hupdate⟩
  · rw [hsame]
    exact .inl hs
  · obtain ⟨around, haround⟩ := exists_around c
    rw [hf, (haround _).mem_iff, List.mem_append] at hs
    rw [hupdate, (haround new).mem_iff, List.mem_append]
    rcases hs with hs | hs
    · exact .inl (.inl hs)
    · exact (hnew s hs).imp_left .inr

theorem contents_update (id : Nat) {h : Decl → Decl} (hshape : ∀ d, (h d).shape = d.shape)
    (hchildren : ∀ d, (h d).children = d.children) (f : Forest) :
    contents (update id h f) = contents f := by
  induction f using Forest.induct with
  | nil => rw [update]
  | cons d rest inner tail =>
    rw [update_cons, contents_cons, contents_cons, tail]
    split
    · rw [hshape, hchildren]
    · rw [Decl.shape_mapChildren]
      cases d with
      | container => exact congrArg (fun l => _ :: (l ++ contents rest)) inner
      | leaf | member => rfl

theorem contents_perm (h : f.Perm g) : (contents f).Perm (contents g) := by
  have hcons (d : Decl) (rest : Forest) : contents (d :: rest) = contents [d] ++ contents rest :=
    contents_append [d] rest
  induction h with
  | nil => exact .refl _
  | @cons d f g _ ih =>
    rw [hcons d f, hcons d g]
    exact ih.append_left _
  | swap d e rest =>
    rw [hcons e (d :: rest), hcons d rest, hcons d (e :: rest), hcons e rest]
    exact List.perm_append_comm_assoc ..
  | trans _ _ ih ih' => exact ih.trans ih'

theorem contents_sublist (h : f.Sublist g) : (contents f).Sublist (contents g) := by
  induction h with
  | slnil => exact .refl _
  | cons d _ ih =>
    rw [contents_cons]
    exact (ih.trans (List.sublist_append_right _ _)).cons _
  | cons_cons d _ ih =>
    rw [contents_cons, contents_cons]
    exact (ih.append_left _).cons_cons _

theorem contents_place (p : Nat) (d : Decl) (f : Forest) :
    (contents (f.place p d)).Perm (contents (d :: f)) := by
  have hperm : (f.place p d).Perm (d :: (f.take p ++ f.drop p)) := List.perm_middle
  rw [List.take_append_drop] at hperm
  exact contents_perm hperm

theorem contents_moveBeside? {source target : Nat} {after : Bool}
    (h : f.moveBeside? source target after = some g) : (contents g).Perm (contents f) := by
  obtain ⟨d, hd, rfl⟩ := Option.map_eq_some_iff.1 h
  obtain ⟨hsource, rfl⟩ := List.getElem?_eq_some_iff.1 hd
  exact (contents_place ..).trans (contents_perm (List.getElem_cons_eraseIdx_perm hsource))

theorem contents_set {p : Nat} {old : Decl} (d : Decl) (h : f[p]? = some old) :
    (contents (f.set p d)).Subperm (contents (d :: f)) := by
  obtain ⟨hp, rfl⟩ := List.getElem?_eq_some_iff.1 h
  have hperm : (f.set p d).Perm (d :: f.eraseIdx p) := by
    rw [List.set_eq_take_append_cons_drop, if_pos hp, List.eraseIdx_eq_take_drop_succ]
    exact List.perm_middle
  exact (contents_perm hperm).subperm.trans
    (contents_sublist ((List.eraseIdx_sublist f p).cons_cons d)).subperm

end Forest

/-- The tree of `e'` holds at most `more` besides what the tree of `e` holds. -/
structure Engine.Gains (more : List (Nat × Kind × String)) (e e' : Engine) : Prop where
  holds : (contents e'.tree).Subperm (more ++ contents e.tree)
  next : e'.next = e.next

namespace Engine.Gains
variable {e e₁ e₂ : Engine} {more xs ys : List (Nat × Kind × String)}

theorem of_tree (htree : e₁.tree = e.tree) (hnext : e₁.next = e.next) : e.Gains more e₁ :=
  ⟨htree ▸ (List.sublist_append_right _ _).subperm, hnext⟩

theorem trans (h : e.Gains xs e₁) (h' : e₁.Gains ys e₂) : e.Gains (xs ++ ys) e₂ := by
  have hperm : (ys ++ (xs ++ contents e.tree)).Perm (xs ++ (ys ++ contents e.tree)) :=
    List.perm_append_comm_assoc ..
  refine ⟨?_, h'.next.trans h.next⟩
  rw [List.append_assoc]
  exact h'.holds.trans (((List.Subperm.refl ys).append h.holds).trans hperm.subperm)

theorem mono (h : e.Gains xs e₁) (hsub : xs.Sublist ys) : e.Gains ys e₁ :=
  ⟨h.holds.trans (hsub.append_right _).subperm, h.next⟩

theorem nodup (h : e.Gains xs e₁) (hn : ((xs ++ ys ++ contents e.tree).map Prod.fst).Nodup) :
    ((ys ++ contents e₁.tree).map Prod.fst).Nodup := by
  have hperm : (ys ++ (xs ++ contents e.tree)).Perm (xs ++ (ys ++ contents e.tree)) :=
    List.perm_append_comm_assoc ..
  rw [List.append_assoc, ← (hperm.map _).nodup_iff] at hn
  obtain ⟨l, hl, hsub⟩ := (List.Subperm.refl ys).append h.holds
  exact (hl.map _).nodup_iff.1 (hn.sublist (hsub.map _))

end Engine.Gains

namespace Merge
variable {α β : Type} {m : Merge α} {more xs ys : List (Nat × Kind × String)} {o : Owner} {d : Decl}
  {e : Engine}

def Still (m : Merge α) : Prop :=
  ∀ e : Engine, Ends (fun _ e' => e'.tree = e.tree ∧ e'.next = e.next)
    (fun e' => e'.tree = e.tree ∧ e'.next = e.next) (m e)

theorem still_pure (a : α) : Still (pure a) := fun _ => ⟨rfl, rfl⟩

theorem still_throw (fault : EditFault) : Still (throw fault : Merge α) := fun _ => ⟨rfl, rfl⟩

theorem Still.bind {f : α → Merge β} (hm : Still m) (hf : ∀ a, Still (f a)) : Still (m >>= f) :=
  fun e => (hm e).bind fun a e' h => (hf a e').mono
    (fun _ _ h' => ⟨h'.1.trans h.1, h'.2.trans h.2⟩) fun _ h' => ⟨h'.1.trans h.1, h'.2.trans h.2⟩

theorem still_get {f : Engine → Merge α} (hf : ∀ e, Still (f e)) : Still (get >>= f) :=
  fun e => hf e e

theorem still_modify {f : Engine → Engine}
    (h : ∀ e, (f e).tree = e.tree ∧ (f e).next = e.next) : Still (modify f) := h

theorem still_lift (x : Except EditFault α) : Still (lift x) := by
  cases x with
  | ok a => exact still_pure a
  | error fault => exact still_throw fault

theorem still_notify (notices : List Notice) : Still (notify notices) :=
  still_modify fun _ => ⟨rfl, rfl⟩

theorem still_retire (d : Decl) : Still (retire d) := still_modify fun _ => ⟨rfl, rfl⟩

theorem still_childrenOf (o : Owner) : Still (childrenOf o) := still_get fun _ => still_pure _

theorem still_qualifiedName (o : Owner) (d : Decl) : Still (qualifiedName o d) :=
  still_get fun _ => still_lift _

theorem still_locationOf (r : Ref) : Still (locationOf r) := still_get fun _ => still_pure _

theorem still_existing? (o : Owner) (d : Decl) : Still (existing? o d) :=
  still_get fun _ => (still_qualifiedName o d).bind fun _ => still_pure _

theorem still_positionOf (entry : Entry) : Still (positionOf entry) := by
  refine still_get fun e => ?_
  cases h : entry.position? e.tree with
  | none => simp only [h]; exact still_throw _
  | some p => simp only [h]; exact still_pure p

theorem still_reportInserted (o : Owner) (d : Decl) : Still (reportInserted o d) :=
  still_get fun _ => (still_childrenOf o).bind fun _ => (still_lift _).bind fun (i, notices) =>
    (still_modify (f := fun e => { e with index := i }) fun _ => ⟨rfl, rfl⟩).bind fun _ =>
      still_notify notices

theorem still_reportRemoved (o : Owner) (d : Decl) : Still (reportRemoved o d) :=
  still_get fun _ => (still_childrenOf o).bind fun _ => (still_lift _).bind fun _ =>
    still_modify fun _ => ⟨rfl, rfl⟩

theorem still_reportMoved (o : Owner) (key : Key) : Still (reportMoved o key) :=
  still_get fun _ => (still_childrenOf o).bind fun _ => (still_lift _).bind fun _ =>
    still_modify fun _ => ⟨rfl, rfl⟩

/-- A step that adds at most `more` to what the tree holds, as long as no two identities in all this
are the same. -/
def Brings (more : List (Nat × Kind × String)) (m : Merge α) : Prop :=
  ∀ e : Engine, ((more ++ contents e.tree).map Prod.fst).Nodup →
    Ends (fun _ => e.Gains more) (e.Gains more) (m e)

theorem Still.brings (h : Still m) : Brings more m := fun e _ =>
  (h e).mono (fun _ _ h => .of_tree h.1 h.2) fun _ h => .of_tree h.1 h.2

theorem Brings.bind {f : α → Merge β} (hm : Brings xs m) (hf : ∀ a, Brings ys (f a)) :
    Brings (xs ++ ys) (m >>= f) := by
  intro e hn
  have hnodup : ((xs ++ contents e.tree).map Prod.fst).Nodup :=
    hn.sublist (((List.sublist_append_left xs ys).append_right _).map _)
  refine ((hm e hnodup).mono (fun _ _ h => h) fun _ h =>
    h.mono (List.sublist_append_left xs ys)).bind fun a e' h => ?_
  exact (hf a e' (h.nodup hn)).mono (fun _ _ h' => h.trans h') fun _ h' => h.trans h'

theorem Still.brings_bind {f : α → Merge β} (hm : Still m) (hf : ∀ a, Brings more (f a)) :
    Brings more (m >>= f) :=
  (show Brings [] m from hm.brings).bind hf

theorem Brings.bind_still {f : α → Merge β} (hm : Brings more m) (hf : ∀ a, Still (f a)) :
    Brings more (m >>= f) := by
  have hbind : Brings (more ++ []) (m >>= f) := hm.bind fun a => (hf a).brings
  rwa [List.append_nil] at hbind

theorem Brings.weaken (h : Brings [] m) : Brings more m := by
  intro e hn
  have hnil : ((contents e.tree).map Prod.fst).Nodup :=
    hn.sublist ((List.sublist_append_right _ _).map _)
  exact (h e hnil).mono (fun _ _ h => h.mono (List.nil_sublist _))
    fun _ h => h.mono (List.nil_sublist _)

theorem Brings.gains {e' : Engine} {a : α} (h : Brings more m)
    (hn : ((more ++ contents e.tree).map Prod.fst).Nodup) (hrun : m e = .ok a e') :
    e.Gains more e' := by
  have hends := h e hn
  rw [hrun] at hends
  exact hends

theorem brings_get {f : Engine → Merge α} (hf : ∀ e, Brings more (f e)) :
    Brings more (get >>= f) := fun e => hf e e

theorem brings_forM {f : β → Merge Unit} (hf : ∀ b, Brings [] (f b)) (l : List β) :
    Brings [] (l.forM f) := by
  induction l with
  | nil => exact (still_pure ()).brings
  | cons b l ih => exact (hf b).bind fun _ => ih

/-- A step that exchanges the children `cs` of an owner for others, if it edits the tree at all. -/
inductive Exchange (more : List (Nat × Kind × String)) (o : Owner) (cs : Forest) : Merge α → Prop
  | still {m : Merge α} (h : Still m) : Exchange more o cs m
  | set {m : Merge α} (new : Forest) (hnew : (contents new).Subperm (more ++ contents cs))
    (h : Still m) : Exchange more o cs (setChildren o new >>= fun _ => m)

theorem brings_children {f : Forest → Merge α} (hf : ∀ cs, Exchange more o cs (f cs)) :
    Brings more (childrenOf o >>= f) := by
  intro e hn
  have hcs := hf (e.tree.childrenOf o)
  show Ends _ _ (f (e.tree.childrenOf o) e)
  generalize f (e.tree.childrenOf o) = m at hcs
  cases hcs with
  | still h => exact h.brings e hn
  | @set m new hnew h =>
    have hids : (ids e.tree).Nodup := by
      rw [← map_fst_contents]
      exact hn.sublist ((List.sublist_append_right _ _).map _)
    have hset {e' : Engine} (htree : e'.tree = e.tree.updateChildren o fun _ => new)
        (hnext : e'.next = e.next) : e.Gains more e' :=
      ⟨htree ▸ contents_updateChildren hids hnew, hnext⟩
    exact (h { e with tree := e.tree.updateChildren o fun _ => new }).mono
      (fun _ _ h => hset h.1 h.2) fun _ h => hset h.1 h.2

theorem brings_insertAt (position : Nat) (hd : d.children = []) :
    Brings [d.shape] (insertAt o position d) := by
  refine brings_children fun cs => .set _ ?_ (still_reportInserted o d)
  have hplace := contents_place position d cs
  rw [contents_cons, hd, contents_nil] at hplace
  exact hplace.subperm

theorem brings_removeAt (o : Owner) (position : Nat) : Brings [] (removeAt o position) := by
  refine brings_children fun cs => ?_
  cases cs[position]? with
  | none => exact .still (still_throw _)
  | some d =>
    exact .set _ (contents_sublist (List.eraseIdx_sublist cs position)).subperm
      ((still_retire d).bind fun _ => still_reportRemoved o d)

theorem brings_replaceAt (position : Nat) (hd : d.children = []) :
    Brings [d.shape] (replaceAt o position d) := by
  refine brings_children fun cs => ?_
  cases hold : cs[position]? with
  | none => exact .still (still_throw _)
  | some old =>
    have hset := contents_set d hold
    rw [contents_cons, hd, contents_nil] at hset
    exact .set _ hset ((still_retire old).bind fun _ =>
      (still_reportRemoved o old).bind fun _ => still_reportInserted o d)

theorem brings_moveBeside (o : Owner) (source target : Nat) (after : Bool) :
    Brings [] (moveBeside o source target after) := by
  refine brings_children fun cs => ?_
  cases hmove : cs.moveBeside? source target after with
  | none => exact .still (still_throw _)
  | some new => exact .set new (contents_moveBeside? hmove).subperm (still_pure ())

theorem brings_change (r : Ref) {f : Decl → Decl} (hf : ∀ d, (f d).shape = d.shape)
    (hchildren : ∀ d, (f d).children = d.children) : Brings [] (change r f) := by
  intro e _
  have hsame : contents (e.tree.update r.id f) = contents e.tree :=
    contents_update r.id hf hchildren e.tree
  exact ⟨hsame ▸ List.Subperm.refl _, rfl⟩

theorem brings_syncSibling (moved : Ref) (name anchor : String) (after : Bool) (sibling : Decl) :
    Brings [] (syncSibling moved name anchor after sibling) := by
  unfold syncSibling
  split
  · exact (still_pure ()).brings
  · dsimp only
    split
    · split
      · exact (still_pure ()).brings
      · refine (brings_moveBeside _ _ _ _).bind_still fun _ => ?_
        split
        · exact still_reportMoved _ _
        · exact still_pure ()
    · exact (still_pure ()).brings

theorem brings_relocate (o : Owner) (existing : Entry) (d : Decl) (side : Side) (anchor : String) :
    Brings [] (relocate o existing d side anchor) := by
  have hkept (notice : QualifiedName → Notice) :
      Brings [] (qualifiedName o d >>= fun q => notify [notice q]) :=
    ((still_qualifiedName o d).bind fun _ => still_notify _).brings
  refine brings_get fun e => (still_lift _).brings_bind fun found => ?_
  cases found with
  | none => exact hkept (.positionKept · anchor)
  | some target =>
    dsimp only
    split
    · exact hkept (.positionKept · anchor)
    · refine (still_positionOf existing).brings_bind fun source =>
        (still_positionOf target).brings_bind fun position =>
        (brings_moveBeside o source position _).bind fun _ =>
        (still_locationOf _).brings_bind fun location =>
        (brings_change _ (Decl.shape_withLocation · location) fun d => ?_).bind fun _ =>
        (still_reportMoved o _).brings_bind fun _ => brings_get fun e => ?_
      · cases d <;> rfl
      · split
        · exact (still_childrenOf o).brings_bind fun children =>
            brings_forM (brings_syncSibling _ _ _ _) children
        · exact (still_pure ()).brings

theorem brings_insertHollow (o : Owner) (position : Nat) (d : Decl) :
    Brings [d.shape] (insertHollow o position d) := by
  have hshape : d.hollow.shape = d.shape := by cases d <;> rfl
  have hinsert := brings_insertAt (o := o) position (d := d.hollow) (by cases d <;> rfl)
  exact (hshape ▸ hinsert).bind_still fun _ => still_pure _

theorem brings_absorb (existing : Ref) (d : Decl) : Brings [] (absorb existing d) :=
  (brings_change _ (Decl.shape_absorbTrailing d.trailing) fun d => by cases d <;> rfl).bind_still
    fun _ => still_pure _

theorem brings_refused (o : Owner) (d : Decl) (notice : QualifiedName → Notice) :
    Brings more (qualifiedName o d >>= fun q => notify [notice q] >>= fun _ =>
      pure (none : Option Destination)) :=
  ((still_qualifiedName o d).bind fun _ => (still_notify _).bind fun _ => still_pure none).brings

theorem brings_override (o : Owner) (d : Decl) (existing : Option Entry) (token : Nat) :
    Brings [d.shape] (override o d existing token) := by
  cases existing with
  | none => exact brings_refused o d .overrideMissing
  | some e =>
    refine (still_locationOf _).brings_bind fun location =>
      (still_childrenOf o).brings_bind fun children => ?_
    let new := (d.dropAnnot token).withLocation location
    have hput := d.putAs_dropAnnot token location
    have hreplace (position : Nat) := brings_replaceAt (o := o) position hput.children
    rw [hput.shape] at hreplace
    split
    · exact (still_throw _).brings
    · exact (brings_forM (brings_removeAt o) _).bind fun _ =>
        (hreplace _).bind_still fun _ => still_pure _

theorem brings_delete (o : Owner) (d : Decl) (existing : Option Entry) :
    Brings [] (delete o d existing) := by
  cases existing with
  | none => exact brings_refused o d .deleteMissing
  | some e =>
    exact (still_childrenOf o).brings_bind fun _ =>
      (brings_forM (brings_removeAt o) _).bind_still fun _ => still_pure none

theorem brings_insertBeside (o : Owner) (d : Decl) (existing : Option Entry) (token : Nat)
    (side : Side) (anchor : String) :
    Brings [d.shape] (insertBeside o d existing token side anchor) := by
  unfold insertBeside
  split
  · exact ((brings_relocate o _ d side anchor).bind fun _ => brings_absorb _ d).weaken
  · refine brings_get fun e => (still_lift _).brings_bind fun found => ?_
    cases found with
    | none => exact brings_refused o d (.anchorMissing anchor ·)
    | some target =>
      refine (still_locationOf _).brings_bind fun location =>
        (still_positionOf target).brings_bind fun position => ?_
      have hshape : ((d.dropAnnot token).withLocation location).shape = d.shape := by
        cases d <;> rfl
      exact hshape ▸ brings_insertHollow o _ _

theorem brings_placeVariable (o : Owner) (d : Decl) : Brings [d.shape] (placeVariable o d) := by
  refine (still_childrenOf o).brings_bind fun children => ?_
  split
  · exact Decl.shape_withLocation d _ ▸ brings_insertHollow o _ _
  · exact brings_insertHollow o _ d

theorem brings_add (o : Owner) (fresh : Bool) (d : Decl) (existing : Option Entry) :
    Brings [d.shape] (add o fresh d existing) := by
  unfold add
  split
  · exact (brings_absorb _ d).weaken
  · refine (still_childrenOf o).brings_bind fun children => ?_
    have hnew (position : Nat) : Brings [d.shape] (insertHollow o position d) :=
      brings_insertHollow o position d
    split
    · split
      · exact ((still_notify _).bind fun _ => still_pure none).brings
      · exact hnew _
    split
    · exact hnew _
    split
    · split
      · exact brings_refused o d .variableRepeated
      · exact brings_placeVariable o d
    split
    · exact (still_pure none).brings
    · exact hnew _

theorem brings_settle (o : Owner) (fresh : Bool) (d : Decl) : Brings [d.shape] (settle o fresh d) := by
  refine (still_existing? o d).brings_bind fun existing => ?_
  split
  · exact brings_add o fresh d existing
  · exact brings_override o d existing _
  · exact (brings_delete o d existing).weaken
  · exact brings_insertBeside o d existing _ _ _

theorem brings_mergeAll (o : Owner) (fresh : Bool) (layer : Forest) :
    Brings (Forest.contents layer) (mergeAll o fresh layer) := by
  induction layer using Forest.induct generalizing o fresh with
  | nil =>
    rw [mergeAll_nil]
    exact (still_pure ()).brings
  | cons d rest inner tail =>
    rw [mergeAll_cons, contents_cons]
    have hbelow (into : Option Destination) :
        Brings (Forest.contents d.children) (mergeInto d.children into) := by
      cases into with
      | none => exact (still_pure ()).brings
      | some into => exact inner into.owner into.fresh
    exact (brings_settle o fresh d).bind fun into => (hbelow into).bind fun _ => tail o fresh

/-- Whenever a declaration of a layer comes to be settled, the tree holds at most what it held before
and what the layer has. -/
theorem Calls.contents {fresh : Bool} {layer : Forest} {call : Call}
    (h : Calls o fresh layer e call)
    (hn : ((Forest.contents layer ++ Forest.contents e.tree).map Prod.fst).Nodup) :
    e.Gains (Forest.contents layer) call.engine ∧ call.decl.shape ∈ Forest.contents layer := by
  induction h with
  | first o fresh d rest e =>
    rw [contents_cons]
    exact ⟨(Engine.Gains.of_tree rfl rfl : e.Gains [] e).mono (List.nil_sublist _),
      List.mem_cons_self⟩
  | @inside o fresh d rest e e₁ into call hd h ih =>
    rw [contents_cons] at hn ⊢
    have hinner : ([d.shape] ++ Forest.contents d.children).Sublist
        (d.shape :: (Forest.contents d.children ++ Forest.contents rest)) :=
      (List.sublist_append_left _ _).cons_cons _
    replace hn := hn.sublist ((hinner.append_right _).map _)
    have hsettled := (brings_settle o fresh d).gains
      (hn.sublist (((List.sublist_append_left _ _).append_right _).map _)) hd
    obtain ⟨hgains, hmem⟩ := ih (hsettled.nodup hn)
    exact ⟨(hsettled.trans hgains).mono hinner, hinner.subset (List.mem_append_right _ hmem)⟩
  | @behind o fresh d rest e e₁ call hd h ih =>
    rw [contents_cons, ← List.cons_append] at hn ⊢
    have hbelow (into : Option Destination) :
        Brings (Forest.contents d.children) (mergeInto d.children into) := by
      cases into with
      | none => exact (still_pure ()).brings
      | some into => exact brings_mergeAll into.owner into.fresh d.children
    have hmerged := ((brings_settle o fresh d).bind hbelow).gains
      (hn.sublist (((List.sublist_append_left _ _).append_right _).map _)) hd
    obtain ⟨hgains, hmem⟩ := ih (hmerged.nodup hn)
    exact ⟨hmerged.trans hgains, List.mem_append_right _ hmem⟩

end Merge

theorem Forest.forall_contents_number {P : Kind × String → Prop} {layer : Forest} {next : Nat}
    (h : ∀ d ∈ layer.preorder, P (d.kind, d.name)) :
    ∀ s ∈ contents (layer.number next).1, P s.2 := by
  have hblind (d : Decl) : P (d.anonymous.kind, d.anonymous.name) ↔ P (d.kind, d.name) := by
    rw [Decl.kind_anonymous, Decl.name_anonymous]
  exact List.forall_mem_map.2 ((forall_number_iff hblind).2 h)

/-- No identity is there twice or still to be given away, and `P` holds of the kinds and names in the
tree. -/
structure Engine.Holds (P : Kind × String → Prop) (e : Engine) : Prop where
  nodup : e.tree.ids.Nodup
  given : ∀ id ∈ e.tree.ids, id < e.next
  all : ∀ s ∈ contents e.tree, P s.2

namespace Engine.Holds
variable {P : Kind × String → Prop} {e e' : Engine} {layer : Forest}

theorem empty (P : Kind × String → Prop) (syncStandIns : Bool) :
    (ofForest [] syncStandIns).Holds P := by
  rw [ofForest_nil]
  exact ⟨by simp, by simp, by simp [contents_nil]⟩

theorem apart (h : e.Holds P) (layer : Forest) :
    ((contents (layer.number e.next).1 ++ contents (e.started layer).tree).map Prod.fst).Nodup := by
  rw [List.map_append, map_fst_contents, map_fst_contents, List.nodup_append']
  refine ⟨nodup_ids_number e.next layer, h.nodup, fun id hnew hold => ?_⟩
  have hlow := (mem_ids_number.1 hnew).1
  have hhigh := h.given id hold
  omega

theorem of_gains (h : e.Holds P) (hlayer : ∀ d ∈ layer.preorder, P (d.kind, d.name))
    (hgains : (e.started layer).Gains (contents (layer.number e.next).1) e') : e'.Holds P := by
  have hnext : e'.next = e.next + size layer := by
    rw [hgains.next, started, number_snd]
  have hmem {s : Nat × Kind × String} (hs : s ∈ contents e'.tree) :
      s ∈ contents (layer.number e.next).1 ∨ s ∈ contents e.tree :=
    List.mem_append.1 (hgains.holds.subset hs)
  refine ⟨?_, fun id hid => ?_, fun s hs => ?_⟩
  · rw [← map_fst_contents]
    have hapart := h.apart layer
    rw [← List.append_nil (contents (layer.number e.next).1)] at hapart
    exact hgains.nodup hapart
  · rw [← map_fst_contents] at hid
    obtain ⟨s, hs, rfl⟩ := List.mem_map.1 hid
    have hmap {f : Forest} (hs : s ∈ contents f) : s.1 ∈ ids f :=
      map_fst_contents f ▸ List.mem_map_of_mem hs
    rcases hmem hs with hs | hs
    · rw [hnext]
      exact (mem_ids_number.1 (hmap hs)).2
    · have := h.given s.1 (hmap hs)
      omega
  · rcases hmem hs with hs | hs
    · exact forall_contents_number hlayer s hs
    · exact h.all s hs

theorem mergeLayer (h : e.Holds P) (hlayer : ∀ d ∈ layer.preorder, P (d.kind, d.name)) :
    (e.mergeLayer layer).2.Holds P := by
  have hmerged := Merge.brings_mergeAll .root false (layer.number e.next).1 (e.started layer)
    (h.apart layer)
  simp only [Engine.mergeLayer]
  unfold started at hmerged
  generalize hrun : Merge.mergeAll .root false (layer.number e.next).1 _ = r at hmerged ⊢
  cases r with
  | ok _ e' => exact h.of_gains hlayer hmerged
  | error _ e' => exact h.of_gains hlayer hmerged

theorem calls (h : e.Holds P) (hlayer : ∀ d ∈ layer.preorder, P (d.kind, d.name))
    {call : Merge.Call}
    (hcall : Merge.Calls .root false (layer.number e.next).1 (e.started layer) call) :
    call.engine.Holds P ∧ P (call.decl.kind, call.decl.name) := by
  obtain ⟨hgains, hmem⟩ := hcall.contents (h.apart layer)
  exact ⟨h.of_gains hlayer hgains, forall_contents_number hlayer _ hmem⟩

end Engine.Holds
end SignatureLayers
