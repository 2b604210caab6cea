import SignatureLayers.Index.Session
import SignatureLayers.Proofs.Contents
import SignatureLayers.Proofs.Listing

namespace SignatureLayers

open Forest

/-- An edit of the children of one owner. -/
inductive Edit
  | insert (owner : Owner) (position : Int) (d : Decl)
  | remove (owner : Owner) (position : Int)
  | move (owner : Owner) (source target : Int)

namespace Forest

def HasOwner (f : Forest) (o : Owner) : Prop :=
  o = .root ∨ ∃ d ∈ f.preorder, d.isContainer = true ∧ o = .container d.id

instance (f : Forest) (o : Owner) : Decidable (f.HasOwner o) :=
  inferInstanceAs (Decidable (_ ∨ ∃ d ∈ _, _))

theorem exists_plug_of_hasOwner {f : Forest} {o : Owner} (h : f.HasOwner o) :
    ∃ (c : Context) (cs : Forest), c.owner = o ∧ f = c.plug cs := by
  rcases h with rfl | ⟨d, hd, hc, rfl⟩
  · exact ⟨[], f, rfl, rfl⟩
  · obtain ⟨l, c, cs, hf, howner⟩ := exists_context (mem_owners.2 ⟨d, hd, hc, rfl⟩)
    exact ⟨l :: c, cs, howner, hf⟩

theorem nodup_insert {c : Context} {xs ys : Forest} {d : Decl} (h : (ids (c.plug (xs ++ ys))).Nodup)
    (hd : (ids [d]).Nodup) (hnew : ∀ id ∈ ids [d], id ∉ ids (c.plug (xs ++ ys))) :
    (ids (c.plug (xs ++ d :: ys))).Nodup := by
  have hperm : (ids (c.plug (xs ++ d :: ys))).Perm (ids [d] ++ ids (c.plug (xs ++ ys))) :=
    (Context.ids_plug_perm c _).trans (((ids_middle xs ys d).append_left _).trans
      ((List.perm_append_comm_assoc ..).trans ((Context.ids_plug_perm c _).symm.append_left _)))
  exact hperm.nodup_iff.2 (List.nodup_append.2 ⟨hd, h, fun a ha b hb hab => hnew a ha (hab ▸ hb)⟩)

end Forest

namespace Session
variable {s s' : Session} {o : Owner} {c : Context} {cs new : Forest} {d : Decl} {e : Edit}
  {edits : List Edit} {position : Int} {p : Nat}

def apply (s : Session) : Edit → Option EditFault × Session
  | .insert o position d => s.insert o position d true
  | .remove o position => s.remove o position true
  | .move o source target => s.move o source target true

/-- Makes and reports edits one after the other, up to one that is refused. -/
def applyAll (s : Session) : List Edit → Option EditFault × Session
  | [] => (none, s)
  | e :: rest =>
    match s.apply e with
    | (none, s) => s.applyAll rest
    | (some fault, s) => (some fault, s)

def positionOf? (s : Session) (q : QualifiedName) : Option (Except EditFault Nat) :=
  (s.index.get? q).map s.position

/-- The owner is in the tree, a child stands where one is taken out, and what is put in has
identities of its own that the tree does not have. -/
def Admits (s : Session) : Edit → Prop
  | .insert o position d => s.tree.HasOwner o ∧ isPosition position = true ∧
      (ids [d]).Nodup ∧ ∀ id ∈ ids [d], id ∉ s.tree.ids
  | .remove o position => s.tree.HasOwner o ∧
      (standing (s.tree.childrenOf o) position).isOk = true
  | .move o source target => s.tree.HasOwner o ∧
      (standing (s.tree.childrenOf o) source).isOk = true ∧ isPosition target = true

/-- Each edit is admitted by what the ones before it have made of the session. -/
def AdmitsAll (s : Session) : List Edit → Prop
  | [] => True
  | e :: rest => s.Admits e ∧ (s.apply e).2.AdmitsAll rest

instance (s : Session) : DecidablePred s.Admits
  | .insert .. | .move .. => inferInstanceAs (Decidable (_ ∧ _ ∧ _))
  | .remove .. => inferInstanceAs (Decidable (_ ∧ _))

instance decidableAdmitsAll (s : Session) : DecidablePred s.AdmitsAll
  | [] => inferInstanceAs (Decidable True)
  | e :: rest =>
    have := decidableAdmitsAll (s.apply e).2 rest
    inferInstanceAs (Decidable (_ ∧ _))

theorem slot_eq_ok (h : isPosition position = true) (length : Nat) :
    ∃ p, slot length position = .ok p := by
  rw [slot, h]
  exact ⟨_, rfl⟩

theorem exists_standing (h : (standing cs position).isOk = true) :
    ∃ p d, standing cs position = .ok (p, d) := by
  cases hstands : standing cs position with
  | error fault =>
    rw [hstands] at h
    cases h
  | ok child => exact ⟨child.1, child.2, rfl⟩

theorem getElem?_of_standing (h : standing cs position = .ok (p, d)) : cs[p]? = some d := by
  unfold standing at h
  split at h
  · cases h
  · split at h
    · next hfound =>
      cases h
      simp only [standing?] at hfound
      by_cases hneg : (if position < 0 then position + cs.length else position) < 0
      · rw [if_pos hneg] at hfound
        cases hfound
      · rw [if_neg hneg] at hfound
        obtain ⟨x, hx, heq⟩ := Option.map_eq_some_iff.1 hfound
        cases heq
        exact hx
    · cases h

theorem exists_split (h : cs[p]? = some d) :
    ∃ xs ys, cs = xs ++ d :: ys ∧ cs.eraseIdx p = xs ++ ys := by
  obtain ⟨hp, rfl⟩ := List.getElem?_eq_some_iff.1 h
  exact ⟨cs.take p, cs.drop (p + 1), by simp, List.eraseIdx_eq_take_drop_succ ..⟩

theorem childrenOf?_plug (htree : s.tree = c.plug cs) (hn : (Forest.ids (c.plug cs)).Nodup) :
    s.childrenOf? c.owner = some cs := by
  rcases List.eq_nil_or_concat' c with rfl | ⟨c, l, rfl⟩
  · exact congrArg some htree
  · let x : Decl := .container l.kind l.header cs l.trailing
    have hplug : Context.plug (c ++ [l]) cs = Context.plug c (l.before ++ x :: l.after) :=
      Context.plug_append ..
    have hnode : s.tree.node? l.header.id = some x := by
      rw [htree, hplug]
      exact Context.node?_child (d := x) (hplug ▸ hn)
    rw [Context.owner_concat, childrenOf?, node?, hnode]
    rfl

theorem childrenOf_plug (htree : s.tree = c.plug cs) (hn : (Forest.ids (c.plug cs)).Nodup) :
    s.childrenOf c.owner = .ok cs := by
  rw [childrenOf, childrenOf?_plug htree hn]

theorem tree_setChildren (htree : s.tree = c.plug cs) (hn : (Forest.ids (c.plug cs)).Nodup)
    (new : Forest) : (s.setChildren c.owner new).tree = c.plug new := by
  show s.tree.updateChildren c.owner (fun _ => new) = _
  rw [htree, Context.updateChildren_plug _ hn]

theorem reportInserted_eq {i : Index} {notices : List Notice} (htree : s.tree = c.plug cs)
    (hn : (ids (c.plug cs)).Nodup) (hi : s.index.inserted c.owner cs d = .ok (i, notices)) :
    s.reportInserted c.owner d = (none, { s with index := i, log := s.log ++ notices }) := by
  rw [reportInserted, childrenOf?_plug htree hn, Option.getD_some, hi]

theorem reportRemoved_eq {i : Index} (htree : s.tree = c.plug cs) (hn : (ids (c.plug cs)).Nodup)
    (hi : s.index.removed c.owner cs d = .ok i) :
    s.reportRemoved c.owner d = (none, { s with index := i }) := by
  rw [reportRemoved, childrenOf?_plug htree hn, Option.getD_some, hi]

theorem reportMoved_eq {i : Index} (htree : s.tree = c.plug cs) (hn : (ids (c.plug cs)).Nodup)
    (hi : s.index.moved c.owner cs d.key = .ok i) :
    s.reportMoved c.owner d = (none, { s with index := i }) := by
  rw [reportMoved, childrenOf?_plug htree hn, Option.getD_some, hi]

/-- The index knows the tree as it stands. -/
structure Coherent (s : Session) : Prop where
  mirrors : s.index.Mirrors s.tree
  nodup : s.tree.ids.Nodup

theorem exists_plug_of_standing (hn : s.tree.ids.Nodup) (ho : s.tree.HasOwner o)
    (hstands : (standing (s.tree.childrenOf o) position).isOk = true) :
    ∃ (c : Context) (p : Nat) (d : Decl) (xs ys : Forest), c.owner = o ∧
      s.tree = c.plug (xs ++ d :: ys) ∧ standing (xs ++ d :: ys) position = .ok (p, d) ∧
      (xs ++ d :: ys).eraseIdx p = xs ++ ys := by
  obtain ⟨c, cs, rfl, htree⟩ := exists_plug_of_hasOwner ho
  rw [htree, Context.childrenOf_plug (htree ▸ hn)] at hstands
  obtain ⟨p, d, hstands⟩ := exists_standing hstands
  obtain ⟨xs, ys, rfl, herase⟩ := exists_split (getElem?_of_standing hstands)
  exact ⟨c, p, d, xs, ys, rfl, htree, hstands, herase⟩

theorem Coherent.insert (h : s.Coherent) (ho : s.tree.HasOwner o)
    (hp : isPosition position = true) (hd : (ids [d]).Nodup)
    (hnew : ∀ id ∈ ids [d], id ∉ s.tree.ids) :
    ∃ s', s.insert o position d true = (none, s') ∧ s'.Coherent := by
  obtain ⟨c, cs, rfl, htree⟩ := exists_plug_of_hasOwner ho
  obtain ⟨p, hslot⟩ := slot_eq_ok hp cs.length
  have hcs : cs.take p ++ cs.drop p = cs := List.take_append_drop p cs
  have hn : (ids (c.plug cs)).Nodup := htree ▸ h.nodup
  have hn' : (ids (c.plug (cs.place p d))).Nodup :=
    nodup_insert (hcs.symm ▸ hn) hd (hcs.symm ▸ htree ▸ hnew)
  obtain ⟨i, notices, hok, hi⟩ :=
    Index.inserted_mirrors (hcs.symm ▸ htree ▸ h.mirrors) (hcs.symm ▸ hn) hn'
  obtain ⟨t, ht, hindex, hrun⟩ : ∃ t : Session, t.tree = c.plug (cs.place p d) ∧
      t.index = s.index ∧ s.insert c.owner position d true = t.reportInserted c.owner d := by
    simp only [Session.insert, childrenOf_plug htree hn, hslot, if_true]
    exact ⟨_, tree_setChildren htree hn _, rfl, rfl⟩
  exact ⟨_, hrun.trans (reportInserted_eq ht hn' (hindex ▸ hok)), ht ▸ hi, ht ▸ hn'⟩

theorem Coherent.remove (h : s.Coherent) (ho : s.tree.HasOwner o)
    (hstands : (standing (s.tree.childrenOf o) position).isOk = true) :
    ∃ s', s.remove o position true = (none, s') ∧ s'.Coherent := by
  obtain ⟨c, p, d, xs, ys, rfl, htree, hstands, herase⟩ :=
    exists_plug_of_standing h.nodup ho hstands
  have hn : (ids (c.plug (xs ++ d :: ys))).Nodup := htree ▸ h.nodup
  have hn' : (ids (c.plug (xs ++ ys))).Nodup := Merge.nodup_without hn
  obtain ⟨i, hok, hi⟩ := Index.removed_mirrors (htree ▸ h.mirrors) hn hn'
  obtain ⟨t, ht, hindex, hrun⟩ : ∃ t : Session, t.tree = c.plug (xs ++ ys) ∧
      t.index = s.index ∧ s.remove c.owner position true = t.reportRemoved c.owner d := by
    simp only [Session.remove, childrenOf_plug htree hn, hstands, herase, if_true]
    -- What is taken out is also kept aside, of which neither the tree nor the index knows.
    refine ⟨_, ?_, ?_, rfl⟩
    · exact tree_setChildren htree hn _
    · rfl
  exact ⟨_, hrun.trans (reportRemoved_eq ht hn' (hindex ▸ hok)), ht ▸ hi, ht ▸ hn'⟩

theorem Coherent.move {source target : Int} (h : s.Coherent) (ho : s.tree.HasOwner o)
    (hstands : (standing (s.tree.childrenOf o) source).isOk = true)
    (hp : isPosition target = true) :
    ∃ s', s.move o source target true = (none, s') ∧ s'.Coherent := by
  obtain ⟨c, p, d, xs, ys, rfl, htree, hstands, herase⟩ :=
    exists_plug_of_standing h.nodup ho hstands
  have hn : (ids (c.plug (xs ++ d :: ys))).Nodup := htree ▸ h.nodup
  obtain ⟨q, hslot⟩ := slot_eq_ok hp (xs ++ ys).length
  have hrest : (xs ++ ys).take q ++ (xs ++ ys).drop q = xs ++ ys := List.take_append_drop ..
  have hsame : d.Alike d := ⟨rfl, rfl, rfl⟩
  have hn' : (ids (c.plug ((xs ++ ys).place q d))).Nodup := Index.nodup_moved hsame hrest hn
  obtain ⟨i, hok, hi⟩ := Index.moved_mirrors hsame hrest (htree ▸ h.mirrors) hn
  obtain ⟨t, ht, hindex, hrun⟩ : ∃ t : Session, t.tree = c.plug ((xs ++ ys).place q d) ∧
      t.index = s.index ∧ s.move c.owner source target true = t.reportMoved c.owner d := by
    simp only [Session.move, childrenOf_plug htree hn, hstands, herase, hslot, if_true]
    exact ⟨_, tree_setChildren htree hn _, rfl, rfl⟩
  exact ⟨_, hrun.trans (reportMoved_eq ht hn' (hindex ▸ hok)), ht ▸ hi, ht ▸ hn'⟩

theorem Coherent.apply (h : s.Coherent) (he : s.Admits e) :
    ∃ s', s.apply e = (none, s') ∧ s'.Coherent := by
  cases e with
  | insert o position d =>
    obtain ⟨howner, hfits, hapart, hnew⟩ := he
    exact h.insert howner hfits hapart hnew
  | remove o position =>
    obtain ⟨howner, hstands⟩ := he
    exact h.remove howner hstands
  | move o source target =>
    obtain ⟨howner, hstands, hfits⟩ := he
    exact h.move howner hstands hfits

theorem Coherent.applyAll (h : s.Coherent) (hedits : s.AdmitsAll edits) :
    ∃ s', s.applyAll edits = (none, s') ∧ s'.Coherent := by
  induction edits generalizing s with
  | nil => exact ⟨s, rfl, h⟩
  | cons e rest ih =>
    obtain ⟨he, hrest⟩ := hedits
    obtain ⟨s₁, hstep, h₁⟩ := h.apply he
    rw [hstep] at hrest
    obtain ⟨s', hrun, h'⟩ := ih h₁ hrest
    refine ⟨s', ?_, h'⟩
    rw [Session.applyAll, hstep]
    exact hrun

theorem Coherent.pathOf_eq_error (h : s.Coherent) :
    s.index.pathOf o = .error .unknownOwner ↔ ¬ s.tree.HasOwner o := by
  have hmem := h.mirrors.mem_scopes o
  rw [← Index.view_isSome] at hmem
  rw [HasOwner, ← hmem, Index.pathOf_eq_view]
  show _ ↔ ¬ (s.index.view o).isSome = true
  cases s.index.view o <;> simp

/-- What a name leads to stands among the children of its owner where the index says. -/
theorem Coherent.position_of_get? (h : s.Coherent) {q : QualifiedName} {e : Entry}
    (he : s.index.get? q = some e) :
    ∃ p, s.position e = .ok p ∧ ((s.tree.childrenOf e.owner)[p]?).map Decl.ref = some e.node := by
  obtain ⟨c, xs, d, ys, htree, -, -, rfl, -, -⟩ := Index.entry_of_get? h.mirrors h.nodup he
  have hn : (ids (c.plug (xs ++ d :: ys))).Nodup := htree ▸ h.nodup
  refine ⟨xs.length, ?_, ?_⟩
  · rw [Session.position, childrenOf?_plug htree hn, Option.getD_some,
      show (Entry.mk d.ref c.owner).node.id = d.id from rfl,
      Merge.findIdx?_id (Index.nodup_child hn)]
  · rw [htree, Context.childrenOf_plug hn, Merge.getElem?_middle]
    rfl

/-- After any edits, each reported when it is made, the index answers as one that is built afresh
over the tree. It knows the path of no owner but those in the tree, and the names that it resolves
lead to children that stand where it says. -/
theorem applyAll_index_fresh (hn : s.tree.ids.Nodup) (hi : s.index = .ofForest s.tree)
    (hedits : s.AdmitsAll edits) :
    ∃ s', s.applyAll edits = (none, s') ∧ s'.tree.ids.Nodup ∧
      s'.index.SameAnswers (.ofForest s'.tree) s'.tree ∧
      (∀ q, s'.positionOf? q = s'.rebuild.positionOf? q) ∧
      (∀ q e, s'.index.get? q = some e → ∃ p, s'.position e = .ok p ∧
        ((s'.tree.childrenOf e.owner)[p]?).map Decl.ref = some e.node) ∧
      ∀ o, s'.index.pathOf o = .error .unknownOwner ↔ ¬ s'.tree.HasOwner o := by
  have hs : s.Coherent := ⟨hi ▸ Index.mirrors_ofForest hn, hn⟩
  obtain ⟨s', hrun, h'⟩ := hs.applyAll hedits
  have hanswers := h'.mirrors.sameAnswers h'.nodup
  refine ⟨s', hrun, h'.nodup, hanswers, fun q => ?_, fun q e => h'.position_of_get?,
    fun o => h'.pathOf_eq_error⟩
  have hget : s'.rebuild.index.get? q = s'.index.get? q := (hanswers.get? q).symm
  rw [positionOf?, positionOf?, hget]
  rfl

/-- A constant hides a class, which is taken out and put back behind its namesake in another class,
whose children then change places. -/
theorem applyAll_index_fresh_hidden :
    let leaf (id : Nat) (name : String) : Decl := .leaf .constant { id, name }
    let group (id : Nat) (name : String) (children : Forest) : Decl :=
      .container .classDecl { id, name } children []
    let f : Forest := [group 1 "A" [leaf 2 "B"], group 3 "M" [leaf 4 "A"]]
    let s : Session := { tree := f, index := .ofForest f, next := 6 }
    let edits : List Edit := [.insert .root 0 (leaf 5 "A"), .remove .root 1,
      .insert (.container 3) 9 (group 1 "A" [leaf 2 "B"]), .move (.container 3) (-1) 0]
    s.tree.ids.Nodup ∧ s.index = .ofForest s.tree ∧ s.AdmitsAll edits ∧
      (s.applyAll edits).2.tree.ids = [5, 3, 1, 2, 4] ∧
      ∃ s', s.applyAll edits = (none, s') ∧ s'.tree.ids.Nodup ∧
        s'.index.SameAnswers (.ofForest s'.tree) s'.tree ∧
        (∀ q, s'.positionOf? q = s'.rebuild.positionOf? q) ∧
        (∀ q e, s'.index.get? q = some e → ∃ p, s'.position e = .ok p ∧
          ((s'.tree.childrenOf e.owner)[p]?).map Decl.ref = some e.node) ∧
        ∀ o, s'.index.pathOf o = .error .unknownOwner ↔ ¬ s'.tree.HasOwner o := by
  intro leaf group f s edits
  have hids : s.tree.ids = [1, 2, 3, 4] := by
    simp only [s, f, leaf, group]
    cbv
  have hn : s.tree.ids.Nodup := by
    rw [hids]
    decide
  have hedits : s.AdmitsAll edits := by
    refine of_decide_eq_true ?_
    simp only [s, f, edits, leaf, group]
    cbv
    -- The identities of what is put in are left, which are listed by well-founded recursion.
    simp [ids_cons, preorder_cons, Decl.children, Decl.id, Decl.header, Decl.isContainer]
  have hafter : (s.applyAll edits).2.tree.ids = [5, 3, 1, 2, 4] := by
    simp only [s, f, edits, leaf, group]
    cbv
  exact ⟨hn, rfl, hedits, hafter, applyAll_index_fresh hn rfl hedits⟩

end Session
end SignatureLayers
