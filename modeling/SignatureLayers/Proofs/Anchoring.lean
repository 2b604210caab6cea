import SignatureLayers.Proofs.Invariants

namespace SignatureLayers

open Forest
open Merge (absorbTrailing)

namespace Forest
variable {cs xs ys us vs : Forest} {d x t : Decl} {side : Side} {anchor : String} {token : Nat}
  {out : Outcome}

/-- The sibling that an anchor names: the first member of this name, else the first declaration. -/
def anchored? (anchor : String) (cs : Forest) : Option Decl :=
  (cs.find? (·.key == ⟨anchor, true⟩)).or (cs.find? (·.key == ⟨anchor, false⟩))

/-- The container that a container of a layer stands for: the first declaration of its name, if this
is a container too. -/
def counterpart? (d : Decl) (cs : Forest) : Option Decl :=
  (cs.find? (·.key == d.key)).filter fun x => d.isContainer && x.isContainer

/-- `new` is `others` with `d` put in immediately beside `t`. -/
def PutBeside (side : Side) (t d : Decl) (others new : Forest) : Prop :=
  ∃ us vs, others = us ++ vs ∧ new = us ++ d :: vs ∧
    match side with
    | .after => us.getLast? = some t
    | .before => vs.head? = some t

theorem map_decl_cut? (key : Key) (cs : Forest) :
    (cut? key cs).map (fun (_, x, _) => x) = cs.find? (·.key == key) := by
  induction cs with
  | nil => rfl
  | cons d rest ih =>
    rw [cut?, List.find?_cons]
    by_cases h : d.key = key
    · simp [h]
    · rw [if_neg h, beq_false_of_ne h, ← ih, Option.map_map]
      rfl

theorem map_anchorCut? (anchor : String) (cs : Forest) :
    (anchorCut? anchor cs).map (fun (_, t, _) => t) = anchored? anchor cs := by
  rw [anchorCut?, anchored?, ← map_decl_cut?, ← map_decl_cut?]
  cases cut? ⟨anchor, true⟩ cs <;> rfl

theorem map_taken (d : Decl) (cs : Forest) :
    ((resolved? true d.key cs).filter fun (_, x, _) => d.isContainer && x.isContainer).map
      (fun (_, x, _) => x) = counterpart? d cs := by
  rw [counterpart?, ← map_decl_cut?]
  show (Option.filter _ (cut? d.key cs)).map _ = _
  cases cut? d.key cs with
  | none => rfl
  | some found =>
    simp only [Option.map_some, Option.filter]
    split <;> rfl

theorem putBeside_beside (side : Side) (xs : Forest) (t : Decl) (ys : Forest) (d : Decl)
    (fresh : Bool) : PutBeside side t d (xs ++ t :: ys) (beside side xs t ys d fresh).children := by
  cases side with
  | after => exact ⟨xs ++ [t], ys, by simp, rfl, List.getLast?_concat⟩
  | before => exact ⟨xs, t :: ys, rfl, rfl, rfl⟩

theorem destination?_beside (side : Side) (xs : Forest) (t : Decl) (ys : Forest) (d : Decl)
    (fresh : Bool) : (beside side xs t ys d fresh).destination? = some ⟨.container d.id, fresh⟩ := by
  cases side <;> rfl

theorem filter_id_ne (h : (ids (xs ++ x :: ys)).Nodup) :
    (xs ++ x :: ys).filter (·.id != x.id) = xs ++ ys := by
  rw [(ids_middle xs ys x).nodup_iff, List.nodup_append] at h
  have hkeep : (xs ++ ys).filter (·.id != x.id) = xs ++ ys := by
    refine List.filter_eq_self.2 fun y hy => bne_iff_ne.2 fun hid => ?_
    exact h.2.2 x.id (by simp [ids_cons]) y.id (id_mem_of_mem hy) hid.symm
  rw [← hkeep]
  simp

theorem settled_inserts (hw : Directive.winner? d.annotations = some (token, .placed side anchor))
    (hd : counterpart? d cs = none) (fresh : Bool) :
    settled true fresh d cs =
      match anchorCut? anchor cs with
      | some (xs, t, ys) =>
        beside side xs t ys ((d.dropAnnot token).withLocation t.location).hollow true
      | none => .done cs := by
  rw [← map_taken, Option.map_eq_none_iff] at hd
  cases hanchor : anchorCut? anchor cs with
  | none => simp only [settled, hw, hd, hanchor]
  | some found =>
    obtain ⟨xs, t, ys⟩ := found
    simp only [settled, hw, hd, hanchor]

theorem settled_relocates
    (hw : Directive.winner? d.annotations = some (token, .placed side anchor))
    (hd : counterpart? d cs = some x) (fresh : Bool) :
    ∃ xs ys, cs = xs ++ x :: ys ∧ homonyms x.key xs = [] ∧ x.isContainer = true ∧
      settled true fresh d cs = relocated d side anchor xs x ys := by
  rw [← map_taken, Option.map_eq_some_iff] at hd
  obtain ⟨⟨xs, x, ys⟩, htaken, rfl⟩ := hd
  obtain ⟨-, hcut, -, hx⟩ := absorber_of_taken htaken
  obtain ⟨hcs, hxs, hkey⟩ := cut?_eq_some hcut
  refine ⟨xs, ys, hcs, hkey.symm ▸ hxs, hx, ?_⟩
  simp only [settled, hw, htaken]

theorem relocated_eq (side : Side) (anchor : String) (d : Decl)
    (hn : (ids (xs ++ x :: ys)).Nodup) (hxs : homonyms x.key xs = []) (hx : x.isContainer = true) :
    match (anchored? anchor (xs ++ x :: ys)).filter (·.id != x.id) with
    | some t => ∃ us vs, us ++ t :: vs = xs ++ ys ∧ relocated d side anchor xs x ys =
        beside side us t vs (absorbTrailing d.trailing (x.withLocation t.location)) false
    | none => relocated d side anchor xs x ys = .into xs (absorbTrailing d.trailing x) ys false := by
  have hfound := Merge.anchor_of_anchorFrom? anchor ys hxs hx
  rw [← map_anchorCut?]
  unfold relocated
  cases hfrom : anchorFrom? anchor x (xs ++ ys) with
  | none =>
    rw [hfrom] at hfound
    cases hcut : anchorCut? anchor (xs ++ x :: ys) with
    | none => rfl
    | some found =>
      obtain ⟨as, t, bs⟩ := found
      have hself : (t.id != x.id) = false := by simp [hfound as t bs hcut]
      simp [Option.filter, hself]
  | some found =>
    obtain ⟨us, t, vs⟩ := found
    rw [hfrom] at hfound
    obtain ⟨as, bs, hcut, hne, -⟩ := hfound
    have hother : (t.id != x.id) = true := bne_iff_ne.2 fun hid =>
      hne (Merge.length_eq_of_id hn (anchorCut?_eq_some hcut) hid.symm).symm
    rw [hcut, Option.map_some, Option.filter, if_pos hother]
    exact ⟨us, vs, (anchorFrom?_eq_some hfrom).symm, rfl⟩

theorem mem_ids_relocated {id : Nat} (hid : id ∈ ids (relocated d side anchor xs x ys).children) :
    id ∈ ids (xs ++ x :: ys) := by
  rw [relocated] at hid
  split at hid
  · rwa [Outcome.children, (x.alike_absorbTrailing d.trailing).ids_middle] at hid
  · next us t vs hfrom =>
    have hsame := (x.alike_withLocation t.location).trans (Decl.alike_absorbTrailing d.trailing _)
    rw [← hsame.ids_middle, mem_ids_middle, anchorFrom?_eq_some hfrom]
    cases side with
    | after =>
      rw [← List.singleton_append, ← List.append_assoc, ← mem_ids_middle]
      exact hid
    | before =>
      rw [← mem_ids_middle]
      exact hid

end Forest

namespace Engine
variable {e e₁ e' : Engine} {c : Context} {cs : Forest} {o : Owner} {path : List String} {d : Decl}
  {token : Nat} {side : Side} {anchor : String}

/-- From `e₁` on, whose index knows the tree as it stands, the declarations `ds` are merged into the
declaration `id`, and nothing but its children changes. -/
structure Fills (e₁ e' : Engine) (id : Nat) (fresh : Bool) (ds : Forest) : Prop where
  indexed : e₁.index.SameAnswers (.ofForest e₁.tree) e₁.tree
  run : Merge.mergeAll (.container id) fresh ds e₁ = .ok () e'
  around : e'.tree =
    e₁.tree.updateChildren (.container id) fun _ => e'.tree.childrenOf (.container id)

/-- The container `x` stands for `d`: it is moved beside the sibling that the anchor names, if there
is one and it is another, takes the comments of `d` at its end, and then its children. Nothing of
`d` itself is left. -/
structure Relocates (e e' : Engine) (o : Owner) (side : Side) (target : Option Decl) (x d : Decl) :
    Prop where
  run : ∃ e₁ : Engine, e₁.Fills e' x.id false d.children ∧
    match target.filter (·.id != x.id) with
    | some t => ∃ new, PutBeside side t (absorbTrailing d.trailing (x.withLocation t.location))
        ((e.tree.childrenOf o).filter (·.id != x.id)) new ∧
          e₁.tree = e.tree.updateChildren o fun _ => new
    | none => e₁.tree = e.tree.update x.id (absorbTrailing d.trailing)
  discarded : d.id ∉ e'.tree.ids

/-- `d` is put beside the sibling `t`, at its location and without the annotation that decided, and
its children are merged into it there. -/
def Inserts (e e' : Engine) (o : Owner) (side : Side) (t d : Decl) (token : Nat) : Prop :=
  ∃ (e₁ : Engine) (new : Forest), e₁.Fills e' d.id true d.children ∧
    PutBeside side t ((d.dropAnnot token).withLocation t.location).hollow (e.tree.childrenOf o) new ∧
      e₁.tree = e.tree.updateChildren o fun _ => new

theorem exists_settled (h : Merge.Ready (fun _ => True) e c true cs [d]) (fresh : Bool) :
    ∃ e₁ e', Merge.settle c.owner fresh d e =
        .ok (settled true fresh d cs).destination? e₁ ∧
      Merge.mergeInto d.children (settled true fresh d cs).destination? e₁ = .ok () e' ∧
      Merge.mergeAll c.owner fresh [d] e = .ok () e' ∧
      e₁.At c (settled true fresh d cs).children ∧
      e'.At c (completed true d.children (settled true fresh d cs)) := by
  obtain ⟨e₁, hsettle, h₁, -, hsync⟩ := h.yields_settle fresh
  obtain ⟨e', hinto, h', -, -⟩ := Merge.reaches_mergeInto h h₁ (hsync.trans h.unsynced)
    fun fresh _ _ _ _ => Merge.reaches_mergeAll fresh
  refine ⟨e₁, e', hsettle, hinto, ?_, h₁, h'⟩
  rw [Merge.mergeAll_cons, Merge.bind_apply hsettle, Merge.bind_apply hinto, Merge.mergeAll_nil]
  rfl

theorem fills_of_settled {out : Outcome} {id : Nat} {fresh known : Bool} {ds : Forest}
    (hout : out.destination? = some ⟨.container id, fresh⟩)
    (hinto : Merge.mergeInto ds out.destination? e₁ = .ok () e') (h₁ : e₁.At c out.children)
    (h' : e'.At c (completed known ds out)) : e₁.Fills e' id fresh ds where
  indexed := h₁.mirrors.sameAnswers h₁.nodup
  run := by
    rw [hout] at hinto
    exact hinto
  around := by
    cases out with
    | done => cases hout
    | into xs x ys fresh =>
      cases hout
      rw [completed] at h'
      cases x with
      | container k header cs t =>
        have hinner := (Engine.At.inner (l := ⟨xs, k, header, t, ys⟩)).2 h'
        have hchildren := hinner.childrenOf
        rw [Context.owner_concat] at hchildren
        rw [updateChildren, show (Decl.container k header cs t).id = header.id from rfl, hchildren,
          show e₁.tree.update header.id _ = _ from h₁.update _, h'.tree]
      | leaf | member =>
        rw [updateChildren, show e₁.tree.update _ _ = _ from h₁.update _, h'.tree]
        rfl

/-- Where a placed declaration has no container that stands for it and no anchor, the merge leaves a
notice and nothing else. -/
theorem mergeAll_unanchored (h : e.At c cs) (hl : c.Leads true)
    (hw : Directive.winner? d.annotations = some (token, .placed side anchor))
    (hd : counterpart? d cs = none) (hanchor : anchored? anchor cs = none) (fresh : Bool) :
    ∃ notices, Merge.mergeAll c.owner fresh [d] e = .ok () { e with log := e.log ++ notices } := by
  rw [← map_taken, Option.map_eq_none_iff] at hd
  rw [← map_anchorCut?, Option.map_eq_none_iff] at hanchor
  obtain ⟨notices, hsettle⟩ : ∃ notices, Merge.settle c.owner fresh d e =
      .ok none { e with log := e.log ++ notices } := by
    unfold Merge.settle
    rw [Merge.bind_apply (Merge.existing?_apply h hl), hw]
    dsimp only
    unfold Merge.insertBeside
    rw [Merge.filter_entryOf, hd]
    have hfound {β : Type} (f : Option Entry → Merge β) := Merge.findSibling_bind h anchor f
    rw [hanchor] at hfound
    exact ⟨_, (hfound _).trans (Merge.qualifiedName_bind h _)⟩
  refine ⟨notices, ?_⟩
  rw [Merge.mergeAll_cons, Merge.bind_apply hsettle, Merge.mergeAll_nil]
  rfl

/-- A declaration that a container stands for is settled by moving this container. -/
theorem relocates_of_settled {x : Decl} {fresh : Bool} (hat : e.At c cs)
    (hw : Directive.winner? d.annotations = some (token, .placed side anchor))
    (hcounter : counterpart? d cs = some x) (hn : (ids [d]).Nodup) (hnew : d.id ∉ ids (c.plug cs))
    (hinto : Merge.mergeInto d.children (settled true fresh d cs).destination? e₁ = .ok () e')
    (h₁ : e₁.At c (settled true fresh d cs).children)
    (h' : e'.At c (completed true d.children (settled true fresh d cs))) :
    e.Relocates e' c.owner side (anchored? anchor cs) x d := by
  obtain ⟨xs, ys, rfl, hxs, hx, hsettled⟩ := settled_relocates hw hcounter fresh
  have hnodup : (ids (xs ++ x :: ys)).Nodup := Index.nodup_child hat.nodup_plug
  have hout := relocated_eq side anchor d hnodup hxs hx
  rw [hsettled] at hinto h₁ h'
  have hdiscarded : d.id ∉ e'.tree.ids := by
    rw [Context.mem_ids_plug, not_or] at hnew
    rw [h'.tree, Context.mem_ids_plug, not_or]
    refine ⟨hnew.1, fun hmem => ?_⟩
    rcases mem_ids_completed mem_ids_merged hmem with hmem | hmem
    · exact hnew.2 (mem_ids_relocated hmem)
    · rw [ids_cons, List.nodup_cons, List.mem_append, not_or] at hn
      exact hn.1.1 hmem
  split at hout
  · next t ht =>
    obtain ⟨us, vs, hrest, hbeside⟩ := hout
    rw [hbeside] at hinto h₁ h'
    have hid : (absorbTrailing d.trailing (x.withLocation t.location)).id = x.id := by
      cases x <;> rfl
    refine ⟨⟨e₁, fills_of_settled (hid ▸ destination?_beside ..) hinto h₁ h', ?_⟩, hdiscarded⟩
    rw [ht]
    refine ⟨_, ?_, h₁.tree.trans (hat.updateChildren fun _ => _).symm⟩
    rw [hat.childrenOf, filter_id_ne hnodup, ← hrest]
    exact putBeside_beside ..
  · next hnone =>
    rw [hout] at hinto h₁ h'
    have hid : (absorbTrailing d.trailing x).id = x.id := by cases x <;> rfl
    refine ⟨⟨e₁, fills_of_settled (hid ▸ rfl) hinto h₁ h', ?_⟩, hdiscarded⟩
    rw [hnone, hat.update]
    exact h₁.tree

/-- A declaration that no container stands for is settled by putting it beside its anchor. -/
theorem inserts_of_settled {t : Decl} {fresh : Bool} (hat : e.At c cs)
    (hw : Directive.winner? d.annotations = some (token, .placed side anchor))
    (hcounter : counterpart? d cs = none) (hanchor : anchored? anchor cs = some t)
    (hinto : Merge.mergeInto d.children (settled true fresh d cs).destination? e₁ = .ok () e')
    (h₁ : e₁.At c (settled true fresh d cs).children)
    (h' : e'.At c (completed true d.children (settled true fresh d cs))) :
    e.Inserts e' c.owner side t d token := by
  rw [← map_anchorCut?, Option.map_eq_some_iff] at hanchor
  obtain ⟨⟨xs, t, ys⟩, hcut, rfl⟩ := hanchor
  obtain rfl := anchorCut?_eq_some hcut
  rw [settled_inserts hw hcounter fresh, hcut] at hinto h₁ h'
  have hid : (((d.dropAnnot token).withLocation t.location).hollow).id = d.id := by cases d <;> rfl
  refine ⟨e₁, _, fills_of_settled (hid ▸ destination?_beside ..) hinto h₁ h', ?_,
    h₁.tree.trans (hat.updateChildren fun _ => _).symm⟩
  rw [hat.childrenOf]
  exact putBeside_beside ..

/-- Wherever a path leads on a reached engine, a declaration with an anchor is placed as the anchor
says. The container that stands for it is moved, and takes it in. Where there is none, it is put in
itself, and without the sibling that the anchor names all stays as it is. -/
theorem mergeAll_places (he : e.Reached) (ho : e.index.containerFor? path = some o)
    (hw : Directive.winner? d.annotations = some (token, .placed side anchor))
    (hn : (ids [d]).Nodup) (hnew : ∀ id ∈ ids [d], id ∉ e.tree.ids) (fresh : Bool) :
    ∃ e', Merge.mergeAll o fresh [d] e = .ok () e' ∧
      e'.index.SameAnswers (.ofForest e'.tree) e'.tree ∧
      let children := e.tree.childrenOf o
      match counterpart? d children with
      | some x => e.Relocates e' o side (anchored? anchor children) x d
      | none =>
        match anchored? anchor children with
        | some t => e.Inserts e' o side t d token
        | none => e'.tree = e.tree ∧ e'.index = e.index := by
  obtain ⟨hroot, hsync⟩ := he.at_root
  obtain ⟨c, cs, htree, rfl, rfl, hc⟩ := Index.containerFor?_eq_some hroot.mirrors hroot.nodup ho
  have hat : e.At c cs := ⟨htree, hroot.mirrors, hroot.nodup⟩
  have hready : Merge.Ready (fun _ => True) e c true cs [d] :=
    ⟨hat, hc.leads, fun _ => (htree ▸ he.sound).of_plug hc, fun _ _ _ => trivial, hn,
      fun id hid => htree ▸ hnew id hid, hsync⟩
  obtain ⟨e₁, e', -, hinto, hrun, h₁, h'⟩ := exists_settled hready fresh
  refine ⟨e', hrun, h'.mirrors.sameAnswers h'.nodup, ?_⟩
  simp only [hat.childrenOf]
  cases hcounter : counterpart? d cs with
  | some x =>
    have hself : d.id ∈ ids [d] := id_mem_of_mem (List.mem_singleton_self d)
    exact relocates_of_settled hat hw hcounter hn (htree ▸ hnew d.id hself) hinto h₁ h'
  | none =>
    cases hanchor : anchored? anchor cs with
    | some t => exact inserts_of_settled hat hw hcounter hanchor hinto h₁ h'
    | none =>
      obtain ⟨notices, hkept⟩ := mergeAll_unanchored hat hc.leads hw hcounter hanchor fresh
      obtain ⟨-, rfl⟩ := EStateM.Result.ok.inj (hkept.symm.trans hrun)
      exact ⟨rfl, rfl⟩

/-- A class inside another one is moved behind its sibling, and takes a further class in. -/
theorem mergeAll_places_behind :
    let decl (id : Nat) (name : String) (location : Option Location) (children : Forest) : Decl :=
      .container .classDecl { id, name, location } children []
    let base := [decl 0 "A" none
      [decl 0 "B" none [decl 0 "X" none []], decl 0 "C" (some ⟨2, 4⟩) []]]
    let new : Decl := .container .classDecl
      { id := 6, name := "B", annotations := [⟨"patch:append_after(C)", ""⟩] } [decl 7 "D" none []] []
    let e := afterLayers [base]
    e.Reached ∧ e.index.containerFor? ["A"] = some (.container 1) ∧
      Directive.winner? new.annotations = some (0, .placed .after "C") ∧
      (ids [new]).Nodup ∧ (∀ id ∈ ids [new], id ∉ e.tree.ids) ∧
      ∃ e', Merge.mergeAll (.container 1) false [new] e = .ok () e' ∧
        e'.tree.preorder.map (fun d => (d.id, d.name, d.location)) =
          [(1, "A", none), (4, "C", some ⟨2, 4⟩), (2, "B", some ⟨2, 4⟩), (3, "X", none),
            (7, "D", none)] ∧
        e'.index.SameAnswers (.ofForest e'.tree) e'.tree ∧
        e.Relocates e' (.container 1) .after (some (decl 4 "C" (some ⟨2, 4⟩) []))
          (decl 2 "B" none [decl 3 "X" none []]) new := by
  intro decl base new e
  have he : e.Reached := .between [base]
  have hfound : e.index.containerFor? ["A"] = some (.container 1) := by
    simp only [e, base, decl]
    cbv
  have hw : Directive.winner? new.annotations = some (0, .placed .after "C") := by decide +kernel
  have hids : ids [new] = [6, 7] := by cbv
  have hold : e.tree.ids = [1, 2, 3, 4] := by
    simp only [e, base, decl]
    cbv
  have hn : (ids [new]).Nodup := by
    rw [hids]
    decide
  have hnew : ∀ id ∈ ids [new], id ∉ e.tree.ids := by
    rw [hids, hold]
    decide
  have hchildren : e.tree.childrenOf (.container 1) =
      [decl 2 "B" none [decl 3 "X" none []], decl 4 "C" (some ⟨2, 4⟩) []] := by
    simp only [e, base, decl]
    cbv
  obtain ⟨e', hrun, hanswers, hplaced⟩ := mergeAll_places he hfound hw hn hnew false
  rw [hchildren] at hplaced
  have hrows : ((Merge.mergeAll (.container 1) false [new] >>= fun _ => get).run' e).map
      (·.tree.preorder.map fun d => (d.id, d.name, d.location)) =
        some [(1, "A", none), (4, "C", some ⟨2, 4⟩), (2, "B", some ⟨2, 4⟩), (3, "X", none),
          (7, "D", none)] := by
    simp only [new, e, base, decl]
    cbv
  rw [Merge.eval_get hrun] at hrows
  exact ⟨he, hfound, hw, hn, hnew, e', hrun, Option.some.inj hrows, hanswers, hplaced⟩

end Engine
end SignatureLayers
