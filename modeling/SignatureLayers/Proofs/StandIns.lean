import SignatureLayers.Proofs.Anchoring

namespace SignatureLayers

open Forest

namespace Forest
variable {cs cs' as bs ps qs : Forest} {a b d : Decl} {side : Side} {name anchor : String}

/-- The children `cs` of a container after a move that they follow: the first child with the moved
name stands beside the first one with the name of the anchor, if these are two declarations. -/
def InStep (side : Side) (name anchor : String) (cs cs' : Forest) : Prop :=
  match cs.find? (·.name == name), cs.find? (·.name == anchor) with
  | some a, some b =>
    if a.id = b.id then cs' = cs else PutBeside side b a (cs.filter (·.id != a.id)) cs'
  | _, _ => cs' = cs

def stepped (side : Side) (name anchor : String) (cs : Forest) : Forest :=
  match cs.findIdx? (·.name == name), cs.findIdx? (·.name == anchor) with
  | some source, some target =>
    if source = target then cs else (cs.moveBeside? source target (side == .after)).getD cs
  | _, _ => cs

theorem findIdx?_of_find? {p : Decl → Bool} (h : cs.find? p = some d) :
    ∃ xs ys, cs = xs ++ d :: ys ∧ cs.findIdx? p = some xs.length := by
  obtain ⟨hd, xs, ys, rfl, hxs⟩ := List.find?_eq_some_iff_append.1 h
  refine ⟨xs, ys, rfl, ?_⟩
  rw [List.findIdx?_append, List.findIdx?_eq_none_iff.2 (by simpa using hxs), List.findIdx?_cons,
    hd]
  simp

theorem findIdx?_of_find?_eq_none {p : Decl → Bool} (h : cs.find? p = none) :
    cs.findIdx? p = none :=
  List.findIdx?_eq_none_iff.2 fun x hx => by simpa using List.find?_eq_none.1 h x hx

theorem exists_split_without (h : as ++ a :: bs = ps ++ b :: qs) (hne : ps.length ≠ as.length) :
    ∃ us vs, as ++ bs = us ++ b :: vs ∧
      (if ps.length > as.length then ps.length - 1 else ps.length) = us.length := by
  rcases List.append_eq_append_iff.1 h with ⟨ms, rfl, htail⟩ | ⟨ms, rfl, htail⟩
  · cases ms with
    | nil => simp at hne
    | cons m ms =>
      cases htail
      refine ⟨as ++ ms, qs, by simp, ?_⟩
      rw [List.length_append, List.length_cons, if_pos (by omega), List.length_append]
      omega
  · cases ms with
    | nil => simp at hne
    | cons m ms =>
      cases htail
      refine ⟨ps, ms ++ bs, by simp, if_neg ?_⟩
      rw [List.length_append]
      omega

theorem eq_of_id (hn : (ids cs).Nodup) (ha : a ∈ cs) (hb : b ∈ cs) (hid : a.id = b.id) : a = b := by
  obtain ⟨as, bs, rfl⟩ := List.append_of_mem ha
  obtain ⟨ps, qs, hcs⟩ := List.append_of_mem hb
  have hlen := Merge.length_eq_of_id hn hcs hid
  exact (List.cons.inj (List.append_inj hcs hlen).2).1

theorem map_beside (g : Decl → Decl) (side : Side) (us : Forest) (t : Decl) (vs : Forest)
    (x : Decl) : (beside side us t vs x false).children.map g =
      (beside side (us.map g) (g t) (vs.map g) (g x) false).children := by
  cases side <;> simp [beside, Outcome.children]

/-- What the positions of two names make of the children of a container. -/
inductive Following (side : Side) (name anchor : String) (cs : Forest) : Forest → Prop
  | kept (h : ∀ i j, cs.findIdx? (·.name == name) = some i →
      cs.findIdx? (·.name == anchor) = some j → i = j) : Following side name anchor cs cs
  | moved (as bs us vs : Forest) (a b : Decl) (target : Nat) (here : cs = as ++ a :: bs)
      (source : cs.findIdx? (·.name == name) = some as.length)
      (there : cs.findIdx? (·.name == anchor) = some target) (apart : as.length ≠ target)
      (rest : as ++ bs = us ++ b :: vs)
      (slot : (if target > as.length then target - 1 else target) = us.length) :
      Following side name anchor cs (beside side us b vs a false).children

theorem exists_stepped (side : Side) (hsource : cs.findIdx? (·.name == name) = some as.length)
    (htarget : cs.findIdx? (·.name == anchor) = some ps.length) (hhere : cs = as ++ a :: bs)
    (hthere : cs = ps ++ b :: qs) (hlen : as.length ≠ ps.length) :
    ∃ us vs, as ++ bs = us ++ b :: vs ∧
      (if ps.length > as.length then ps.length - 1 else ps.length) = us.length ∧
      stepped side name anchor cs = (beside side us b vs a false).children := by
  obtain ⟨us, vs, hrest, hslot⟩ := exists_split_without (hhere ▸ hthere) (Ne.symm hlen)
  refine ⟨us, vs, hrest, hslot, ?_⟩
  rw [stepped, hsource, htarget]
  dsimp only
  rw [if_neg hlen, hhere, moveBeside?_eq side hrest hslot]
  rfl

theorem stepped_spec (side : Side) (name anchor : String) (hn : (ids cs).Nodup) :
    Following side name anchor cs (stepped side name anchor cs) ∧
      InStep side name anchor cs (stepped side name anchor cs) := by
  unfold InStep
  cases ha : cs.find? (·.name == name) with
  | none =>
    have hsource := findIdx?_of_find?_eq_none ha
    have hkept : stepped side name anchor cs = cs := by rw [stepped, hsource]
    rw [hkept]
    exact ⟨.kept (by simp [hsource]), rfl⟩
  | some a =>
    obtain ⟨as, bs, hhere, hsource⟩ := findIdx?_of_find? ha
    cases hb : cs.find? (·.name == anchor) with
    | none =>
      have htarget := findIdx?_of_find?_eq_none hb
      have hkept : stepped side name anchor cs = cs := by rw [stepped, hsource, htarget]
      rw [hkept]
      exact ⟨.kept (by simp [htarget]), rfl⟩
    | some b =>
      obtain ⟨ps, qs, hthere, htarget⟩ := findIdx?_of_find? hb
      have hsplit : as ++ a :: bs = ps ++ b :: qs := hhere.symm.trans hthere
      by_cases hid : a.id = b.id
      · have hlen := Merge.length_eq_of_id (hhere ▸ hn) hsplit hid
        have hkept : stepped side name anchor cs = cs := by
          rw [stepped, hsource, htarget]
          exact if_pos hlen
        rw [hkept]
        refine ⟨.kept fun i j hi hj => ?_, (if_pos hid).mpr rfl⟩
        rw [hsource] at hi
        rw [htarget] at hj
        exact (Option.some.inj hi).symm.trans (hlen.trans (Option.some.inj hj))
      · have hlen : as.length ≠ ps.length := fun hlen =>
          hid (congrArg Decl.id (List.cons.inj (List.append_inj hsplit hlen).2).1)
        obtain ⟨us, vs, hrest, hslot, hmoved⟩ :=
          exists_stepped side hsource htarget hhere hthere hlen
        have hothers : cs.filter (·.id != a.id) = us ++ b :: vs := by
          rw [hhere, filter_id_ne (hhere ▸ hn), hrest]
        rw [hmoved]
        refine ⟨.moved as bs us vs a b ps.length hhere hsource htarget hlen hrest hslot, ?_⟩
        show if a.id = b.id then _ else _
        rw [if_neg hid, hothers]
        exact putBeside_beside ..

end Forest

def Decl.stepped (moved : Nat) (side : Side) (name anchor : String) (s : Decl) : Decl :=
  if s.id = moved then s else s.mapChildren (Forest.stepped side name anchor)

/-- With the stand-ins moved in all siblings, the container still stands beside its anchor. -/
theorem Forest.putBeside_stepped {us vs : Forest} {t x : Decl} {moved : Nat} (side : Side)
    (name anchor : String) (hx : x.id = moved) (hothers : ∀ s ∈ us ++ t :: vs, s.id ≠ moved) :
    let synced (s : Decl) := s.mapChildren fun _ => Forest.stepped side name anchor s.children
    PutBeside side (synced t) x ((us ++ t :: vs).map synced)
      ((beside side us t vs x false).children.map (Decl.stepped moved side name anchor)) := by
  intro synced
  have hsynced : ∀ s ∈ us ++ t :: vs, synced s = Decl.stepped moved side name anchor s := by
    intro s hs
    rw [Decl.stepped, if_neg (hothers s hs)]
    cases s <;> rfl
  have hkept : Decl.stepped moved side name anchor x = x := if_pos hx
  rw [map_beside, hkept, List.map_congr_left hsynced, hsynced t (by simp), List.map_append,
    List.map_cons]
  exact putBeside_beside ..

namespace Merge
variable {e : Engine} {c : Context} {cs xs ys : Forest} {s x d : Decl} {moved : Ref} {side : Side}
  {name anchor : String}

theorem reaches_moveBeside {us vs : Forest} {t : Decl} {target : Nat} (side : Side)
    (h : e.At c (xs ++ x :: ys)) (hrest : xs ++ ys = us ++ t :: vs)
    (ht : (if target > xs.length then target - 1 else target) = us.length) :
    Reaches (do moveBeside c.owner xs.length target (side == .after); reportMoved c.owner x.key) e c
      () (beside side us t vs x false).children := by
  obtain ⟨us', vs', hsplit, hbeside⟩ := exists_beside side us t vs
  have hsame : x.Alike x := ⟨rfl, rfl, rfl⟩
  have hn := Index.nodup_moved hsame (hsplit.trans hrest.symm) h.nodup_plug
  obtain ⟨i, hok, hi⟩ :=
    Index.moved_mirrors hsame (hsplit.trans hrest.symm) h.mirrors_plug h.nodup_plug
  have hmoved := moveBeside_apply h (moveBeside?_eq (x := x) side hrest ht)
  rw [hbeside] at hmoved ⊢
  have hreported := reportMoved_apply (e := { e with tree := c.plug (us' ++ x :: vs') })
    (Context.childrenOf_plug hn) hok
  exact ⟨_, (bind_apply hmoved).trans hreported, ⟨rfl, hi, hn⟩, rfl, rfl⟩

/-- In one sibling the stand-ins are brought in step, and the index learns of it. -/
theorem reaches_syncSibling (h : e.At c (xs ++ s :: ys)) :
    Reaches (syncSibling moved name anchor (side == .after) s) e c ()
      (xs ++ s.stepped moved.id side name anchor :: ys) := by
  unfold syncSibling Decl.stepped
  by_cases hid : s.id = moved.id
  · rw [if_pos hid]
    simp only [hid, decide_true, Bool.true_or, if_true]
    exact reaches_pure () h
  rw [if_neg hid]
  cases s with
  | leaf | member =>
    simp only [Decl.isContainer, Bool.not_false, Bool.or_true, if_true]
    exact reaches_pure () h
  | container k header cs t =>
    simp only [hid, decide_false, Decl.isContainer, Bool.not_true, Bool.or_false,
      Bool.false_eq_true, if_false]
    -- The children of the sibling are those of an owner one step further down.
    let l : Shell := ⟨xs, k, header, t, ys⟩
    have hinner : e.At (c ++ [l]) cs := Engine.At.inner.2 h
    have howner : Owner.container header.id = Context.owner (c ++ [l]) :=
      (Context.owner_concat c l).symm
    suffices hcs : Reaches _ e (c ++ [l]) () (Forest.stepped side name anchor cs) by
      obtain ⟨e', hrun, h', hnext, hsync⟩ := hcs
      exact ⟨e', hrun, Engine.At.inner.1 h', hnext, hsync⟩
    obtain ⟨hcases, -⟩ := stepped_spec side name anchor hinner.nodup_children
    generalize Forest.stepped side name anchor cs = cs' at hcases
    cases hcases with
    | kept hkept =>
      simp only [Decl.children]
      split
      · next source target hsource htarget =>
        rw [if_pos (hkept source target hsource htarget)]
        exact reaches_pure () hinner
      · exact reaches_pure () hinner
    | moved as bs us vs a b target here source there apart rest slot =>
      subst here
      have hmoved := reaches_moveBeside side hinner rest slot
      rw [← howner] at hmoved
      simp only [Decl.id, Decl.header, Decl.children, source, there, if_neg apart, getElem?_middle]
      exact hmoved

theorem reaches_syncSiblings (moved : Ref) (side : Side) (name anchor : String) (xs ys : Forest)
    (h : e.At c (xs ++ ys)) :
    Reaches (ys.forM (syncSibling moved name anchor (side == .after))) e c ()
      (xs ++ ys.map (Decl.stepped moved.id side name anchor)) := by
  induction ys generalizing e xs with
  | nil => exact reaches_pure () h
  | cons y ys ih =>
    -- Those in front of `y` are done, so that `y` is still what the loop has seen of it.
    show Reaches (syncSibling moved name anchor (side == .after) y >>= fun _ => ys.forM _) _ _ _ _
    apply (reaches_syncSibling h).bind
    intro e₁ h₁ _
    rw [List.map_cons, List.append_cons]
    exact ih _ (by rwa [← List.append_cons])

theorem absorb_nothing {x' : Decl} (h : e.At c cs) (hx : x' ∈ cs) (hid : x'.id = x.id)
    (hd : d.trailing = []) : absorb x.ref d e = .ok (some ⟨.container x.id, false⟩) e := by
  obtain ⟨xs, ys, rfl⟩ := List.append_of_mem hx
  have hsame : absorbTrailing [] x' = x' := by cases x' <;> rfl
  have htree : e.tree.update x.id (absorbTrailing d.trailing) = e.tree := by
    rw [hd, ← hid, h.update, hsame, h.tree]
  show EStateM.Result.ok _ { e with tree := e.tree.update x.id (absorbTrailing d.trailing) } = _
  rw [htree]
  rfl

end Merge

namespace Engine
variable {e e' : Engine} {c : Context} {cs : Forest} {o : Owner} {path : List String} {x t d : Decl}
  {token : Nat} {side : Side} {anchor : String} {f : Forest}

/-- The container `x` of an owner stands beside its sibling `t`, at the location of this one. In all
its other siblings the children that stand in for the two are in step, and there is no other change
of the tree. -/
def MovesInStep (e e' : Engine) (o : Owner) (side : Side) (t x : Decl) : Prop :=
  ∃ (inner : Decl → Forest) (new : Forest),
    let others := (e.tree.childrenOf o).filter (·.id != x.id)
    let synced (s : Decl) := s.mapChildren fun _ => inner s
    (∀ s ∈ others, InStep side x.name t.name s.children (inner s)) ∧
      PutBeside side (synced t) (x.withLocation t.location) (others.map synced) new ∧
      e'.tree = e.tree.updateChildren o fun _ => new

theorem At.exists_cut (h : e.At c cs) (hx : x ∈ cs)
    (hfirst : e.index.childAt? c.owner x.key = some x.ref) :
    ∃ xs ys, cut? x.key cs = some (xs, x, ys) := by
  have hfound : first? cs x.key = some x.ref := by
    rw [Index.childAt?_eq_view, h.view_owner] at hfirst
    exact hfirst
  rw [← map_cut?] at hfound
  obtain ⟨⟨xs, y, ys⟩, hcut, href⟩ := Option.map_eq_some_iff.1 hfound
  have hy : y ∈ cs := (cut?_eq_some hcut).1 ▸ List.mem_append_right _ List.mem_cons_self
  obtain rfl := eq_of_id h.nodup_children hy hx (congrArg Ref.id href)
  exact ⟨xs, ys, hcut⟩

theorem At.exists_anchorCut (h : e.At c cs) (ht : t ∈ cs)
    (hanchor : e.index.findSibling c.owner anchor = .ok (some ⟨t.ref, c.owner⟩)) :
    ∃ as bs, anchorCut? anchor cs = some (as, t, bs) ∧ t.name = anchor := by
  rw [Merge.findSibling_of_view h.view_owner] at hanchor
  obtain ⟨⟨as, y, bs⟩, hcut, hentry⟩ := Option.map_eq_some_iff.1 (Except.ok.inj hanchor)
  have hy : y ∈ cs := anchorCut?_eq_some hcut ▸ List.mem_append_right _ List.mem_cons_self
  obtain rfl := eq_of_id h.nodup_children hy ht (congrArg (fun e : Entry => e.node.id) hentry)
  refine ⟨as, bs, hcut, ?_⟩
  rcases Option.or_eq_some_iff.1 hcut with hmember | ⟨-, hdecl⟩
  · exact congrArg Key.name (cut?_eq_some hmember).2.2
  · exact congrArg Key.name (cut?_eq_some hdecl).2.2

theorem At.exists_movesInStep (h : e.At c cs) (hsync : e.syncStandIns = true) (hx : x ∈ cs)
    (hc : x.isContainer = true) (hfirst : e.index.childAt? c.owner x.key = some x.ref)
    (hd : d.isContainer = true) (hname : d.name = x.name) (ht : t ∈ cs)
    (hanchor : e.index.findSibling c.owner anchor = .ok (some ⟨t.ref, c.owner⟩))
    (hne : t.id ≠ x.id) :
    ∃ e' new x', Merge.relocate c.owner ⟨x.ref, c.owner⟩ d side anchor e = .ok () e' ∧
      e'.At c new ∧ x' ∈ new ∧ x'.id = x.id ∧ e.MovesInStep e' c.owner side t x := by
  obtain ⟨xs, ys, hcut⟩ := h.exists_cut hx hfirst
  obtain ⟨as, bs, hanchorCut, htname⟩ := h.exists_anchorCut ht hanchor
  obtain ⟨rfl, -, -⟩ := cut?_eq_some hcut
  have hsplit := anchorCut?_eq_some hanchorCut
  have hlen : as.length ≠ xs.length := fun hlen =>
    hne (by rw [(List.cons.inj (List.append_inj hsplit hlen.symm).2).1])
  obtain ⟨us, vs, hrest, hslot⟩ := exists_split_without hsplit hlen
  have hkey : x.key = d.key := by
    rw [x.key_of_isContainer hc, d.key_of_isContainer hd, hname]
  obtain ⟨e₁, h₁, -, hsync₁, hrun⟩ :=
    Merge.relocate_then side h hkey hanchorCut hlen hrest hslot
  rw [hsync, if_pos rfl, Merge.childrenOf_bind h₁] at hrun
  let moved := x.withLocation t.location
  have hid : moved.id = x.id := (x.alike_withLocation t.location).id
  obtain ⟨e', hsteps, h', -, -⟩ := Merge.reaches_syncSiblings x.ref side d.name anchor []
    (beside side us t vs moved false).children h₁
  -- The loop passes over the container itself, which it knows by its identity.
  have hmem : moved ∈ (beside side us t vs moved false).children.map
      (Decl.stepped x.id side d.name anchor) := by
    have hkept : Decl.stepped x.id side d.name anchor moved = moved := if_pos hid
    obtain ⟨us', vs', -, hbeside⟩ := exists_beside side us t vs
    rw [hbeside]
    exact List.mem_map.2 ⟨moved, by simp, hkept⟩
  have hothers : (xs ++ x :: ys).filter (·.id != x.id) = us ++ t :: vs :=
    (filter_id_ne h.nodup_children).trans hrest
  have hapart : ∀ s ∈ us ++ t :: vs, s.id ≠ x.id := by
    intro s hs
    rw [← hothers, List.mem_filter] at hs
    exact bne_iff_ne.1 hs.2
  refine ⟨e', _, moved, hrun.trans hsteps, h', hmem, hid,
    fun s => Forest.stepped side d.name anchor s.children, _, fun s hs => ?_, ?_,
    h'.tree.trans (h.updateChildren fun _ => _).symm⟩
  · rw [h.childrenOf] at hs
    obtain ⟨ps, qs, hs⟩ := List.append_of_mem (List.mem_of_mem_filter hs)
    rw [htname, ← hname]
    exact (stepped_spec side d.name anchor (Forest.nodup_children (hs ▸ h.nodup_children))).2
  · rw [h.childrenOf, hothers]
    exact putBeside_stepped side d.name anchor hid hapart

/-- On an engine that is built over a tree and keeps stand-ins in step, a container that is placed
anew beside another sibling is moved there with its stand-ins, and nothing else is changed. A layer
that has no more than the placement in it does just this. -/
theorem relocate_inStep (he : e = .ofForest f true) (ho : e.index.containerFor? path = some o)
    (hx : x ∈ e.tree.childrenOf o) (hc : x.isContainer = true)
    (hfirst : e.index.childAt? o x.key = some x.ref)
    (hd : d.isContainer = true) (hname : d.name = x.name) (hchildren : d.children = [])
    (htrailing : d.trailing = [])
    (hw : Directive.winner? d.annotations = some (token, .placed side anchor))
    (ht : t ∈ e.tree.childrenOf o)
    (hanchor : e.index.findSibling o anchor = .ok (some ⟨t.ref, o⟩)) (hne : t.id ≠ x.id) :
    ∃ e', Merge.relocate o ⟨x.ref, o⟩ d side anchor e = .ok () e' ∧
      (∀ fresh, Merge.mergeAll o fresh [d] e = .ok () e') ∧
      e.MovesInStep e' o side t x ∧ e'.index.SameAnswers (.ofForest e'.tree) e'.tree := by
  have hn : e.tree.ids.Nodup := he ▸ nodup_ids_number 1 f
  have hm : e.index.Mirrors e.tree := he ▸ Index.mirrors_ofForest (nodup_ids_number 1 f)
  obtain ⟨c, cs, htree, rfl, rfl, hclear⟩ := Index.containerFor?_eq_some hm hn ho
  have h : e.At c cs := ⟨htree, hm, hn⟩
  rw [h.childrenOf] at hx ht
  obtain ⟨e', new, x', hrun, h', hx', hid, hmoves⟩ :=
    h.exists_movesInStep (he ▸ rfl) hx hc hfirst hd hname ht hanchor hne
  refine ⟨e', hrun, fun fresh => ?_, hmoves, h'.mirrors.sameAnswers h'.nodup⟩
  obtain ⟨xs, ys, hcut⟩ := h.exists_cut hx hfirst
  have hkey : x.key = d.key := by
    rw [x.key_of_isContainer hc, d.key_of_isContainer hd, hname]
  have hfound : resolved? true d.key cs = some (xs, x, ys) := hkey ▸ hcut
  have htaken : (Merge.entryOf c.owner (some (xs, x, ys))).filter
      (fun e => d.isContainer && e.node.container) = some ⟨x.ref, c.owner⟩ := by
    show (some (⟨x.ref, c.owner⟩ : Entry)).filter _ = _
    rw [Option.filter_some, if_pos]
    simp [hd, hc, Decl.ref]
  have hsettle : Merge.settle c.owner fresh d e = .ok (some ⟨.container x.id, false⟩) e' := by
    unfold Merge.settle
    rw [Merge.bind_apply (Merge.existing?_apply h hclear.leads), hw, hfound]
    dsimp only
    unfold Merge.insertBeside
    rw [htaken]
    exact (Merge.bind_apply hrun).trans (Merge.absorb_nothing h' hx' hid htrailing)
  rw [Merge.mergeAll_cons, Merge.bind_apply hsettle, hchildren, Merge.mergeInto, Merge.mergeAll_nil,
    Merge.mergeAll_nil]
  rfl

/-- A class is moved behind another one, and in a module the first of two constants of its name. -/
theorem relocate_inStep_behind :
    let group (id : Nat) (name : String) (location : Option Location) (children : Forest) : Decl :=
      .container .classDecl { id, name, location } children []
    let leaf (id : Nat) (name : String) : Decl := .leaf .constant { id, name }
    let f : Forest := [group 0 "A" none [], group 0 "B" (some ⟨2, 4⟩) [],
      group 0 "M" none [leaf 0 "A", leaf 0 "A", group 0 "B" none []]]
    let d : Decl := .container .classDecl
      { id := 7, name := "A", annotations := [⟨"patch:append_after(B)", ""⟩] } [] []
    let e := ofForest f true
    let x := group 1 "A" none []
    let t := group 2 "B" (some ⟨2, 4⟩) []
    e.index.containerFor? [] = some .root ∧ x ∈ e.tree.childrenOf .root ∧ x.isContainer = true ∧
      e.index.childAt? .root x.key = some x.ref ∧ d.isContainer = true ∧ d.name = x.name ∧
      d.children = [] ∧ d.trailing = [] ∧
      Directive.winner? d.annotations = some (0, .placed .after "B") ∧
      t ∈ e.tree.childrenOf .root ∧
      e.index.findSibling .root "B" = .ok (some ⟨t.ref, .root⟩) ∧ t.id ≠ x.id ∧
      ∃ e', Merge.relocate .root ⟨x.ref, .root⟩ d .after "B" e = .ok () e' ∧
        e'.tree.preorder.map (fun d => (d.id, d.name, d.location)) =
          [(2, "B", some ⟨2, 4⟩), (1, "A", some ⟨2, 4⟩), (3, "M", none), (5, "A", none),
            (6, "B", none), (4, "A", none)] ∧
        (∀ fresh, Merge.mergeAll .root fresh [d] e = .ok () e') ∧
        e.MovesInStep e' .root .after t x ∧ e'.index.SameAnswers (.ofForest e'.tree) e'.tree := by
  intro group leaf f d e x t
  have hroot : e.index.containerFor? [] = some .root := rfl
  have hchildren : e.tree.childrenOf .root = [x, t, group 3 "M" none [leaf 4 "A", leaf 5 "A",
      group 6 "B" none []]] := by
    simp only [e, f, x, t, group, leaf]
    cbv
  have hx : x ∈ e.tree.childrenOf .root := by
    rw [hchildren]
    exact List.mem_cons_self
  have ht : t ∈ e.tree.childrenOf .root := by
    rw [hchildren]
    exact List.mem_cons_of_mem _ List.mem_cons_self
  have hfirst : e.index.childAt? .root x.key = some x.ref := by
    simp only [e, f, x, group, leaf]
    cbv
  have hanchor : e.index.findSibling .root "B" = .ok (some ⟨t.ref, .root⟩) := by
    simp only [e, f, t, group, leaf]
    cbv
  have hw : Directive.winner? d.annotations = some (0, .placed .after "B") := by decide +kernel
  have hne : t.id ≠ x.id := by decide
  obtain ⟨e', hrun, hmerge, hmoves, hanswers⟩ :=
    relocate_inStep (d := d) (rfl : e = .ofForest f true) hroot hx rfl hfirst rfl rfl rfl rfl hw ht
      hanchor hne
  have hrows : ((Merge.relocate .root ⟨x.ref, .root⟩ d .after "B" >>= fun _ => get).run' e).map
      (·.tree.preorder.map fun d => (d.id, d.name, d.location)) =
        some [(2, "B", some ⟨2, 4⟩), (1, "A", some ⟨2, 4⟩), (3, "M", none), (5, "A", none),
          (6, "B", none), (4, "A", none)] := by
    simp only [e, f, d, x, group, leaf]
    cbv
  rw [Merge.eval_get hrun] at hrows
  exact ⟨hroot, hx, rfl, hfirst, rfl, rfl, rfl, rfl, hw, ht, hanchor, hne, e', hrun,
    Option.some.inj hrows, hmerge, hmoves, hanswers⟩

end Engine
end SignatureLayers
