import Mathlib.Data.List.Basic
import SignatureLayers.Proofs.Edits
import SignatureLayers.Proofs.Resolution

namespace SignatureLayers

open Forest

def Outcome.destination? : Outcome → Option Merge.Destination
  | .done _ => none
  | .into _ d _ fresh => some ⟨.container d.id, fresh⟩

namespace Forest
variable {key : Key} {cs xs ys : Forest} {x : Decl}

def positionsFrom (n : Nat) (key : Key) (f : Forest) : List Nat :=
  ((f.zipIdx n).filter (·.1.key == key)).map (·.2)

theorem positionsFrom_cons (n : Nat) (key : Key) (d : Decl) (rest : Forest) :
    positionsFrom n key (d :: rest) =
      (if d.key = key then [n] else []) ++ positionsFrom (n + 1) key rest := by
  by_cases h : d.key = key <;> simp [positionsFrom, h]

theorem positions_of_cut? (h : cut? key cs = some (xs, x, ys)) :
    positions key cs = xs.length :: positionsFrom (xs.length + 1) key ys := by
  obtain ⟨rfl, hxs, rfl⟩ := cut?_eq_some h
  have hskip : ∀ n, positionsFrom n x.key (xs ++ x :: ys) =
      (n + xs.length) :: positionsFrom (n + xs.length + 1) x.key ys := by
    clear h
    induction xs with
    | nil => simp [positionsFrom_cons]
    | cons d xs ih =>
      intro n
      rw [homonyms_cons] at hxs
      split at hxs
      · cases hxs
      · next hd =>
        have hcount : n + 1 + xs.length = n + (xs.length + 1) := by omega
        rw [List.cons_append, positionsFrom_cons, if_neg hd, List.nil_append, ih hxs,
          List.length_cons, hcount]
  simpa [positionsFrom, positions] using hskip 0

theorem cut?_append (key : Key) (xs ys : Forest) :
    cut? key (xs ++ ys) =
      ((cut? key xs).map fun (us, t, vs) => (us, t, vs ++ ys)).or
        ((cut? key ys).map fun (us, t, vs) => (xs ++ us, t, vs)) := by
  induction xs with
  | nil => simp [cut?]
  | cons d xs ih =>
    rw [List.cons_append, cut?, cut?]
    split
    · rfl
    · rw [ih]
      cases cut? key xs <;> cases cut? key ys <;> rfl

theorem cut?_insert {us vs : Forest} {t : Decl} (hne : x.key ≠ key)
    (h : cut? key (xs ++ ys) = some (us, t, vs)) :
    ∃ as bs, cut? key (xs ++ x :: ys) = some (as, t, bs) ∧ as.length ≠ xs.length ∧
      (if as.length > xs.length then as.length - 1 else as.length) = us.length := by
  rw [cut?_append] at h ⊢
  rw [cut?, if_neg hne]
  rcases Option.or_eq_some_iff.1 h with hx | ⟨hx, hy⟩
  · obtain ⟨⟨as, u, bs⟩, hcut, heq⟩ := Option.map_eq_some_iff.1 hx
    cases heq
    have hlen := congrArg List.length (cut?_eq_some hcut).1
    rw [List.length_append, List.length_cons] at hlen
    refine ⟨us, bs ++ x :: ys, by rw [hcut]; rfl, by omega, if_neg (by omega)⟩
  · obtain ⟨⟨as, u, bs⟩, hcut, heq⟩ := Option.map_eq_some_iff.1 hy
    cases heq
    rw [Option.map_eq_none_iff] at hx
    refine ⟨xs ++ x :: as, vs, by rw [hx, hcut]; rfl, by simp, ?_⟩
    rw [List.length_append, List.length_cons, if_pos (by omega), List.length_append]
    omega

theorem cut?_insert_none (hne : x.key ≠ key) (h : cut? key (xs ++ ys) = none) :
    cut? key (xs ++ x :: ys) = none := by
  rw [cut?_eq_none] at h ⊢
  rw [homonyms_append, homonyms_cons, if_neg hne, ← homonyms_append, h]

theorem exists_beside (side : Side) (us : Forest) (t : Decl) (vs : Forest) :
    ∃ us' vs', us' ++ vs' = us ++ t :: vs ∧
      ∀ x, (beside side us t vs x false).children = us' ++ x :: vs' := by
  cases side with
  | after => exact ⟨us ++ [t], vs, by simp, fun _ => rfl⟩
  | before => exact ⟨us, t :: vs, rfl, fun _ => rfl⟩

/-- Moving a sibling is taking it out and putting it beside the other one. -/
theorem moveBeside?_eq {us vs : Forest} {t : Decl} {target : Nat} (side : Side)
    (hrest : xs ++ ys = us ++ t :: vs)
    (ht : (if target > xs.length then target - 1 else target) = us.length) :
    (xs ++ x :: ys).moveBeside? xs.length target (side == .after) =
      some (beside side us t vs x false).children := by
  have hget : (xs ++ x :: ys)[xs.length]? = some x := by simp
  have herase : (xs ++ x :: ys).eraseIdx xs.length = us ++ t :: vs := by
    rw [List.eraseIdx_append_of_length_le (Nat.le_refl _), Nat.sub_self, List.eraseIdx_zero,
      List.tail_cons, hrest]
  rw [moveBeside?, hget, Option.map_some, herase, destination]
  simp only [ht]
  cases side with
  | after =>
    have hsplit : us ++ t :: vs = (us ++ [t]) ++ vs := by simp
    have hlen : us.length + 1 = (us ++ [t]).length := by simp
    simp only [beq_self_eq_true, ↓reduceIte, place]
    rw [hsplit, hlen, List.take_left, List.drop_left]
    rfl
  | before =>
    show some (place us.length x (us ++ t :: vs)) = _
    rw [place, List.take_left, List.drop_left]
    rfl

end Forest

namespace Merge
variable {e : Engine} {c : Context} {cs : Forest} {d : Decl} {known fresh : Bool}

/-- A step settles a declaration with an outcome. -/
def Yields (m : Merge (Option Destination)) (e : Engine) (c : Context) (out : Outcome) : Prop :=
  Reaches m e c out.destination? out.children

theorem yields_insertHollow {p : Nat} (h : e.At c cs) (hnew : d.id ∉ Forest.ids (c.plug cs)) :
    Yields (insertHollow c.owner p d) e c (.into (cs.take p) d.hollow (cs.drop p) true) := by
  have hcs : cs.take p ++ cs.drop p = cs := List.take_append_drop p cs
  have hid : d.hollow.id = d.id := by cases d <;> rfl
  have hn : (Forest.ids (c.plug (cs.take p ++ d.hollow :: cs.drop p))).Nodup := by
    apply nodup_with (by simp)
    · rwa [hcs, hid]
    · rw [hcs]
      exact h.nodup_plug
  apply (reaches_insertAt h hn).bind
  intro _ h' _
  rw [Outcome.destination?, hid]
  exact reaches_pure _ h'

theorem yields_insertLast (h : e.At c cs) (hnew : d.id ∉ Forest.ids (c.plug cs)) :
    Yields (insertHollow c.owner cs.length d) e c (.into cs d.hollow [] true) := by
  simpa using yields_insertHollow (p := cs.length) h hnew

theorem yields_absorb {xs ys : Forest} {x : Decl} (h : e.At c (xs ++ x :: ys)) :
    Yields (absorb x.ref d) e c (.into xs (absorbTrailing d.trailing x) ys false) := by
  have hsame := x.alike_absorbTrailing d.trailing
  apply (reaches_change hsame h).bind
  intro _ h' _
  rw [Outcome.destination?, hsame.id]
  exact reaches_pure _ h'

theorem yields_done (notices : List Notice) (h : e.At c cs) :
    Yields (notify notices >>= fun _ => pure none) e c (.done cs) :=
  (reaches_notify notices h).bind fun _ h' _ => reaches_pure none h'

theorem removeAll_of {o : Owner} {R : Engine → Forest → Prop}
    (hremove : ∀ {e xs d ys}, R e (xs ++ d :: ys) →
      ∃ e', removeAt o xs.length e = .ok () e' ∧ R e' (xs ++ ys))
    (us : Forest) (key : Key) (ys : Forest) (h : R e (us ++ ys)) :
    ∃ e', (positionsFrom us.length key ys).reverse.forM (removeAt o) e = .ok () e' ∧
      R e' (us ++ ys.filter (·.key != key)) := by
  induction ys generalizing us with
  | nil => exact ⟨e, rfl, h⟩
  | cons y ys ih =>
    have hus : us ++ y :: ys = (us ++ [y]) ++ ys := by simp
    obtain ⟨e₁, hrun, h₁⟩ := ih (us ++ [y]) (hus ▸ h)
    rw [List.length_append, List.length_singleton] at hrun
    rw [positionsFrom_cons]
    by_cases hy : y.key = key
    · have hkeep : (y :: ys).filter (·.key != key) = ys.filter (·.key != key) := by simp [hy]
      obtain ⟨e₂, hlast, h₂⟩ := hremove (by simpa using h₁)
      rw [if_pos hy, List.singleton_append, List.reverse_cons, List.forM_eq_forM,
        List.forM_append, hkeep]
      exact ⟨e₂, (bind_apply hrun).trans (bind_apply hlast), h₂⟩
    · have hkeep : us ++ (y :: ys).filter (·.key != key) =
          (us ++ [y]) ++ ys.filter (·.key != key) := by simp [hy]
      rw [if_neg hy, List.nil_append, hkeep]
      exact ⟨e₁, hrun, h₁⟩

theorem reaches_removeAll (us : Forest) (key : Key) (ys : Forest) (h : e.At c (us ++ ys)) :
    Reaches ((positionsFrom us.length key ys).reverse.forM (removeAt c.owner)) e c ()
      (us ++ ys.filter (·.key != key)) := by
  refine removeAll_of (R := fun e' cs => e'.At c cs ∧ e'.next = e.next ∧
    e'.syncStandIns = e.syncStandIns) (fun {e₁ xs d ys} h₁ => ?_) us key ys ⟨h, rfl, rfl⟩
  obtain ⟨e₂, hrun, h₂, hnext, hsync⟩ := reaches_removeAt h₁.1
  exact ⟨e₂, hrun, h₂, hnext.trans h₁.2.1, hsync.trans h₁.2.2⟩

def entryOf (o : Owner) (found : Option (Forest × Decl × Forest)) : Option Entry :=
  found.map fun (_, x, _) => ⟨x.ref, o⟩

theorem filter_entryOf (o : Owner) (found : Option (Forest × Decl × Forest)) (d : Decl) :
    ((entryOf o found).filter fun e => d.isContainer && e.node.container) =
      entryOf o (found.filter fun (_, x, _) => d.isContainer && x.isContainer) := by
  cases found with
  | none => rfl
  | some found =>
    simp only [entryOf, Option.map_some, Option.filter, Decl.ref]
    split <;> rfl

theorem yields_placed {present : Bool} (existing : Option Entry) (he : existing.isSome = present)
    (h : e.At c cs) (hnew : d.id ∉ Forest.ids (c.plug cs)) :
    Yields (if d.kind = .leaf .useClause then
        if existing.isSome then notify [.useRepeated d.name] >>= fun _ => pure none
        else insertHollow c.owner (usePosition cs) d
      else if fresh then insertHollow c.owner cs.length d
      else if d.kind.isVariable then
        if existing.isSome then
          qualifiedName c.owner d >>= fun q => notify [.variableRepeated q] >>= fun _ => pure none
        else placeVariable c.owner d
      else if d.kind.isVisibility && cs.any (·.kind == d.kind) then pure none
      else insertHollow c.owner cs.length d) e c (placed present fresh d cs) := by
  subst he
  unfold placed
  have hlast := yields_insertLast h hnew
  split
  · split
    · exact yields_done _ h
    · exact yields_insertHollow h hnew
  · split
    · exact hlast
    · split
      · split
        · exact Reaches.congr (qualifiedName_bind h _) (yields_done _ h)
        · apply Reaches.congr (childrenOf_bind h _)
          cases hp : variablePlace? d.kind cs with
          | none => exact hlast
          | some place =>
            obtain ⟨neighbour, p⟩ := place
            have hid : (d.withLocation neighbour.location).id = d.id := by cases d <;> rfl
            exact yields_insertHollow h (hid ▸ hnew)
      · split
        · exact reaches_pure none h
        · exact hlast

theorem yields_add (h : e.At c cs) (hnew : d.id ∉ Forest.ids (c.plug cs)) :
    Yields (add c.owner fresh d (entryOf c.owner (resolved? known d.key cs))) e c
      (match (resolved? known d.key cs).filter fun (_, x, _) => d.isContainer && x.isContainer with
        | some (xs, x, ys) => .into xs (absorbTrailing d.trailing x) ys false
        | none => placed (resolved? known d.key cs).isSome fresh d cs) := by
  unfold add
  rw [filter_entryOf]
  cases htaken : (resolved? known d.key cs).filter
    fun (_, x, _) => d.isContainer && x.isContainer with
  | some taken =>
    obtain ⟨xs, x, ys⟩ := taken
    obtain ⟨rfl, -, -⟩ := cut?_eq_some (absorber_of_taken htaken).2.1
    exact yields_absorb h
  | none => exact Reaches.congr (childrenOf_bind h _) (yields_placed _ Option.isSome_map h hnew)

theorem yields_override {token : Nat} (h : e.At c cs) (hnew : d.id ∉ Forest.ids (c.plug cs)) :
    Yields (override c.owner d (entryOf c.owner (resolved? known d.key cs)) token) e c
      (match resolved? known d.key cs with
        | some (xs, x, ys) => .into xs ((d.dropAnnot token).withLocation x.location).hollow
            (ys.filter (·.key != d.key)) true
        | none => .done cs) := by
  unfold override
  cases hfound : resolved? known d.key cs with
  | none => exact Reaches.congr (qualifiedName_bind h _) (yields_done _ h)
  | some found =>
    obtain ⟨xs, x, ys⟩ := found
    have hcut := (resolved?_eq_some hfound).2
    obtain ⟨rfl, hxs, hkey⟩ := cut?_eq_some hcut
    have hput := d.putAs_dropAnnot token x.location
    have hsplit : xs ++ x :: ys = (xs ++ [x]) ++ ys := by simp
    have hdkey : ((d.dropAnnot token).withLocation x.location).key = d.key := by cases d <;> rfl
    have hdid : ((d.dropAnnot token).withLocation x.location).id = d.id := by cases d <;> rfl
    refine Reaches.congr (locationOf_bind h _) (Reaches.congr (childrenOf_bind h _) ?_)
    rw [hdkey, positions_of_cut? hcut]
    have hremoved := reaches_removeAll (xs ++ [x]) d.key ys (hsplit ▸ h)
    rw [List.length_append, List.length_singleton] at hremoved
    apply hremoved.bind
    intro e' h' _
    have h'' : e'.At c (xs ++ x :: ys.filter (·.key != d.key)) := by simpa using h'
    have hsub : (xs ++ ys.filter (·.key != d.key)).Sublist (xs ++ x :: ys) :=
      (List.filter_sublist.trans (List.sublist_cons_self x ys)).append_left xs
    have hn : (Forest.ids (c.plug (xs ++ ((d.dropAnnot token).withLocation x.location).hollow ::
        ys.filter (·.key != d.key)))).Nodup := by
      refine nodup_with hput.children (fun hm => hnew ?_) (nodup_without h''.nodup_plug)
      rw [hput.id, Context.mem_ids_plug] at hm
      exact Context.mem_ids_plug.2 (hm.imp_right fun hm => (ids_sublist hsub).mem hm)
    apply (reaches_replaceAt (hkey.trans hput.key.symm) h'' hn).bind
    intro _ h₃ _
    rw [Outcome.destination?, hput.id, ← hdid]
    exact reaches_pure _ h₃

theorem yields_delete {found : Option (Forest × Decl × Forest)} (h : e.At c cs) :
    Yields (delete c.owner d (entryOf c.owner found)) e c
      (.done (if found.isSome then cs.filter (·.key != d.key) else cs)) := by
  unfold delete
  cases found with
  | none => exact Reaches.congr (qualifiedName_bind h _) (yields_done _ h)
  | some found =>
    have hremoved : Reaches ((positions d.key (e.tree.childrenOf c.owner)).reverse.forM
        (removeAt c.owner)) e c () (cs.filter (·.key != d.key)) := by
      rw [h.childrenOf]
      exact reaches_removeAll [] d.key cs h
    exact hremoved.bind fun _ h' _ => reaches_pure none h'

theorem findSibling_of_view {i : Index} {o : Owner} {path : List String}
    (h : i.view o = some (path, first? cs)) (anchor : String) :
    i.findSibling o anchor = .ok (entryOf o (anchorCut? anchor cs)) := by
  rw [Index.findSibling_eq_view, h]
  simp only [← map_cut?, anchorCut?, entryOf]
  cases cut? ⟨anchor, true⟩ cs <;> cases cut? ⟨anchor, false⟩ cs <;> rfl

theorem findSibling_bind {β : Type} (h : e.At c cs) (anchor : String)
    (f : Option Entry → Merge β) :
    (get >>= fun e => lift (e.index.findSibling c.owner anchor) >>= f) e =
      f (entryOf c.owner (anchorCut? anchor cs)) e := by
  show (lift (e.index.findSibling c.owner anchor) >>= f) e = _
  rw [findSibling_of_view h.view_owner, bind_lift_ok rfl]

theorem yields_beside {token : Nat} (side : Side) (anchor : String) (h : e.At c cs)
    (hnew : d.id ∉ Forest.ids (c.plug cs)) :
    Yields (get >>= fun e => lift (e.index.findSibling c.owner anchor) >>= fun
      | none => qualifiedName c.owner d >>= fun q =>
        notify [.anchorMissing anchor q] >>= fun _ => pure none
      | some target => locationOf target.node >>= fun location =>
        let d := (d.dropAnnot token).withLocation location
        positionOf target >>= fun position =>
        insertHollow c.owner (if side = .after then position + 1 else position) d) e c
      (match anchorCut? anchor cs with
        | some (xs, t, ys) =>
          beside side xs t ys ((d.dropAnnot token).withLocation t.location).hollow true
        | none => .done cs) := by
  apply Reaches.congr (findSibling_bind h anchor _)
  cases hcut : anchorCut? anchor cs with
  | none => exact Reaches.congr (qualifiedName_bind h _) (yields_done _ h)
  | some found =>
    obtain ⟨xs, t, ys⟩ := found
    have hcs := anchorCut?_eq_some hcut
    subst hcs
    have hid : ((d.dropAnnot token).withLocation t.location).id = d.id := by cases d <;> rfl
    refine Reaches.congr (locationOf_bind h _) (Reaches.congr (positionOf_bind h _) ?_)
    cases side with
    | after =>
      have hsplit : xs ++ t :: ys = (xs ++ [t]) ++ ys := by simp
      have hlen : xs.length + 1 = (xs ++ [t]).length := by simp
      have hput := yields_insertHollow (p := xs.length + 1) h (hid ▸ hnew)
      rw [hsplit, hlen, List.take_left, List.drop_left] at hput
      rw [if_pos rfl, hlen]
      exact hput
    | before =>
      have hput := yields_insertHollow (p := xs.length) h (hid ▸ hnew)
      rw [List.take_left, List.drop_left] at hput
      exact hput

/-- Where a container finds its anchor among the other siblings, it finds it among all; where it
does not, there is none, or it is the container itself. -/
theorem anchor_of_anchorFrom? (anchor : String) {xs : Forest} (ys : Forest) {x : Decl}
    (hx : homonyms x.key xs = []) (hc : x.isContainer = true) :
    match anchorFrom? anchor x (xs ++ ys) with
    | some (us, t, _) => ∃ as bs, anchorCut? anchor (xs ++ x :: ys) = some (as, t, bs) ∧
        as.length ≠ xs.length ∧
        (if as.length > xs.length then as.length - 1 else as.length) = us.length
    | none => ∀ as t bs, anchorCut? anchor (xs ++ x :: ys) = some (as, t, bs) → t = x := by
  have hkey := x.key_of_isContainer hc
  have hmember : x.key ≠ ⟨anchor, true⟩ := by simp [hkey]
  unfold anchorFrom? anchorCut?
  cases hm : cut? ⟨anchor, true⟩ (xs ++ ys) with
  | some found =>
    obtain ⟨us, t, vs⟩ := found
    obtain ⟨as, bs, hcut, hne, hlen⟩ := cut?_insert hmember hm
    exact ⟨as, bs, by rw [hcut]; rfl, hne, hlen⟩
  | none =>
    rw [cut?_insert_none hmember hm]
    by_cases hname : anchor = x.name
    · subst hname
      rw [if_pos rfl]
      intro as t bs hcut
      rw [Option.none_or, ← hkey, cut?_middle hx rfl] at hcut
      cases hcut
      rfl
    · have hdecl : x.key ≠ ⟨anchor, false⟩ := by simp [hkey, Ne.symm hname]
      rw [if_neg hname, Option.none_or, Option.none_or]
      cases hd : cut? ⟨anchor, false⟩ (xs ++ ys) with
      | some found =>
        obtain ⟨us, t, vs⟩ := found
        exact cut?_insert hdecl hd
      | none =>
        intro as t bs hcut
        rw [cut?_insert_none hdecl hd] at hcut
        cases hcut

theorem moveBeside_apply {source target : Nat} {after : Bool} {cs' : Forest} (h : e.At c cs)
    (hmove : cs.moveBeside? source target after = some cs') :
    moveBeside c.owner source target after e = .ok () { e with tree := c.plug cs' } := by
  unfold moveBeside
  rw [childrenOf_bind h, hmove]
  show EStateM.Result.ok () (withChildren e c.owner cs') = _
  rw [withChildren_at h]

/-- In the middle of a move, when the index does not know of it yet. -/
theorem locationOf_apply {t : Decl} (e : Engine) (ht : t ∈ cs)
    (hn : (Forest.ids (c.plug cs)).Nodup) :
    locationOf t.ref { e with tree := c.plug cs } =
      .ok t.location { e with tree := c.plug cs } := by
  obtain ⟨xs, ys, rfl⟩ := List.append_of_mem ht
  show EStateM.Result.ok ((Forest.node? t.id (c.plug (xs ++ t :: ys))).bind Decl.location) _ = _
  rw [Context.node?_child hn]
  rfl

theorem change_apply {xs ys : Forest} {x : Decl} (e : Engine) (f : Decl → Decl)
    (hn : (Forest.ids (c.plug (xs ++ x :: ys))).Nodup) :
    change x.ref f { e with tree := c.plug (xs ++ x :: ys) } =
      .ok () { e with tree := c.plug (xs ++ f x :: ys) } := by
  rw [← Context.update_child f hn]
  rfl

/-- A container is moved beside the sibling that the anchor names, and the index learns of it. What
is left to do then is to bring the stand-ins in step, if this is wanted. -/
theorem relocate_then (side : Side) {anchor : String} {as bs us vs xs ys : Forest} {x t : Decl}
    (h : e.At c (xs ++ x :: ys)) (hkey : x.key = d.key)
    (hcut : anchorCut? anchor (xs ++ x :: ys) = some (as, t, bs)) (hne : as.length ≠ xs.length)
    (hrest : xs ++ ys = us ++ t :: vs)
    (hlen : (if as.length > xs.length then as.length - 1 else as.length) = us.length) :
    ∃ e₁ : Engine, e₁.At c (beside side us t vs (x.withLocation t.location) false).children ∧
      e₁.next = e.next ∧ e₁.syncStandIns = e.syncStandIns ∧
      relocate c.owner ⟨x.ref, c.owner⟩ d side anchor e =
        (if e.syncStandIns then
          childrenOf c.owner >>= (·.forM (syncSibling x.ref d.name anchor (side == .after)))
        else pure ()) e₁ := by
  have ht := anchorCut?_eq_some hcut
  have hother : t.ref.id ≠ x.ref.id := fun hid =>
    hne (length_eq_of_id (Index.nodup_child h.nodup_plug) ht hid.symm).symm
  have hmove := moveBeside?_eq (x := x) side hrest hlen
  obtain ⟨us', vs', hsplit, hbeside⟩ := exists_beside side us t vs
  rw [← hrest] at hsplit
  rw [hbeside] at hmove ⊢
  have hsame := x.alike_withLocation t.location
  have hn : (Forest.ids (c.plug (us' ++ x :: vs'))).Nodup :=
    Index.nodup_moved ⟨rfl, rfl, rfl⟩ hsplit h.nodup_plug
  have hn' := Index.nodup_moved hsame hsplit h.nodup_plug
  obtain ⟨i, hok, hi⟩ := Index.moved_mirrors hsame hsplit h.mirrors_plug h.nodup_plug
  have hmoved := moveBeside_apply h hmove
  have hmem : t ∈ us' ++ x :: vs' :=
    ((List.sublist_cons_self x vs').append_left us').subset (by simp [hsplit, hrest])
  have hlocation := locationOf_apply e hmem hn
  have hchanged := change_apply e (·.withLocation t.location) hn
  have hreported := reportMoved_apply
    (e := { e with tree := c.plug (us' ++ x.withLocation t.location :: vs') })
    (Context.childrenOf_plug hn') hok
  refine ⟨{ e with tree := c.plug (us' ++ x.withLocation t.location :: vs'), index := i },
    ⟨rfl, hi, hn'⟩, rfl, rfl, ?_⟩
  unfold relocate
  rw [findSibling_bind h anchor]
  simp only [hcut, entryOf, Option.map_some, if_neg hother]
  rw [positionOf_bind h, positionOf_bind (ht ▸ h), bind_apply hmoved, bind_apply hlocation,
    bind_apply hchanged, ← hkey, bind_apply hreported]
  rfl

theorem yields_relocated {side : Side} {anchor : String} {xs ys : Forest} {x : Decl}
    (h : e.At c (xs ++ x :: ys)) (hkey : x.key = d.key) (hx : homonyms x.key xs = [])
    (hc : x.isContainer = true) (hsync : e.syncStandIns = false) :
    Yields (do relocate c.owner ⟨x.ref, c.owner⟩ d side anchor; absorb x.ref d) e c
      (relocated d side anchor xs x ys) := by
  have hfound := anchor_of_anchorFrom? anchor ys hx hc
  unfold relocate relocated
  cases hfrom : anchorFrom? anchor x (xs ++ ys) with
  | none =>
    rw [hfrom] at hfound
    have hstays : Reaches (qualifiedName c.owner d >>= fun q => notify [.positionKept q anchor])
        e c () (xs ++ x :: ys) :=
      Reaches.congr (qualifiedName_bind h _) (reaches_notify _ h)
    -- Whatever the reason, all stays as it is but for the comments that `x` takes in.
    suffices hkept : Reaches (relocate c.owner ⟨x.ref, c.owner⟩ d side anchor) e c ()
        (xs ++ x :: ys) from hkept.bind fun _ h' _ => yields_absorb h'
    apply Reaches.congr (findSibling_bind h anchor _)
    cases hcut : anchorCut? anchor (xs ++ x :: ys) with
    | none => exact hstays
    | some found =>
      obtain ⟨as, t, bs⟩ := found
      have ht := hfound as t bs hcut
      subst ht
      simp only [entryOf, Option.map_some, ↓reduceIte]
      exact hstays
  | some found =>
    obtain ⟨us, t, vs⟩ := found
    rw [hfrom] at hfound
    obtain ⟨as, bs, hcut, hne, hlen⟩ := hfound
    obtain ⟨e₁, h₁, hnext, hkept, hrun⟩ :=
      relocate_then side h hkey hcut hne (anchorFrom?_eq_some hfrom) hlen
    have hrelocated : Reaches (relocate c.owner ⟨x.ref, c.owner⟩ d side anchor) e c ()
        (beside side us t vs (x.withLocation t.location) false).children := by
      refine ⟨e₁, hrun.trans ?_, h₁, hnext, hkept⟩
      rw [hsync]
      rfl
    apply hrelocated.bind
    intro e' h' _
    rw [← (x.alike_withLocation t.location).ref]
    cases side with
    | after => exact yields_absorb h'
    | before => exact yields_absorb h'

theorem yields_insertBeside {token : Nat} (side : Side) (anchor : String) (h : e.At c cs)
    (hnew : d.id ∉ Forest.ids (c.plug cs)) (hsync : e.syncStandIns = false) :
    Yields (insertBeside c.owner d (entryOf c.owner (resolved? known d.key cs)) token side anchor)
      e c
      (match (resolved? known d.key cs).filter fun (_, x, _) => d.isContainer && x.isContainer with
        | some (xs, x, ys) => relocated d side anchor xs x ys
        | none =>
          match anchorCut? anchor cs with
          | some (xs, t, ys) =>
            beside side xs t ys ((d.dropAnnot token).withLocation t.location).hollow true
          | none => .done cs) := by
  unfold insertBeside
  rw [filter_entryOf]
  cases htaken : (resolved? known d.key cs).filter
    fun (_, x, _) => d.isContainer && x.isContainer with
  | none => exact yields_beside side anchor h hnew
  | some taken =>
    obtain ⟨xs, x, ys⟩ := taken
    obtain ⟨-, hcut, -, hcontainer⟩ := absorber_of_taken htaken
    obtain ⟨rfl, hx, hkey⟩ := cut?_eq_some hcut
    exact yields_relocated h hkey (hkey.symm ▸ hx) hcontainer hsync

/-- A declaration finds the first sibling with its key, where its owner is known by its path. -/
theorem existing?_apply (h : e.At c cs) (hl : c.Leads known) :
    existing? c.owner d e = .ok (entryOf c.owner (resolved? known d.key cs)) e := by
  have hget : e.index.get? ⟨c.path, d.key⟩ = entryOf c.owner (resolved? known d.key cs) :=
    Index.get?_path h.mirrors_plug h.nodup_plug hl d.key
  rw [existing?, get_bind, qualifiedName_bind h, hget]
  rfl

/-- A declaration is settled as the plain function on the siblings says. -/
theorem yields_settle (h : e.At c cs) (hl : c.Leads known) (hnew : d.id ∉ Forest.ids (c.plug cs))
    (hsync : e.syncStandIns = false) :
    Yields (settle c.owner fresh d) e c (settled known fresh d cs) := by
  unfold settle settled
  apply Reaches.congr (bind_apply (existing?_apply h hl))
  cases Directive.winner? d.annotations with
  | none => exact yields_add h hnew
  | some winner =>
    obtain ⟨token, directive⟩ := winner
    cases directive with
    | override => exact yields_override h hnew
    | delete => exact yields_delete h
    | placed side anchor => exact yields_insertBeside side anchor h hnew hsync

end Merge

namespace Forest
variable {known fresh : Bool} {d x : Decl} {cs xs ys layer : Forest} {out : Outcome}

theorem Settlement.mem_ids (h : Settlement known d cs out) {id : Nat}
    (hid : id ∈ ids out.children) : id ∈ ids cs ∨ id = d.id := by
  cases h with
  | kept => exact .inl hid
  | removed => exact .inl ((ids_sublist List.filter_sublist).mem hid)
  | replaced token xs x ys hw hcut =>
    obtain ⟨rfl, -, -⟩ := cut?_eq_some hcut
    have hput := d.putAs_dropAnnot token x.location
    rw [Outcome.children, mem_ids_middle, hput.id, hput.children] at hid
    rcases hid with hid | hid | hid
    · exact .inr hid
    · simp at hid
    · refine .inl (mem_ids_middle.2 (.inr (.inr ((ids_sublist ?_).mem hid))))
      exact List.filter_sublist.append_left xs
  | absorbed xs x ys hknown hcut =>
    obtain ⟨rfl, -, -⟩ := cut?_eq_some hcut
    rw [Outcome.children, (x.alike_absorbTrailing d.trailing).ids_middle] at hid
    exact .inl hid
  | moved token side anchor xs x ys us vs t hw hknown hcut hd hx hrest =>
    obtain ⟨rfl, -, -⟩ := cut?_eq_some hcut
    have hsame := (x.alike_withLocation t.location).trans (Decl.alike_absorbTrailing d.trailing _)
    rw [Outcome.children, hsame.ids_middle, mem_ids_middle, hrest, ← mem_ids_middle] at hid
    exact .inl hid
  | inserted xs d' ys hput =>
    rw [Outcome.children, mem_ids_middle, hput.putAs.id, hput.putAs.children, ← hput.split] at hid
    rcases hid with hid | hid | hid
    · exact .inr hid
    · simp at hid
    · exact .inl hid

theorem Settlement.isContainer {xs ys : Forest} {x : Decl}
    (h : Settlement known d cs (.into xs x ys fresh)) (hd : d.isContainer = true) :
    x.isContainer = true := by
  cases h with
  | replaced token xs x ys => exact ((d.putAs_dropAnnot token x.location).isContainer).trans hd
  | absorbed xs x ys hknown hcut hd hx => exact ((x.alike_absorbTrailing _).isContainer).trans hx
  | moved token side anchor xs x ys us vs t hw hknown hcut hd hx =>
    exact (((x.alike_withLocation _).trans (Decl.alike_absorbTrailing _ _)).isContainer).trans hx
  | inserted xs d' ys hput => exact hput.putAs.isContainer.trans hd

theorem Settlement.first {moved : String → Prop} (h : Settlement true d cs (.into xs x ys fresh))
    (hm : d.Moves → moved d.name) (hs : Sound moved cs) (hd : d.isContainer = true) :
    ∀ z ∈ (homonyms x.key xs).head?, z.isContainer = false := by
  have hnone {key : Key} (hxs : homonyms key xs = []) :
      ∀ z ∈ (homonyms key xs).head?, z.isContainer = false := by simp [hxs]
  have hfirst {key : Key} {us vs : Forest}
      (h : ∀ z ∈ (homonyms key (us ++ vs)).head?, z.isContainer = false) :
      ∀ z ∈ (homonyms key us).head?, z.isContainer = false := by
    intro z hz
    apply h z
    rw [homonyms_append, List.head?_append, Option.mem_def.1 hz]
    rfl
  cases h with
  | replaced token xs x ys hw hcut =>
    rw [(d.putAs_dropAnnot token x.location).key]
    exact hnone (cut?_eq_some hcut).2.1
  | absorbed xs x ys hknown hcut =>
    rw [(x.alike_absorbTrailing d.trailing).key, (cut?_eq_some hcut).2.2]
    exact hnone (cut?_eq_some hcut).2.1
  | moved token side anchor us x vs us' vs' t hw hknown hcut hcd hx hrest =>
    obtain ⟨rfl, hxs, hkey⟩ := cut?_eq_some hcut
    rw [((x.alike_withLocation t.location).trans (Decl.alike_absorbTrailing d.trailing _)).key]
    have hname : x.name = d.name := congrArg Key.name hkey
    have hmoved : moved x.name := hname ▸ hm ⟨hd, token, side, anchor, hw⟩
    have hhead := (hs.remove (hkey.symm ▸ hxs) hx hmoved).2
    rw [← hrest] at hhead
    exact hfirst hhead
  | inserted xs d' ys hput hnew =>
    have hhead := hnew rfl hd
    rw [hput.split] at hhead
    rw [hput.putAs.key]
    exact hfirst hhead

theorem mem_ids_completed {ds : Forest} {id : Nat}
    (ih : ∀ {known fresh : Bool} {cs : Forest}, id ∈ ids (merged known fresh cs ds) →
      id ∈ ids cs ∨ id ∈ ids ds)
    (hid : id ∈ ids (completed known ds out)) : id ∈ ids out.children ∨ id ∈ ids ds := by
  cases out with
  | done cs => exact .inl hid
  | into xs x ys fresh =>
    rw [completed, mem_ids_middle] at hid
    rw [Outcome.children, mem_ids_middle]
    cases x with
    | leaf | member => exact .inl hid
    | container k h cs t =>
      rcases hid with hid | hid | hid
      · exact .inl (.inl hid)
      · exact (ih hid).imp_left fun hid => .inr (.inl hid)
      · exact .inl (.inr (.inr hid))

theorem mem_ids_merged {id : Nat} (hid : id ∈ ids (merged known fresh cs layer)) :
    id ∈ ids cs ∨ id ∈ ids layer := by
  induction layer using Forest.induct generalizing known fresh cs with
  | nil => exact .inl (by simpa using hid)
  | cons d rest inner tail =>
    rw [merged_cons] at hid
    rw [ids_cons, List.mem_cons, List.mem_append]
    rcases tail hid with hid | hid
    · rcases mem_ids_completed inner hid with hid | hid
      · exact ((settled_cases known fresh d cs).mem_ids hid).imp_right .inl
      · exact .inr (.inr (.inl hid))
    · exact .inr (.inr (.inr hid))

def MovesOnly (moved : String → Prop) (layer : Forest) : Prop :=
  ∀ d ∈ layer.preorder, d.Moves → moved d.name

theorem movesOnly_cons {moved : String → Prop} {rest : Forest} :
    MovesOnly moved (d :: rest) ↔
      (d.Moves → moved d.name) ∧ MovesOnly moved d.children ∧ MovesOnly moved rest := by
  unfold MovesOnly
  rw [preorder_cons, List.forall_mem_cons, List.forall_mem_append]

theorem Sound.completed {moved : String → Prop} {ds : Forest} (h : Settlement true d cs out)
    (hd : d.Moves → moved d.name)
    (ih : ∀ {fresh : Bool} {cs : Forest}, Sound moved cs → Sound moved (merged true fresh cs ds))
    (hs : Sound moved cs) : Sound moved (completed true ds out) := by
  have hout := h.sound hd hs
  cases out with
  | done cs => exact hout
  | into xs x ys fresh =>
    cases x with
    | leaf | member => exact hout
    | container k header cs t =>
      refine hout.change rfl rfl fun hxs => ?_
      rw [all_key_ne, hxs]
      exact ih (hout.children_first hxs)

theorem Sound.merged {moved : String → Prop} (hlayer : MovesOnly moved layer)
    (hs : Sound moved cs) : Sound moved (merged true fresh cs layer) := by
  induction layer using Forest.induct generalizing fresh cs with
  | nil => simpa using hs
  | cons d rest inner tail =>
    obtain ⟨hd, hbelow, hrest⟩ := movesOnly_cons.1 hlayer
    rw [merged_cons]
    exact tail hrest (Sound.completed (settled_cases true fresh d cs) hd (inner hbelow) hs)

end Forest

namespace Engine.At
variable {e : Engine} {c : Context}

theorem inner {l : Shell} {cs : Forest} : e.At (c ++ [l]) cs ↔ e.At c (l.plug cs) := by
  have hplug : Context.plug (c ++ [l]) cs = c.plug (l.plug cs) := Context.plug_append ..
  constructor <;> rintro ⟨htree, hm, hn⟩
  · exact ⟨hplug ▸ htree, hm, hn⟩
  · exact ⟨hplug ▸ htree, hm, hn⟩

end Engine.At

namespace Merge
variable {e : Engine} {c : Context} {cs layer : Forest} {d : Decl} {known fresh : Bool}

theorem mergeAll_nil (o : Owner) (fresh : Bool) : mergeAll o fresh [] = pure () := by
  rw [mergeAll]

def mergeInto (ds : Forest) : Option Destination → Merge Unit
  | some into => mergeAll into.owner into.fresh ds
  | none => pure ()

theorem mergeAll_cons (o : Owner) (fresh : Bool) (d : Decl) (rest : Forest) :
    mergeAll o fresh (d :: rest) = (do
      mergeInto d.children (← settle o fresh d)
      mergeAll o fresh rest) := by
  cases d with
  | container k h ds t =>
    rw [mergeAll]
    refine congrArg _ (funext fun into => ?_)
    cases into <;> rfl
  | leaf | member =>
    rw [mergeAll]
    · refine congrArg _ (funext fun into => ?_)
      cases into
      · rfl
      · rw [mergeInto, Decl.children, mergeAll_nil]
        · rfl
        · exact fun _ _ _ _ hd => by cases hd
    · exact fun _ _ _ _ hd => by cases hd

/-- All is ready for `layer` to be merged into the children `cs` of the owner at the end of `c`. -/
structure Ready (moved : String → Prop) (e : Engine) (c : Context) (known : Bool)
    (cs layer : Forest) : Prop where
  here : e.At c cs
  leads : c.Leads known
  sound : known = true → Sound moved cs
  moves : MovesOnly moved layer
  nodup : (Forest.ids layer).Nodup
  new : ∀ id ∈ Forest.ids layer, id ∉ Forest.ids (c.plug cs)
  unsynced : e.syncStandIns = false

namespace Ready
variable {moved : String → Prop} {e₁ : Engine} {rest xs ys : Forest}

theorem yields_settle (h : Ready moved e c known cs (d :: rest)) (fresh : Bool) :
    Yields (settle c.owner fresh d) e c (settled known fresh d cs) :=
  Merge.yields_settle h.here h.leads
    (h.new d.id (by rw [ids_cons]; exact List.mem_cons_self)) h.unsynced

theorem not_mem_settled {id : Nat} (h : Ready moved e c known cs (d :: rest)) (fresh : Bool)
    (hid : id ∈ Forest.ids (d :: rest)) (hne : id ≠ d.id) :
    id ∉ Forest.ids (c.plug (settled known fresh d cs).children) := by
  have hnew := h.new id hid
  rw [Context.mem_ids_plug, not_or] at hnew ⊢
  refine ⟨hnew.1, fun hmem => ?_⟩
  rcases (settled_cases known fresh d cs).mem_ids hmem with hmem | hmem
  · exact hnew.2 hmem
  · exact hne hmem

theorem below {k : ContainerKind} {header : Header} {cs' : Forest} {t : List String} {fresh' : Bool}
    (h : Ready moved e c known cs (d :: rest)) (hd : d.isContainer = true)
    (hout : settled known fresh d cs = .into xs (.container k header cs' t) ys fresh')
    (h₁ : e₁.At c (xs ++ .container k header cs' t :: ys)) (hsync : e₁.syncStandIns = false) :
    Ready moved e₁ (c ++ [⟨xs, k, header, t, ys⟩])
      (known && xs.all (·.key != ⟨header.name, false⟩)) cs' d.children := by
  let l : Shell := ⟨xs, k, header, t, ys⟩
  have hcases := hout ▸ settled_cases known fresh d cs
  obtain ⟨hmoves, hbelow, -⟩ := movesOnly_cons.1 h.moves
  have hids := h.nodup
  rw [ids_cons, List.nodup_cons, List.nodup_append] at hids
  obtain ⟨hself, hinner, -⟩ := hids
  have hat : e₁.At (c ++ [l]) cs' := Engine.At.inner.2 h₁
  have hfirst : first? xs ⟨header.name, false⟩ =
      (homonyms ⟨header.name, false⟩ xs).head?.map Decl.ref := first?_eq_head? ..
  have hleads := h.leads.concat (l := l) (fun hknown r hr => by
    subst hknown
    rw [hfirst] at hr
    obtain ⟨z, hz, rfl⟩ := Option.map_eq_some_iff.1 hr
    exact hcases.first hmoves (h.sound rfl) hd z hz)
  have hall : (first? xs ⟨header.name, false⟩).isNone =
      xs.all (·.key != ⟨header.name, false⟩) := by
    rw [hfirst, all_key_ne]
    cases homonyms ⟨header.name, false⟩ xs <;> rfl
  rw [show (first? l.before ⟨l.header.name, false⟩).isNone = _ from hall] at hleads
  refine ⟨hat, hleads, fun hk => ?_, hbelow, hinner, fun id hid => ?_, hsync⟩
  · obtain ⟨rfl, hxs⟩ := Bool.and_eq_true_iff.1 hk
    rw [all_key_ne, List.isEmpty_iff] at hxs
    exact (hcases.sound hmoves (h.sound rfl)).children_first hxs
  · have hne : id ≠ d.id := fun he => hself (List.mem_append_left _ (he ▸ hid))
    have hmem : id ∈ Forest.ids (d :: rest) := by
      rw [ids_cons]
      exact List.mem_cons_of_mem _ (List.mem_append_left _ hid)
    have hnew := h.not_mem_settled fresh hmem hne
    have hplug : Context.plug (c ++ [l]) cs' = c.plug (l.plug cs') := Context.plug_append ..
    rw [hout] at hnew
    exact hplug ▸ hnew

theorem later (h : Ready moved e c known cs (d :: rest))
    (h₁ : e₁.At c (completed known d.children (settled known fresh d cs)))
    (hsync : e₁.syncStandIns = false) :
    Ready moved e₁ c known (completed known d.children (settled known fresh d cs)) rest := by
  obtain ⟨hmoves, hbelow, hrest⟩ := movesOnly_cons.1 h.moves
  have hids := h.nodup
  rw [ids_cons, List.nodup_cons, List.nodup_append] at hids
  obtain ⟨hself, -, htail, hapart⟩ := hids
  refine ⟨h₁, h.leads, fun hknown => ?_, hrest, htail, fun id hid hmem => ?_, hsync⟩
  · subst hknown
    exact Sound.completed (settled_cases true fresh d cs) hmoves (Sound.merged hbelow)
      (h.sound rfl)
  · have hne : id ≠ d.id := fun he => hself (List.mem_append_right _ (he ▸ hid))
    have hlayer : id ∈ Forest.ids (d :: rest) := by
      rw [ids_cons]
      exact List.mem_cons_of_mem _ (List.mem_append_right _ hid)
    have hnew := h.not_mem_settled fresh hlayer hne
    rw [Context.mem_ids_plug, not_or] at hnew
    rcases Context.mem_ids_plug.1 hmem with hmem | hmem
    · exact hnew.1 hmem
    · rcases mem_ids_completed mem_ids_merged hmem with hmem | hmem
      · exact hnew.2 hmem
      · exact hapart id hmem id hid rfl

end Ready

theorem reaches_mergeInto {moved : String → Prop} {e₁ : Engine} {rest : Forest}
    (h : Ready moved e c known cs (d :: rest))
    (h₁ : e₁.At c (settled known fresh d cs).children) (hsync : e₁.syncStandIns = false)
    (ih : ∀ (fresh : Bool) {e : Engine} {c : Context} {known : Bool} {cs : Forest},
      Ready moved e c known cs d.children →
      Reaches (mergeAll c.owner fresh d.children) e c () (merged known fresh cs d.children)) :
    Reaches (mergeInto d.children (settled known fresh d cs).destination?) e₁ c ()
      (completed known d.children (settled known fresh d cs)) := by
  have hcases := settled_cases known fresh d cs
  generalize hout : settled known fresh d cs = out at h₁ hcases ⊢
  cases out with
  | done cs' => exact reaches_pure () h₁
  | into xs x ys fresh' =>
    by_cases hd : d.isContainer = true
    · have hx := hcases.isContainer hd
      cases x with
      | leaf | member => cases hx
      | container k header cs' t =>
        have hinner := ih fresh' (h.below hd hout h₁ hsync)
        rw [Context.owner_concat] at hinner
        obtain ⟨e', hrun, hat, hnext, hsync'⟩ := hinner
        exact ⟨e', hrun, Engine.At.inner.1 hat, hnext, hsync'⟩
    · rw [Decl.children_eq_nil (by simpa using hd), completed_nil, Outcome.destination?, mergeInto,
        mergeAll_nil]
      exact reaches_pure () h₁

/-- A whole layer is merged into the children of an owner as the plain function says. -/
theorem reaches_mergeAll {moved : String → Prop} (fresh : Bool)
    (h : Ready moved e c known cs layer) :
    Reaches (mergeAll c.owner fresh layer) e c () (merged known fresh cs layer) := by
  induction layer using Forest.induct generalizing e c cs known fresh with
  | nil =>
    rw [mergeAll_nil, merged_nil]
    exact reaches_pure () h.here
  | cons d rest inner tail =>
    rw [mergeAll_cons, merged_cons]
    apply (h.yields_settle fresh).bind
    intro e₁ h₁ hsync₁
    have hbelow := reaches_mergeInto h h₁ (hsync₁.trans h.unsynced) fun fresh _ _ _ _ => inner fresh
    apply hbelow.bind
    intro e₂ h₂ hsync₂
    exact tail fresh (h.later h₂ (hsync₂.trans (hsync₁.trans h.unsynced)))

end Merge
end SignatureLayers
