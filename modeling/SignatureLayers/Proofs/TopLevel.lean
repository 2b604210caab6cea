import SignatureLayers.Proofs.BelowTop
import SignatureLayers.Proofs.Coherence

namespace SignatureLayers

open Forest
open Merge (absorbTrailing usePosition variablePlace?)

/-- The top of the tree is `cs`, the index knows it, and no two declarations there have one
identity. -/
structure Engine.TopAt (e : Engine) (cs : Forest) : Prop where
  tree : e.tree = cs
  view : e.index.view .root = some ([], first? cs)
  nodup : (cs.map Decl.id).Nodup

namespace Engine.TopAt
variable {e e' : Engine} {cs : Forest}

theorem of_sameTop (h : e.TopAt cs) (hsame : e.SameTop e') : e'.TopAt e'.tree := by
  have hshapes : shapes e'.tree = shapes cs := h.tree ▸ hsame.same
  refine ⟨rfl, ?_, ?_⟩
  · rw [hsame.view, h.view, first?_of_shapes hshapes]
  · rw [map_id_of_shapes hshapes]
    exact h.nodup

theorem childrenOf (h : e.TopAt cs) : e.tree.childrenOf .root = cs := h.tree

end Engine.TopAt

namespace Merge
variable {α : Type} {e : Engine} {cs xs ys : Forest} {d x : Decl}

def TopReaches (m : Merge α) (e : Engine) (a : α) (cs : Forest) : Prop :=
  ∃ e', m e = .ok a e' ∧ e'.TopAt cs ∧ e'.next = e.next

theorem id_mem_of_first?_top {key : Key} {r : Ref} (h : first? cs key = some r) :
    r.id ∈ cs.map Decl.id := by
  obtain ⟨xs, d, ys, rfl, -, -, rfl⟩ := exists_of_first? h
  simp [Decl.ref]

theorem topReaches_insertAt {p : Nat} (h : e.TopAt cs) (hd : d.children = [])
    (hnew : d.id ∉ cs.map Decl.id) :
    TopReaches (insertAt .root p d) e () (cs.take p ++ d :: cs.drop p) := by
  obtain ⟨rfl, hview, hnodup⟩ := h
  have hcs : e.tree.take p ++ e.tree.drop p = e.tree := List.take_append_drop p e.tree
  obtain ⟨i, notices, hok, hi⟩ := Index.view_inserted (e.tree.take p ++ d :: e.tree.drop p) hview
    (d := d) (by simp [hd, owners])
    (fun k hk => by rw [first?_middle_of_ne _ _ hk, hcs])
    (fun hnone => by
      rw [← hcs, first?_append, Option.or_eq_none_iff] at hnone
      rw [first?_append, hnone.1, first?_cons, if_pos rfl]
      rfl)
    (fun r hr hid => absurd (hid ▸ id_mem_of_first?_top hr) hnew)
  refine ⟨_, reportInserted_apply (c := []) (e := { e with tree := _ }) rfl hok, ⟨rfl, ?_, ?_⟩, rfl⟩
  · rw [hi, Index.view_nested_eq_none (root_not_mem_owners _), if_pos rfl]
    rfl
  · rw [← hcs, List.map_append] at hnodup hnew
    rw [List.map_append, List.map_cons, List.nodup_middle, List.nodup_cons]
    exact ⟨hnew, hnodup⟩

theorem topReaches_removeAt (h : e.TopAt (xs ++ x :: ys)) :
    TopReaches (removeAt .root xs.length) e () (xs ++ ys) := by
  obtain ⟨i, hok, hi⟩ := Index.view_removed (xs ++ ys) h.view
    (fun k hk => first?_middle_of_ne xs ys hk) (fun hne => Index.first?_without hne ys)
  have hstep : removeAt .root xs.length e =
      reportRemoved .root x { e with tree := xs ++ ys, removed := x :: e.removed } := by
    unfold removeAt
    rw [bind_apply (childrenOf_apply h.childrenOf), getElem?_middle, eraseIdx_middle]
    rfl
  refine ⟨_, hstep.trans (reportRemoved_apply (c := []) rfl hok), ⟨rfl, ?_, ?_⟩, rfl⟩
  · rw [hi, if_neg (root_not_mem_owners _), if_pos rfl]
  · have hsub : (xs ++ ys).Sublist (xs ++ x :: ys) := (List.sublist_cons_self x ys).append_left xs
    exact h.nodup.sublist (hsub.map _)

theorem topReaches_replaceAt (hkey : x.key = d.key) (hd : d.children = [])
    (h : e.TopAt (xs ++ x :: ys)) (hnew : d.id ∉ (xs ++ ys).map Decl.id) :
    TopReaches (replaceAt .root xs.length d) e () (xs ++ d :: ys) := by
  have hhere : first? (xs ++ d :: ys) d.key ≠ none := by
    rw [Ne, first?_eq_none_iff]
    exact fun hne => hne d (by simp) rfl
  obtain ⟨i₁, hok₁, hi₁⟩ := Index.view_removed (xs ++ d :: ys) h.view
    (fun k hk => by rw [first?_middle_of_ne xs ys hk, first?_middle_of_ne xs ys (hkey ▸ hk)])
    (fun hne => Index.first?_without hne (d :: ys))
  have hview₁ : i₁.view .root = some ([], first? (xs ++ d :: ys)) := by
    rw [hi₁, if_neg (root_not_mem_owners _), if_pos rfl]
  obtain ⟨i, notices, hok, hi⟩ := Index.view_inserted (xs ++ d :: ys) hview₁ (d := d)
    (by simp [hd, owners]) (fun _ _ => rfl) (fun hne => absurd hne hhere) (fun r hr _ => hr)
  have hstep : replaceAt .root xs.length d e =
      (reportRemoved .root x >>= fun _ => reportInserted .root d)
        { e with tree := xs ++ d :: ys, removed := x :: e.removed } := by
    have hset : (xs ++ x :: ys).set xs.length d = xs ++ d :: ys := by simp
    unfold replaceAt
    rw [bind_apply (childrenOf_apply h.childrenOf), getElem?_middle, hset]
    rfl
  let e₁ : Engine := { e with tree := xs ++ d :: ys, removed := x :: e.removed }
  have hreports := (bind_apply (f := fun _ => reportInserted .root d)
    (reportRemoved_apply (c := []) (e := e₁) rfl hok₁)).trans
      (reportInserted_apply (c := []) (e := { e₁ with index := i₁ }) rfl hok)
  refine ⟨_, hstep.trans hreports, ⟨rfl, ?_, ?_⟩, rfl⟩
  · rw [hi, Index.view_nested_eq_none (root_not_mem_owners _), if_pos rfl]
    rfl
  · have hold := h.nodup
    rw [List.map_append, List.map_cons, List.nodup_middle, List.nodup_cons] at hold ⊢
    rw [List.map_append] at hnew
    exact ⟨hnew, hold.2⟩

theorem topReaches_removeAll (us : Forest) (key : Key) (ys : Forest) (h : e.TopAt (us ++ ys)) :
    TopReaches ((positionsFrom us.length key ys).reverse.forM (removeAt .root)) e ()
      (us ++ ys.filter (·.key != key)) := by
  obtain ⟨e', hrun, h', hnext⟩ := removeAll_of (R := fun e' cs => e'.TopAt cs ∧ e'.next = e.next)
    (fun {e₁ xs d ys} h₁ => by
      obtain ⟨e₂, hrun, h₂, hnext⟩ := topReaches_removeAt h₁.1
      exact ⟨e₂, hrun, h₂, hnext.trans h₁.2⟩)
    us key ys ⟨h, rfl⟩
  exact ⟨e', hrun, h', hnext⟩

theorem position?_top (h : e.TopAt (xs ++ x :: ys)) :
    Entry.position? ⟨x.ref, .root⟩ e.tree = some xs.length := by
  have hx : ∀ y ∈ xs, y.id ≠ x.id := by
    have hnodup := h.nodup
    rw [List.map_append, List.map_cons, List.nodup_middle, List.nodup_cons] at hnodup
    exact fun y hy hid => hnodup.1 (hid ▸ List.mem_append_left _ (List.mem_map_of_mem hy))
  rw [Entry.position?, h.childrenOf, List.findIdx?_append,
    List.findIdx?_eq_none_iff.2 (by simpa [Decl.ref] using hx), List.findIdx?_cons]
  simp [Decl.ref]

theorem positionOf_top (h : e.TopAt (xs ++ x :: ys)) :
    positionOf ⟨x.ref, .root⟩ e = .ok xs.length e := by
  rw [positionOf, get_bind, position?_top h]
  rfl

theorem qualifiedName_top (h : e.TopAt cs) (d : Decl) :
    qualifiedName .root d e = .ok ⟨[], d.key⟩ e := by
  rw [qualifiedName, get_bind, Index.qualifiedName, Index.pathOf_eq_view, h.view]
  rfl

theorem existing?_top (h : e.TopAt cs) (d : Decl) :
    existing? .root d e = .ok (entryOf .root (cut? d.key cs)) e := by
  have hget : e.index.get? ⟨[], d.key⟩ = entryOf .root (cut? d.key cs) := by
    simp only [Index.get?, Index.containerFor?, Index.descend?, Option.bind_some,
      Index.childAt?_eq_view, h.view, ← map_cut?, entryOf, Option.map_map]
    rfl
  rw [existing?, get_bind, bind_apply (qualifiedName_top h d), hget]
  rfl

end Merge

/-- The top of an engine's tree becomes `cs`, but for what the siblings cannot tell. -/
structure Engine.TopBecomes (e : Engine) (cs : Forest) (e' : Engine) : Prop where
  known : e'.TopAt e'.tree
  same : shapes e'.tree = shapes cs
  next : e'.next = e.next

theorem Engine.SameTop.topBecomes {e e' : Engine} {cs cs' : Forest} (hsame : e.SameTop e')
    (h : e.TopAt cs) (hcs : shapes cs' = shapes cs) : e.TopBecomes cs' e' :=
  ⟨h.of_sameTop hsame, by rw [hsame.same, h.tree, hcs], hsame.next⟩

theorem Engine.TopBecomes.sameTop {e e₁ e₂ : Engine} {cs : Forest} (h : e.TopBecomes cs e₁)
    (hsame : e₁.SameTop e₂) : e.TopBecomes cs e₂ :=
  ⟨h.known.of_sameTop hsame, hsame.same.trans h.same, hsame.next.trans h.next⟩

theorem Engine.TopBecomes.congr {e e' : Engine} {cs cs' : Forest} (h : e.TopBecomes cs e')
    (hcs : shapes cs' = shapes cs) : e.TopBecomes cs' e' :=
  ⟨h.known, h.same.trans hcs.symm, h.next⟩

namespace Merge
variable {e : Engine} {cs xs ys : Forest} {d x : Decl} {fresh : Bool} {out : Outcome}
  {m : Merge (Option Destination)}

/-- A step settles a declaration at the top with an outcome, or ends in a fault below the top. -/
def TopSettles (m : Merge (Option Destination)) (e : Engine) (out : Outcome) : Prop :=
  Ends (fun into e' => e.TopBecomes out.children e' ∧ Below into) (e.TopBecomes out.children) (m e)

theorem Keeps.topSettles (hm : Keeps m Below) (h : e.TopAt cs)
    (hout : shapes out.children = shapes cs) : TopSettles m e out :=
  (hm e).mono (fun _ _ hsame => ⟨hsame.1.topBecomes h hout, hsame.2⟩)
    fun _ hsame => hsame.topBecomes h hout

theorem TopSettles.after {α : Type} {m : Merge α} {a : α} {f : α → Merge (Option Destination)}
    (hm : m e = .ok a e) (h : TopSettles (f a) e out) : TopSettles (m >>= f) e out :=
  Ends.after hm h

theorem TopSettles.afterEdit {α : Type} {m : Merge α} {a : α} {f : α → Merge (Option Destination)}
    (hm : TopReaches m e a cs) (hf : ∀ e', e'.TopAt cs → TopSettles (f a) e' out) :
    TopSettles (m >>= f) e out := by
  obtain ⟨e', hrun, h', hnext⟩ := hm
  have hbecomes {e'' : Engine} (h : e'.TopBecomes out.children e'') :
      e.TopBecomes out.children e'' := ⟨h.known, h.same, h.next.trans hnext⟩
  rw [TopSettles, bind_apply hrun]
  exact (hf e' h').mono (fun _ _ h => ⟨hbecomes h.1, h.2⟩) fun _ h => hbecomes h

theorem topSettles_insertHollow (p : Nat) (h : e.TopAt cs) (hnew : d.id ∉ cs.map Decl.id)
    (hout : shapes out.children = shapes (cs.take p ++ d :: cs.drop p)) :
    TopSettles (insertHollow .root p d) e out := by
  have hhollow : d.hollow.shape = d.shape := d.putAs_hollow.shape
  have hinsert := topReaches_insertAt (p := p) h (d := d.hollow) (by simp)
    (by rwa [Decl.id_of_shape hhollow])
  refine TopSettles.afterEdit hinsert fun e' h' => ?_
  refine Keeps.topSettles (keeps_pure (below_container _ _)) h' ?_
  rw [hout, shapes_append, shapes_append, shapes_cons, shapes_cons, hhollow]

theorem topSettles_placed {present : Bool} (existing : Option Entry)
    (he : existing.isSome = present) (h : e.TopAt cs) (hnew : d.id ∉ cs.map Decl.id) :
    TopSettles (if d.kind = .leaf .useClause then
        if existing.isSome then notify [.useRepeated d.name] >>= fun _ => pure none
        else insertHollow .root (usePosition cs) d
      else if fresh then insertHollow .root cs.length d
      else if d.kind.isVariable then
        if existing.isSome then
          qualifiedName .root d >>= fun q => notify [.variableRepeated q] >>= fun _ => pure none
        else placeVariable .root d
      else if d.kind.isVisibility && cs.any (·.kind == d.kind) then pure none
      else insertHollow .root cs.length d) e (placed present fresh d cs) := by
  subst he
  have hput := d.putAs_hollow.shape
  have hlast : TopSettles (insertHollow .root cs.length d) e (.into cs d.hollow [] true) :=
    topSettles_insertHollow _ h hnew (by simp [Outcome.children, shapes_append, shapes_cons, hput])
  unfold placed
  split
  · split
    · exact (((keeps_notify _).bind fun _ _ => keeps_pure below_none)).topSettles h rfl
    · refine topSettles_insertHollow _ h hnew ?_
      simp only [Outcome.children, shapes_append, shapes_cons, hput]
  · split
    · exact hlast
    · split
      · split
        · exact (keeps_refused (keeps_qualifiedName .root d) _).topSettles h rfl
        · refine TopSettles.after (childrenOf_apply h.childrenOf) ?_
          cases hp : variablePlace? d.kind cs with
          | none => exact hlast
          | some place =>
            obtain ⟨neighbour, p⟩ := place
            have hsame := d.shape_withLocation neighbour.location
            refine topSettles_insertHollow p h (Decl.id_of_shape hsame ▸ hnew) ?_
            simp only [Outcome.children, shapes_append, shapes_cons,
              (Decl.putAs_hollow _).shape]
      · split
        · exact Keeps.topSettles (keeps_pure below_none) h rfl
        · exact hlast

theorem topSettles_add (h : e.TopAt cs) (hnew : d.id ∉ cs.map Decl.id) :
    TopSettles (add .root fresh d (entryOf .root (cut? d.key cs))) e
      (match (cut? d.key cs).filter fun (_, x, _) => d.isContainer && x.isContainer with
        | some (xs, x, ys) => .into xs (absorbTrailing d.trailing x) ys false
        | none => placed (cut? d.key cs).isSome fresh d cs) := by
  unfold add
  rw [filter_entryOf]
  cases htaken : (cut? d.key cs).filter fun (_, x, _) => d.isContainer && x.isContainer with
  | some taken =>
    obtain ⟨xs, x, ys⟩ := taken
    obtain ⟨rfl, -, -⟩ := cut?_eq_some (Option.filter_eq_some_iff.1 htaken).1
    refine (keeps_absorb x.ref d).topSettles h ?_
    simp only [Outcome.children, shapes_append, shapes_cons, Decl.shape_absorbTrailing]
  | none =>
    refine TopSettles.after (childrenOf_apply h.childrenOf) ?_
    exact topSettles_placed _ Option.isSome_map h hnew

theorem topSettles_override {token : Nat} (h : e.TopAt cs) (hnew : d.id ∉ cs.map Decl.id) :
    TopSettles (override .root d (entryOf .root (cut? d.key cs)) token) e
      (match cut? d.key cs with
        | some (xs, x, ys) => .into xs ((d.dropAnnot token).withLocation x.location).hollow
            (ys.filter (·.key != d.key)) true
        | none => .done cs) := by
  unfold override
  cases hcut : cut? d.key cs with
  | none => exact (keeps_refused (keeps_qualifiedName .root d) _).topSettles h rfl
  | some found =>
    obtain ⟨xs, x, ys⟩ := found
    obtain ⟨rfl, -, hkey⟩ := cut?_eq_some hcut
    let d' := (d.dropAnnot token).withLocation ((e.tree.node? x.id).bind Decl.location)
    have hput : d.PutAs d'.hollow := d.putAs_dropAnnot token _
    have hdkey (location : Option Location) :
        ((d.dropAnnot token).withLocation location).key = d.key := by cases d <;> rfl
    have hpositions := positions_of_cut? hcut
    have hsplit : xs ++ x :: ys = (xs ++ [x]) ++ ys := by simp
    have hremoved := topReaches_removeAll (xs ++ [x]) d.key ys (hsplit ▸ h)
    rw [List.length_append, List.length_singleton] at hremoved
    refine TopSettles.after (a := (e.tree.node? x.id).bind Decl.location) rfl
      (TopSettles.after (childrenOf_apply h.childrenOf) ?_)
    dsimp only
    rw [hdkey, hpositions]
    refine TopSettles.afterEdit hremoved fun e' h' => ?_
    have h'' : e'.TopAt (xs ++ x :: ys.filter (·.key != d.key)) := by simpa using h'
    have hsub : (xs ++ ys.filter (·.key != d.key)).Sublist (xs ++ x :: ys) :=
      (List.filter_sublist.trans (List.sublist_cons_self x ys)).append_left xs
    have hreplaced := topReaches_replaceAt (hkey.trans hput.key.symm) hput.children h''
      fun hmem => hnew (hput.id ▸ (hsub.map Decl.id).subset hmem)
    refine TopSettles.afterEdit hreplaced fun e₂ h₂ => ?_
    refine Keeps.topSettles (keeps_pure (below_container _ _)) h₂ ?_
    simp only [Outcome.children, shapes_append, shapes_cons, hput.shape,
      (d.putAs_dropAnnot token x.location).shape]

theorem topSettles_delete (h : e.TopAt cs) :
    TopSettles (delete .root d (entryOf .root (cut? d.key cs))) e
      (.done (if (cut? d.key cs).isSome then cs.filter (·.key != d.key) else cs)) := by
  unfold delete
  cases cut? d.key cs with
  | none => exact (keeps_refused (keeps_qualifiedName .root d) _).topSettles h rfl
  | some found =>
    refine TopSettles.after (childrenOf_apply h.childrenOf) ?_
    refine TopSettles.afterEdit (topReaches_removeAll [] d.key cs h) fun e' h' => ?_
    exact Keeps.topSettles (keeps_pure below_none) h' rfl

theorem topSettles_beside {token : Nat} (side : Side) (anchor : String) (h : e.TopAt cs)
    (hnew : d.id ∉ cs.map Decl.id) :
    TopSettles (get >>= fun e => lift (e.index.findSibling .root anchor) >>= fun
      | none => qualifiedName .root d >>= fun q =>
        notify [.anchorMissing anchor q] >>= fun _ => pure none
      | some target => locationOf target.node >>= fun location =>
        let d := (d.dropAnnot token).withLocation location
        positionOf target >>= fun position =>
        insertHollow .root (if side = .after then position + 1 else position) d) e
      (match anchorCut? anchor cs with
        | some (xs, t, ys) =>
          beside side xs t ys ((d.dropAnnot token).withLocation t.location).hollow true
        | none => .done cs) := by
  refine TopSettles.after (m := get) (a := e) rfl (TopSettles.after (a := _)
    (congrFun (congrArg lift (findSibling_of_view h.view anchor)) e) ?_)
  cases hcut : anchorCut? anchor cs with
  | none => exact (keeps_refused (keeps_qualifiedName .root d) _).topSettles h rfl
  | some found =>
    obtain ⟨xs, t, ys⟩ := found
    obtain rfl := anchorCut?_eq_some hcut
    refine TopSettles.after (a := (e.tree.node? t.id).bind Decl.location) rfl
      (TopSettles.after (positionOf_top h) ?_)
    have hshape (location : Option Location) :
        ((d.dropAnnot token).withLocation location).shape = d.shape := by cases d <;> rfl
    have hput := (d.putAs_dropAnnot token t.location).shape
    refine topSettles_insertHollow _ h (by rwa [Decl.id_of_shape (hshape _)]) ?_
    cases side with
    | after =>
      have hsplit : xs ++ t :: ys = (xs ++ [t]) ++ ys := by simp
      have hlen : xs.length + 1 = (xs ++ [t]).length := by simp
      rw [if_pos rfl, hsplit, hlen, List.take_left, List.drop_left]
      simp only [beside, Outcome.children, shapes_append, shapes_cons, hshape, hput]
    | before =>
      show _ = shapes ((xs ++ t :: ys).take xs.length ++ _ :: (xs ++ t :: ys).drop xs.length)
      rw [List.take_left, List.drop_left]
      simp only [beside, Outcome.children, shapes_append, shapes_cons, hshape, hput]

theorem ends_moveTo (side : Side) {as bs us vs : Forest} {t : Decl} {key : Key}
    (h : e.TopAt (xs ++ x :: ys)) (hkey : x.key = key) (hrest : xs ++ ys = us ++ t :: vs)
    (hlen : (if as.length > xs.length then as.length - 1 else as.length) = us.length)
    (ht : xs ++ x :: ys = as ++ t :: bs) {β : Type} {m : Merge β}
    {Q : β → Engine → Prop} {R : Engine → Prop}
    (hf : ∀ e', e.TopBecomes (beside side us t vs x false).children e' → Ends Q R (m e')) :
    Ends Q R ((do
        moveBeside .root (← positionOf ⟨x.ref, .root⟩) (← positionOf ⟨t.ref, .root⟩)
          (side == Side.after)
        let location ← locationOf t.ref
        change x.ref (·.withLocation location)
        reportMoved .root key
        m) e) := by
  subst hkey
  have hmove := moveBeside?_eq (x := x) side hrest hlen
  obtain ⟨us', vs', hsplit, hbeside⟩ : ∃ us' vs', us' ++ vs' = xs ++ ys ∧
      (beside side us t vs x false).children = us' ++ x :: vs' := by
    cases side with
    | after => exact ⟨us ++ [t], vs, by simp [hrest], rfl⟩
    | before => exact ⟨us, t :: vs, hrest.symm, rfl⟩
  rw [hbeside] at hmove hf
  let e₁ : Engine := { e with tree := us' ++ x :: vs' }
  have hmoved : moveBeside .root xs.length as.length (side == .after) e = .ok () e₁ := by
    unfold moveBeside
    rw [bind_apply (childrenOf_apply h.childrenOf), hmove]
    rfl
  let location := (e₁.tree.node? t.id).bind Decl.location
  let moved := e₁.tree.update x.id (·.withLocation location)
  have hshapes : shapes moved = shapes (us' ++ x :: vs') :=
    shapes_update x.id (Decl.shape_withLocation · location) _
  obtain ⟨i, hok, hi⟩ := Index.view_moved moved h.view fun k hk => by
    rw [first?_of_shapes hshapes, first?_middle_of_ne xs ys hk, first?_middle_of_ne us' vs' hk,
      hsplit]
  have hreported : reportMoved .root x.key { e₁ with tree := moved } =
      .ok () { e₁ with tree := moved, index := i } :=
    reportMoved_apply (c := []) (e := { e₁ with tree := moved }) rfl hok
  refine Ends.after (positionOf_top h) (Ends.after (positionOf_top (ht ▸ h)) (Ends.after hmoved
    (Ends.after (m := locationOf t.ref) rfl (Ends.after (m := change x.ref _) rfl
      (Ends.after hreported (hf _ ⟨⟨rfl, ?_, ?_⟩, hshapes, rfl⟩))))))
  · rw [hi, if_pos rfl]
  · have hnodup := h.nodup
    rw [List.map_append, List.map_cons, List.nodup_middle, ← List.map_append] at hnodup
    show (moved.map Decl.id).Nodup
    rwa [map_id_of_shapes hshapes, List.map_append, List.map_cons, List.nodup_middle,
      ← List.map_append, hsplit]

theorem ends_kept (anchor : String) (h : e.TopAt cs) {cs' : Forest}
    (hsame : shapes cs' = shapes cs) :
    Ends (fun _ e' => e.TopBecomes cs' e') (e.TopBecomes cs')
      ((qualifiedName .root d >>= fun q => notify [.positionKept q anchor]) e) := by
  have hkeeps : Keeps (qualifiedName .root d >>= fun q => notify [.positionKept q anchor]) Any :=
    (keeps_qualifiedName .root d).bind fun _ _ => keeps_notify _
  exact (hkeeps e).mono (fun _ _ hkept => (hkept.1.topBecomes h rfl).congr hsame)
    fun _ hkept => (hkept.topBecomes h rfl).congr hsame

theorem keeps_syncAll (moved : Ref) (name anchor : String) (after : Bool) :
    Keeps (get >>= fun e : Engine => if e.syncStandIns then
      childrenOf .root >>= fun cs => cs.forM (syncSibling moved name anchor after)
    else pure ()) Any := by
  refine keeps_get fun e => ?_
  split
  · exact (keeps_childrenOf .root).bind fun _ _ => keeps_forM (keeps_syncSibling _ _ _ _) _
  · exact keeps_pure trivial

theorem id_ne_of_top {t : Decl} {as bs : Forest} (h : e.TopAt (xs ++ x :: ys))
    (ht : xs ++ x :: ys = as ++ t :: bs) (hne : as.length ≠ xs.length) :
    t.ref.id ≠ x.ref.id := by
  intro hid
  have hpos := position?_top (ht ▸ h)
  have hposition := position?_top h
  rw [Entry.position?] at hpos hposition
  rw [hid, hposition] at hpos
  exact hne (Option.some.inj hpos).symm

/-- A move at the top is made as the plain function says; whether stand-ins follow it or not, the
top stays as the move leaves it. -/
theorem relocate_top (side : Side) (anchor : String) (h : e.TopAt (xs ++ x :: ys))
    (hkey : x.key = d.key) (hx : homonyms x.key xs = []) (hc : x.isContainer = true) :
    Ends (fun _ e' => e.TopBecomes (relocated d side anchor xs x ys).children e')
      (e.TopBecomes (relocated d side anchor xs x ys).children)
      (relocate .root ⟨x.ref, .root⟩ d side anchor e) := by
  have hfound := anchor_of_anchorFrom? anchor ys hx hc
  unfold relocate relocated
  show Ends _ _ ((lift (e.index.findSibling .root anchor) >>= _) e)
  rw [findSibling_of_view h.view, bind_lift_ok rfl]
  cases hfrom : anchorFrom? anchor x (xs ++ ys) with
  | none =>
    rw [hfrom] at hfound
    -- Whatever the reason, all stays as it is.
    have hsame : shapes (Outcome.into xs (absorbTrailing d.trailing x) ys false).children =
        shapes (xs ++ x :: ys) := by
      simp only [Outcome.children, shapes_append, shapes_cons, Decl.shape_absorbTrailing]
    have hstays := ends_kept (d := d) anchor h hsame
    cases hcut : anchorCut? anchor (xs ++ x :: ys) with
    | none => exact hstays
    | some found =>
      obtain ⟨as, t, bs⟩ := found
      obtain rfl := hfound as t bs hcut
      simp only [entryOf, Option.map_some, ↓reduceIte]
      exact hstays
  | some found =>
    obtain ⟨us, t, vs⟩ := found
    rw [hfrom] at hfound
    obtain ⟨as, bs, hcut, hne, hlen⟩ := hfound
    have ht := anchorCut?_eq_some hcut
    simp only [hcut, entryOf, Option.map_some, if_neg (id_ne_of_top h ht hne)]
    refine ends_moveTo side h hkey (anchorFrom?_eq_some hfrom) hlen ht fun e₁ h₁ => ?_
    have hshapes : shapes (beside side us t vs (absorbTrailing d.trailing
        (x.withLocation t.location)) false).children =
          shapes (beside side us t vs x false).children := by
      cases side <;> simp only [beside, Outcome.children, shapes_append, shapes_cons,
        Decl.shape_absorbTrailing, Decl.shape_withLocation]
    have hmoved := h₁.congr hshapes
    exact (keeps_syncAll x.ref d.name anchor _ e₁).mono
      (fun _ _ hsame => hmoved.sameTop hsame.1) fun _ hsame => hmoved.sameTop hsame

theorem topSettles_insertBeside {token : Nat} (side : Side) (anchor : String) (h : e.TopAt cs)
    (hnew : d.id ∉ cs.map Decl.id) :
    TopSettles (insertBeside .root d (entryOf .root (cut? d.key cs)) token side anchor) e
      (match (cut? d.key cs).filter fun (_, x, _) => d.isContainer && x.isContainer with
        | some (xs, x, ys) => relocated d side anchor xs x ys
        | none =>
          match anchorCut? anchor cs with
          | some (xs, t, ys) =>
            beside side xs t ys ((d.dropAnnot token).withLocation t.location).hollow true
          | none => .done cs) := by
  unfold insertBeside
  rw [filter_entryOf]
  cases htaken : (cut? d.key cs).filter fun (_, x, _) => d.isContainer && x.isContainer with
  | none => exact topSettles_beside side anchor h hnew
  | some taken =>
    obtain ⟨xs, x, ys⟩ := taken
    obtain ⟨hcut, hboth⟩ := Option.filter_eq_some_iff.1 htaken
    obtain ⟨rfl, hx, hkey⟩ := cut?_eq_some hcut
    simp only [Bool.and_eq_true] at hboth
    refine (relocate_top side anchor h hkey (hkey.symm ▸ hx) hboth.2).bind fun _ e₁ h₁ => ?_
    exact (keeps_absorb x.ref d e₁).mono (fun _ _ hsame => ⟨h₁.sameTop hsame.1, hsame.2⟩)
      fun _ hsame => h₁.sameTop hsame

/-- At the top a declaration is settled as the plain function says. -/
theorem topSettles_settle (h : e.TopAt cs) (hnew : d.id ∉ cs.map Decl.id) :
    TopSettles (settle .root fresh d) e (settled true fresh d cs) := by
  unfold settle settled
  refine TopSettles.after (existing?_top h d) ?_
  cases Directive.winner? d.annotations with
  | none => exact topSettles_add h hnew
  | some winner =>
    obtain ⟨token, directive⟩ := winner
    cases directive with
    | override => exact topSettles_override h hnew
    | delete => exact topSettles_delete h
    | placed side anchor => exact topSettles_insertBeside side anchor h hnew

end Merge

/-- The index knows the top of the tree, `P` holds of it, and the identities from `next` on are
free there. -/
structure Engine.TopHas (P : Forest → Prop) (e : Engine) : Prop where
  known : e.TopAt e.tree
  holds : P e.tree
  free : ∀ id ∈ e.tree.map Decl.id, id < e.next

namespace Forest

def Shaped (P : Forest → Prop) : Prop := ∀ {f g : Forest}, shapes f = shapes g → P f → P g

theorem Settlement.mem_map_id {known : Bool} {d : Decl} {cs : Forest} {out : Outcome}
    (h : Settlement known d cs out) :
    ∀ id ∈ out.children.map Decl.id, id ∈ cs.map Decl.id ∨ id = d.id := by
  have hall := h.forall (p := fun e => e.id ∈ cs.map Decl.id ∨ e.id = d.id)
    (fun e he => .inl (List.mem_map_of_mem he)) (fun _ hput => .inr hput.id)
    (fun x location hx => by rwa [Decl.id_of_shape (x.shape_withLocation location)])
    fun x hx => by rwa [Decl.id_of_shape (Decl.shape_absorbTrailing _ x)]
  exact fun id hid => by
    obtain ⟨e, he, rfl⟩ := List.mem_map.1 hid
    exact hall e he

theorem sublist_preorder (f : Forest) : f.Sublist (preorder f) := by
  induction f with
  | nil => exact List.nil_sublist _
  | cons d rest ih =>
    rw [preorder_cons]
    exact (ih.trans (List.sublist_append_right _ _)).cons_cons d

end Forest

namespace Merge
variable {P : Forest → Prop} {e : Engine} {layer : Forest} {fresh : Bool}

/-- What every settled declaration of a layer keeps at the top, the merge of the layer keeps. -/
theorem mergeAll_top (hshaped : Shaped P) (h : e.TopHas P)
    (hsettled : ∀ d ∈ layer, ∀ cs, P cs → P (settled true fresh d cs).children)
    (hn : (layer.map Decl.id).Nodup)
    (hnew : ∀ d ∈ layer, d.id ∉ e.tree.map Decl.id ∧ d.id < e.next) :
    Ends (fun _ => Engine.TopHas P) (Engine.TopHas P) (mergeAll .root fresh layer e) := by
  induction layer generalizing e with
  | nil =>
    rw [mergeAll_nil]
    exact h
  | cons d rest ih =>
    obtain ⟨hd, hrest⟩ := List.forall_mem_cons.1 hnew
    obtain ⟨hstep, hlater⟩ := List.forall_mem_cons.1 hsettled
    obtain ⟨hself, hn⟩ := List.nodup_cons.1 hn
    have hids := (settled_cases true fresh d e.tree).mem_map_id
    have hsettles {e₁ : Engine} (h₁ : e.TopBecomes (settled true fresh d e.tree).children e₁) :
        e₁.TopHas P := by
      refine ⟨h₁.known, hshaped h₁.same.symm (hstep e.tree h.holds), fun id hid => ?_⟩
      rw [map_id_of_shapes h₁.same] at hid
      rw [h₁.next]
      rcases hids id hid with hid | rfl
      · exact h.free id hid
      · exact hd.2
    have hfree {e₁ : Engine} (h₁ : e.TopBecomes (settled true fresh d e.tree).children e₁) :
        ∀ d' ∈ rest, d'.id ∉ e₁.tree.map Decl.id ∧ d'.id < e₁.next := by
      intro d' hd'
      rw [map_id_of_shapes h₁.same, h₁.next]
      refine ⟨fun hmem => ?_, (hrest d' hd').2⟩
      rcases hids _ hmem with hmem | hid
      · exact (hrest d' hd').1 hmem
      · exact hself (hid ▸ List.mem_map_of_mem hd')
    rw [mergeAll_cons]
    refine Ends.bind ((topSettles_settle h.known hd.1).mono (fun _ _ => id) fun _ => hsettles)
      fun into e₁ h₁ => ?_
    have hbelow : Keeps (mergeInto d.children into) Any := by
      cases into with
      | none => exact keeps_pure trivial
      | some into => exact keeps_mergeAll (h₁.2 into rfl) into.fresh d.children
    refine Ends.bind ((hbelow e₁).mono (fun _ _ h₂ => h₁.1.sameTop h₂.1) fun _ h₂ =>
      hsettles (h₁.1.sameTop h₂)) fun _ e₂ h₂ => ?_
    exact ih (hsettles h₂) hlater hn (hfree h₂)

end Merge

theorem Engine.topHas_empty {P : Forest → Prop} (h : P []) (syncStandIns : Bool) :
    (ofForest [] syncStandIns).TopHas P := by
  rw [ofForest_nil]
  have hview : (Index.ofForest []).view .root = some ([], first? []) :=
    (Index.mirrors_ofForest (by simp)).view_owner (c := []) (by simp)
  exact ⟨⟨rfl, hview, .nil⟩, h, List.forall_mem_nil _⟩

theorem Engine.TopHas.mergeLayer {P : Forest → Prop} {e : Engine} (h : e.TopHas P)
    (hshaped : Shaped P) {layer : Forest}
    (hsettled : ∀ d ∈ (layer.number e.next).1, ∀ cs, P cs → P (settled true false d cs).children) :
    (e.mergeLayer layer).2.TopHas P := by
  have hids {id : Nat} (hid : id ∈ (layer.number e.next).1.map Decl.id) :
      e.next ≤ id ∧ id < (layer.number e.next).2 := by
    rw [number_snd]
    exact mem_ids_number.1 (((sublist_preorder _).map Decl.id).subset hid)
  have hstarted : (e.started layer).TopHas P := by
    refine ⟨⟨rfl, h.known.view, h.known.nodup⟩, h.holds, fun id hid => ?_⟩
    have hbound := h.free id hid
    show id < (layer.number e.next).2
    rw [number_snd]
    omega
  have hmerged := Merge.mergeAll_top hshaped hstarted hsettled
    ((nodup_ids_number e.next layer).sublist ((sublist_preorder _).map Decl.id)) fun d hd => by
      obtain ⟨hlow, hhigh⟩ := hids (List.mem_map_of_mem hd)
      exact ⟨fun hmem => absurd (h.free d.id hmem) (by omega), hhigh⟩
  revert hmerged
  simp only [Engine.mergeLayer, started]
  generalize Merge.mergeAll .root false (layer.number e.next).1 _ = r
  intro hmerged
  cases r with
  | ok _ e' => exact hmerged
  | error _ e' => exact hmerged

end SignatureLayers
