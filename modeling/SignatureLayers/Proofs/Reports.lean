import Mathlib.Data.List.Basic
import SignatureLayers.Proofs.Mirror

namespace SignatureLayers

open Forest

/-- Declarations that no index tells apart. -/
structure Decl.Alike (d d' : Decl) : Prop where
  ref : d'.ref = d.ref
  key : d'.key = d.key
  children : d'.children = d.children

namespace Decl.Alike
variable {d d' : Decl}

theorem trans {d'' : Decl} (h : d.Alike d') (h' : d'.Alike d'') : d.Alike d'' :=
  ⟨h'.ref.trans h.ref, h'.key.trans h.key, h'.children.trans h.children⟩

theorem id (h : d.Alike d') : d'.id = d.id := congrArg Ref.id h.ref

theorem isContainer (h : d.Alike d') : d'.isContainer = d.isContainer := congrArg Ref.container h.ref

theorem name (h : d.Alike d') : d'.name = d.name := congrArg Key.name h.key

theorem ids_middle (h : d.Alike d') (xs ys : Forest) :
    Forest.ids (xs ++ d' :: ys) = Forest.ids (xs ++ d :: ys) := by
  simp only [ids_append, ids_cons, h.id, h.children]

theorem first?_middle (h : d.Alike d') (xs ys : Forest) :
    Forest.first? (xs ++ d' :: ys) = Forest.first? (xs ++ d :: ys) := by
  funext k
  simp only [first?_append, first?_cons, h.key, h.ref]

theorem nested_middle (h : d.Alike d') (path : List String) (xs ys : Forest) :
    Index.nested path (xs ++ d' :: ys) = Index.nested path (xs ++ d :: ys) := by
  simp only [Index.nested_append, Index.nested_cons, h.id, h.isContainer, h.name, h.children]

end Decl.Alike

namespace Index

variable {i j : Index} {c : Context} {o : Owner}

theorem scope_of_view {v : View} (h : i.view o = some v) :
    ∃ s, i.scope? o = some s ∧ s.path = v.1 ∧ s.get? = v.2 := by
  obtain ⟨s, hs, rfl⟩ := Option.map_eq_some_iff.1 h
  exact ⟨s, hs, rfl, rfl⟩

theorem inserted_eq {s : Scope} (hs : i.scope? o = some s) (children : Forest) (d : Decl) :
    ∃ s' notices, s'.path = s.path ∧
      (∀ k, s'.get? k = if k = d.key then
          match s.get? d.key with
          | none => some d.ref
          | some r => if r.id = d.id then some r else first? children d.key
        else s.get? k) ∧
      i.inserted o children d = .ok (if d.isContainer then
        (i.set o s').enter (.container d.id) (s.path ++ [d.name]) d.children else i.set o s',
        notices) := by
  have hok (s' : Scope) (notices : List Notice) (hpath : s'.path = s.path) :
      ∃ notices',
        (if d.isContainer then
          let path := s'.path ++ [d.name]
          (.ok ((i.set o s').enter (.container d.id) path d.children,
            notices ++ duplicates path [] d.children) : Except EditFault (Index × List Notice))
        else .ok (i.set o s', notices)) = .ok (if d.isContainer then
          (i.set o s').enter (.container d.id) (s.path ++ [d.name]) d.children else i.set o s',
          notices') := by
    cases d.isContainer <;> simp [hpath]
  cases hk : s.get? d.key with
  | none =>
    obtain ⟨notices, h⟩ := hok (s.set d.key d.ref) [] rfl
    refine ⟨s.set d.key d.ref, notices, rfl, fun k => Scope.get?_set s d.key k d.ref, ?_⟩
    rw [← h, inserted, hs]
    simp only [hk]
  | some r =>
    by_cases hr : r.id = d.id
    · obtain ⟨notices, h⟩ := hok s [] rfl
      refine ⟨s, notices, rfl, fun k => ?_, ?_⟩
      · split
        · next hkey => simp [hkey, hk, hr]
        · rfl
      · rw [← h, inserted, hs]
        simp only [hk, if_pos hr]
    · obtain ⟨notices, h⟩ := hok (s.resolve d.key children) [.duplicate ⟨s.path, d.key⟩] (by simp)
      refine ⟨s.resolve d.key children, notices, by simp, fun k => ?_, ?_⟩
      · simp [Scope.get?_resolve, hr]
      · rw [← h, inserted, hs]
        simp only [hk, if_neg hr]

/-- A report of an insertion, when the index is right about all keys but that of `d`, and wrong
about this one only in what `d` changes. -/
theorem view_inserted {path : List String} {g : Key → Option Ref} {d : Decl} (children : Forest)
    (ho : i.view o = some (path, g)) (hd : (Owner.container d.id :: owners d.children).Nodup)
    (hother : ∀ k, k ≠ d.key → g k = first? children k)
    (hnone : g d.key = none → first? children d.key = some d.ref)
    (hsome : ∀ r, g d.key = some r → r.id = d.id → first? children d.key = some r) :
    ∃ i' notices, i.inserted o children d = .ok (i', notices) ∧ ∀ q, i'.view q =
      (view ⟨nested path [d]⟩ q).or (if q = o then some (path, first? children) else i.view q) := by
  obtain ⟨s, hs, rfl, rfl⟩ := scope_of_view ho
  obtain ⟨s', notices, hpath, hget, hok⟩ := inserted_eq hs children d
  have hfirst : s'.get? = first? children := by
    funext k
    rw [hget]
    by_cases hk : k = d.key
    · rw [if_pos hk, hk]
      cases hg : s.get? d.key with
      | none => exact (hnone hg).symm
      | some r =>
        by_cases hr : r.id = d.id
        · simp [hr, hsome r hg hr]
        · simp [hr]
    · rw [if_neg hk, hother k hk]
  refine ⟨_, _, hok, fun q => ?_⟩
  rw [nested_cons, nested_nil, List.append_nil]
  cases hc : d.isContainer with
  | true => simp only [↓reduceIte, view_enter _ _ _ _ _ hd, view_set, hfirst, hpath]
  | false => simp [view_set, hfirst, hpath]

theorem view_set_resolve {s : Scope} {key : Key} {children : Forest}
    (hother : ∀ k, k ≠ key → s.get? k = first? children k) (q : Owner) :
    (i.set o (s.resolve key children)).view q =
      if q = o then some (s.path, first? children) else i.view q := by
  rw [view_set, Scope.path_resolve]
  congr 3
  funext k
  rw [Scope.get?_resolve]
  split
  · next h => rw [h]
  · next h => exact hother k h

/-- A report of a removal, when the index is right about all keys but that of `d`, and about this
one unless it holds `d` itself. -/
theorem view_removed {path : List String} {g : Key → Option Ref} {d : Decl} (children : Forest)
    (ho : i.view o = some (path, g))
    (hother : ∀ k, k ≠ d.key → g k = first? children k)
    (hkey : (∀ r, g d.key = some r → r.id ≠ d.id) → g d.key = first? children d.key) :
    ∃ i', i.removed o children d = .ok i' ∧ ∀ q, i'.view q =
      if q ∈ owners [d] then none
      else if q = o then some (path, first? children) else i.view q := by
  obtain ⟨s, hs, rfl, rfl⟩ := scope_of_view ho
  -- The row is looked up again only where it led to `d`.
  have hview (q : Owner) : (if (s.get? d.key).any (·.id = d.id) then
      i.set o (s.resolve d.key children) else i).view q =
      if q = o then some (s.path, first? children) else i.view q := by
    split
    · exact view_set_resolve hother q
    · next h =>
      have hne : ∀ r, s.get? d.key = some r → r.id ≠ d.id := by
        intro r hr hid
        exact h (by simp [hr, hid])
      by_cases hq : q = o
      · rw [if_pos hq, hq, ho]
        congr 2
        funext k
        by_cases hk : k = d.key
        · rw [hk, hkey hne]
        · exact hother k hk
      · rw [if_neg hq]
  refine ⟨_, by rw [removed, hs], fun q => ?_⟩
  cases hc : d.isContainer with
  | true => simp only [↓reduceIte, view_forget, hview]
  | false => simp only [Bool.false_eq_true, ↓reduceIte, hview, owners_of_not_container hc,
      List.not_mem_nil]

theorem view_moved {path : List String} {g : Key → Option Ref} {key : Key} (children : Forest)
    (ho : i.view o = some (path, g)) (hother : ∀ k, k ≠ key → g k = first? children k) :
    ∃ i', i.moved o children key = .ok i' ∧ ∀ q, i'.view q =
      if q = o then some (path, first? children) else i.view q := by
  obtain ⟨s, hs, rfl, rfl⟩ := scope_of_view ho
  exact ⟨_, by rw [moved, hs], view_set_resolve hother⟩

theorem Mirrors.view_owner {cs : Forest} (h : i.Mirrors (c.plug cs))
    (hn : (Forest.ids (c.plug cs)).Nodup) : i.view c.owner = some (c.path, first? cs) := by
  obtain ⟨around, hview⟩ := view_listed_plug c
  rw [h, (hview cs hn).2, if_pos rfl]

theorem nodup_child {xs ys : Forest} {d : Decl} (h : (Forest.ids (c.plug (xs ++ d :: ys))).Nodup) :
    (Forest.ids (xs ++ d :: ys)).Nodup :=
  Context.nodup_children h

theorem nodup_owners_child {xs ys : Forest} {d : Decl}
    (h : (Forest.ids (c.plug (xs ++ d :: ys))).Nodup) :
    (Owner.container d.id :: owners d.children).Nodup := by
  have hids := nodup_child h
  rw [Forest.ids_append, Forest.ids_cons] at hids
  have hd := (List.nodup_append.1 hids).2.1
  rw [← List.cons_append] at hd
  obtain ⟨hself, hinner⟩ := List.nodup_cons.1 (List.nodup_append.1 hd).1
  exact List.nodup_cons.2 ⟨fun ho => hself (id_mem_of_mem_owners ho), nodup_owners hinner⟩

theorem owners_middle (xs ys : Forest) (d : Decl) :
    (owners (xs ++ d :: ys)).Perm (owners [d] ++ owners (xs ++ ys)) := by
  rw [← List.singleton_append, owners_append, owners_append, owners_append]
  exact (List.perm_append_comm_assoc _ _ _)

theorem not_mem_owners_without {xs ys : Forest} {d : Decl} {q : Owner}
    (h : (Forest.ids (xs ++ d :: ys)).Nodup) (hq : q ∈ owners [d]) : q ∉ owners (xs ++ ys) := by
  have hperm := (owners_middle xs ys d).nodup_iff.1 (nodup_owners h)
  intro hrest
  exact (List.nodup_append.1 hperm).2.2 q hq q hrest rfl

theorem first?_without {xs ys : Forest} {d : Decl}
    (hne : ∀ r, first? (xs ++ d :: ys) d.key = some r → r.id ≠ d.id) (zs : Forest) :
    first? (xs ++ d :: ys) d.key = first? (xs ++ zs) d.key := by
  cases hx : first? xs d.key with
  | none =>
    have hself : first? (xs ++ d :: ys) d.key = some d.ref := by
      rw [first?_append, hx, first?_cons, if_pos rfl]
      rfl
    exact absurd rfl (hne d.ref hself)
  | some r =>
    rw [first?_append, first?_append, hx]
    rfl

theorem view_nested_middle {path : List String} {xs ys : Forest} {d : Decl}
    (h : (Forest.ids (xs ++ d :: ys)).Nodup) (q : Owner) :
    view ⟨nested path (xs ++ d :: ys)⟩ q =
      (view ⟨nested path [d]⟩ q).or (view ⟨nested path (xs ++ ys)⟩ q) := by
  rw [← List.singleton_append, nested_append, nested_append, nested_append, view_append,
    view_append, view_append]
  by_cases hq : q ∈ owners xs
  · have hd : q ∉ owners [d] := fun hd => owners_disjoint h hq (by
      rw [← List.singleton_append, owners_append]
      exact List.mem_append_left _ hd)
    rw [view_nested_eq_none hd, Option.none_or, Option.none_or]
  · rw [view_nested_eq_none hq, Option.none_or, Option.none_or]

theorem inserted_mirrors {xs ys : Forest} {d : Decl} (h : i.Mirrors (c.plug (xs ++ ys)))
    (hn : (Forest.ids (c.plug (xs ++ ys))).Nodup)
    (hn' : (Forest.ids (c.plug (xs ++ d :: ys))).Nodup) :
    ∃ i' notices, i.inserted c.owner (xs ++ d :: ys) d = .ok (i', notices) ∧
      i'.Mirrors (c.plug (xs ++ d :: ys)) := by
  have hids := nodup_child hn'
  have hnew : d.id ∉ Forest.ids (xs ++ ys) := by
    rw [Forest.ids_append, Forest.ids_cons, List.nodup_middle, List.nodup_cons] at hids
    rw [Forest.ids_append]
    exact fun hm => hids.1 (by rcases List.mem_append.1 hm with hm | hm <;> simp [hm])
  obtain ⟨i', notices, hok, hi'⟩ :=
    view_inserted (xs ++ d :: ys) (h.view_owner hn) (nodup_owners_child hn')
    (fun k hk => (first?_middle_of_ne xs ys hk).symm)
    (by
      intro hnone
      rw [first?_append, Option.or_eq_none_iff] at hnone
      rw [first?_append, hnone.1, first?_cons, if_pos rfl]
      rfl)
    (fun r hr hid => absurd (hid ▸ id_mem_of_first? hr) hnew)
  refine ⟨i', notices, hok, fun q => ?_⟩
  obtain ⟨around, hview⟩ := view_listed_plug c
  have hnew := hview _ hn'
  rw [hi', h q, (hview _ hn).2, hnew.2]
  by_cases hq : q = c.owner
  · have hqd : q ∉ owners [d] := fun hqd =>
      (hnew.1 q ((owners_middle xs ys d).mem_iff.2 (List.mem_append_left _ hqd))).1 hq
    rw [if_pos hq, if_pos hq, view_nested_eq_none hqd, Option.none_or]
  · rw [if_neg hq, if_neg hq, if_neg hq, view_nested_middle hids, Option.or_assoc]

theorem removed_mirrors {xs ys : Forest} {d : Decl} (h : i.Mirrors (c.plug (xs ++ d :: ys)))
    (hn : (Forest.ids (c.plug (xs ++ d :: ys))).Nodup)
    (hn' : (Forest.ids (c.plug (xs ++ ys))).Nodup) :
    ∃ i', i.removed c.owner (xs ++ ys) d = .ok i' ∧ i'.Mirrors (c.plug (xs ++ ys)) := by
  obtain ⟨around, hview⟩ := view_listed_plug c
  have hold := hview _ hn
  have hmem {q : Owner} (hq : q ∈ owners [d]) : q ∈ owners (xs ++ d :: ys) :=
    (owners_middle xs ys d).mem_iff.2 (List.mem_append_left _ hq)
  obtain ⟨i', hok, hi'⟩ := view_removed (xs ++ ys) (h.view_owner hn)
    (fun k hk => first?_middle_of_ne xs ys hk)
    (fun hne => first?_without hne ys)
  refine ⟨i', hok, fun q => ?_⟩
  rw [hi', h q, hold.2, (hview _ hn').2]
  by_cases hd : q ∈ owners [d]
  · have hrest := not_mem_owners_without (nodup_child hn) hd
    rw [if_pos hd, if_neg (hold.1 q (hmem hd)).1, view_nested_eq_none hrest,
      (hold.1 q (hmem hd)).2]
    rfl
  · rw [if_neg hd, view_nested_middle (nodup_child hn), view_nested_eq_none hd, Option.none_or]
    split <;> rfl

theorem replaced_mirrors {xs ys : Forest} {old d : Decl} (hkey : old.key = d.key)
    (h : i.Mirrors (c.plug (xs ++ old :: ys)))
    (hn : (Forest.ids (c.plug (xs ++ old :: ys))).Nodup)
    (hn' : (Forest.ids (c.plug (xs ++ d :: ys))).Nodup) :
    ∃ i₁ i' notices, i.removed c.owner (xs ++ d :: ys) old = .ok i₁ ∧
      i₁.inserted c.owner (xs ++ d :: ys) d = .ok (i', notices) ∧
      i'.Mirrors (c.plug (xs ++ d :: ys)) := by
  obtain ⟨around, hview⟩ := view_listed_plug c
  have hold := hview _ hn
  have hnew := hview _ hn'
  have hmem {q : Owner} (hq : q ∈ owners [old]) : q ∈ owners (xs ++ old :: ys) :=
    (owners_middle xs ys old).mem_iff.2 (List.mem_append_left _ hq)
  have howner : c.owner ∉ owners [old] := fun ho => (hold.1 _ (hmem ho)).1 rfl
  -- The first report finds `d` already in its place, so the second one has nothing to correct.
  have hhere : first? (xs ++ d :: ys) d.key ≠ none := by
    rw [Ne, first?_eq_none_iff]
    exact fun hne => hne d (by simp) rfl
  obtain ⟨i₁, hok₁, hi₁⟩ := view_removed (xs ++ d :: ys) (h.view_owner hn)
    (fun k hk => by
      rw [first?_middle_of_ne xs ys hk, first?_middle_of_ne xs ys (hkey ▸ hk)])
    (fun hne => first?_without hne (d :: ys))
  have hview₁ : i₁.view c.owner = some (c.path, first? (xs ++ d :: ys)) := by
    rw [hi₁, if_neg howner, if_pos rfl]
  obtain ⟨i', notices, hok, hi'⟩ := view_inserted (xs ++ d :: ys) hview₁ (nodup_owners_child hn')
    (fun _ _ => rfl) (fun hne => absurd hne hhere) (fun r hr _ => hr)
  refine ⟨i₁, i', notices, hok₁, hok, fun q => ?_⟩
  rw [hi', hi₁, hnew.2, h q, hold.2]
  by_cases hq : q = c.owner
  · have hqd : q ∉ owners [d] := fun hqd =>
      (hnew.1 q ((owners_middle xs ys d).mem_iff.2 (List.mem_append_left _ hqd))).1 hq
    rw [if_pos hq, if_pos hq, view_nested_eq_none hqd, Option.none_or]
  · simp only [if_neg hq]
    rw [view_nested_middle (nodup_child hn'), Option.or_assoc]
    congr 1
    by_cases hqo : q ∈ owners [old]
    · have hrest := not_mem_owners_without (nodup_child hn) hqo
      rw [if_pos hqo, view_nested_eq_none hrest, (hold.1 q (hmem hqo)).2]
      rfl
    · rw [if_neg hqo, view_nested_middle (nodup_child hn), view_nested_eq_none hqo,
        Option.none_or]

theorem changed_mirrors {xs ys : Forest} {d d' : Decl} (hsame : d.Alike d')
    (h : i.Mirrors (c.plug (xs ++ d :: ys)))
    (hn : (Forest.ids (c.plug (xs ++ d :: ys))).Nodup) :
    i.Mirrors (c.plug (xs ++ d' :: ys)) := by
  have hn' : (Forest.ids (c.plug (xs ++ d' :: ys))).Nodup := by
    rw [Context.nodup_plug, hsame.ids_middle]
    exact Context.nodup_plug.1 hn
  obtain ⟨around, hview⟩ := view_listed_plug c
  intro q
  rw [h q, (hview _ hn).2, (hview _ hn').2, hsame.first?_middle, hsame.nested_middle]

theorem nodup_moved {xs ys us vs : Forest} {d d' : Decl} (hsame : d.Alike d')
    (hrest : us ++ vs = xs ++ ys) (hn : (Forest.ids (c.plug (xs ++ d :: ys))).Nodup) :
    (Forest.ids (c.plug (us ++ d' :: vs))).Nodup := by
  have hids : (Forest.ids (us ++ d' :: vs)).Perm (Forest.ids (xs ++ d :: ys)) := by
    rw [hsame.ids_middle]
    exact (ids_middle us vs d).trans ((ids_middle xs ys d).trans (by rw [hrest])).symm
  rw [Context.nodup_plug, (hids.append_left _).nodup_iff]
  exact Context.nodup_plug.1 hn

/-- A child moved among its siblings, which may also be changed in what no index knows of it. -/
theorem moved_mirrors {xs ys us vs : Forest} {d d' : Decl} (hsame : d.Alike d')
    (hrest : us ++ vs = xs ++ ys) (h : i.Mirrors (c.plug (xs ++ d :: ys)))
    (hn : (Forest.ids (c.plug (xs ++ d :: ys))).Nodup) :
    ∃ i', i.moved c.owner (us ++ d' :: vs) d.key = .ok i' ∧
      i'.Mirrors (c.plug (us ++ d' :: vs)) := by
  have hn' := nodup_moved hsame hrest hn
  obtain ⟨i', hok, hi'⟩ := view_moved (us ++ d' :: vs) (h.view_owner hn)
    (fun k hk => by
      rw [hsame.first?_middle, first?_middle_of_ne xs ys hk, first?_middle_of_ne us vs hk, hrest])
  refine ⟨i', hok, fun q => ?_⟩
  obtain ⟨around, hview⟩ := view_listed_plug c
  rw [hi', h q, (hview _ hn).2, (hview _ hn').2]
  by_cases hq : q = c.owner
  · simp only [if_pos hq]
  · simp only [if_neg hq]
    rw [hsame.nested_middle, view_nested_middle (nodup_child hn), ← hrest,
      ← view_nested_middle (hsame.ids_middle us vs ▸ nodup_child hn')]

section Answers
variable {f : Forest}

theorem Mirrors.view_eq (hi : i.Mirrors f) (hj : j.Mirrors f) : i.view = j.view :=
  funext fun q => (hi q).trans (hj q).symm

theorem pathOf_eq_view (i : Index) (o : Owner) :
    i.pathOf o = match i.view o with
      | none => .error .unknownOwner
      | some v => .ok v.1 := by
  unfold pathOf view
  cases i.scope? o <;> rfl

theorem childAt?_eq_view (i : Index) (o : Owner) (key : Key) :
    i.childAt? o key = (i.view o).bind (·.2 key) := by
  unfold childAt? view
  cases i.scope? o <;> rfl

theorem findSibling_eq_view (i : Index) (o : Owner) (name : String) :
    i.findSibling o name = match i.view o with
      | none => .error .unknownOwner
      | some v => .ok (((v.2 ⟨name, true⟩).or (v.2 ⟨name, false⟩)).map fun r => ⟨r, o⟩) := by
  unfold findSibling view
  cases i.scope? o <;> rfl

variable (h : i.view = j.view)
include h

theorem pathOf_congr (o : Owner) : i.pathOf o = j.pathOf o := by
  rw [pathOf_eq_view, pathOf_eq_view, h]

theorem childAt?_congr (o : Owner) (key : Key) : i.childAt? o key = j.childAt? o key := by
  rw [childAt?_eq_view, childAt?_eq_view, h]

theorem findSibling_congr (o : Owner) (name : String) :
    i.findSibling o name = j.findSibling o name := by
  rw [findSibling_eq_view, findSibling_eq_view, h]

theorem descend?_congr (o : Owner) (path : List String) : i.descend? o path = j.descend? o path := by
  induction path generalizing o with
  | nil => rfl
  | cons name path ih =>
    rw [descend?, descend?, childAt?_congr h]
    split
    · rw [ih]
    · rfl

theorem containerFor?_congr (path : List String) : i.containerFor? path = j.containerFor? path :=
  descend?_congr h .root path

theorem get?_congr (q : QualifiedName) : i.get? q = j.get? q := by
  unfold get?
  rw [containerFor?_congr h]
  congr 1
  funext o
  rw [childAt?_congr h]

theorem namesFrom_congr (o : Owner) (path : List String) (f : Forest) :
    i.namesFrom o path f = j.namesFrom o path f := by
  have hnamed (o : Owner) (path : List String) (d : Decl) : i.named o path d = j.named o path d := by
    unfold named
    rw [childAt?_congr h]
  induction o, path, f using namesFrom.induct j with
  | case1 => simp [namesFrom]
  | case2 => simp_all [namesFrom]
  | case3 => simp_all [namesFrom]

theorem names_congr (f : Forest) : i.names f = j.names f := namesFrom_congr h .root [] f

end Answers
end Index
end SignatureLayers
