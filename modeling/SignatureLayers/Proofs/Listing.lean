import Mathlib.Data.Option.Basic
import SignatureLayers.Proofs.Replacement

namespace SignatureLayers

open Forest

namespace Forest
variable {o : Owner} {path : List String} {before xs ys f : Forest} {c : Context} {d : Decl}
  {x : Site}

/-- The declarations that names lead to, in order of traversal: those that are the first with their
key behind the siblings `before`, and below each of them those that are so among its children. -/
def foremostFrom (o : Owner) (path : List String) (before : Forest) : Forest → List Site
  | [] => []
  | .container k h cs t :: rest =>
    let d := Decl.container k h cs t
    (if before.any (·.key == d.key) then []
      else ⟨o, path, d⟩ :: foremostFrom (.container h.id) (path ++ [h.name]) [] cs) ++
      foremostFrom o path (before ++ [d]) rest
  | d :: rest =>
    (if before.any (·.key == d.key) then [] else [⟨o, path, d⟩]) ++
      foremostFrom o path (before ++ [d]) rest

@[simp] theorem foremostFrom_nil : foremostFrom o path before [] = [] := by rw [foremostFrom]

theorem foremostFrom_cons (o : Owner) (path : List String) (before : Forest) (d : Decl)
    (rest : Forest) : foremostFrom o path before (d :: rest) =
      (if before.any (·.key == d.key) then []
        else ⟨o, path, d⟩ :: foremostFrom (.container d.id) (path ++ [d.name]) [] d.children) ++
      foremostFrom o path (before ++ [d]) rest := by
  cases d with
  | container =>
    rw [foremostFrom]
    rfl
  | leaf | member => simp only [foremostFrom, Decl.children]

theorem foremostFrom_sublist (o : Owner) (path : List String) (before f : Forest) :
    (foremostFrom o path before f).Sublist (sitesFrom o path f) := by
  induction f using Forest.induct generalizing o path before with
  | nil => simp
  | cons d rest inner tail =>
    rw [foremostFrom_cons, sitesFrom_cons, ← List.cons_append]
    refine List.Sublist.append ?_ (tail o path _)
    split
    · exact List.nil_sublist _
    · exact (inner _ _ _).cons_cons _

theorem map_decl_sitesFrom (o : Owner) (path : List String) (f : Forest) :
    (sitesFrom o path f).map Site.decl = preorder f := by
  induction f using Forest.induct generalizing o path with
  | nil => simp
  | cons d rest inner tail => simp [sitesFrom_cons, preorder_cons, inner, tail]

theorem mem_foremostFrom_middle (hbefore : ∀ y ∈ before, y.key ≠ d.key)
    (hxs : ∀ y ∈ xs, y.key ≠ d.key) (hx : x = ⟨o, path, d⟩ ∨
      x ∈ foremostFrom (.container d.id) (path ++ [d.name]) [] d.children) :
    x ∈ foremostFrom o path before (xs ++ d :: ys) := by
  induction xs generalizing before with
  | nil =>
    have hnone : before.any (·.key == d.key) = false := by simpa using hbefore
    rw [List.nil_append, foremostFrom_cons, hnone, List.mem_append]
    exact .inl (List.mem_cons.2 hx)
  | cons y xs ih =>
    obtain ⟨hy, hxs⟩ := List.forall_mem_cons.1 hxs
    rw [List.cons_append, foremostFrom_cons, List.mem_append]
    exact .inr (ih (List.forall_mem_append.2 ⟨hbefore, List.forall_mem_singleton.2 hy⟩) hxs)

/-- The first child with its key at the end of a clear way is foremost. -/
theorem mem_foremostFrom_plug (o : Owner) (path : List String) (hc : c.Clear)
    (hxs : ∀ y ∈ xs, y.key ≠ d.key) : ⟨c.ownerFrom o, path ++ c.path, d⟩ ∈
      foremostFrom o path [] (c.plug (xs ++ d :: ys)) := by
  induction c generalizing o path with
  | nil =>
    rw [Context.path, List.map_nil, List.append_nil]
    exact mem_foremostFrom_middle (List.forall_mem_nil _) hxs (.inl rfl)
  | cons l c ih =>
    obtain ⟨hl, hc⟩ := List.forall_mem_cons.1 hc
    have hinner := ih (.container l.header.id) (path ++ [l.header.name]) hc
    rw [List.append_assoc] at hinner
    exact mem_foremostFrom_middle (List.forall_mem_nil _) hl (.inr hinner)

end Forest

namespace Index
variable {i : Index} {c : Context} {xs ys f : Forest} {d : Decl} {x : Site}

theorem namesFrom_cons (i : Index) (o : Owner) (path : List String) (d : Decl) (rest : Forest) :
    i.namesFrom o path (d :: rest) = i.named o path d ++
      (if (i.named o path d).isEmpty then []
        else i.namesFrom (.container d.id) (path ++ [d.name]) d.children) ++
      i.namesFrom o path rest := by
  cases d with
  | container =>
    rw [namesFrom]
    rfl
  | leaf | member => simp [namesFrom, Decl.children]

theorem named_eq (h : i.Mirrors (c.plug (xs ++ d :: ys)))
    (hn : (Forest.ids (c.plug (xs ++ d :: ys))).Nodup) :
    i.named c.owner c.path d =
      if xs.any (·.key == d.key) then [] else [⟨c.path, d.key⟩] := by
  have hchild : i.childAt? c.owner d.key = first? (xs ++ d :: ys) d.key := by
    rw [childAt?_eq_view, h.view_owner hn]
    rfl
  rw [named, hchild, first?_append, first?_cons, if_pos rfl]
  cases hx : first? xs d.key with
  | none =>
    have hnone : xs.any (·.key == d.key) = false := by simpa using first?_eq_none_iff.1 hx
    rw [hnone]
    simp [Decl.ref]
  | some r =>
    have hsome : xs.any (·.key == d.key) = true := by
      obtain ⟨us, u, vs, rfl, -, hkey, -⟩ := exists_of_first? hx
      simp [hkey]
    have hids := nodup_child hn
    rw [Forest.ids_append, Forest.ids_cons, List.nodup_append] at hids
    have hother : r.id ≠ d.id := hids.2.2 r.id (id_mem_of_first? hx) d.id List.mem_cons_self
    rw [hsome]
    simp [hother]

/-- The names that an index lists are those of the foremost declarations. -/
theorem namesFrom_eq (h : i.Mirrors (c.plug (xs ++ ys)))
    (hn : (Forest.ids (c.plug (xs ++ ys))).Nodup) :
    i.namesFrom c.owner c.path ys = (foremostFrom c.owner c.path xs ys).map Site.name := by
  induction ys using Forest.induct generalizing c xs with
  | nil => simp [namesFrom]
  | cons d rest inner tail =>
    have htail : i.namesFrom c.owner c.path rest =
        (foremostFrom c.owner c.path (xs ++ [d]) rest).map Site.name :=
      tail (by simpa using h) (by simpa using hn)
    rw [namesFrom_cons, foremostFrom_cons, List.map_append, htail, named_eq h hn]
    congr 1
    split
    · rfl
    · cases d with
      | leaf | member => simp [Decl.children, namesFrom, Site.name]
      | container k header cs t =>
        let l : Shell := ⟨xs, k, header, t, rest⟩
        have hplug : Context.plug (c ++ [l]) cs = c.plug (l.plug cs) := Context.plug_append ..
        have hinner : i.namesFrom (Context.owner (c ++ [l])) (Context.path (c ++ [l])) cs =
            (foremostFrom _ _ [] cs).map Site.name := inner (hplug ▸ h) (hplug ▸ hn)
        rw [Context.owner_concat, Context.path_append] at hinner
        exact congrArg (_ :: ·) hinner

theorem get?_of_foremost (h : i.Mirrors (c.plug (xs ++ ys)))
    (hn : (Forest.ids (c.plug (xs ++ ys))).Nodup) (hc : c.Clear)
    (hx : x ∈ foremostFrom c.owner c.path xs ys) :
    i.get? x.name = some ⟨x.decl.ref, x.owner⟩ := by
  induction ys using Forest.induct generalizing c xs with
  | nil => simp at hx
  | cons d rest inner tail =>
    rw [foremostFrom_cons, List.mem_append] at hx
    rcases hx with hx | hx
    · split at hx
      · cases hx
      · next hfirst =>
        have hbefore : ∀ y ∈ xs, y.key ≠ d.key := by simpa using hfirst
        rcases List.mem_cons.1 hx with rfl | hx
        · rw [Site.name, get?_path h hn hc.leads, resolved?, if_pos rfl,
            cut?_middle (homonyms_eq_nil.2 hbefore) rfl]
          rfl
        · cases d with
          | leaf | member => simp [Decl.children] at hx
          | container k header cs t =>
            let l : Shell := ⟨xs, k, header, t, rest⟩
            have hplug : Context.plug (c ++ [l]) cs = c.plug (l.plug cs) := Context.plug_append ..
            have hinner : x ∈ foremostFrom (Context.owner (c ++ [l])) (Context.path (c ++ [l]))
                [] cs := by
              rw [Context.owner_concat, Context.path_append]
              exact hx
            exact inner (hplug ▸ h) (hplug ▸ hn) (hc.concat hbefore) hinner
    · have htail : x ∈ foremostFrom c.owner c.path (xs ++ [d]) rest := hx
      exact tail (by simpa using h) (by simpa using hn) hc htail

/-- What a name leads to is the first child with its key of the owner that its path leads to. -/
theorem entry_of_get? {q : QualifiedName} {e : Entry} (h : i.Mirrors f) (hn : f.ids.Nodup)
    (he : i.get? q = some e) : ∃ (c : Context) (xs : Forest) (d : Decl) (ys : Forest),
      f = c.plug (xs ++ d :: ys) ∧ c.Clear ∧ c.path = q.scope ∧ e = ⟨d.ref, c.owner⟩ ∧
        d.key = q.key ∧ ∀ x ∈ xs, x.key ≠ q.key := by
  obtain ⟨o, ho, hchild⟩ := Option.bind_eq_some_iff.1 he
  obtain ⟨r, hr, rfl⟩ := Option.map_eq_some_iff.1 hchild
  obtain ⟨c, cs, rfl, rfl, hpath, hc⟩ := containerFor?_eq_some h hn ho
  rw [childAt?_eq_view, h.view_owner hn] at hr
  obtain ⟨xs, d, ys, rfl, hxs, hkey, rfl⟩ := exists_of_first? hr
  exact ⟨c, xs, d, ys, rfl, hc, hpath, rfl, hkey, hxs⟩

/-- The index of a forest lists each name that it resolves, once, in the order in which the
declarations stand that the names lead to. A name leads to the first child that has its key, of the
owner that its path leads to. -/
theorem names_enumerate (hn : f.ids.Nodup) :
    let i := ofForest f
    (i.names f).Nodup ∧
    (∃ ds : Forest, ds.Sublist f.preorder ∧
      (i.names f).map (fun q => (i.get? q).map Entry.node) = ds.map fun d => some d.ref) ∧
    (∀ q, q ∈ i.names f ↔ i.get? q ≠ none) ∧
    ∀ q e, i.get? q = some e → i.containerFor? q.scope = some e.owner ∧
      ∃ before d after, f.childrenOf e.owner = before ++ d :: after ∧ d.ref = e.node ∧
        d.key = q.key ∧ e.position? f = some before.length ∧ ∀ x ∈ before, x.key ≠ q.key := by
  intro i
  have hi : i.Mirrors f := mirrors_ofForest hn
  have htop : i.Mirrors (Context.plug [] ([] ++ f)) := hi
  let xs := foremostFrom .root [] [] f
  have hnames : i.names f = xs.map Site.name := namesFrom_eq htop hn
  have hget : ∀ x ∈ xs, i.get? x.name = some ⟨x.decl.ref, x.owner⟩ := fun x hx =>
    get?_of_foremost htop hn (List.forall_mem_nil _) hx
  have hsub : (xs.map Site.decl).Sublist f.preorder := by
    rw [← map_decl_sitesFrom .root [] f]
    exact (foremostFrom_sublist .root [] [] f).map _
  have hnodes : (i.names f).map (fun q => (i.get? q).map Entry.node) =
      (xs.map Site.decl).map fun d => some d.ref := by
    rw [hnames, List.map_map, List.map_map]
    exact List.map_congr_left fun x hx => by simp [hget x hx]
  refine ⟨?_, ⟨_, hsub, hnodes⟩, fun q => ⟨fun hq => ?_, fun hq => ?_⟩, fun q e he => ?_⟩
  · refine List.Nodup.of_map (fun q => (i.get? q).map Entry.node) ?_
    refine List.Nodup.of_map (Option.map Ref.id) ?_
    have hids : (((xs.map Site.decl).map Decl.id).map some).Nodup :=
      (hn.sublist (hsub.map _)).map (Option.some_injective Nat)
    rw [List.map_map] at hids
    rw [hnodes, List.map_map]
    exact hids
  · rw [hnames] at hq
    obtain ⟨x, hx, rfl⟩ := List.mem_map.1 hq
    rw [hget x hx]
    exact Option.some_ne_none _
  · obtain ⟨e, he⟩ := Option.ne_none_iff_exists'.1 hq
    obtain ⟨c, us, d, vs, hf, hc, hpath, -, hkey, hus⟩ := entry_of_get? hi hn he
    have hx : _ ∈ xs := hf ▸ mem_foremostFrom_plug .root [] hc (hkey ▸ hus)
    rw [hnames]
    exact List.mem_map.2 ⟨_, hx, by simp [Site.name, hpath, hkey]⟩
  · obtain ⟨c, us, d, vs, rfl, hc, hpath, rfl, hkey, hus⟩ := entry_of_get? hi hn he
    have hchildren := Context.childrenOf_plug hn
    refine ⟨?_, us, d, vs, hchildren, rfl, hkey, ?_, hus⟩
    · rw [← hpath, containerFor?_path hi hn hc.leads, if_pos rfl]
    · rw [Entry.position?, hchildren]
      exact Merge.findIdx?_id (nodup_child hn)

/-- A class is hidden by a constant of its name, another one by a class in front of it; a name with
the separator in it is no path. -/
theorem names_enumerate_hidden :
    let leaf (id : Nat) (name : String) : Decl := .leaf .constant { id, name }
    let group (id : Nat) (name : String) (children : Forest) : Decl :=
      .container .classDecl { id, name } children []
    let f : Forest := [
      group 1 "A" [leaf 2 "B", group 3 "B" [leaf 4 "C"],
        .member .methodAlias { id := 5, name := "B" } none],
      group 6 "A::B" [leaf 7 "C"], group 8 "A" [leaf 9 "D"]]
    let i := ofForest f
    f.ids.Nodup ∧
    i.names f = [⟨[], ⟨"A", false⟩⟩, ⟨["A"], ⟨"B", false⟩⟩, ⟨["A"], ⟨"B", true⟩⟩,
      ⟨[], ⟨"A::B", false⟩⟩, ⟨["A::B"], ⟨"C", false⟩⟩] ∧
    (i.names f).Nodup ∧
    (∃ ds : Forest, ds.Sublist f.preorder ∧
      (i.names f).map (fun q => (i.get? q).map Entry.node) = ds.map fun d => some d.ref) ∧
    (∀ q, q ∈ i.names f ↔ i.get? q ≠ none) ∧
    ∀ q e, i.get? q = some e → i.containerFor? q.scope = some e.owner ∧
      ∃ before d after, f.childrenOf e.owner = before ++ d :: after ∧ d.ref = e.node ∧
        d.key = q.key ∧ e.position? f = some before.length ∧ ∀ x ∈ before, x.key ≠ q.key := by
  intro leaf group f i
  have hids : f.ids = [1, 2, 3, 4, 5, 6, 7, 8, 9] := by
    simp only [f, leaf, group]
    cbv
  have hn : f.ids.Nodup := by
    rw [hids]
    decide
  have hnames : i.names f = [⟨[], ⟨"A", false⟩⟩, ⟨["A"], ⟨"B", false⟩⟩, ⟨["A"], ⟨"B", true⟩⟩,
      ⟨[], ⟨"A::B", false⟩⟩, ⟨["A::B"], ⟨"C", false⟩⟩] := by
    simp only [i, f, leaf, group]
    cbv
  exact ⟨hn, hnames, names_enumerate hn⟩

end Index
end SignatureLayers
