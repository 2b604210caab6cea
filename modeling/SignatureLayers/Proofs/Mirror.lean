import Mathlib.Data.List.Basic
import Mathlib.Data.List.Nodup
import SignatureLayers.Index.Basic
import SignatureLayers.Proofs.Context

namespace SignatureLayers

section Lookup
variable {α β : Type} [DecidableEq α]

theorem lookup_cons_ite (l : List (α × β)) (a k : α) (b : β) :
    ((a, b) :: l).lookup k = if k = a then some b else l.lookup k := by
  by_cases h : k = a
  · simp [h]
  · rw [if_neg h, List.lookup_cons, beq_false_of_ne h]

theorem lookup_filter_ne (l : List (α × β)) (a k : α) :
    (l.filter (·.1 != a)).lookup k = if k = a then none else l.lookup k := by
  induction l with
  | nil => simp
  | cons e l ih =>
    obtain ⟨a', b⟩ := e
    rw [lookup_cons_ite, List.filter_cons]
    by_cases ha : a' = a
    · subst ha
      simp only [bne_self_eq_false, Bool.false_eq_true, ↓reduceIte, ih]
      split <;> rfl
    · have hne : (a' != a) = true := bne_iff_ne.2 ha
      rw [if_pos hne, lookup_cons_ite, ih]
      by_cases hk : k = a'
      · simp [hk, ha]
      · simp [hk]

theorem lookup_isSome_iff_mem {l : List (α × β)} {k : α} :
    (l.lookup k).isSome ↔ k ∈ l.map (·.1) := by
  induction l with
  | nil => simp
  | cons e l ih =>
    rw [lookup_cons_ite, List.map_cons, List.mem_cons]
    by_cases h : k = e.1 <;> simp [h, ← ih]

end Lookup

/-- What there is to know of an owner: its path and the first child with each key. -/
abbrev View := List String × (Key → Option Ref)

namespace Forest

def first? (f : Forest) (key : Key) : Option Ref := (List.find? (·.key == key) f).map Decl.ref

theorem first?_append (xs ys : Forest) (key : Key) :
    first? (xs ++ ys) key = (first? xs key).or (first? ys key) := by
  simp only [first?, List.find?_append]
  cases List.find? (·.key == key) xs <;> rfl

theorem first?_cons (d : Decl) (rest : Forest) (key : Key) :
    first? (d :: rest) key = if d.key = key then some d.ref else first? rest key := by
  by_cases h : d.key = key <;> simp [first?, h]

theorem first?_eq_none_iff {f : Forest} {key : Key} :
    first? f key = none ↔ ∀ d ∈ f, d.key ≠ key := by simp [first?]

theorem exists_of_first? {f : Forest} {key : Key} {r : Ref} (h : first? f key = some r) :
    ∃ xs d ys, f = xs ++ d :: ys ∧ (∀ x ∈ xs, x.key ≠ key) ∧ d.key = key ∧ d.ref = r := by
  obtain ⟨d, hd, rfl⟩ := Option.map_eq_some_iff.1 h
  obtain ⟨hkey, xs, ys, rfl, hxs⟩ := List.find?_eq_some_iff_append.1 hd
  exact ⟨xs, d, ys, rfl, by simpa using hxs, by simpa using hkey, rfl⟩

theorem id_mem_of_first? {f : Forest} {key : Key} {r : Ref} (h : first? f key = some r) :
    r.id ∈ ids f := by
  obtain ⟨xs, d, ys, rfl, -, -, rfl⟩ := exists_of_first? h
  simp [ids_append, ids_cons, Decl.ref]

theorem first?_middle_of_ne (xs ys : Forest) {d : Decl} {key : Key} (h : key ≠ d.key) :
    first? (xs ++ d :: ys) key = first? (xs ++ ys) key := by
  rw [first?_append, first?_append, first?_cons, if_neg (Ne.symm h)]

def owners (f : Forest) : List Owner :=
  ((preorder f).filter Decl.isContainer).map fun d => .container d.id

theorem owners_append (xs ys : Forest) : owners (xs ++ ys) = owners xs ++ owners ys := by
  simp [owners, preorder_append]

theorem mem_owners_reverse {f : Forest} {o : Owner} : o ∈ owners f.reverse ↔ o ∈ owners f := by
  induction f with
  | nil => rfl
  | cons d f ih =>
    rw [List.reverse_cons, owners_append, List.mem_append, ih, or_comm, ← List.mem_append,
      ← owners_append, List.singleton_append]

theorem owners_cons (d : Decl) (rest : Forest) :
    owners (d :: rest) =
      (if d.isContainer then [.container d.id] else []) ++ (owners d.children ++ owners rest) := by
  by_cases h : d.isContainer = true <;> simp [owners, preorder_cons, h]

theorem owners_of_not_container {d : Decl} (h : d.isContainer = false) : owners [d] = [] := by
  cases d with
  | container => cases h
  | leaf | member => simp [owners, preorder_cons, Decl.isContainer, Decl.children]

theorem mem_owners {f : Forest} {o : Owner} :
    o ∈ owners f ↔ ∃ d ∈ preorder f, d.isContainer = true ∧ o = .container d.id := by
  simp only [owners, List.mem_map, List.mem_filter, and_assoc, eq_comm (a := o)]

theorem id_mem_of_mem_owners {f : Forest} {id : Nat} (h : .container id ∈ owners f) :
    id ∈ ids f := by
  obtain ⟨d, hd, -, he⟩ := mem_owners.1 h
  cases he
  exact List.mem_map_of_mem hd

theorem root_not_mem_owners (f : Forest) : Owner.root ∉ owners f := by
  intro h
  obtain ⟨_, _, _, he⟩ := mem_owners.1 h
  cases he

theorem nodup_owners {f : Forest} (h : (ids f).Nodup) : (owners f).Nodup := by
  have hids : (((preorder f).filter Decl.isContainer).map Decl.id).Nodup :=
    h.sublist (List.filter_sublist.map _)
  have hmap := hids.map (f := Owner.container) fun a b hab => by cases hab; rfl
  rwa [List.map_map] at hmap

theorem owners_disjoint {xs ys : Forest} {o : Owner} (h : (ids (xs ++ ys)).Nodup)
    (hx : o ∈ owners xs) : o ∉ owners ys := by
  have hn := nodup_owners h
  rw [owners_append, List.nodup_append] at hn
  exact fun hy => hn.2.2 o hx o hy rfl

end Forest

open Forest

namespace Scope

theorem get?_set (s : Scope) (key k : Key) (r : Ref) :
    (s.set key r).get? k = if k = key then some r else s.get? k := by
  by_cases h : k = key <;> simp [set, erase, get?, lookup_cons_ite, lookup_filter_ne, h]

theorem get?_erase (s : Scope) (key k : Key) :
    (s.erase key).get? k = if k = key then none else s.get? k := by
  simp [erase, get?, lookup_filter_ne]

theorem get?_resolve (s : Scope) (key k : Key) (children : Forest) :
    (s.resolve key children).get? k = if k = key then first? children key else s.get? k := by
  unfold resolve first?
  cases List.find? (·.key == key) children with
  | none => simp [get?_erase]
  | some d => simp [get?_set]

@[simp] theorem path_set (s : Scope) (key : Key) (r : Ref) : (s.set key r).path = s.path := rfl

@[simp] theorem path_resolve (s : Scope) (key : Key) (children : Forest) :
    (s.resolve key children).path = s.path := by
  unfold resolve
  split <;> rfl

theorem lookup_foldl_rows (children : Forest) (rows : List (Key × Ref)) (k : Key) :
    (children.foldl (fun s d => if (s.lookup d.key).isSome then s else s ++ [(d.key, d.ref)])
      rows).lookup k = (rows.lookup k).or (first? children k) := by
  induction children generalizing rows with
  | nil => simp [first?]
  | cons d rest ih =>
    rw [List.foldl_cons, ih, first?_cons]
    by_cases hk : d.key = k
    · subst hk
      cases h : rows.lookup d.key <;> simp [h, List.lookup_append]
    · have hk' : ¬ k = d.key := Ne.symm hk
      split <;> simp [hk', List.lookup_append, lookup_cons_ite]

@[simp] theorem path_ofChildren (path : List String) (children : Forest) :
    (ofChildren path children).path = path := rfl

@[simp] theorem get?_ofChildren (path : List String) (children : Forest) :
    (ofChildren path children).get? = first? children := by
  funext k
  rw [get?, ofChildren, lookup_foldl_rows]
  simp

theorem ofChildren_congr {path : List String} {cs ds : Forest}
    (h : cs.map (fun d => (d.key, d.ref)) = ds.map fun d => (d.key, d.ref)) :
    ofChildren path cs = ofChildren path ds := by
  have hrows (f : Forest) : (ofChildren path f) =
      ⟨path, (f.map fun d => (d.key, d.ref)).foldl
        (fun s e => if (s.lookup e.1).isSome then s else s ++ [e]) []⟩ := by
    simp [ofChildren, List.foldl_map]
  rw [hrows, hrows, h]

end Scope

namespace Index

theorem nested_nil (path : List String) : nested path [] = [] := by rw [nested]

theorem nested_cons (path : List String) (d : Decl) (rest : Forest) :
    nested path (d :: rest) =
      (if d.isContainer then
        (.container d.id, .ofChildren (path ++ [d.name]) d.children) ::
          nested (path ++ [d.name]) d.children
      else []) ++ nested path rest := by
  cases d <;> simp [nested, Decl.isContainer, Decl.children, Decl.id, Decl.name, Decl.header]

theorem nested_append (path : List String) (xs ys : Forest) :
    nested path (xs ++ ys) = nested path xs ++ nested path ys := by
  induction xs with
  | nil => simp [nested_nil]
  | cons d xs ih => simp [nested_cons, ih]

theorem map_fst_nested (path : List String) (f : Forest) : (nested path f).map (·.1) = owners f := by
  induction f using Forest.induct generalizing path with
  | nil => simp [nested_nil, owners]
  | cons d rest inner tail =>
    rw [nested_cons, owners_cons, List.map_append, tail]
    cases d with
    | container => simp [Decl.isContainer, inner]
    | leaf | member => simp [Decl.isContainer, Decl.children, owners]

/-- The plain listing of a forest: every owner with its scope. -/
def listed (f : Forest) : Index := ⟨(.root, .ofChildren [] f) :: nested [] f⟩

def view (i : Index) (o : Owner) : Option View := (i.scope? o).map fun s => (s.path, s.get?)

/-- The index tells of every owner what the listing of the forest tells. -/
def Mirrors (i : Index) (f : Forest) : Prop := ∀ o, i.view o = (listed f).view o

theorem view_append (a b : List (Owner × Scope)) (o : Owner) :
    view ⟨a ++ b⟩ o = (view ⟨a⟩ o).or (view ⟨b⟩ o) := by
  simp only [view, scope?, List.lookup_append]
  cases a.lookup o <;> rfl

@[simp] theorem view_nil (o : Owner) : view ⟨[]⟩ o = none := rfl

theorem view_cons (q o : Owner) (s : Scope) (l : List (Owner × Scope)) :
    view ⟨(o, s) :: l⟩ q = if q = o then some (s.path, s.get?) else view ⟨l⟩ q := by
  by_cases h : q = o <;> simp [view, scope?, lookup_cons_ite, h]

theorem view_isSome {l : List (Owner × Scope)} {o : Owner} :
    (view ⟨l⟩ o).isSome ↔ o ∈ l.map (·.1) := by
  rw [view, Option.isSome_map, scope?, lookup_isSome_iff_mem]

theorem view_eq_none {l : List (Owner × Scope)} {o : Owner} (h : o ∉ l.map (·.1)) :
    view ⟨l⟩ o = none := by
  rwa [← view_isSome, Bool.not_eq_true, Option.isSome_eq_false_iff, Option.isNone_iff_eq_none] at h

theorem view_nested_eq_none {path : List String} {f : Forest} {o : Owner} (h : o ∉ owners f) :
    view ⟨nested path f⟩ o = none :=
  view_eq_none (by rwa [map_fst_nested])

theorem view_set (i : Index) (o q : Owner) (s : Scope) :
    (i.set o s).view q = if q = o then some (s.path, s.get?) else i.view q := by
  rw [set, view_cons]
  by_cases h : q = o <;> simp [h, view, scope?, erase, lookup_filter_ne]

theorem scope?_erase (i : Index) (o q : Owner) :
    (i.erase o).scope? q = if q = o then none else i.scope? q := lookup_filter_ne ..

theorem view_foldl_set (l : List (Owner × Scope)) (i : Index) (q : Owner)
    (h : (l.map (·.1)).Nodup) :
    (l.foldl (fun i s => i.set s.1 s.2) i).view q = (view ⟨l⟩ q).or (i.view q) := by
  induction l generalizing i with
  | nil => simp [view, scope?]
  | cons e l ih =>
    obtain ⟨o, s⟩ := e
    rw [List.map_cons, List.nodup_cons] at h
    rw [List.foldl_cons, ih _ h.2, view_set, view_cons]
    by_cases hq : q = o
    · subst hq
      simp [view_eq_none h.1]
    · simp [hq]

theorem view_enter (i : Index) (o q : Owner) (path : List String) (children : Forest)
    (h : (o :: owners children).Nodup) :
    (i.enter o path children).view q =
      (view ⟨(o, .ofChildren path children) :: nested path children⟩ q).or (i.view q) := by
  apply view_foldl_set
  rwa [List.map_cons, map_fst_nested]

/-- Forgetting takes out exactly the owners on the stack and below. -/
theorem scope?_forget (i : Index) (stack : Forest) (q : Owner) :
    (i.forget stack).scope? q = if q ∈ owners stack then none else i.scope? q := by
  induction i, stack using forget.induct with
  | case1 i => simp [forget, owners]
  | case2 i d stack ih =>
    simp only [dite_eq_ite] at ih
    rw [forget, ih, owners_append, owners_cons]
    by_cases hd : d.isContainer = true <;> by_cases hq : q = .container d.id <;>
      simp [hd, hq, scope?_erase, List.mem_append, mem_owners_reverse]

theorem view_forget (i : Index) (stack : Forest) (q : Owner) :
    (i.forget stack).view q = if q ∈ owners stack then none else i.view q := by
  rw [view, scope?_forget]
  split <;> rfl

theorem mirrors_ofForest {f : Forest} (h : (ids f).Nodup) : (ofForest f).Mirrors f := by
  intro o
  have hn : (Owner.root :: owners f).Nodup :=
    List.nodup_cons.2 ⟨root_not_mem_owners f, nodup_owners h⟩
  rw [ofForest, view_enter _ _ _ _ _ hn, listed]
  cases view ⟨(.root, .ofChildren [] f) :: nested [] f⟩ o <;> simp [empty, view, scope?]

theorem listed_plug_from (c : Context) (o : Owner) (path : List String) :
    ∃ before after : List (Owner × Scope), ∀ cs : Forest,
      (o, Scope.ofChildren path (c.plug cs)) :: nested path (c.plug cs) =
        before ++ (c.ownerFrom o, .ofChildren (path ++ c.path) cs) ::
          (nested (path ++ c.path) cs ++ after) := by
  induction c generalizing o path with
  | nil => exact ⟨[], [], fun cs => by simp [Context.path, Context.ownerFrom]⟩
  | cons l c ih =>
    obtain ⟨before, after, h⟩ := ih (.container l.header.id) (path ++ [l.header.name])
    refine ⟨(o, .ofChildren path (l.plug [])) :: (nested path l.before ++ before),
      after ++ nested path l.after, fun cs => ?_⟩
    -- A row tells the name and the identity of a child, not what is below it.
    have hscope : Scope.ofChildren path (l.plug (Context.plug c cs)) =
        .ofChildren path (l.plug []) :=
      Scope.ofChildren_congr (by simp [Shell.plug, Decl.key, Decl.ref, Decl.name, Decl.isMember,
        Decl.kind, Decl.id, Decl.header, Decl.isContainer])
    have hinner := h cs
    simp only [Context.plug_cons]
    rw [hscope]
    simp only [Shell.plug, nested_append, nested_cons, Decl.isContainer, ↓reduceIte, Decl.id,
      Decl.name, Decl.header, Decl.children, List.cons_append, List.append_assoc,
      List.cons.injEq, true_and]
    rw [List.append_cancel_left_eq, ← List.cons_append, hinner]
    simp [Context.ownerFrom, Context.path]

/-- What the listing of a forest tells of any owner, when the children of one of them are set
apart: the owners around these children do not depend on them. -/
theorem view_listed_plug (c : Context) : ∃ around : Owner → Option View, ∀ cs,
    (Forest.ids (c.plug cs)).Nodup →
      (∀ o ∈ owners cs, o ≠ c.owner ∧ around o = none) ∧ ∀ o, (listed (c.plug cs)).view o =
        if o = c.owner then some (c.path, first? cs)
        else (view ⟨nested c.path cs⟩ o).or (around o) := by
  obtain ⟨before, after, h⟩ := listed_plug_from c .root []
  refine ⟨fun o => (view ⟨before⟩ o).or (view ⟨after⟩ o), fun cs hn => ?_⟩
  have hlist : listed (c.plug cs) = ⟨before ++ (c.owner, .ofChildren c.path cs) ::
      (nested c.path cs ++ after)⟩ := by
    rw [listed, h cs]
    rfl
  have hkeys : ((listed (c.plug cs)).scopes.map (·.1)).Nodup := by
    rw [listed, List.map_cons, map_fst_nested]
    exact List.nodup_cons.2 ⟨root_not_mem_owners _, nodup_owners hn⟩
  simp only [hlist, List.map_append, List.map_cons, map_fst_nested] at hkeys
  obtain ⟨-, hkeys, hbefore⟩ := List.nodup_append.1 hkeys
  obtain ⟨howner, hkeys⟩ := List.nodup_cons.1 hkeys
  obtain ⟨-, -, hafter⟩ := List.nodup_append.1 hkeys
  -- No owner is listed twice, so those below `cs` are listed nowhere around it.
  have hnb {o : Owner} (ho : o ∈ owners cs) : view ⟨before⟩ o = none :=
    view_eq_none fun hb => hbefore o hb o (by simp [ho]) rfl
  have hna {o : Owner} (ho : o ∈ owners cs) : view ⟨after⟩ o = none :=
    view_eq_none fun ha => hafter o ho o ha rfl
  refine ⟨fun o ho => ⟨?_, by simp [hnb ho, hna ho]⟩, fun o => ?_⟩
  · rintro rfl
    exact howner (by simp [ho])
  · rw [hlist, view_append, view_cons, view_append]
    by_cases ho : o = c.owner
    · have hb : view ⟨before⟩ o = none :=
        view_eq_none fun hb => hbefore o hb o (by simp [ho]) rfl
      rw [if_pos ho, if_pos ho, hb]
      simp
    · rw [if_neg ho, if_neg ho]
      by_cases hc : o ∈ owners cs
      · simp [hnb hc, hna hc]
      · simp [view_nested_eq_none hc]

end Index
end SignatureLayers
