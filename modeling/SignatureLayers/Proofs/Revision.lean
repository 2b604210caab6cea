import Mathlib.Data.List.Nodup
import SignatureLayers.Directive
import SignatureLayers.Proofs.Context

namespace SignatureLayers

/-- A declaration of a forest, with its owner and the path of its owner. -/
structure Site where
  owner : Owner
  path : List String
  decl : Decl

def Site.name (x : Site) : QualifiedName := ⟨x.path, x.decl.key⟩

/-- `q` is the name of `x` or of a container around it. -/
def QualifiedName.Encloses (q x : QualifiedName) : Prop :=
  q = x ∨ q.key.member = false ∧ q.path <+: x.scope

namespace Decl

def oldName : Decl → Option String
  | .member _ _ oldName => oldName
  | _ => none

/-- The directive that decides takes declarations out. -/
def Removes (d : Decl) : Prop :=
  ∃ token directive, Directive.winner? d.annotations = some (token, directive) ∧
    (directive = .override ∨ directive = .delete)

/-- A container whose directive places it beside another declaration. -/
def Moves (d : Decl) : Prop :=
  d.isContainer = true ∧
    ∃ token side anchor, Directive.winner? d.annotations = some (token, .placed side anchor)

end Decl

namespace Forest

def sitesFrom (o : Owner) (path : List String) : Forest → List Site
  | [] => []
  | .container k h cs t :: rest =>
    ⟨o, path, .container k h cs t⟩ ::
      (sitesFrom (.container h.id) (path ++ [h.name]) cs ++ sitesFrom o path rest)
  | d :: rest => ⟨o, path, d⟩ :: sitesFrom o path rest

/-- All declarations of a forest with their owners and the paths of these. -/
def sites (f : Forest) : List Site := sitesFrom .root [] f

variable {o : Owner} {path : List String} {xs ys f : Forest} {d : Decl} {x : Site}

@[simp] theorem sitesFrom_nil : sitesFrom o path [] = [] := by rw [sitesFrom]

theorem sitesFrom_cons (o : Owner) (path : List String) (d : Decl) (rest : Forest) :
    sitesFrom o path (d :: rest) = ⟨o, path, d⟩ ::
      (sitesFrom (.container d.id) (path ++ [d.name]) d.children ++ sitesFrom o path rest) := by
  cases d with
  | container => simp only [sitesFrom]; rfl
  | leaf | member => simp [sitesFrom, Decl.children]

theorem sitesFrom_append (o : Owner) (path : List String) (xs ys : Forest) :
    sitesFrom o path (xs ++ ys) = sitesFrom o path xs ++ sitesFrom o path ys := by
  induction xs with
  | nil => simp
  | cons d xs ih => simp [sitesFrom_cons, ih]

theorem mem_sitesFrom_middle : x ∈ sitesFrom o path (xs ++ d :: ys) ↔
    x = ⟨o, path, d⟩ ∨ x ∈ sitesFrom (.container d.id) (path ++ [d.name]) d.children ∨
      x ∈ sitesFrom o path (xs ++ ys) := by
  simp only [sitesFrom_append, sitesFrom_cons, List.mem_append, List.mem_cons]
  tauto

theorem map_id_sitesFrom (o : Owner) (path : List String) (f : Forest) :
    (sitesFrom o path f).map (·.decl.id) = ids f := by
  induction f using Forest.induct generalizing o path with
  | nil => simp
  | cons d rest inner tail => simp [sitesFrom_cons, ids_cons, inner, tail]

theorem mem_ids_iff (o : Owner) (path : List String) {id : Nat} :
    id ∈ ids f ↔ ∃ x ∈ sitesFrom o path f, x.decl.id = id := by
  rw [← map_id_sitesFrom o path, List.mem_map]

theorem id_mem_of_site (h : x ∈ sitesFrom o path f) : x.decl.id ∈ ids f :=
  (mem_ids_iff o path).2 ⟨x, h, rfl⟩

theorem eq_of_site {x' : Site} (hn : (ids f).Nodup) (h : x ∈ sitesFrom o path f)
    (h' : x' ∈ sitesFrom o path f) (hid : x'.decl.id = x.decl.id) : x' = x :=
  List.inj_on_of_nodup_map ((map_id_sitesFrom o path f).symm ▸ hn) h' h hid

theorem site_of_mem (o : Owner) (path : List String) (h : d ∈ f) :
    ⟨o, path, d⟩ ∈ sitesFrom o path f := by
  obtain ⟨xs, ys, rfl⟩ := List.append_of_mem h
  exact mem_sitesFrom_middle.2 (.inl rfl)

theorem id_mem_of_mem (h : d ∈ f) : d.id ∈ ids f := id_mem_of_site (site_of_mem .root [] h)

theorem site_of_mem_children (hx : x ∈ sitesFrom o path f) (hd : d ∈ x.decl.children) :
    ⟨.container x.decl.id, x.path ++ [x.decl.name], d⟩ ∈ sitesFrom o path f := by
  induction f using Forest.induct generalizing o path with
  | nil => simp at hx
  | cons e rest inner tail =>
    rw [sitesFrom_cons, List.mem_cons, List.mem_append] at hx ⊢
    rcases hx with rfl | hx | hx
    · exact .inr (.inl (site_of_mem _ _ hd))
    · exact .inr (.inl (inner hx))
    · exact .inr (.inr (tail hx))

theorem path_of_site (h : x ∈ sitesFrom o path f) : path <+: x.path := by
  induction f using Forest.induct generalizing o path with
  | nil => simp at h
  | cons e rest inner tail =>
    rw [sitesFrom_cons, List.mem_cons, List.mem_append] at h
    rcases h with rfl | h | h
    · exact List.prefix_rfl
    · exact (List.prefix_append _ _).trans (inner h)
    · exact tail h

theorem exists_sibling (h : x ∈ sitesFrom o path f) : ∃ d ∈ f, x ∈ sitesFrom o path [d] := by
  induction f with
  | nil => simp at h
  | cons d rest ih =>
    rw [← List.singleton_append, sitesFrom_append, List.mem_append] at h
    rcases h with h | h
    · exact ⟨d, List.mem_cons_self, h⟩
    · obtain ⟨e, he, hx⟩ := ih h
      exact ⟨e, List.mem_cons_of_mem _ he, hx⟩

theorem mem_of_site (h : ⟨o, path, d⟩ ∈ sitesFrom o path f) : d ∈ f := by
  obtain ⟨e, he, hsite⟩ := exists_sibling h
  rw [sitesFrom_cons, sitesFrom_nil, List.append_nil, List.mem_cons] at hsite
  rcases hsite with heq | hbelow
  · cases heq
    exact he
  · have hlength : (path ++ [e.name]).length ≤ path.length := (path_of_site hbelow).length_le
    rw [List.length_append, List.length_singleton] at hlength
    omega

theorem sitesFrom_sublist (o : Owner) (path : List String) (h : xs.Sublist ys) :
    (sitesFrom o path xs).Sublist (sitesFrom o path ys) := by
  induction h with
  | slnil => exact .refl _
  | cons d _ ih =>
    rw [sitesFrom_cons]
    exact (ih.trans (List.sublist_append_right _ _)).cons _
  | cons_cons d _ ih =>
    rw [sitesFrom_cons, sitesFrom_cons]
    exact (ih.append_left _).cons_cons _

theorem encloses_of_site (h : x ∈ sitesFrom o path [d]) :
    QualifiedName.Encloses ⟨path, d.key⟩ x.name := by
  rw [sitesFrom_cons, sitesFrom_nil, List.append_nil, List.mem_cons] at h
  rcases h with rfl | h
  · exact .inl rfl
  · cases d with
    | container => exact .inr ⟨rfl, path_of_site h⟩
    | leaf | member => simp [Decl.children] at h

end Forest

section Named
variable (layer : List Site)

/-- The layer takes out what has this name, or a container around it. -/
def Removed (q : QualifiedName) : Prop :=
  ∃ y ∈ layer, y.decl.Removes ∧ y.name.Encloses q

def Moved (path : List String) (d : Decl) : Prop :=
  d.isContainer = true ∧ ∃ y ∈ layer, y.decl.Moves ∧ y.name = ⟨path, d.key⟩

/-- Two of the siblings `cs` that are alive and have not been moved are in order in `cs'`. -/
def Ordered (path : List String) (alive : List Nat) (cs cs' : Forest) : Prop :=
  ∀ a b : Decl, [a, b].Sublist cs → a.id ∈ alive → b.id ∈ alive → ¬Moved layer path a →
    ¬Moved layer path b → [a.id, b.id].Sublist (cs'.map Decl.id)

/-- A declaration and what has become of it. -/
structure Site.Kept (alive : List Nat) (x x' : Site) : Prop where
  owner : x'.owner = x.owner
  path : x'.path = x.path
  kind : x'.decl.kind = x.decl.kind
  header : x'.decl.header = { x.decl.header with location := x'.decl.location }
  oldName : x'.decl.oldName = x.decl.oldName
  location : x'.decl.location = x.decl.location ∨ Moved layer x.path x.decl
  trailing : x.decl.trailing <+: x'.decl.trailing
  order : Ordered layer (x.path ++ [x.decl.name]) alive x.decl.children x'.decl.children

end Named

/-- A declaration of a layer and what stands for it in a tree. -/
structure Site.Brought (y x : Site) : Prop where
  id : x.decl.id = y.decl.id
  path : x.path = y.path
  kind : x.decl.kind = y.decl.kind
  name : x.decl.name = y.decl.name
  text : x.decl.header.text = y.decl.header.text
  comments : x.decl.header.comments = y.decl.header.comments
  oldName : x.decl.oldName = y.decl.oldName

/-- The children of an owner before and after, as far as the layer may change them. -/
structure Forest.Revision (layer : List Site) (o : Owner) (path : List String)
    (old new : Forest) : Prop where
  nodup : new.ids.Nodup
  lost : ∀ x ∈ sitesFrom o path old, x.decl.id ∉ new.ids → Removed layer x.name
  kept : ∀ x ∈ sitesFrom o path old, ∀ x' ∈ sitesFrom o path new,
    x'.decl.id = x.decl.id → x.Kept layer new.ids x'
  order : Ordered layer path new.ids old new
  origin : ∀ x ∈ sitesFrom o path new, x.decl.id ∈ old.ids ∨ ∃ y ∈ layer, y.Brought x

variable {layer layer' : List Site} {alive : List Nat} {o : Owner} {path : List String}
  {cs cs' cs'' xs ys : Forest} {d : Decl} {x x' : Site}

theorem Removed.mono {q : QualifiedName} (h : Removed layer q) (hl : layer ⊆ layer') :
    Removed layer' q := by
  obtain ⟨y, hy, hq⟩ := h
  exact ⟨y, hl hy, hq⟩

theorem Moved.mono (h : Moved layer path d) (hl : layer ⊆ layer') : Moved layer' path d := by
  obtain ⟨hd, y, hy, hq⟩ := h
  exact ⟨hd, y, hl hy, hq⟩

namespace Ordered

theorem of_map_eq (h : cs'.map Decl.id = cs.map Decl.id) : Ordered layer path alive cs cs' := by
  intro a b hab _ _ _ _
  rw [h]
  exact hab.map Decl.id

theorem mono (h : Ordered layer path alive cs cs') (hl : layer ⊆ layer') :
    Ordered layer' path alive cs cs' :=
  fun a b hab ha hb hma hmb =>
    h a b hab ha hb (fun hm => hma (hm.mono hl)) fun hm => hmb (hm.mono hl)

theorem alive_of {alive' : List Nat} (h : Ordered layer path alive cs cs')
    (hal : ∀ a ∈ cs, a.id ∈ alive' → a.id ∈ alive) : Ordered layer path alive' cs cs' :=
  fun a b hab ha hb hma hmb =>
    h a b hab (hal a (hab.mem (by simp)) ha) (hal b (hab.mem (by simp)) hb) hma hmb

end Ordered

namespace Site

theorem Kept.refl (x : Site) : x.Kept layer alive x where
  owner := rfl
  path := rfl
  kind := rfl
  header := rfl
  oldName := rfl
  location := .inl rfl
  trailing := List.prefix_rfl
  order := .of_map_eq rfl

theorem Kept.mono (h : x.Kept layer alive x') (hl : layer ⊆ layer') : x.Kept layer' alive x' :=
  { h with
    location := h.location.imp_right (·.mono hl)
    order := h.order.mono hl }

theorem Kept.id (h : x.Kept layer alive x') : x'.decl.id = x.decl.id := by
  rw [Decl.id, h.header]
  rfl

theorem Kept.declName (h : x.Kept layer alive x') : x'.decl.name = x.decl.name := by
  rw [Decl.name, h.header]
  rfl

theorem Kept.key (h : x.Kept layer alive x') : x'.decl.key = x.decl.key := by
  rw [Decl.key, Decl.key, h.declName, Decl.isMember, Decl.isMember, h.kind]

theorem Kept.name (h : x.Kept layer alive x') : x'.name = x.name := by
  rw [Site.name, Site.name, h.path, h.key]

theorem Kept.isContainer (h : x.Kept layer alive x') : x'.decl.isContainer = x.decl.isContainer := by
  have hkind := h.kind
  cases hx : x.decl <;> cases hx' : x'.decl <;> simp_all [Decl.kind, Decl.isContainer]

theorem Kept.moved (h : x.Kept layer' alive x') (hm : Moved layer x'.path x'.decl) :
    Moved layer x.path x.decl := by
  rw [Moved, h.isContainer, h.path, h.key] at hm
  exact hm

theorem Brought.kept {y : Site} (h : y.Brought x) (hk : x.Kept layer alive x') : y.Brought x' where
  id := hk.id.trans h.id
  path := hk.path.trans h.path
  kind := hk.kind.trans h.kind
  name := hk.declName.trans h.name
  text := (congrArg Header.text hk.header).trans h.text
  comments := (congrArg Header.comments hk.header).trans h.comments
  oldName := hk.oldName.trans h.oldName

end Site

namespace Forest.Revision

theorem refl (layer : List Site) (o : Owner) (path : List String) (h : cs.ids.Nodup) :
    Revision layer o path cs cs where
  nodup := h
  lost _ hx hid := absurd (id_mem_of_site hx) hid
  kept _ hx _ hx' hid := eq_of_site h hx hx' hid ▸ .refl _
  order := .of_map_eq rfl
  origin _ hx := .inl (id_mem_of_site hx)

theorem mono (h : Revision layer o path cs cs') (hl : layer ⊆ layer') :
    Revision layer' o path cs cs' where
  nodup := h.nodup
  lost x hx hid := (h.lost x hx hid).mono hl
  kept x hx x' hx' hid := (h.kept x hx x' hx' hid).mono hl
  order := h.order.mono hl
  origin x hx := (h.origin x hx).imp_right fun ⟨y, hy, hb⟩ => ⟨y, hl hy, hb⟩

theorem survives (h' : Revision layer' o path cs' cs'') (hnew : ∀ y ∈ layer', y.decl.id ∉ cs.ids)
    {id : Nat} (hid : id ∈ cs.ids) (hid'' : id ∈ cs''.ids) : id ∈ cs'.ids := by
  obtain ⟨x, hx, rfl⟩ := (mem_ids_iff o path).1 hid''
  rcases h'.origin x hx with hmem | ⟨y, hy, hb⟩
  · exact hmem
  · exact absurd (hb.id ▸ hid) (hnew y hy)

theorem ordered_trans {ds ds' ds'' : Forest} {p : List String} {q : Owner}
    (h : Revision layer o path cs cs') (h' : Revision layer' o path cs' cs'')
    (hnew : ∀ y ∈ layer', y.decl.id ∉ cs.ids)
    (hs : ∀ a ∈ ds, ⟨q, p, a⟩ ∈ sitesFrom o path cs)
    (hs' : ∀ a ∈ ds', ⟨q, p, a⟩ ∈ sitesFrom o path cs')
    (hord : Ordered layer p cs'.ids ds ds') (hord' : Ordered layer' p cs''.ids ds' ds'') :
    Ordered (layer ++ layer') p cs''.ids ds ds'' := by
  intro a b hab ha hb hma hmb
  have hmem (e : Decl) (he : e ∈ [a, b]) : e.id ∈ cs.ids :=
    id_mem_of_site (hs e (hab.mem he))
  have hleft := List.subset_append_left layer layer'
  have hright := List.subset_append_right layer layer'
  have hab' := hord a b hab (h'.survives hnew (hmem a (by simp)) ha)
    (h'.survives hnew (hmem b (by simp)) hb) (fun hm => hma (hm.mono hleft))
    fun hm => hmb (hm.mono hleft)
  obtain ⟨l, hl, hids⟩ := List.sublist_map_iff.1 hab'
  have hlength : l.length = 2 := by simpa using (congrArg List.length hids).symm
  obtain ⟨a', b', rfl⟩ := List.length_eq_two.1 hlength
  simp only [List.map_cons, List.map_nil, List.cons.injEq, and_true] at hids
  -- A sibling in between is moved only if the one it was before is.
  have hunmoved (e e' : Decl) (he : e ∈ ds) (he' : e' ∈ ds') (hid : e'.id = e.id)
      (hm : ¬Moved (layer ++ layer') p e) : ¬Moved layer' p e' := fun hm' =>
    hm (((h.kept _ (hs e he) _ (hs' e' he') hid).moved hm').mono hright)
  rw [hids.1, hids.2]
  refine hord' a' b' hl (hids.1 ▸ ha) (hids.2 ▸ hb) ?_ ?_
  · exact hunmoved a a' (hab.mem (by simp)) (hl.mem (by simp)) hids.1.symm hma
  · exact hunmoved b b' (hab.mem (by simp)) (hl.mem (by simp)) hids.2.symm hmb

theorem trans (h : Revision layer o path cs cs') (h' : Revision layer' o path cs' cs'')
    (hnew : ∀ y ∈ layer', y.decl.id ∉ cs.ids) :
    Revision (layer ++ layer') o path cs cs'' := by
  have hleft := List.subset_append_left layer layer'
  have hright := List.subset_append_right layer layer'
  refine ⟨h'.nodup, fun x hx hid => ?_, fun x hx x'' hx'' hid => ?_, ?_, fun x'' hx'' => ?_⟩
  · by_cases hmid : x.decl.id ∈ cs'.ids
    · obtain ⟨x', hx', hid'⟩ := (mem_ids_iff o path).1 hmid
      have hkept := h.kept x hx x' hx' hid'
      exact hkept.name ▸ (h'.lost x' hx' (hid' ▸ hid)).mono hright
    · exact (h.lost x hx hmid).mono hleft
  · have hmid := h'.survives hnew (id_mem_of_site hx) (hid ▸ id_mem_of_site hx'')
    obtain ⟨x', hx', hid'⟩ := (mem_ids_iff o path).1 hmid
    have hk := h.kept x hx x' hx' hid'
    have hk' := h'.kept x' hx' x'' hx'' (hid.trans hid'.symm)
    exact {
      owner := hk'.owner.trans hk.owner
      path := hk'.path.trans hk.path
      kind := hk'.kind.trans hk.kind
      header := by rw [hk'.header, hk.header]
      oldName := hk'.oldName.trans hk.oldName
      location := by
        rcases hk'.location with hloc' | hm
        · rw [hloc']
          exact hk.location.imp_right (·.mono hleft)
        · exact .inr ((hk.moved hm).mono hright)
      trailing := hk.trailing.trans hk'.trailing
      order := by
        have hpath : x'.path ++ [x'.decl.name] = x.path ++ [x.decl.name] := by
          rw [hk.path, hk.declName]
        refine h.ordered_trans (q := .container x.decl.id) h' hnew
          (fun a ha => site_of_mem_children hx ha) (fun a ha => ?_) hk.order (hpath ▸ hk'.order)
        have hsite := site_of_mem_children hx' ha
        rwa [hpath, hk.id] at hsite }
  · exact h.ordered_trans h' hnew (fun a ha => site_of_mem o path ha)
      (fun a ha => site_of_mem o path ha) h.order h'.order
  · rcases h'.origin x'' hx'' with hmid | ⟨y, hy, hb⟩
    · obtain ⟨x', hx', hid'⟩ := (mem_ids_iff o path).1 hmid
      have hk := h'.kept x' hx' x'' hx'' hid'.symm
      rcases h.origin x' hx' with hold | ⟨y, hy, hb⟩
      · exact .inl (hid' ▸ hold)
      · exact .inr ⟨y, hleft hy, hb.kept hk⟩
    · exact .inr ⟨y, hright hy, hb⟩

/-- Siblings may be taken out under names that the layer removes. -/
theorem filter {p : Decl → Bool} (hn : cs.ids.Nodup)
    (hp : ∀ d ∈ cs, p d = false → ∃ y ∈ layer, y.decl.Removes ∧ y.name = ⟨path, d.key⟩) :
    Revision layer o path cs (cs.filter p) := by
  have hsub : (cs.filter p).Sublist cs := List.filter_sublist
  have hsites := sitesFrom_sublist o path hsub
  refine ⟨hn.sublist (ids_sublist hsub), fun x hx hid => ?_, fun x hx x' hx' hid => ?_, ?_,
    fun x hx => .inl ((ids_sublist hsub).mem (id_mem_of_site hx))⟩
  · obtain ⟨d, hd, hxd⟩ := exists_sibling hx
    by_cases hpd : p d = true
    · have hkept := List.singleton_sublist.2 (List.mem_filter.2 ⟨hd, hpd⟩)
      exact absurd (id_mem_of_site ((sitesFrom_sublist o path hkept).mem hxd)) hid
    · obtain ⟨y, hy, hyr, hname⟩ := hp d hd (by simpa using hpd)
      exact ⟨y, hy, hyr, hname ▸ encloses_of_site hxd⟩
  · exact eq_of_site hn hx (hsites.mem hx') hid ▸ .refl _
  · intro a b hab ha hb _ _
    -- Identities are not shared, so a sibling that is still there has passed the filter.
    have hkept (e : Decl) (he : e ∈ cs) (hid : e.id ∈ ids (cs.filter p)) : p e = true := by
      obtain ⟨x, hx, hxe⟩ := (mem_ids_iff o path).1 hid
      have hsite := eq_of_site hn (site_of_mem o path he) (hsites.mem hx) hxe
      exact (List.mem_filter.1 (mem_of_site (hsite ▸ hx))).2
    have hfilter : [a, b].filter p = [a, b] := by
      simp [hkept a (hab.mem (by simp)) ha, hkept b (hab.mem (by simp)) hb]
    exact (hfilter ▸ hab.filter p).map Decl.id

theorem insert {y : Site} (hy : y ∈ layer) (hb : y.Brought ⟨o, path, d⟩)
    (hd : d.children = []) (hn : (ids (xs ++ ys)).Nodup) (hnew : d.id ∉ ids (xs ++ ys)) :
    Revision layer o path (xs ++ ys) (xs ++ d :: ys) := by
  have hsub : (xs ++ ys).Sublist (xs ++ d :: ys) := (List.sublist_cons_self d ys).append_left xs
  have hsites {x : Site} : x ∈ sitesFrom o path (xs ++ d :: ys) ↔
      x = ⟨o, path, d⟩ ∨ x ∈ sitesFrom o path (xs ++ ys) := by
    simp [mem_sitesFrom_middle, hd]
  refine ⟨?_, fun x hx hid => ?_, fun x hx x' hx' hid => ?_, fun a b hab _ _ _ _ => ?_,
    fun x hx => ?_⟩
  · have hids : (ids (xs ++ d :: ys)).Perm (d.id :: ids (xs ++ ys)) := by
      rw [ids_append, ids_append, ids_cons, hd, ids_nil, List.nil_append]
      exact List.perm_middle
    exact hids.nodup_iff.2 (List.nodup_cons.2 ⟨hnew, hn⟩)
  · exact absurd ((ids_sublist hsub).mem (id_mem_of_site hx)) hid
  · rcases hsites.1 hx' with rfl | hx'
    · exact absurd (hid ▸ id_mem_of_site hx) hnew
    · exact eq_of_site hn hx hx' hid ▸ .refl _
  · exact (hab.trans hsub).map Decl.id
  · rcases hsites.1 hx with rfl | hx
    · exact .inr ⟨y, hy, hb⟩
    · exact .inl (id_mem_of_site hx)

theorem sublist_without {α : Type} {l us vs : List α} {a : α} (h : l.Sublist (us ++ a :: vs))
    (ha : a ∉ l) : l.Sublist (us ++ vs) := by
  obtain ⟨l₁, l₂, rfl, h₁, h₂⟩ := List.sublist_append_iff.1 h
  rcases List.sublist_cons_iff.1 h₂ with h₂ | ⟨r, rfl, -⟩
  · exact h₁.append h₂
  · simp at ha

/-- A sibling that the layer moves may come to stand anywhere. -/
theorem move {us vs : Forest} (hm : Moved layer path d) (hn : (ids (xs ++ d :: ys)).Nodup)
    (hrest : us ++ vs = xs ++ ys) :
    Revision layer o path (xs ++ d :: ys) (us ++ d :: vs) := by
  have hsites {x : Site} :
      x ∈ sitesFrom o path (us ++ d :: vs) ↔ x ∈ sitesFrom o path (xs ++ d :: ys) := by
    rw [mem_sitesFrom_middle, mem_sitesFrom_middle, hrest]
  have hids : (ids (us ++ d :: vs)).Perm (ids (xs ++ d :: ys)) :=
    (ids_middle us vs d).trans (hrest ▸ (ids_middle xs ys d).symm)
  refine ⟨hids.nodup_iff.2 hn, fun x hx hid => ?_, fun x hx x' hx' hid => ?_,
    fun a b hab _ _ hma hmb => ?_, fun x hx => .inl (id_mem_of_site (hsites.1 hx))⟩
  · exact absurd (id_mem_of_site (hsites.2 hx)) hid
  · exact eq_of_site hn hx (hsites.1 hx') hid ▸ .refl _
  -- Only siblings that are not moved are to keep their order, so `d` is neither of the two.
  · have hother : d ∉ [a, b] := by
      intro hmem
      rcases List.mem_pair.1 hmem with rfl | rfl
      · exact hma hm
      · exact hmb hm
    have hab' := sublist_without hab hother
    rw [← hrest] at hab'
    exact (hab'.trans ((List.sublist_cons_self d vs).append_left us)).map Decl.id

section Child
variable {d' : Decl}

/-- What is below the sibling now was below it before, or is new in the tree. -/
theorem below_child {id : Nat} (hn : (ids (xs ++ d :: ys)).Nodup)
    (hnew : ∀ y ∈ layer, y.decl.id ∉ ids (xs ++ d :: ys))
    (inner : Revision layer (.container d.id) (path ++ [d.name]) d.children d'.children)
    (h : id ∈ ids d'.children) : id ≠ d.id ∧ id ∉ ids (xs ++ ys) := by
  obtain ⟨hchildren, -, -, -, hapart⟩ := nodup_ids_middle.1 hn
  obtain ⟨x, hx, rfl⟩ := (mem_ids_iff (.container d.id) (path ++ [d.name])).1 h
  rcases inner.origin x hx with hold | ⟨y, hy, hb⟩
  · exact ⟨fun he => hchildren (he ▸ hold), hapart hold⟩
  · have hfresh := hnew y hy
    rw [← hb.id, mem_ids_middle] at hfresh
    tauto

theorem nodup_child (hn : (ids (xs ++ d :: ys)).Nodup)
    (hnew : ∀ y ∈ layer, y.decl.id ∉ ids (xs ++ d :: ys)) (hid : d'.id = d.id)
    (inner : Revision layer (.container d.id) (path ++ [d.name]) d.children d'.children) :
    (ids (xs ++ d' :: ys)).Nodup := by
  obtain ⟨-, hrest, -, hothers, -⟩ := nodup_ids_middle.1 hn
  exact nodup_ids_middle.2 ⟨fun h => (below_child hn hnew inner h).1 hid,
    hid ▸ hrest, inner.nodup, hothers, fun _ h => (below_child hn hnew inner h).2⟩

theorem alive_child {id : Nat} (hn : (ids (xs ++ d :: ys)).Nodup) (hid : d'.id = d.id)
    (hold : id ∈ ids d.children) (h : id ∈ ids (xs ++ d' :: ys)) : id ∈ ids d'.children := by
  obtain ⟨hchildren, -, -, -, hapart⟩ := nodup_ids_middle.1 hn
  rcases mem_ids_middle.1 h with rfl | h | h
  · exact absurd (hid ▸ hold) hchildren
  · exact h
  · exact absurd h (hapart hold)

theorem kept_child (hn : (ids (xs ++ d :: ys)).Nodup)
    (hnew : ∀ y ∈ layer, y.decl.id ∉ ids (xs ++ d :: ys)) (hid : d'.id = d.id)
    (hname : d'.name = d.name)
    (hself : Site.Kept layer (ids (xs ++ d' :: ys)) ⟨o, path, d⟩ ⟨o, path, d'⟩)
    (inner : Revision layer (.container d.id) (path ++ [d.name]) d.children d'.children)
    (hx : x ∈ sitesFrom o path (xs ++ d :: ys)) (hx' : x' ∈ sitesFrom o path (xs ++ d' :: ys))
    (hsame : x'.decl.id = x.decl.id) : x.Kept layer (ids (xs ++ d' :: ys)) x' := by
  have hthere : ⟨o, path, d⟩ ∈ sitesFrom o path (xs ++ d :: ys) := site_of_mem o path (by simp)
  rw [mem_sitesFrom_middle, hid, hname] at hx'
  rcases hx' with rfl | hx' | hx'
  · obtain rfl := eq_of_site hn hthere hx (hsame.symm.trans hid)
    exact hself
  · obtain ⟨hne, hapart⟩ := below_child hn hnew inner (id_mem_of_site hx')
    rcases mem_sitesFrom_middle.1 hx with rfl | hx | hx
    · exact absurd hsame hne
    · have hkept := inner.kept x hx x' hx' hsame
      exact { hkept with
        order := hkept.order.alive_of fun a ha =>
          alive_child hn hid (id_mem_of_site (site_of_mem_children hx ha)) }
    · exact absurd (hsame ▸ id_mem_of_site hx) hapart
  · have hstays : x' ∈ sitesFrom o path (xs ++ d :: ys) :=
      mem_sitesFrom_middle.2 (.inr (.inr hx'))
    exact eq_of_site hn hx hstays hsame ▸ .refl _

/-- A sibling may be changed where the layer allows it, and its children may be revised. -/
theorem child (hn : (ids (xs ++ d :: ys)).Nodup)
    (hnew : ∀ y ∈ layer, y.decl.id ∉ ids (xs ++ d :: ys)) (hkind : d'.kind = d.kind)
    (hheader : d'.header = { d.header with location := d'.location })
    (holdName : d'.oldName = d.oldName)
    (hlocation : d'.location = d.location ∨ Moved layer path d)
    (htrailing : d.trailing <+: d'.trailing)
    (inner : Revision layer (.container d.id) (path ++ [d.name]) d.children d'.children) :
    Revision layer o path (xs ++ d :: ys) (xs ++ d' :: ys) := by
  have hid : d'.id = d.id := by rw [Decl.id, hheader]; rfl
  have hname : d'.name = d.name := by rw [Decl.name, hheader]; rfl
  have hself : Site.Kept layer (ids (xs ++ d' :: ys)) ⟨o, path, d⟩ ⟨o, path, d'⟩ :=
    ⟨rfl, rfl, hkind, hheader, holdName, hlocation, htrailing,
      inner.order.alive_of fun a ha => alive_child hn hid (id_mem_of_mem ha)⟩
  refine ⟨nodup_child hn hnew hid inner, fun x hx hgone => ?_,
    fun x hx x' hx' hsame => kept_child hn hnew hid hname hself inner hx hx' hsame,
    .of_map_eq (by simp [hid]), fun x hx => ?_⟩
  · rw [mem_ids_middle, hid, not_or, not_or] at hgone
    obtain ⟨hne, hbelow, hothers⟩ := hgone
    rcases mem_sitesFrom_middle.1 hx with rfl | hx | hx
    · exact absurd rfl hne
    · exact inner.lost x hx hbelow
    · exact absurd (id_mem_of_site hx) hothers
  · rw [mem_sitesFrom_middle, hid, hname] at hx
    rcases hx with rfl | hx | hx
    · exact .inl (mem_ids_middle.2 (.inl hid))
    · exact (inner.origin x hx).imp_left fun h => mem_ids_middle.2 (.inr (.inl h))
    · exact .inl (mem_ids_middle.2 (.inr (.inr (id_mem_of_site hx))))

end Child

end Forest.Revision
end SignatureLayers
