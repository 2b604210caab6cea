import SignatureLayers.Proofs.Coherence
import SignatureLayers.Proofs.Revision

namespace SignatureLayers

open Forest
open Merge (addTrailing absorbTrailing)

theorem prefix_addTrailing (own more : List String) : own <+: addTrailing own more := by
  induction more generalizing own with
  | nil => exact List.prefix_rfl
  | cons c more ih =>
    show own <+: addTrailing (if c ∈ own then own else own ++ [c]) more
    refine List.IsPrefix.trans ?_ (ih _)
    split
    · exact List.prefix_rfl
    · exact List.prefix_append _ _

theorem Decl.PutAs.brought {d d' : Decl} (h : d.PutAs d') (o q : Owner) (path : List String) :
    Site.Brought ⟨q, path, d⟩ ⟨o, path, d'⟩ := by
  obtain ⟨location, annotations, -, rfl⟩ := h
  cases d <;> exact ⟨rfl, rfl, rfl, rfl, rfl, rfl, rfl⟩

namespace Forest
variable {known fresh : Bool} {d : Decl} {cs xs ys layer : Forest} {out : Outcome}
  {o q : Owner} {path : List String}

theorem nodup_children (h : (ids (xs ++ d :: ys)).Nodup) : (ids d.children).Nodup := by
  rw [ids_append, ids_cons] at h
  exact (List.nodup_append.1 (List.nodup_cons.1 (List.nodup_append.1 h).2.1).2).1

theorem revision_absorbed {l : List Site} (more : List String) (hn : (ids (xs ++ d :: ys)).Nodup)
    (hnew : ∀ y ∈ l, y.decl.id ∉ ids (xs ++ d :: ys)) (location : Option Location)
    (hlocation : location = d.location ∨ Moved l path d) :
    Revision l o path (xs ++ d :: ys)
      (xs ++ absorbTrailing more (d.withLocation location) :: ys) := by
  have hinner := Revision.refl l (.container d.id) (path ++ [d.name]) (nodup_children hn)
  cases d with
  | container k h ds t =>
    exact .child hn hnew rfl rfl rfl hlocation (prefix_addTrailing t more) hinner
  | leaf | member => exact .child hn hnew rfl rfl rfl hlocation List.prefix_rfl hinner

/-- Settling a declaration changes what the declaration names. -/
theorem Settlement.revision (h : Settlement known d cs out) (hn : (ids cs).Nodup)
    (hd : d.id ∉ ids cs) : Revision [⟨q, path, d⟩] o path cs out.children := by
  have hnew : ∀ y ∈ [(⟨q, path, d⟩ : Site)], y.decl.id ∉ ids cs := by
    intro y hy
    rw [List.mem_singleton.1 hy]
    exact hd
  have hremoves (hr : d.Removes) :
      Revision [⟨q, path, d⟩] o path cs (cs.filter (·.key != d.key)) := by
    refine .filter hn fun x _ hx => ⟨_, List.mem_singleton_self _, hr, ?_⟩
    rw [Site.name, show x.key = d.key by simpa using hx]
  have htwice : [(⟨q, path, d⟩ : Site)] ++ [⟨q, path, d⟩] ⊆ [⟨q, path, d⟩] := by simp
  cases h with
  | kept => exact .refl _ _ _ hn
  | removed token hw => exact hremoves ⟨token, .delete, hw, .inr rfl⟩
  | replaced token xs x ys hw hcut =>
    -- Replacing is removing all of the key, and inserting where the first stood.
    have hremoved := hremoves ⟨token, .override, hw, .inl rfl⟩
    have hput := d.putAs_dropAnnot token x.location
    rw [filter_of_cut? hcut] at hremoved
    refine (hremoved.trans (.insert (List.mem_singleton_self _) (hput.brought o q path)
      hput.children hremoved.nodup fun hid => hd ?_) hnew).mono htwice
    rw [hput.id, ← filter_of_cut? hcut] at hid
    exact (ids_sublist List.filter_sublist).mem hid
  | absorbed xs x ys hknown hcut =>
    obtain ⟨rfl, -, -⟩ := cut?_eq_some hcut
    have hrevision : Revision [⟨q, path, d⟩] o path _ _ :=
      revision_absorbed d.trailing hn hnew x.location (.inl rfl)
    cases x <;> exact hrevision
  | moved token side anchor xs x ys us vs t hw hknown hcut hcd hx hrest =>
    obtain ⟨rfl, -, hkey⟩ := cut?_eq_some hcut
    have hm : Moved [⟨q, path, d⟩] path x :=
      ⟨hx, _, List.mem_singleton_self _, ⟨hcd, token, side, anchor, hw⟩, by rw [Site.name, hkey]⟩
    -- The container is moved first, and takes the comments in at its new place.
    have hmoved := Revision.move (o := o) hm hn hrest
    have hids : ∀ y ∈ [(⟨q, path, d⟩ : Site)], y.decl.id ∉ ids (us ++ x :: vs) := by
      intro y hy
      rw [mem_ids_middle, hrest, ← mem_ids_middle]
      exact hnew y hy
    exact (hmoved.trans (revision_absorbed d.trailing hmoved.nodup hids t.location (.inr hm))
      hnew).mono htwice
  | inserted xs d' ys hput hfirst =>
    obtain rfl := hput.split
    have hputAs := hput.putAs
    exact .insert (List.mem_singleton_self _) (hputAs.brought o q path) hputAs.children hn
      (hputAs.id ▸ hd)

theorem Settlement.key {x : Decl} (h : Settlement known d cs (.into xs x ys fresh)) :
    x.key = d.key := by
  cases h with
  | replaced token xs x ys => exact (d.putAs_dropAnnot token x.location).key
  | absorbed xs x ys hknown hcut =>
    exact ((x.alike_absorbTrailing _).key).trans (cut?_eq_some hcut).2.2
  | moved token side anchor xs x ys us vs t hw hknown hcut =>
    exact ((x.alike_withLocation t.location).trans (Decl.alike_absorbTrailing _ _)).key.trans
      (cut?_eq_some hcut).2.2
  | inserted xs d' ys hput => exact hput.putAs.key

theorem revision_completed {l : List Site} {ds : Forest} (hout : Settlement known d cs out)
    (hds : d.isContainer = false → ds = []) (hn : (ids out.children).Nodup)
    (hnew : ∀ y ∈ l, y.decl.id ∉ ids out.children)
    (ih : ∀ {known fresh : Bool} {o : Owner} {cs : Forest}, (ids cs).Nodup →
      (∀ y ∈ l, y.decl.id ∉ ids cs) →
      Revision l o (path ++ [d.name]) cs (merged known fresh cs ds)) :
    Revision l o path out.children (completed known ds out) := by
  cases out with
  | done cs' => exact .refl _ _ _ hn
  | into xs x ys fresh =>
    by_cases hd : d.isContainer = true
    · have hx := hout.isContainer hd
      have hname : x.name = d.name := congrArg Key.name hout.key
      have hinner : ∀ y ∈ l, y.decl.id ∉ ids x.children := fun y hy hid =>
        hnew y hy (mem_ids_middle.2 (.inr (.inl hid)))
      cases x with
      | leaf | member => cases hx
      | container k header cs' t =>
        refine .child hn hnew rfl rfl rfl (.inl rfl) List.prefix_rfl ?_
        rw [hname]
        exact ih (nodup_children hn) hinner
    · rw [hds (by simpa using hd), completed_nil]
      exact .refl _ _ _ hn

/-- Merging a layer into siblings revises them by what the layer holds. -/
theorem revision_merged (q o : Owner) (path : List String) (hn : (ids cs).Nodup)
    (hlayer : (ids layer).Nodup) (hnew : ∀ id ∈ ids layer, id ∉ ids cs) :
    Revision (sitesFrom q path layer) o path cs (merged known fresh cs layer) := by
  induction layer using Forest.induct generalizing q o path known fresh cs with
  | nil =>
    rw [merged_nil]
    exact .refl _ _ _ hn
  | cons d rest inner tail =>
    rw [merged_cons, sitesFrom_cons]
    have hout := settled_cases known fresh d cs
    rw [ids_cons, List.nodup_cons, List.nodup_append] at hlayer
    obtain ⟨hd, hnd, hnrest, hapart⟩ := hlayer
    simp only [ids_cons, List.mem_cons, List.mem_append] at hnew hd
    have hsettled : Revision [⟨q, path, d⟩] o path cs _ := hout.revision hn (hnew d.id (.inl rfl))
    have hbelow : ∀ y ∈ sitesFrom (.container d.id) (path ++ [d.name]) d.children,
        y.decl.id ∉ ids (settled known fresh d cs).children := by
      intro y hy hid
      rcases hout.mem_ids hid with hid | hid
      · exact hnew _ (.inr (.inl (id_mem_of_site hy))) hid
      · exact hd (.inl (hid ▸ id_mem_of_site hy))
    have hcompleted : Revision (sitesFrom (.container d.id) (path ++ [d.name]) d.children) o path
        (settled known fresh d cs).children
        (completed known d.children (settled known fresh d cs)) := by
      apply revision_completed hout Decl.children_eq_nil hsettled.nodup hbelow
      intro known fresh o cs hcs hdisjoint
      apply inner _ o _ hcs hnd
      intro id hid
      obtain ⟨y, hy, rfl⟩ := (mem_ids_iff (.container d.id) (path ++ [d.name])).1 hid
      exact hdisjoint y hy
    -- What follows finds neither what was there nor what the declaration has brought.
    have hrest : ∀ id ∈ ids rest, id ∉ ids (settled known fresh d cs).children ∧
        id ∉ ids (completed known d.children (settled known fresh d cs)) := by
      intro id hid
      have hout' : id ∉ ids (settled known fresh d cs).children := fun hmem =>
        (hout.mem_ids hmem).elim (hnew id (.inr (.inr hid))) fun he => hd (.inr (he ▸ hid))
      refine ⟨hout', fun hmem => ?_⟩
      rcases mem_ids_completed mem_ids_merged hmem with hmem | hmem
      · exact hout' hmem
      · exact hapart id hmem id hid rfl
    have htail : Revision (sitesFrom q path rest) o path _ (merged known fresh _ rest) :=
      tail q o path hcompleted.nodup hnrest fun id hid => (hrest id hid).2
    apply hsettled.trans (hcompleted.trans htail fun y hy => (hrest _ (id_mem_of_site hy)).1)
    intro y hy
    rcases List.mem_append.1 hy with hy | hy
    · exact hnew _ (.inr (.inl (id_mem_of_site hy)))
    · exact hnew _ (.inr (.inr (id_mem_of_site hy)))

end Forest

namespace Engine

/-- From every state that layers reach, a further layer loses, rewrites, moves and reorders what
it names and nothing else, and brings what it holds. -/
theorem mergeLayer_revises (layers : List Forest) (layer : Forest) :
    let e := afterLayers layers
    Revision (sites (layer.number e.next).1) .root [] e.tree (e.mergeLayer layer).2.tree := by
  have hcoherent := coherent_afterLayers layers
  obtain ⟨-, -, htree⟩ := hcoherent.mergeLayer layer
  intro e
  rw [htree]
  apply revision_merged .root .root [] hcoherent.nodup (nodup_ids_number _ _)
  intro id hid hmem
  exact absurd (hcoherent.fresh id hmem) (Nat.not_lt.2 (mem_ids_number.1 hid).1)

end Engine
end SignatureLayers
