import Mathlib.Data.List.Perm.Basic
import SignatureLayers.Proofs.Depth

namespace SignatureLayers

open Forest
open Merge (absorbTrailing)

namespace Forest
variable {key key' : Key} {f f' : Decl → Option Decl} {keep keep' : Bool} {cs xs ys layer : Forest}
  {d x : Decl}

/-- The siblings with the first of a key changed or taken out; the later ones of the key stay only
if they are kept. -/
def editKey (key : Key) (f : Decl → Option Decl) (keep : Bool) : Forest → Forest
  | [] => []
  | d :: rest =>
    if d.key = key then (f d).toList ++ if keep then rest else rest.filter (·.key != key)
    else d :: editKey key f keep rest

def Keyed (key : Key) (f : Decl → Option Decl) : Prop :=
  ∀ x, x.key = key → ∀ y ∈ (f x).toList, y.key = key

theorem editKey_of_cut? (f : Decl → Option Decl) (keep : Bool)
    (h : cut? key cs = some (xs, x, ys)) :
    editKey key f keep cs =
      xs ++ ((f x).toList ++ if keep then ys else ys.filter (·.key != key)) := by
  obtain ⟨rfl, hxs, rfl⟩ := cut?_eq_some h
  clear h
  induction xs with
  | nil => simp [editKey]
  | cons d xs ih =>
    rw [homonyms_cons] at hxs
    split at hxs
    · cases hxs
    · next hd => rw [List.cons_append, editKey, if_neg hd, ih hxs, List.cons_append]

theorem editKey_of_none (f : Decl → Option Decl) (keep : Bool) (h : cut? key cs = none) :
    editKey key f keep cs = cs := by
  rw [cut?_eq_none] at h
  induction cs with
  | nil => rfl
  | cons d rest ih =>
    rw [homonyms_cons] at h
    split at h
    · cases h
    · next hd => rw [editKey, if_neg hd, ih h]

theorem editKey_append_of_ne (h : ∀ u ∈ xs, u.key ≠ key) :
    editKey key f keep (xs ++ ys) = xs ++ editKey key f keep ys := by
  induction xs with
  | nil => rfl
  | cons u us ih =>
    obtain ⟨hu, hus⟩ := List.forall_mem_cons.1 h
    rw [List.cons_append, editKey, if_neg hu, ih hus, List.cons_append]

theorem editKey_filter_ne (hne : key ≠ key') (hf : Keyed key f) :
    editKey key f keep (cs.filter (·.key != key')) =
      (editKey key f keep cs).filter (·.key != key') := by
  induction cs with
  | nil => rfl
  | cons d rest ih =>
    by_cases hd : d.key = key
    · have hstays : (d :: rest).filter (·.key != key') = d :: rest.filter (·.key != key') :=
        List.filter_cons_of_pos (bne_iff_ne.2 (hd ▸ hne))
      have hfd : (f d).toList.filter (·.key != key') = (f d).toList :=
        List.filter_eq_self.2 fun y hy => bne_iff_ne.2 (hf d hd y hy ▸ hne)
      rw [hstays, editKey, editKey, if_pos hd, if_pos hd, List.filter_append, hfd]
      cases keep with
      | true => rfl
      | false => exact congrArg _ (List.filter_comm ..)
    · rw [editKey, if_neg hd, List.filter_cons, List.filter_cons]
      split
      · rw [editKey, if_neg hd, ih]
      · exact ih

theorem editKey_comm_here (hne : key ≠ key') (hf : Keyed key f) (hf' : Keyed key' f')
    (hd : d.key = key) (rest : Forest) :
    editKey key f keep (editKey key' f' keep' (d :: rest)) =
      editKey key' f' keep' (editKey key f keep (d :: rest)) := by
  have hpass : editKey key' f' keep' (d :: rest) = d :: editKey key' f' keep' rest := by
    rw [editKey, if_neg (hd ▸ hne)]
  rw [hpass, editKey, editKey, if_pos hd, if_pos hd,
    editKey_append_of_ne fun y hy => hf d hd y hy ▸ hne]
  cases keep with
  | true => rfl
  | false => exact congrArg _ (editKey_filter_ne hne.symm hf').symm

/-- Edits under different keys commute. -/
theorem editKey_comm (hne : key ≠ key') (hf : Keyed key f) (hf' : Keyed key' f') (cs : Forest) :
    editKey key f keep (editKey key' f' keep' cs) =
      editKey key' f' keep' (editKey key f keep cs) := by
  induction cs with
  | nil => rfl
  | cons d rest ih =>
    by_cases hd : d.key = key
    · exact editKey_comm_here hne hf hf' hd rest
    · by_cases hd' : d.key = key'
      · exact (editKey_comm_here hne.symm hf' hf hd' rest).symm
      · simp only [editKey, if_neg hd, if_neg hd', ih]

theorem homonyms_editKey (hne : key' ≠ key) (hf : Keyed key f) (keep : Bool) (cs : Forest) :
    homonyms key' (editKey key f keep cs) = homonyms key' cs := by
  induction cs with
  | nil => rfl
  | cons d rest ih =>
    by_cases hd : d.key = key
    · have hfd : homonyms key' (f d).toList = [] :=
        homonyms_eq_nil.2 fun y hy => hf d hd y hy ▸ hne.symm
      have hpass : homonyms key' (d :: rest) = homonyms key' rest :=
        (homonyms_cons ..).trans (if_neg (hd ▸ hne.symm))
      rw [editKey, if_pos hd, homonyms_append, hfd, hpass, List.nil_append]
      cases keep with
      | true => rfl
      | false => exact (homonyms_filter_ne key' key rest).trans (if_neg hne)
    · rw [editKey, if_neg hd, homonyms_cons, homonyms_cons, ih]

def revision? (d x : Decl) : Option Decl :=
  match Directive.winner? d.annotations with
  | some (_, .delete) => none
  | some (token, .override) =>
    some (((d.dropAnnot token).withLocation x.location).hollow.mapChildren
      fun _ => merged true true [] d.children)
  | _ => some ((absorbTrailing d.trailing x).mapChildren
      fun _ => merged true false x.children d.children)

def revised (cs : Forest) (d : Decl) : Forest :=
  editKey d.key (revision? d) (Directive.winner? d.annotations).isNone cs

/-- A declaration whose merge concerns its own key alone: an override or a deletion, or a container
that no directive speaks of and that meets another one. -/
def Confined (cs : Forest) (d : Decl) : Prop :=
  match Directive.winner? d.annotations with
  | some (_, .override) | some (_, .delete) => True
  | some (_, .placed _ _) => False
  | none => d.isContainer = true ∧ ∃ x ∈ (homonyms d.key cs).head?, x.isContainer = true

theorem key_mapChildren (g : Forest → Forest) (x : Decl) : (x.mapChildren g).key = x.key := by
  simp [Decl.key, Decl.name, Decl.isMember]

theorem keyed_revision? (d : Decl) : Keyed d.key (revision? d) := by
  intro x hx y hy
  unfold revision? at hy
  split at hy
  · cases hy
  · next token hw =>
    rw [Option.toList_some, List.mem_singleton] at hy
    rw [hy, key_mapChildren, (d.putAs_dropAnnot token x.location).key]
  · rw [Option.toList_some, List.mem_singleton] at hy
    rw [hy, key_mapChildren, (x.alike_absorbTrailing _).key, hx]

theorem homonyms_revised (hne : key ≠ d.key) (cs : Forest) :
    homonyms key (revised cs d) = homonyms key cs :=
  homonyms_editKey hne (keyed_revision? d) _ cs

theorem Confined.later {e : Decl} (h : Confined cs e) (hne : e.key ≠ d.key) :
    Confined (revised cs d) e := by
  unfold Confined at h ⊢
  split at h <;> try trivial
  rwa [homonyms_revised hne]

theorem revised_comm {e : Decl} (hne : d.key ≠ e.key) (cs : Forest) :
    revised (revised cs d) e = revised (revised cs e) d :=
  editKey_comm hne.symm (keyed_revision? e) (keyed_revision? d) cs

theorem completed_confined (h : Confined cs d) :
    completed true d.children (settled true false d cs) = revised cs d := by
  unfold Confined at h
  unfold revised
  split at h
  · next token hw =>
    rw [hw]
    cases hcut : cut? d.key cs with
    | none => simp [settled, resolved?, hw, hcut, completed, editKey_of_none]
    | some found =>
      obtain ⟨xs, x, ys⟩ := found
      have hxs : xs.all (·.key != d.key) = true := by
        rw [all_key_ne, (cut?_eq_some hcut).2.1]
        rfl
      rw [editKey_of_cut? _ _ hcut]
      simp [settled, resolved?, hw, hcut, completed, revision?,
        (d.putAs_dropAnnot token x.location).key, hxs]
  · next token hw =>
    rw [hw]
    cases hcut : cut? d.key cs with
    | none => simp [settled, resolved?, hw, hcut, completed, editKey_of_none]
    | some found =>
      obtain ⟨xs, x, ys⟩ := found
      rw [editKey_of_cut? _ _ hcut]
      simp [settled, resolved?, hw, hcut, completed, revision?, filter_of_cut? hcut]
  · exact h.elim
  · next hw =>
    obtain ⟨hd, x, hx, hcontainer⟩ := h
    rw [hw]
    cases hcut : cut? d.key cs with
    | none => simp [cut?_eq_none.1 hcut] at hx
    | some found =>
      obtain ⟨xs, y, ys⟩ := found
      rw [homonyms_of_cut? hcut] at hx
      obtain rfl : y = x := by simpa using hx
      have hxs : xs.all (·.key != (absorbTrailing d.trailing y).key) = true := by
        rw [(y.alike_absorbTrailing _).key, (cut?_eq_some hcut).2.2, all_key_ne,
          (cut?_eq_some hcut).2.1]
        rfl
      have hchildren : (absorbTrailing d.trailing y).children = y.children := by cases y <;> rfl
      rw [editKey_of_cut? _ _ hcut, settled_absorbed false hw hd hcut hcontainer, completed, hxs,
        hchildren]
      simp [revision?, hw]

theorem confined_of_removes (cs : Forest) (hd : d.Removes) : Confined cs d := by
  obtain ⟨token, directive, hw, rfl | rfl⟩ := hd <;> simp [Confined, hw]

theorem merged_removes (fresh : Bool) (cs : Forest) (hd : d.Removes) :
    merged true fresh cs [d] = revised cs d := by
  have hfresh : settled true fresh d cs = settled true false d cs := by
    obtain ⟨token, directive, hw, rfl | rfl⟩ := hd <;> simp only [settled, hw]
  rw [merged_cons, merged_nil, hfresh, completed_confined (confined_of_removes cs hd)]

/-- A layer of confined declarations with different keys edits one key after the other. -/
theorem merged_confined (h : ∀ d ∈ layer, Confined cs d) (hkeys : (layer.map Decl.key).Nodup) :
    merged true false cs layer = layer.foldl revised cs := by
  induction layer generalizing cs with
  | nil => rw [merged_nil, List.foldl_nil]
  | cons d rest ih =>
    obtain ⟨hd, hrest⟩ := List.forall_mem_cons.1 h
    rw [List.map_cons, List.nodup_cons] at hkeys
    obtain ⟨hfirst, hkeys⟩ := hkeys
    rw [merged_cons, completed_confined hd, List.foldl_cons]
    refine ih (fun e he => (hrest e he).later fun heq => hfirst ?_) hkeys
    exact heq ▸ List.mem_map_of_mem he

theorem Confined.foldl {e : Decl} (h : Confined cs e) (hne : ∀ d ∈ layer, e.key ≠ d.key) :
    Confined (layer.foldl revised cs) e := by
  induction layer generalizing cs with
  | nil => exact h
  | cons d rest ih =>
    obtain ⟨hd, hrest⟩ := List.forall_mem_cons.1 hne
    exact ih (h.later hd) hrest

/-- Layers of confined declarations, all with different keys, may be merged in either order. -/
theorem merged_comm {first second : Forest} (h : ∀ d ∈ first ++ second, Confined cs d)
    (hkeys : ((first ++ second).map Decl.key).Nodup) :
    merged true false (merged true false cs first) second =
      merged true false (merged true false cs second) first := by
  have hboth {one other : Forest} (h : ∀ d ∈ one ++ other, Confined cs d)
      (hkeys : ((one ++ other).map Decl.key).Nodup) :
      merged true false (merged true false cs one) other = (one ++ other).foldl revised cs := by
    obtain ⟨hone, hother⟩ := List.forall_mem_append.1 h
    rw [List.map_append, List.nodup_append] at hkeys
    obtain ⟨hk, hk', hdisjoint⟩ := hkeys
    rw [merged_confined hone hk, List.foldl_append, merged_confined _ hk']
    refine fun e he => (hother e he).foldl fun d hd heq => ?_
    exact hdisjoint d.key (List.mem_map_of_mem hd) e.key (List.mem_map_of_mem he) heq.symm
  have hperm : (first ++ second).Perm (second ++ first) := List.perm_append_comm
  rw [hboth h hkeys, hboth (fun d hd => h d (hperm.mem_iff.2 hd)) ((hperm.map _).nodup_iff.1 hkeys)]
  refine hperm.foldl_eq' (fun d hd e he cs => ?_) cs
  by_cases hkey : d.key = e.key
  · rw [List.inj_on_of_nodup_map hkeys hd he hkey]
  · exact revised_comm hkey cs

theorem confined_anonymous : Confined (anonymous cs) d.anonymous ↔ Confined cs d := by
  unfold Confined
  rw [Decl.annotations_anonymous]
  split
  · rfl
  · rfl
  · rfl
  · rw [homonyms_anonymous, Decl.key_anonymous, Decl.isContainer_anonymous, anonymous_eq_map,
      List.head?_map]
    simp

theorem map_key_anonymous (f : Forest) : (anonymous f).map Decl.key = f.map Decl.key := by
  simp [anonymous_eq_map]

theorem anonymous_merged_number (cs layer : Forest) (next : Nat) :
    anonymous (merged true false cs (number next layer).1) =
      merged true false (anonymous cs) (anonymous layer) := by
  rw [anonymous_merged, anonymous_number]

end Forest

theorem Index.Mirrors.container_of_name {i : Index} {f : Forest} (h : i.Mirrors f)
    (hn : f.ids.Nodup) {name : String} (hname : (i.containerFor? [name]).isSome) :
    ∃ x ∈ (f.homonyms ⟨name, false⟩).head?, x.isContainer = true := by
  have hview : i.view .root = some ([], f.first?) := Mirrors.view_owner (c := []) h hn
  have hchild : i.childAt? .root ⟨name, false⟩ = (f.homonyms ⟨name, false⟩).head?.map Decl.ref := by
    rw [childAt?_eq_view, hview, ← first?_eq_head?]
    rfl
  obtain ⟨o, ho⟩ := Option.isSome_iff_exists.1 hname
  rw [containerFor?, descend?, hchild] at ho
  cases hx : (f.homonyms ⟨name, false⟩).head? with
  | none => simp [hx] at ho
  | some x =>
    refine ⟨x, rfl, ?_⟩
    by_contra hcontainer
    simp [hx, Decl.ref, hcontainer] at ho

namespace Engine

/-- A declaration that a layer may hold at its top for the layer to be independent of others: an
override or a deletion, or a container without a directive whose name leads to a container. -/
def Independent (e : Engine) (d : Decl) : Prop :=
  match Directive.winner? d.annotations with
  | some (_, .override) | some (_, .delete) => True
  | some (_, .placed _ _) => False
  | none => d.isContainer = true ∧ (e.index.containerFor? [d.name]).isSome

theorem Coherent.confined {e : Engine} (h : e.Coherent) {d : Decl} (hd : e.Independent d) :
    Confined e.tree d := by
  unfold Independent at hd
  unfold Confined
  split at hd <;> try trivial
  obtain ⟨hcontainer, hname⟩ := hd
  have hkey := d.key_of_isContainer hcontainer
  exact ⟨hcontainer, hkey ▸ h.mirrors.container_of_name h.nodup hname⟩

/-- Two layers of independent declarations whose keys all differ make the same of a tree in either
order, whatever stands below these declarations. -/
theorem mergeLayer_comm (layers : List Forest) {first second : Forest}
    (hd : ∀ d ∈ first ++ second, (afterLayers layers).Independent d)
    (hkeys : ((first ++ second).map Decl.key).Nodup) :
    let e := afterLayers layers
    let there := (e.mergeLayer first).2.mergeLayer second
    let back := (e.mergeLayer second).2.mergeLayer first
    (e.mergeLayer first).1 = none ∧ there.1 = none ∧ (e.mergeLayer second).1 = none ∧
      back.1 = none ∧ there.2.tree.anonymous = back.2.tree.anonymous := by
  have hcoherent := coherent_afterLayers layers
  intro e there back
  obtain ⟨hfault, hfirst, htree⟩ := hcoherent.mergeLayer first
  obtain ⟨hfault', hsecond, htree'⟩ := hcoherent.mergeLayer second
  obtain ⟨hthere, -, hboth⟩ := hfirst.mergeLayer second
  obtain ⟨hback, -, hboth'⟩ := hsecond.mergeLayer first
  refine ⟨hfault, hthere, hfault', hback, ?_⟩
  rw [hboth, hboth', htree, htree']
  simp only [anonymous_merged_number]
  refine merged_comm ?_ ?_
  · rw [← anonymous_append, anonymous_eq_map (first ++ second), List.forall_mem_map]
    exact fun d hmem => confined_anonymous.2 (hcoherent.confined (hd d hmem))
  · rw [← anonymous_append, map_key_anonymous]
    exact hkeys

/-- One layer changes a class from within and deletes another one, the second layer replaces a
third. -/
theorem mergeLayer_comm_within :
    let decl (name : String) (annotations : List Annot) (children : Forest) : Decl :=
      .container .classDecl { name, annotations } children []
    let base := [decl "A" [] [decl "X" [] []], decl "C" [] [], decl "B" [] []]
    let first := [
      decl "A" [] [decl "Y" [⟨"patch:prepend_before(X)", ""⟩] []],
      decl "C" [⟨"patch:delete", ""⟩] []]
    let second := [decl "B" [⟨"patch:override", ""⟩] [decl "Z" [] []]]
    let e := afterLayers [base]
    let there := (e.mergeLayer first).2.mergeLayer second
    let back := (e.mergeLayer second).2.mergeLayer first
    (∀ d ∈ first ++ second, e.Independent d) ∧ ((first ++ second).map Decl.key).Nodup ∧
      there.2.tree.preorder.map Decl.name = ["A", "Y", "X", "B", "Z"] ∧
      (e.mergeLayer first).1 = none ∧ there.1 = none ∧ (e.mergeLayer second).1 = none ∧
        back.1 = none ∧ there.2.tree.anonymous = back.2.tree.anonymous := by
  intro decl base first second e there back
  have hname : (e.index.containerFor? ["A"]).isSome := by
    simp only [e, base, decl]
    cbv
  have hnone : Directive.winner? [] = none := rfl
  have hdelete : Directive.winner? [⟨"patch:delete", ""⟩] = some (0, .delete) := by decide +kernel
  have hoverride : Directive.winner? [⟨"patch:override", ""⟩] = some (0, .override) := by
    decide +kernel
  have hd : ∀ d ∈ first ++ second, e.Independent d := by
    simp [first, second, decl, Independent, Decl.annotations, Decl.header, Decl.name,
      Decl.isContainer, hnone, hdelete, hoverride, hname]
  have hkeys : ((first ++ second).map Decl.key).Nodup := by
    simp [first, second, decl, Decl.key, Decl.name, Decl.header]
  have hnames : there.2.tree.preorder.map Decl.name = ["A", "Y", "X", "B", "Z"] := by
    simp only [there, e, first, second, base, decl]
    cbv
  exact ⟨hd, hkeys, hnames, mergeLayer_comm [base] hd hkeys⟩

end Engine
end SignatureLayers
