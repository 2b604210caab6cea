import SignatureLayers.Proofs.Rendering
import SignatureLayers.Proofs.TopLevel

namespace SignatureLayers

open Text Forest
open Merge (absorbTrailing usePosition)

theorem Decl.Topmost.restated {d d' : Decl} (h : d.Topmost) (hr : d.Restates d') : d'.Topmost where
  member := by
    rw [Decl.isMember, hr.kind]
    exact h.member
  use_iff := by
    rw [hr.kind, hr.name]
    exact h.use_iff

def Decl.PlacesUse (d : Decl) : Prop :=
  d.kind = .leaf .useClause ∧ ∃ token side anchor,
    Directive.winner? d.annotations = some (token, .placed side anchor)

namespace Forest
variable {known fresh : Bool} {d x : Decl} {cs xs ys layer : Forest} {out : Outcome}

def clauseNames (cs : Forest) : List String :=
  (cs.filter (·.kind == .leaf .useClause)).map Decl.name

theorem clauseNames_append (xs ys : Forest) :
    clauseNames (xs ++ ys) = clauseNames xs ++ clauseNames ys := by simp [clauseNames]

theorem clauseNames_cons (d : Decl) (rest : Forest) : clauseNames (d :: rest) =
    if d.kind = .leaf .useClause then d.name :: clauseNames rest else clauseNames rest := by
  by_cases h : d.kind = .leaf .useClause <;> simp [clauseNames, h]

theorem clauseNames_sublist (h : xs.Sublist ys) : (clauseNames xs).Sublist (clauseNames ys) :=
  (h.filter _).map _

theorem clauseNames_middle (xs ys : Forest) (hd : d.kind ≠ .leaf .useClause) :
    clauseNames (xs ++ d :: ys) = clauseNames (xs ++ ys) := by
  rw [clauseNames_append, clauseNames_cons, if_neg hd, clauseNames_append]

theorem clauseNames_restated (xs ys : Forest) {d d' : Decl} (hr : d.Restates d') :
    clauseNames (xs ++ d' :: ys) = clauseNames (xs ++ d :: ys) := by
  simp only [clauseNames_append, clauseNames_cons, hr.kind, hr.name]

theorem clauseNames_of_shapes {f g : Forest} (h : shapes f = shapes g) :
    clauseNames f = clauseNames g := by
  induction f generalizing g with
  | nil => rw [List.map_eq_nil_iff.1 h.symm]
  | cons d f ih =>
    obtain ⟨d', g, rfl, hd, hg⟩ := List.map_eq_cons_iff.1 h.symm
    rw [clauseNames_cons, clauseNames_cons, Decl.kind_of_shape hd, Decl.name_of_shape hd,
      ih hg.symm]

theorem not_mem_clauseNames (hcs : Headed cs) (hd : d.Topmost) (hnone : cut? d.key cs = none) :
    d.name ∉ clauseNames cs := by
  intro hmem
  obtain ⟨e, he, hname⟩ := List.mem_map.1 hmem
  obtain ⟨he, -⟩ := List.mem_filter.1 he
  refine homonyms_eq_nil.1 (cut?_eq_none.1 hnone) e he ?_
  rw [Decl.key, Decl.key, hname, (hcs.topmost e he).member, hd.member]

theorem settled_clause (hk : d.kind = .leaf .useClause)
    (hw : Directive.winner? d.annotations = none) : settled true fresh d cs =
      if (cut? d.key cs).isSome then .done cs
      else .into (cs.take (usePosition cs)) d.hollow (cs.drop (usePosition cs)) true := by
  have hleaf : d.isContainer = false := by
    cases d with
    | container => cases hk
    | leaf | member => rfl
  rw [settled, resolved?, if_pos rfl, hw]
  cases cut? d.key cs <;> simp [hleaf, Option.filter, placed, hk]

/-- Nothing but a use clause without a directive adds to the names of the use clauses. -/
theorem Settlement.clauseNames_sublist (h : Settlement known d cs out) (hcs : Headed cs)
    (hd : d.Topmost) (hw : d.kind = .leaf .useClause → Directive.winner? d.annotations ≠ none)
    (hplaced : ¬ d.PlacesUse) : (clauseNames out.children).Sublist (clauseNames cs) := by
  cases h with
  | kept => exact .refl _
  | removed => exact Forest.clauseNames_sublist List.filter_sublist
  | replaced token xs x ys hw hcut =>
    obtain ⟨rfl, -, hkey⟩ := cut?_eq_some hcut
    have hput := d.putAs_dropAnnot token x.location
    have huse := hcs.use_iff (by simp) hd hkey
    have hname : x.name = d.name := congrArg Key.name hkey
    have hfilter :=
      Forest.clauseNames_sublist (List.filter_sublist (p := (·.key != d.key)) (l := ys))
    simp only [Outcome.children, clauseNames_append, clauseNames_cons, hput.kind,
      hput.restates.name, huse, hname]
    split
    · exact (hfilter.cons_cons _).append_left _
    · exact hfilter.append_left _
  | absorbed xs x ys hknown hcut =>
    obtain ⟨rfl, -, -⟩ := cut?_eq_some hcut
    rw [Outcome.children, clauseNames_restated xs ys (x.restates_absorbTrailing _)]
  | moved token side anchor xs x ys us vs t hw hknown hcut hcd hx hrest =>
    obtain ⟨rfl, -, -⟩ := cut?_eq_some hcut
    have hne : x.kind ≠ .leaf .useClause := fun huse => by
      cases x with
      | container => cases huse
      | leaf | member => cases hx
    rw [Outcome.children, clauseNames_restated us vs (Decl.restates_absorbTrailing _ _),
      clauseNames_restated us vs (x.restates_withLocation _), clauseNames_middle us vs hne, hrest,
      clauseNames_middle xs ys hne]
  | inserted xs d' ys hput =>
    have hne : d.kind ≠ .leaf .useClause := by
      intro huse
      cases hput with
      | last plain | afterUses plain | amongVariables neighbour p plain => exact hw huse plain
      | after token anchor xs t ys hw | before token anchor xs t ys hw =>
        exact hplaced ⟨huse, token, _, anchor, hw⟩
    rw [Outcome.children, clauseNames_middle xs ys (hput.putAs.kind ▸ hne), ← hput.split]

/-- No use clause is there twice when a declaration is settled. -/
theorem nodup_clauseNames_settled (hcs : Headed cs) (hn : (clauseNames cs).Nodup) (hd : d.Topmost)
    (hplaced : ¬ d.PlacesUse) : (clauseNames (settled true fresh d cs).children).Nodup := by
  by_cases hnew : d.kind = .leaf .useClause ∧ Directive.winner? d.annotations = none
  · obtain ⟨hk, hw⟩ := hnew
    rw [settled_clause hk hw]
    split
    · exact hn
    · next hnone =>
      have hname := not_mem_clauseNames hcs hd (by simpa using hnone)
      have hput := d.putAs_hollow.restates
      have hsplit := List.take_append_drop (usePosition cs) cs
      rw [← hsplit, clauseNames_append] at hn hname
      rw [Outcome.children, clauseNames_append, clauseNames_cons, hput.kind, if_pos hk, hput.name,
        List.nodup_middle, List.nodup_cons]
      exact ⟨hname, hn⟩
  · refine hn.sublist ((settled_cases true fresh d cs).clauseNames_sublist hcs hd ?_ hplaced)
    exact fun hk hw => hnew ⟨hk, hw⟩

theorem Headed.settled (hcs : Headed cs) (hd : d.Topmost) (hplaced : ¬ d.PlacesUse) :
    Headed (settled known fresh d cs).children where
  topmost :=
    (settled_cases known fresh d cs).forall hcs.topmost (fun _ hput => hd.restated hput.restates)
      (fun x l hx => hx.restated (x.restates_withLocation l))
      fun x hx => hx.restated (x.restates_absorbTrailing _)
  clauses :=
    (settled_cases known fresh d cs).usesFirst hcs hd fun hk token side anchor hw =>
      hplaced ⟨hk, token, side, anchor, hw⟩

/-- The use clauses stand first, and no two of them have one name. -/
structure Grouped (cs : Forest) : Prop where
  headed : Headed cs
  nodup : (clauseNames cs).Nodup

theorem Grouped.nil : Grouped [] := ⟨⟨List.forall_mem_nil _, .nil⟩, .nil⟩

theorem shaped_grouped : Shaped Grouped := by
  intro f g hshapes h
  refine ⟨⟨fun e he => ?_, ?_⟩, clauseNames_of_shapes hshapes ▸ h.nodup⟩
  · have hmem : e.shape ∈ shapes f := hshapes ▸ List.mem_map_of_mem he
    obtain ⟨d, hd, hsame⟩ := List.mem_map.1 hmem
    have htop := h.headed.topmost d hd
    have hkind := Decl.kind_of_shape hsame
    exact ⟨by rw [Decl.isMember, ← hkind]; exact htop.member,
      by rw [← hkind, ← Decl.name_of_shape hsame]; exact htop.use_iff⟩
  · have hkinds := congrArg (List.map (·.2.1)) hshapes
    rw [shapes, shapes, List.map_map, List.map_map] at hkinds
    exact hkinds ▸ h.headed.clauses

/-- A declaration that is no placed use clause leaves the use clauses first, none of them twice. -/
theorem Grouped.settled (h : Grouped cs) (hd : d.Topmost) (hplaced : ¬ d.PlacesUse) :
    Grouped (settled true fresh d cs).children :=
  ⟨h.headed.settled hd hplaced, nodup_clauseNames_settled h.headed h.nodup hd hplaced⟩

theorem topmost_number {file source : String} (h : parse file source = .ok layer)
    (hplaced : ∀ d ∈ layer, ¬ d.PlacesUse) (next : Nat) :
    ∀ d ∈ (layer.number next).1, d.Topmost ∧ ¬ d.PlacesUse := by
  have hparsed := parsed_of_parse h
  have htop : ∀ d ∈ layer, d.Topmost := fun d hd =>
    (hparsed.readable d (mem_preorder_of_mem hd List.mem_cons_self)).legible.topmost
      (hparsed.members d hd)
  clear h hparsed
  induction layer generalizing next with
  | nil =>
    simp only [number]
    exact List.forall_mem_nil _
  | cons d rest ih =>
    obtain ⟨hd, hrest⟩ := List.forall_mem_cons.1 hplaced
    obtain ⟨ht, htop⟩ := List.forall_mem_cons.1 htop
    have hr := restates_numbered next d
    rw [number_cons]
    refine List.forall_mem_cons.2 ⟨⟨ht.restated hr, fun hp => hd ?_⟩, ih hrest _ htop⟩
    rw [Decl.PlacesUse, hr.kind, annotations_numbered] at hp
    exact hp

end Forest

namespace Engine

def afterLayersWith (syncStandIns : Bool) (layers : List Forest) : Engine :=
  layers.foldl (fun e layer => (e.mergeLayer layer).2) (.ofForest [] syncStandIns)

/-- After any layers that the parser accepts and that place no use clause beside an anchor, all use
clauses come before all other declarations, and no two of them have one name. Where stand-ins are
kept in step, a layer may end in a fault; what it has merged is in order all the same. -/
theorem clauses_grouped (syncStandIns : Bool) {layers : List Forest}
    (h : ∀ layer ∈ layers, (∃ file source, parse file source = .ok layer) ∧
      ∀ d ∈ layer, ¬ d.PlacesUse) :
    let tree := (afterLayersWith syncStandIns layers).tree
    UsesFirst (tree.map Decl.kind) ∧ (clauseNames tree).Nodup := by
  suffices hkept : (afterLayersWith syncStandIns layers).TopHas Grouped from
    ⟨hkept.holds.headed.clauses, hkept.holds.nodup⟩
  refine List.foldlRecOn (motive := TopHas Grouped) layers _ (topHas_empty .nil syncStandIns)
    fun e he layer hmem => ?_
  obtain ⟨⟨file, source, hparse⟩, hplaced⟩ := h layer hmem
  refine he.mergeLayer shaped_grouped fun d hd cs hcs => ?_
  obtain ⟨htop, hplaced⟩ := topmost_number hparse hplaced e.next d hd
  exact hcs.settled htop hplaced

theorem top_afterLayers (layers : List Forest) :
    (afterLayers layers).tree.map (fun d => (d.kind, d.name)) =
      (layers.foldl (fun cs layer => merged true false cs layer.anonymous) []).map
        fun d => (d.kind, d.name) := by
  rw [← anonymous_afterLayers, anonymous_eq_map, List.map_map]
  exact List.map_congr_left fun d _ => by simp

/-- A further clause goes behind the one that is there, which a later layer replaces. -/
theorem clauses_grouped_override :
    ∃ first second third,
      parse "" "use X::Y\nclass B\nend\n" = .ok first ∧
      parse "" "use X::Z\nuse X::Y\n" = .ok second ∧
      parse "" "%a\x7bpatch:override\x7d\nuse X::Y\n" = .ok third ∧
      (∀ layer ∈ [first, second, third], (∃ file source, parse file source = .ok layer) ∧
        ∀ d ∈ layer, ¬ d.PlacesUse) ∧
      let tree := (afterLayersWith false [first, second, third]).tree
      tree.map (fun d => (d.kind, d.name)) = [(.leaf .useClause, "use X::Y"),
          (.leaf .useClause, "use X::Z"), (.container .classDecl, "B")] ∧
        UsesFirst (tree.map Decl.kind) ∧ (clauseNames tree).Nodup := by
  let clause (name : String) (annotations : List Annot) (start stop : Int) : Decl :=
    .leaf .useClause { name, text := [name], annotations, location := some ⟨start, stop⟩ }
  let container : Decl := .container .classDecl
    { name := "B"
      text := ["class B"]
      location := some ⟨2, 3⟩ } [] []
  let token : Annot := ⟨"patch:override", "%a\x7bpatch:override\x7d"⟩
  let first := [clause "use X::Y" [] 1 1, container]
  let second := [clause "use X::Z" [] 1 1, clause "use X::Y" [] 2 2]
  let third := [clause "use X::Y" [token] 1 2]
  have hfirst : parse "" "use X::Y\nclass B\nend\n" = .ok first := by cbv
  have hsecond : parse "" "use X::Z\nuse X::Y\n" = .ok second := by cbv
  have hthird : parse "" "%a\x7bpatch:override\x7d\nuse X::Y\n" = .ok third := by cbv
  have hnone : Directive.winner? [] = none := rfl
  have htoken : Directive.winner? [token] = some (0, .override) := by decide +kernel
  have hlayers : ∀ layer ∈ [first, second, third],
      (∃ file source, parse file source = .ok layer) ∧ ∀ d ∈ layer, ¬ d.PlacesUse := by
    refine List.forall_mem_cons.2 ⟨⟨⟨_, _, hfirst⟩, ?_⟩, List.forall_mem_cons.2
      ⟨⟨⟨_, _, hsecond⟩, ?_⟩, List.forall_mem_singleton.2 ⟨⟨_, _, hthird⟩, ?_⟩⟩⟩ <;>
    simp [first, second, third, clause, container, Decl.PlacesUse, Decl.annotations, Decl.header,
      Decl.kind, hnone, htoken]
  refine ⟨first, second, third, hfirst, hsecond, hthird, hlayers, ?_, clauses_grouped false hlayers⟩
  show (afterLayers [first, second, third]).tree.map _ = _
  rw [top_afterLayers]
  simp only [List.foldl, first, second, third, clause, container, token, anonymous_cons,
    anonymous_nil, merged_cons, merged_nil]
  cbv

/-- A directive puts a clause behind a constant, though it is there already. -/
theorem clauses_apart :
    ∃ first second,
      parse "" "use X::Y\nA: T\n" = .ok first ∧
      parse "" "%a\x7bpatch:append_after(A)\x7d\nuse X::Y\n" = .ok second ∧
      let tree := (afterLayers [first, second]).tree
      ¬ UsesFirst (tree.map Decl.kind) ∧ ¬ (clauseNames tree).Nodup := by
  let clause : Decl := .leaf .useClause
    { name := "use X::Y"
      text := ["use X::Y"]
      location := some ⟨1, 1⟩ }
  let constant : Decl := .leaf .constant
    { name := "A"
      text := ["A: T"]
      location := some ⟨2, 2⟩ }
  let placed : Decl := .leaf .useClause
    { name := "use X::Y"
      text := ["use X::Y"]
      annotations := [⟨"patch:append_after(A)", "%a\x7bpatch:append_after(A)\x7d"⟩]
      location := some ⟨1, 2⟩ }
  refine ⟨[clause, constant], [placed], by cbv, by cbv, ?_⟩
  have htop : (afterLayers [[clause, constant], [placed]]).tree.map (fun d => (d.kind, d.name)) =
      [(.leaf .useClause, "use X::Y"), (.leaf .constant, "A"), (.leaf .useClause, "use X::Y")] := by
    rw [top_afterLayers]
    simp only [List.foldl, clause, constant, placed, anonymous_cons, anonymous_nil, merged_cons,
      merged_nil]
    cbv
  intro tree
  obtain ⟨a, rest, htree, ha, hrest⟩ := List.map_eq_cons_iff.1 htop
  obtain ⟨b, rest, rfl, hb, hrest⟩ := List.map_eq_cons_iff.1 hrest
  obtain ⟨c, rest, rfl, hc, hnil⟩ := List.map_eq_cons_iff.1 hrest
  obtain rfl := List.map_eq_nil_iff.1 hnil
  simp only [Prod.mk.injEq] at ha hb hc
  simp [tree, htree, UsesFirst, clauseNames, ha, hb, hc]

end Engine
end SignatureLayers
