import SignatureLayers.Proofs.Directives
import SignatureLayers.Proofs.Secure

namespace SignatureLayers

open Text Forest
open Merge (absorbTrailing usePosition)

namespace Text

theorem wordsFrom_ne_nil {cur s : List Char} (h : cur ≠ [] ∨ trimLeft s ≠ []) :
    wordsFrom cur s ≠ [] := by
  induction s generalizing cur with
  | nil =>
    have hcur : cur ≠ [] := h.resolve_right fun hne => hne rfl
    rw [wordsFrom, if_neg (by simpa using hcur)]
    exact List.cons_ne_nil _ _
  | cons c s ih =>
    rw [wordsFrom]
    split
    · next hc =>
      split
      · next hcur =>
        have hleft : trimLeft (c :: s) = trimLeft s := by
          rw [trimLeft, List.dropWhile_cons, hc]
          rfl
        exact ih (.inr (hleft ▸ h.resolve_left (by simpa using hcur)))
      · exact List.cons_ne_nil _ _
    · exact ih (.inl (List.cons_ne_nil _ _))

theorem wordsFrom_word {u : List Char} {c : Char} (hu : Unblank u) (hc : isBlank c = true)
    (cur s : List Char) (hne : cur.reverse ++ u ≠ []) :
    wordsFrom cur (u ++ c :: s) = (cur.reverse ++ u) :: wordsFrom [] s := by
  induction u generalizing cur with
  | nil =>
    have hcur : cur.isEmpty = false := by simpa using hne
    rw [List.nil_append, wordsFrom, if_pos hc, hcur, List.append_nil]
    rfl
  | cons a u ih =>
    have ha := unblank_cons.1 hu
    rw [List.cons_append, wordsFrom, if_neg (by simp [ha.1]), ih ha.2 (a :: cur) (by simp)]
    simp

theorem blank_mem_words {u s : List Char} {c : Char} (hu : Unblank u) (hne : u ≠ [])
    (hc : isBlank c = true) (hs : trimLeft s ≠ []) :
    ' ' ∈ [' '].intercalate (words (u ++ c :: s)) := by
  rw [words, wordsFrom_word hu hc [] s hne]
  cases hw : wordsFrom [] s with
  | nil => exact absurd hw (wordsFrom_ne_nil (.inr hs))
  | cons w ws => simp [List.intercalate_cons_cons]

end Text

theorem Decl.Legible.blank_of_use {d : Decl} (h : d.Legible) (hk : d.kind = .leaf .useClause) :
    ' ' ∈ d.name.toList := by
  obtain ⟨head, more, -, -, hh, hname⟩ := h.wording
  have hsaid : d.said = .useClause := by
    cases d with
    | container | member => cases hk
    | leaf k header =>
      cases hk
      rfl
  have huse : Head.useHead? head = some .useClause := Head.useHead?_of_ofLine? (hsaid ▸ hh)
  obtain ⟨r, hr, hne⟩ := Option.bind_eq_some_iff.1 huse
  obtain ⟨c, rest, hhead, hc, rfl⟩ := Head.afterKeyword?_eq_some.1 hr
  -- The keyword is a word of its own, and another one follows it.
  have hjoined : ∃ tail, [' '].intercalate (head :: more) = "use".toList ++ c :: (rest ++ tail) := by
    cases more with
    | nil => exact ⟨[], by simp [hhead]⟩
    | cons l more => exact ⟨_, by simp [hhead, List.intercalate_cons_cons]; rfl⟩
  obtain ⟨tail, htail⟩ := hjoined
  rw [hname hk, String.toList_ofList, htail]
  apply blank_mem_words (by decide) (by decide) hc
  intro hnil
  rw [Head.trimLeft_append] at hnil
  split at hnil
  · next hrest =>
    rw [hrest] at hne
    cases hne
  · next hrest => exact hrest (List.append_eq_nil_iff.1 hnil).1

theorem Decl.Legible.unblank_name {d : Decl} (h : d.Legible) (hk : d.kind ≠ .leaf .useClause)
    (hm : d.isMember = false) : Unblank d.name.toList := by
  obtain ⟨head, more, -, -, hh, -⟩ := h.wording
  have hsaid : d.said.declared? = some d.name := by
    cases d with
    | container => rfl
    | leaf k header => cases k <;> first | rfl | exact absurd rfl hk
    | member => cases hm
  exact Head.unblank_of_ofLine? hh hsaid

/-- A declaration that is no member, and a use clause just where its name has a blank. -/
structure Decl.Topmost (d : Decl) : Prop where
  member : d.isMember = false
  use_iff : d.kind = .leaf .useClause ↔ ¬ Unblank d.name.toList

theorem Decl.Legible.topmost {d : Decl} (h : d.Legible) (hm : d.isMember = false) : d.Topmost where
  member := hm
  use_iff := by
    constructor
    · intro hk hunblank
      cases hunblank ' ' (h.blank_of_use hk)
    · intro hblank
      by_contra hk
      exact hblank (h.unblank_name hk hm)

theorem unblank_of_winner? {annotations : List Annot} {token : Nat} {side : Side} {anchor : String}
    (h : Directive.winner? annotations = some (token, .placed side anchor)) :
    Unblank anchor.toList := by
  obtain ⟨xs, a, ys, -, -, ha, -⟩ := Directive.winner?_cut h
  have hstated := Directive.ofPayload?_eq_some_iff.1 ha
  generalize a.payload.toList = payload at hstated
  obtain ⟨-, hphrase, -⟩ := hstated
  obtain ⟨s, hs⟩ : ∃ s, Directive.Bracketed anchor s := by
    cases hphrase with
    | after h => exact ⟨_, h⟩
    | before h => exact ⟨_, h⟩
  obtain ⟨-, -, -, hanchor⟩ := hs
  exact fun c hc => (hanchor c hc).2.2

namespace Forest
variable {ks ks' : List Kind} {k k' : Kind} {known fresh : Bool} {d : Decl} {cs layer : Forest}
  {out : Outcome}

theorem usesFirst_middle :
    UsesFirst (ks ++ k :: ks') ↔ UsesFirst (ks ++ ks') ∧
      (k = .leaf .useClause → ∀ b ∈ ks, b = .leaf .useClause) ∧
        (k ≠ .leaf .useClause → ∀ a ∈ ks', a ≠ .leaf .useClause) := by
  simp only [UsesFirst, List.pairwise_append, List.pairwise_cons, List.forall_mem_cons]
  constructor
  · rintro ⟨hks, ⟨hafter, hks'⟩, hbefore⟩
    exact ⟨⟨hks, hks', fun b hb => (hbefore b hb).2⟩, fun hk b hb => (hbefore b hb).1 hk,
      fun hk a ha huse => hk (hafter a ha huse)⟩
  · rintro ⟨⟨hks, hks', hbefore⟩, huse, hother⟩
    refine ⟨hks, ⟨fun a ha hause => ?_, hks'⟩, fun b hb => ⟨fun hk => huse hk b hb, hbefore b hb⟩⟩
    by_contra hk
    exact hother hk a ha hause

theorem UsesFirst.replace (h : UsesFirst (ks ++ k :: ks'))
    (hk : k' = .leaf .useClause ↔ k = .leaf .useClause) : UsesFirst (ks ++ k' :: ks') := by
  rw [usesFirst_middle] at h ⊢
  rwa [hk, Ne, hk]

theorem UsesFirst.insert (h : UsesFirst (ks ++ ks')) (hk : k ≠ .leaf .useClause) {t : Kind}
    (ht : t ≠ .leaf .useClause) (hbeside : ks.getLast? = some t ∨ ks'.head? = some t) :
    UsesFirst (ks ++ k :: ks') := by
  refine usesFirst_middle.2 ⟨h, fun huse => absurd huse hk, fun _ a ha huse => ht ?_⟩
  rw [UsesFirst, List.pairwise_append] at h
  obtain ⟨-, hks', hbefore⟩ := h
  rcases hbeside with hlast | hfirst
  · exact hbefore t (List.mem_of_getLast? hlast) a ha huse
  · cases ks' with
    | nil => cases hfirst
    | cons b rest =>
      cases hfirst
      rcases List.mem_cons.1 ha with rfl | ha
      · exact huse
      · exact (List.pairwise_cons.1 hks').1 a ha huse

theorem use_of_mem_take (h : UsesFirst (cs.map Decl.kind)) :
    ∀ e ∈ cs.take (usePosition cs), e.kind = .leaf .useClause := by
  unfold usePosition
  cases hlast : (cs.zipIdx.filter (·.1.kind == .leaf .useClause)).getLast? with
  | none => exact fun e he => by simp at he
  | some found =>
    obtain ⟨d, p⟩ := found
    obtain ⟨hmem, hd⟩ := List.mem_filter.1 (List.mem_of_getLast? hlast)
    have hget : cs[p]? = some d := List.mk_mem_zipIdx_iff_getElem?.1 hmem
    obtain ⟨hp, rfl⟩ := List.getElem?_eq_some_iff.1 hget
    have hsplit : cs = cs.take p ++ cs[p] :: cs.drop (p + 1) := by
      rw [← List.drop_eq_getElem_cons hp, List.take_append_drop]
    have hkind : cs[p].kind = .leaf .useClause := by simpa using hd
    rw [hsplit, List.map_append, List.map_cons, usesFirst_middle] at h
    intro e he
    simp only [Option.elim_some, List.take_succ_eq_append_getElem hp, List.mem_append,
      List.mem_singleton] at he
    rcases he with he | rfl
    · exact h.2.1 hkind e.kind (List.mem_map_of_mem he)
    · exact hkind

/-- Siblings at the top of a tree: no members, the use clauses first. -/
structure Headed (cs : Forest) : Prop where
  topmost : ∀ e ∈ cs, e.Topmost
  clauses : UsesFirst (cs.map Decl.kind)

theorem Headed.use_iff (h : Headed cs) {x : Decl} (hx : x ∈ cs) (hd : d.Topmost)
    (hkey : x.key = d.key) : d.kind = .leaf .useClause ↔ x.kind = .leaf .useClause := by
  have hname : x.name = d.name := congrArg Key.name hkey
  rw [hd.use_iff, (h.topmost x hx).use_iff, hname]

theorem Headed.ne_use_of_anchor (h : Headed cs) {t : Decl} (ht : t ∈ cs) {annotations : List Annot}
    {token : Nat} {side : Side} (hw : Directive.winner? annotations = some
      (token, .placed side t.name)) : t.kind ≠ .leaf .useClause := fun huse =>
  (h.topmost t ht).use_iff.1 huse (unblank_of_winner? hw)

/-- What may stand at the top of a tree that is to be read back. -/
structure Topped (cs : Forest) : Prop where
  secure : Secure cs
  members : ∀ e ∈ cs, e.isMember = false
  clauses : UsesFirst (cs.map Decl.kind)

theorem Topped.headed (h : Topped cs) : Headed cs where
  topmost e he := (secure_iff.1 h.secure e he).1.readable.legible.topmost (h.members e he)
  clauses := h.clauses

theorem Placement.usesFirst {xs ys : Forest} {d' : Decl} (h : Placement d cs xs d' ys)
    (hcs : Headed cs) (hm : d.isMember = false)
    (hplaced : d.kind = .leaf .useClause → ∀ token side anchor,
      Directive.winner? d.annotations ≠ some (token, .placed side anchor)) :
    UsesFirst ((xs ++ d' :: ys).map Decl.kind) := by
  have hkind : d'.kind = d.kind := h.putAs.kind
  have hclauses := hcs.clauses
  have hsplit := h.split
  rw [hsplit, List.map_append] at hclauses
  rw [List.map_append, List.map_cons, hkind]
  cases h with
  | last plain hd =>
    exact usesFirst_middle.2 ⟨hclauses, fun h => absurd h hd, fun _ => List.forall_mem_nil _⟩
  | afterUses plain hd =>
    refine usesFirst_middle.2 ⟨hclauses, fun _ k hk => ?_, fun h => absurd hd h⟩
    obtain ⟨e, he, rfl⟩ := List.mem_map.1 hk
    exact use_of_mem_take hcs.clauses e he
  | amongVariables neighbour p plain hd hp =>
    cases d with
    | container | leaf => cases hd
    | member => cases hm
  | after token anchor us t vs hw hcut =>
    obtain rfl := name_of_anchorCut? hcut
    have ht := hcs.ne_use_of_anchor (by rw [hsplit]; simp) hw
    refine hclauses.insert (fun huse => hplaced huse _ _ _ hw) ht (.inl ?_)
    rw [List.map_append, List.map_singleton, List.getLast?_concat]
  | before token anchor us t vs hw hcut =>
    obtain rfl := name_of_anchorCut? hcut
    have ht := hcs.ne_use_of_anchor (by rw [hsplit]; simp) hw
    exact hclauses.insert (fun huse => hplaced huse _ _ _ hw) ht (.inr rfl)

theorem Headed.usesFirst_replaced {xs ys : Forest} {x : Decl} (hcs : Headed (xs ++ x :: ys))
    (hd : d.Topmost) (hkey : x.key = d.key) (p : Decl → Bool) :
    UsesFirst (xs.map Decl.kind ++ d.kind :: (ys.filter p).map Decl.kind) := by
  -- Of one key, both are use clauses or neither is.
  have huse := hcs.use_iff (by simp) hd hkey
  have hclauses := hcs.clauses
  rw [List.map_append, List.map_cons] at hclauses
  have hsub : ((ys.filter p).map Decl.kind).Sublist (ys.map Decl.kind) :=
    List.filter_sublist.map _
  have hfiltered : UsesFirst (xs.map Decl.kind ++ x.kind :: (ys.filter p).map Decl.kind) :=
    hclauses.sublist ((List.Sublist.refl _).append (hsub.cons_cons _))
  exact hfiltered.replace huse

theorem Headed.usesFirst_moved {xs ys us vs : Forest} {x t : Decl} {annotations : List Annot}
    {token : Nat} {side : Side} (hcs : Headed (xs ++ x :: ys)) (hx : x.isContainer = true)
    (hrest : us ++ vs = xs ++ ys) (ht : us.getLast? = some t ∨ vs.head? = some t)
    (hw : Directive.winner? annotations = some (token, .placed side t.name)) :
    UsesFirst (us.map Decl.kind ++ x.kind :: vs.map Decl.kind) := by
  have hmem : t ∈ us ++ vs := by
    rcases ht with ht | ht
    · exact List.mem_append_left _ (List.mem_of_getLast? ht)
    · exact List.mem_append_right _ (List.mem_of_head? ht)
  have hthere : t ∈ xs ++ x :: ys :=
    ((List.sublist_cons_self x ys).append_left xs).subset (hrest ▸ hmem)
  have hclauses := hcs.clauses
  rw [List.map_append, List.map_cons, usesFirst_middle, ← List.map_append, ← hrest,
    List.map_append] at hclauses
  have hne : x.kind ≠ .leaf .useClause := fun huse => by
    cases x with
    | container => cases huse
    | leaf | member => cases hx
  refine hclauses.1.insert hne (hcs.ne_use_of_anchor hthere hw) (ht.imp (fun ht => ?_) fun ht => ?_)
  · rw [List.getLast?_map, ht]
    rfl
  · rw [List.head?_map, ht]
    rfl

theorem Settlement.usesFirst (h : Settlement known d cs out) (hcs : Headed cs) (hd : d.Topmost)
    (hplaced : d.kind = .leaf .useClause → ∀ token side anchor,
      Directive.winner? d.annotations ≠ some (token, .placed side anchor)) :
    UsesFirst (out.children.map Decl.kind) := by
  cases h with
  | kept => exact hcs.clauses
  | removed token hw => exact hcs.clauses.sublist (List.filter_sublist.map _)
  | replaced token xs x ys hw hcut =>
    obtain ⟨rfl, -, hkey⟩ := cut?_eq_some hcut
    rw [Outcome.children, List.map_append, List.map_cons,
      (d.putAs_dropAnnot token x.location).kind]
    exact hcs.usesFirst_replaced hd hkey _
  | absorbed xs x ys hknown hcut =>
    obtain ⟨rfl, -, -⟩ := cut?_eq_some hcut
    have hclauses := hcs.clauses
    rw [List.map_append, List.map_cons] at hclauses
    rwa [Outcome.children, List.map_append, List.map_cons,
      (x.restates_absorbTrailing d.trailing).kind]
  | moved token side anchor xs x ys us vs t hw hknown hcut hcd hx hrest ht hanchor =>
    obtain ⟨rfl, -, -⟩ := cut?_eq_some hcut
    subst hanchor
    have hkind : (absorbTrailing d.trailing (x.withLocation t.location)).kind = x.kind :=
      ((Decl.restates_absorbTrailing _ _).kind).trans (x.restates_withLocation _).kind
    rw [Outcome.children, List.map_append, List.map_cons, hkind]
    exact hcs.usesFirst_moved hx hrest ht hw
  | inserted xs d' ys hput => exact hput.usesFirst hcs hd.member hplaced

/-- What a layer may bring to the top of a tree. -/
structure Layered (layer : Forest) : Prop where
  secure : Secure layer
  members : ∀ d ∈ layer, d.isMember = false
  placed : ∀ d ∈ layer, d.kind = .leaf .useClause → ∀ token side anchor,
    Directive.winner? d.annotations ≠ some (token, .placed side anchor)

theorem Layered.tail (h : Layered (d :: layer)) : Layered layer :=
  ⟨(secure_cons.1 h.secure).2.2, fun e he => h.members e (List.mem_cons_of_mem d he),
    fun e he => h.placed e (List.mem_cons_of_mem d he)⟩

/-- A layer leaves the top of a tree as it may be. -/
theorem Topped.merged (hcs : Topped cs) (hlayer : Layered layer) :
    Topped (merged known fresh cs layer) := by
  induction layer generalizing cs with
  | nil => rwa [merged_nil]
  | cons d rest ih =>
    have hone : Forest.merged known fresh cs [d] =
        completed known d.children (settled known fresh d cs) := by
      rw [merged_cons, merged_nil]
    obtain ⟨hd, hinner, -⟩ := secure_cons.1 hlayer.secure
    have hm := hlayer.members d List.mem_cons_self
    rw [merged_cons]
    refine ih ⟨?_, ?_, ?_⟩ hlayer.tail
    · rw [← hone]
      exact secure_merged hcs.secure (secure_cons.2 ⟨hd, hinner, secure_nil⟩)
    · rw [← hone]
      exact forall_kind_merged (p := (Kind.isMember · = false)) hcs.members
        (List.forall_mem_singleton.2 hm)
    · rw [map_kind_completed]
      exact (settled_cases known fresh d cs).usesFirst hcs.headed (hd.readable.legible.topmost hm)
        (hlayer.placed d List.mem_cons_self)

end Forest
end SignatureLayers
