import SignatureLayers.Proofs.Shifting

namespace SignatureLayers

open Text

variable {line : Nat} {raw : List Char} {current : Option Statement} {s : Statement}
  {ls : List (List Char)} {items : List (Nat × Item)} {source : List Char}

/-- Behind a line feed, or at the very beginning, another text adds its own lines. -/
theorem Text.linesFrom_ended {cur u : List Char} (h : u.getLast? = some '\n' ∨ u = [] ∧ cur = [])
    (v : List Char) : linesFrom cur (u ++ v) = linesFrom cur u ++ linesFrom [] v := by
  have hnext {c : Char} {rest : List Char} (h : (c :: rest).getLast? = some '\n') :
      rest.getLast? = some '\n' ∨ rest = [] ∧ c = '\n' := by
    cases rest with
    | nil => exact .inr ⟨rfl, by simpa using h⟩
    | cons b rest => exact .inl (by rwa [List.getLast?_cons_cons] at h)
  fun_induction linesFrom cur u with
  | case1 cur hempty =>
    obtain rfl : cur = [] := List.isEmpty_iff.1 hempty
    rfl
  | case2 cur hcur =>
    rcases h with h | ⟨-, rfl⟩
    · cases h
    · exact absurd rfl hcur
  | case3 cur rest ih =>
    have hlast := hnext (h.resolve_right fun h => by cases h.1)
    rw [List.cons_append, List.cons_append, linesFrom, List.cons_append]
    refine congrArg (cur.reverse :: ·) (ih ?_)
    exact (hnext (hlast.resolve_right fun h => by cases h.1)).imp_right fun h => ⟨h.1, rfl⟩
  | case4 cur c rest hrest hc ih =>
    have hlast := hnext (h.resolve_right fun h => by cases h.1)
    rw [List.cons_append, linesFrom_break hc, List.cons_append]
    · exact congrArg (cur.reverse :: ·) (ih (hlast.imp_right fun h => ⟨h.1, rfl⟩))
    · -- A carriage return is not the last character, and what follows it is what did before.
      rintro rest' rfl hrest'
      rcases hlast with hlast | ⟨-, hc⟩
      · cases rest with
        | nil => cases hlast
        | cons b rest => exact hrest rest rfl (by cases hrest'; rfl)
      · cases hc
  | case5 cur c rest hrest hc ih =>
    have hbreak : isBreak c = false := by simpa using hc
    rw [List.cons_append, linesFrom_of_not_break hbreak]
    rcases hnext (h.resolve_right fun h => by cases h.1) with h | ⟨-, rfl⟩
    · exact ih (.inl h)
    · cases hbreak

theorem Text.lines_append {u : List Char} (h : u.getLast? = some '\n') (v : List Char) :
    lines (u ++ v) = lines u ++ lines v := linesFrom_ended (.inl h) v

namespace Item

theorem ofLine_blank (h : trim raw = []) (line : Nat) : ofLine line raw = ([.blank], none) := by
  rw [ofLine, h]

theorem last_scan_blank (hraw : trim raw = []) (line : Nat) (current : Option Statement) :
    ∃ items i, scan line current [raw] = items ++ [i] ∧
      (i.2 = .blank ∨ ∃ s, i.2 = .statement s) := by
  rw [scan_cons]
  cases current with
  | none => exact ⟨[], (line, .blank), by simp [advance, ofLine_blank hraw, scan], .inl rfl⟩
  | some s =>
    rw [advance]
    split
    · exact ⟨[], _, rfl, .inr ⟨s.extend line raw, rfl⟩⟩
    · exact ⟨[(s.start, .statement s)], (line, .blank), by simp [ofLine_blank hraw, scan], .inl rfl⟩

/-- Behind a blank line that leaves no bracket open a line begins afresh, unless with a bar. -/
theorem scan_blank (hraw : trim raw = [])
    (hdepth : ∀ i ∈ scan line current [raw], ∀ s, i.2 = .statement s → s.depth ≤ 0)
    (hquiet : Quiet ls) :
    scan line current (raw :: ls) = scan line current [raw] ++ scan (line + 1) none ls := by
  rw [scan_cons] at hdepth
  rw [scan_cons, scan_cons]
  cases current with
  | none => simp [advance, ofLine_blank hraw, scan]
  | some s =>
    rw [advance] at hdepth ⊢
    split
    · next hcontinues =>
      rw [if_pos hcontinues] at hdepth
      refine scan_ends fun l hl => ?_
      -- A blank line that goes on after a comma does not end in one.
      have hrelative : Statement.relative s.margin raw = [] := by rw [Statement.relative, hraw]
      have hlast : (s.extend line raw).lastText = [] := by
        simp [Statement.lastText, Statement.extend, hrelative]
      have hclosed : (s.extend line raw).depth ≤ 0 := hdepth _ (List.mem_singleton.2 rfl) _ rfl
      have hhead : ((trim l).head? == some '|') = false := by simpa using hquiet l hl
      simp [Statement.continues, hlast, hhead, hclosed]
    · simp [ofLine_blank hraw, scan]

theorem mem_scan_of_current (line : Nat) (s : Statement) (ls : List (List Char)) :
    ∃ s', (s.start, .statement s') ∈ scan line (some s) ls ∧ s'.head = s.head := by
  induction ls generalizing line s with
  | nil => exact ⟨s, List.mem_singleton.2 rfl, rfl⟩
  | cons raw ls ih =>
    rw [scan_cons, advance]
    split
    · exact ih (line + 1) (s.extend line raw)
    · exact ⟨s, by simp, rfl⟩

theorem annotations_ne_nil_of_ofLine {tokens : List Annot}
    (h : .annotations tokens ∈ (ofLine line raw).1) : tokens ≠ [] := by
  unfold ofLine at h
  split at h
  · simp at h
  · simp at h
  · rintro rfl
    dsimp only at h
    split at h
    · split at h <;> simp_all
    · split at h <;> split at h <;> simp_all

theorem annotations_ne_nil {i : Nat × Item} (h : i ∈ scan line current ls) :
    i.2 ≠ .annotations [] := by
  induction ls generalizing line current with
  | nil =>
    cases current with
    | none => cases h
    | some s =>
      rw [List.mem_singleton.1 h]
      exact fun h => by cases h
  | cons raw ls ih =>
    rw [scan_cons, List.mem_append] at h
    rcases h with h | h
    · rcases mem_advance h with ⟨-, hitem, -⟩ | ⟨s, -, rfl, -⟩
      · intro hi
        rw [hi] at hitem
        exact annotations_ne_nil_of_ofLine hitem rfl
      · exact fun h => by cases h
    · exact ih h

end Item

namespace Outline

theorem Grammatical.quiet (h : Grammatical (Item.ofSource source)) :
    Quiet (lines source) := by
  intro l hl hbar
  obtain ⟨ls, hlines⟩ : ∃ ls, lines source = l :: ls := List.head?_eq_some_iff.1 hl
  obtain ⟨t, htrim⟩ : ∃ t, trim l = '|' :: t := List.head?_eq_some_iff.1 hbar
  have hline : Item.ofLine 1 l = ([], some (.begin 1 l ('|' :: t))) := by
    have hread : Annot.readAll ('|' :: t) = ([], '|' :: t) := by
      rw [Annot.readAll]
      rfl
    simp only [Item.ofLine, htrim]
    simp [hread, Item.isEnd, after?]
  -- Whatever goes on behind it, the statement keeps this first line, which declares nothing.
  obtain ⟨s, hs, hhead⟩ := Item.mem_scan_of_current 2 (.begin 1 l ('|' :: t)) ls
  have hmem : (1, Item.statement s) ∈ Item.ofSource source := by
    rw [Item.ofSource, hlines, Item.scan_cons, Item.advance, hline]
    exact hs
  obtain ⟨head, hknown⟩ := h.heads 1 s hmem
  rw [hhead] at hknown
  cases hknown

theorem pending_of_last {i : Nat × Item} (hlast : i.2 = .blank ∨ ∃ s, i.2 = .statement s)
    (htokens : tokens (lead (items ++ [i])) = [])
    (hannotations : ∀ j ∈ items ++ [i], j.2 ≠ .annotations []) :
    pending (lead (items ++ [i])) = {} := by
  obtain ⟨line, item⟩ := i
  rcases hlast with hblank | ⟨s, hs⟩
  · obtain rfl : item = .blank := hblank
    rw [lead_concat_of_lead rfl] at htokens ⊢
    have hnear : near (lead items ++ [(line, .blank)]) = [] := by rw [near_concat, if_pos rfl]
    have hnone : firstLine? Item.isAnnotations (lead items ++ [(line, .blank)]) = none := by
      rw [firstLine?, Option.map_eq_none_iff, List.find?_eq_none]
      intro j hj hsort
      have hempty : j.2.tokens = [] := List.flatMap_eq_nil_iff.1 htokens j hj
      have hlead : lead items ++ [(line, Item.blank)] ⊆ items ++ [(line, Item.blank)] :=
        List.append_subset.2 ⟨List.subset_append_of_subset_left _
          (List.rtakeWhile_suffix _ items).subset, List.subset_append_right _ _⟩
      cases hitem : j.2 with
      | annotations as =>
        rw [hitem] at hempty
        obtain rfl : as = [] := hempty
        exact hannotations j (hlead hj) hitem
      | blank | comment | close | statement =>
        rw [hitem] at hsort
        cases hsort
    rw [pending, hnear, hnone, htokens]
    rfl
  · obtain rfl : item = .statement s := hs
    rw [lead_concat rfl, pending_nil]

end Outline

/-- An accepted source that ends in a blank line: its items behind which others begin afresh, and
what the run over them leads to. -/
theorem run_of_ended {file source : String} {f : Forest} (h : parse file source = .ok f)
    (hblank : ∃ raw ∈ (lines source.toList).getLast?, trim raw = []) :
    Nesting.run {} (Item.ofSource source.toList) = .ok ⟨f, [], {}⟩ ∧
      ∀ ls, Quiet ls →
        Item.scan 1 none (lines source.toList ++ ls) =
          Item.ofSource source.toList ++ Item.scan ((lines source.toList).length + 1) none ls := by
  obtain ⟨raw, hraw, hblank⟩ := hblank
  obtain ⟨before, hlines⟩ : ∃ before, lines source.toList = before ++ [raw] :=
    List.getLast?_eq_some_iff.1 hraw
  obtain ⟨done, current, hscan, -⟩ := Item.scan_append Item.stop_none before
  have hitems : Item.ofSource source.toList =
      done ++ Item.scan (1 + before.length) current [raw] := by
    rw [Item.ofSource, hlines, hscan]
  obtain ⟨items, i, hends, hlast⟩ := Item.last_scan_blank hblank (1 + before.length) current
  obtain ⟨N, hrun, hfinish⟩ := parse_eq_ok_iff.1 h
  obtain ⟨hstack, hfree, rfl⟩ := Nesting.finish_eq_ok_iff.1 hfinish
  have hgrammatical := (Outline.outline_of_parse h).1
  refine ⟨?_, fun ls hquiet => ?_⟩
  -- The run: the end of the source asks for no annotation, the blank line leaves no comment.
  · obtain ⟨-, hreached⟩ := Outline.run_ok .start Outline.kept_nil hrun
    have hwaits := hreached.waits
    rw [List.nil_append, hitems, hends, ← List.append_assoc] at hwaits
    have hpending : N.pending = {} := by
      rw [hwaits]
      refine Outline.pending_of_last hlast ?_ fun j hj => ?_
      · have htokens := congrArg Pending.annotations hwaits
        rw [hfree] at htokens
        exact htokens.symm
      · rw [List.append_assoc, ← hends, ← hitems] at hj
        exact Item.annotations_ne_nil hj
    obtain ⟨roots, stack, p⟩ := N
    obtain rfl : stack = [] := hstack
    obtain rfl : p = {} := hpending
    exact hrun
  -- The scan: the outline of an accepted source leaves no bracket open in front of `ls`.
  · have hdepth : ∀ j ∈ Item.scan (1 + before.length) current [raw], ∀ s, j.2 = .statement s →
        s.depth ≤ 0 := fun j hj s hs => by
      obtain ⟨line, item⟩ := j
      obtain rfl : item = .statement s := hs
      exact hgrammatical.brackets line s (hitems ▸ List.mem_append_right _ hj)
    have hlength : 1 + before.length + 1 = (lines source.toList).length + 1 := by
      rw [hlines, List.length_append, List.length_singleton]
      omega
    rw [hlines, List.append_assoc, List.singleton_append, hscan,
      Item.scan_blank hblank hdepth hquiet, ← List.append_assoc, ← hitems, hlength, hlines]

/-- The forest of two sources, the first of which ends in a blank line: no use clause comes late if
the first declares nothing else or the second has none. -/
theorem parse_append {file source source' : String} {f f' : Forest}
    (h : parse file source = .ok f) (h' : parse file source' = .ok f')
    (hend : source.toList.getLast? = some '\n')
    (hblank : ∃ raw ∈ (lines source.toList).getLast?, trim raw = [])
    (huse : (∀ d ∈ f, d.kind = .leaf .useClause) ∨ ∀ d ∈ f', d.kind ≠ .leaf .useClause) :
    parse file (source ++ source') = .ok (f ++ f'.shifted (lines source.toList).length) := by
  obtain ⟨hrun, hscan⟩ := run_of_ended h hblank
  obtain ⟨N, hrun', hfinish⟩ := parse_eq_ok_iff.1 h'
  obtain ⟨hstack, hfree, rfl⟩ := Nesting.finish_eq_ok_iff.1 hfinish
  have hquiet := (Outline.outline_of_parse h').1.quiet
  -- The items of both, those of the second further down.
  have hitems : Item.ofSource (source ++ source').toList = Item.ofSource source.toList ++
      (Item.ofSource source'.toList).map (Item.moved (lines source.toList).length) := by
    rw [Item.ofSource, String.toList_append, lines_append hend, hscan _ hquiet, Nat.add_comm]
    exact congrArg _ (Item.scan_shifted _ 1 none _)
  have hstart : (⟨f, [], {}⟩ : Nesting) = Nesting.beyond f (lines source.toList).length {} := by
    simp [Nesting.beyond, Pending.shifted]
  refine parse_eq_ok_iff.2 ⟨N.beyond f (lines source.toList).length, ?_, ?_⟩
  · rw [hitems, Nesting.run_append_iff]
    exact ⟨_, hrun, hstart ▸ Nesting.run_beyond huse hrun'⟩
  · exact Nesting.finish_eq_ok_iff.2 ⟨by simp [Nesting.beyond, hstack], hfree, rfl⟩

set_option maxRecDepth 2000 in
/-- A comma takes the blank line at the end into its clause; the next clause is one by itself. -/
theorem parse_append_comma :
    let source := "use A::B,\n\n"
    let source' := "use C::D\n# c\nclass E\n  @y: T\nend\n"
    let clause (name : String) (text : List String) (location : Location) : Decl :=
      .leaf .useClause { name, text, location := some location }
    let member (location : Location) : Decl :=
      .member .instanceVariable { name := "@y", text := ["@y: T"], location := some location } none
    let holder (location : Location) (cs : Forest) : Decl :=
      .container .classDecl
        { name := "E", text := ["class E"], comments := ["# c"], location := some location } cs []
    let f : Forest := [clause "use A::B," ["use A::B,", ""] ⟨1, 2⟩]
    let f' : Forest := [clause "use C::D" ["use C::D"] ⟨1, 1⟩, holder ⟨2, 5⟩ [member ⟨4, 4⟩]]
    parse "" source = .ok f ∧ parse "" source' = .ok f' ∧ source.toList.getLast? = some '\n' ∧
      (∃ raw ∈ (lines source.toList).getLast?, trim raw = []) ∧
      (∀ d ∈ f, d.kind = .leaf .useClause) ∧ (lines source.toList).length = 2 ∧
      f'.shifted 2 = [clause "use C::D" ["use C::D"] ⟨3, 3⟩, holder ⟨4, 7⟩ [member ⟨6, 6⟩]] ∧
      parse "" (source ++ source') = .ok (f ++ f'.shifted 2) := by
  intro source source' clause member holder f f'
  have h : parse "" source = .ok f := by
    simp only [source]
    cbv
  have h' : parse "" source' = .ok f' := by
    simp only [source']
    cbv
  have hlines : lines source.toList = ["use A::B,".toList, []] := by
    simp only [source]
    cbv
  have hend : source.toList.getLast? = some '\n' := by
    simp only [source]
    decide
  have hblank : ∃ raw ∈ (lines source.toList).getLast?, trim raw = [] := by
    rw [hlines]
    exact ⟨[], rfl, rfl⟩
  have huse : ∀ d ∈ f, d.kind = .leaf .useClause := fun d hd => by
    rw [List.mem_singleton.1 hd]
    rfl
  have hlength : (lines source.toList).length = 2 := by
    rw [hlines]
    rfl
  have happend := parse_append h h' hend hblank (.inl huse)
  rw [hlength] at happend
  have hshifted : f'.shifted 2 =
      [clause "use C::D" ["use C::D"] ⟨3, 3⟩, holder ⟨4, 7⟩ [member ⟨6, 6⟩]] := by
    simp [f', clause, holder, member, Forest.shifted, Decl.mapHeader, Header.shifted,
      Location.shifted]
  exact ⟨h, h', hend, hblank, huse, hlength, hshifted, happend⟩

end SignatureLayers
