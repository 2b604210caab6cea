import Mathlib.Data.List.Permutation
import SignatureLayers.Proofs.Appending
import SignatureLayers.Proofs.Rewording

namespace SignatureLayers

open Text

variable {line n : Nat} {raw c : List Char} {rest ls : List (List Char)}
  {current : Option Statement} {s s' : Statement}

namespace Item

/-- What one more line makes of the statement in front of it: the items that are complete with the
line, and the statement that may go on behind it. -/
def advance (line : Nat) (current : Option Statement) (raw : List Char) :
    List (Nat × Item) × Option Statement :=
  match current with
  | none => ((ofLine line raw).1.map (line, ·), (ofLine line raw).2)
  | some s =>
    if s.continues raw then ([], some (s.extend line raw))
    else ((s.start, .statement s) :: (ofLine line raw).1.map (line, ·), (ofLine line raw).2)

theorem scan_cons (line : Nat) (current : Option Statement) (raw : List Char)
    (rest : List (List Char)) : scan line current (raw :: rest) =
      (advance line current raw).1 ++ scan (line + 1) (advance line current raw).2 rest := by
  cases current with
  | none => rfl
  | some s =>
    rw [scan, advance]
    split <;> rfl

def stop : Nat × Item → Nat
  | (_, .statement s) => s.stop
  | (line, _) => line

theorem not_statement_of_ofLine {item : Item} (h : item ∈ (ofLine line raw).1) (s : Statement) :
    item ≠ .statement s := by
  rintro rfl
  unfold ofLine at h
  split at h
  · simp at h
  · simp at h
  · dsimp only at h
    split at h
    · split at h <;> simp at h
    · split at h <;> split at h <;> simp at h

theorem begin_of_ofLine (h : s ∈ (ofLine line raw).2) : s = .begin line raw s.head := by
  unfold ofLine at h
  split at h
  · cases h
  · cases h
  · dsimp only at h
    split at h
    · cases h
    · split at h
      · cases h
      · cases h
        rfl

theorem stop_of_ofLine (h : s ∈ (ofLine line raw).2) : s.stop = line := by
  rw [begin_of_ofLine h]
  rfl

theorem stop_advance (h : s ∈ (advance line current raw).2) : s.stop = line := by
  cases current with
  | none => exact stop_of_ofLine h
  | some s₀ =>
    rw [advance] at h
    split at h
    · cases h
      rfl
    · exact stop_of_ofLine h

theorem mem_advance {i : Nat × Item} (h : i ∈ (advance line current raw).1) :
    (i.1 = line ∧ i.2 ∈ (ofLine line raw).1 ∧ ∀ s ∈ current, s.continues raw = false) ∨
      ∃ s ∈ current, i = (s.start, .statement s) ∧ s.continues raw = false := by
  have hline (h : i ∈ (ofLine line raw).1.map (line, ·)) :
      i.1 = line ∧ i.2 ∈ (ofLine line raw).1 := by
    obtain ⟨item, hitem, rfl⟩ := List.mem_map.1 h
    exact ⟨rfl, hitem⟩
  cases current with
  | none => exact .inl ⟨(hline h).1, (hline h).2, fun s hs => by cases hs⟩
  | some s =>
    rw [advance] at h
    split at h
    · cases h
    · next hends =>
      rw [Bool.not_eq_true] at hends
      rcases List.mem_cons.1 h with rfl | h
      · exact .inr ⟨s, rfl, rfl, hends⟩
      · exact .inl ⟨(hline h).1, (hline h).2, fun s' hs' => by cases hs'; exact hends⟩

theorem stop_of_mem_ofLine {i : Nat × Item} (hi : i.1 = line) (h : i.2 ∈ (ofLine line raw).1) :
    stop i = line := by
  obtain ⟨first, item⟩ := i
  cases item with
  | statement s => exact absurd rfl (not_statement_of_ofLine h s)
  | _ => exact hi

/-- The items that are complete in front of a line, and the statement that may go on there. -/
theorem scan_append (hcurrent : ∀ s ∈ current, s.stop < line) (ls : List (List Char)) :
    ∃ done current', (∀ rest, scan line current (ls ++ rest) =
        done ++ scan (line + ls.length) current' rest) ∧
      (∀ i ∈ done, stop i < line + ls.length) ∧ ∀ s ∈ current', s.stop < line + ls.length := by
  induction ls generalizing line current with
  | nil => exact ⟨[], current, fun rest => rfl, (fun i hi => by cases hi), hcurrent⟩
  | cons raw ls ih =>
    have hnext : ∀ s ∈ (advance line current raw).2, s.stop < line + 1 := fun s hs => by
      rw [stop_advance hs]
      exact Nat.lt_succ_self line
    obtain ⟨done, current', hscan, hdone, hcurrent'⟩ := ih hnext
    have hlength : line + 1 + ls.length = line + (raw :: ls).length := by
      rw [List.length_cons]
      omega
    rw [hlength] at hscan hdone hcurrent'
    refine ⟨(advance line current raw).1 ++ done, current', fun rest => ?_, fun i hi => ?_,
      hcurrent'⟩
    · rw [List.cons_append, scan_cons, hscan, List.append_assoc]
    · rcases List.mem_append.1 hi with hi | hi
      · have hstop : stop i ≤ line := by
          rcases mem_advance hi with ⟨hfirst, hitem, -⟩ | ⟨s, hs, rfl, -⟩
          · exact (stop_of_mem_ofLine hfirst hitem).le
          · exact (hcurrent s hs).le
        rw [List.length_cons]
        omega
      · exact hdone i hi

theorem mem_scan {i : Nat × Item} (h : i ∈ scan line current ls) :
    line ≤ stop i ∨ ∃ s ∈ current, i = (s.start, .statement s) ∧
      ∀ raw ∈ ls.head?, s.continues raw = false := by
  induction ls generalizing line current with
  | nil =>
    cases current with
    | none => cases h
    | some s => exact .inr ⟨s, rfl, List.mem_singleton.1 h, fun raw hraw => by cases hraw⟩
  | cons raw ls ih =>
    rw [scan_cons] at h
    rcases List.mem_append.1 h with h | h
    · rcases mem_advance h with ⟨hfirst, hitem, -⟩ | ⟨s, hs, rfl, hends⟩
      · exact .inl (stop_of_mem_ofLine hfirst hitem).ge
      · exact .inr ⟨s, hs, rfl, fun raw' hraw' => by cases hraw'; exact hends⟩
    · rcases ih h with hlater | ⟨s, hs, rfl, -⟩
      · exact .inl (Nat.le_of_succ_le hlater)
      · exact .inl (stop_advance hs).ge

theorem scan_ends (h : ∀ raw ∈ ls.head?, s.continues raw = false) :
    scan line (some s) ls = (s.start, .statement s) :: scan line none ls := by
  cases ls with
  | nil => rfl
  | cons raw ls =>
    simp [scan_cons, advance, h raw rfl]

end Item

theorem Statement.continues_commented (s : Statement) (raw c : List Char) :
    s.continues (raw ++ commented c) = s.continues raw := by
  by_cases h : trim raw = []
  · simp [continues, h, trim_commented_blank h, mark]
  · rw [continues, head?_trim_commented h, continues]

namespace Item

/-- A line that ends in an `end` or in a statement, behind its annotations. -/
structure Spoken (raw : List Char) : Prop where
  text : ∃ a t, trim raw = a :: t ∧ a ≠ '#'
  rest : ∃ tokens x r, Annot.readAll (trim raw) = (tokens, x :: r) ∧ x ≠ '%'

theorem ofLine_of_readAll {a x : Char} {t r : List Char} {tokens : List Annot}
    (htext : trim raw = a :: t) (ha : a ≠ '#') (hread : Annot.readAll (a :: t) = (tokens, x :: r)) :
    ofLine line raw =
      let lead := if tokens.isEmpty then [] else [annotations tokens]
      if isEnd (x :: r) then (lead ++ [.close], none)
      else (lead, some (.begin line raw (x :: r))) := by
  rw [Nesting.ofLine_other htext ha, hread]
  rfl

theorem spoken (h : .close ∈ (ofLine line raw).1 ∨
    ∃ s ∈ (ofLine line raw).2, Head.ofLine? s.head ≠ none) : Spoken raw := by
  cases htext : trim raw with
  | nil => simp [ofLine, htext] at h
  | cons a t =>
    by_cases ha : a = '#'
    · simp [ofLine, htext, ha] at h
    · refine ⟨⟨a, t, htext, ha⟩, ?_⟩
      rw [htext]
      cases hread : Annot.readAll (a :: t) with
      | mk tokens rest =>
        cases rest with
        | nil =>
          rw [Nesting.ofLine_other htext ha, hread] at h
          by_cases htokens : tokens = [] <;> simp [htokens] at h
        | cons x r =>
          refine ⟨tokens, x, r, rfl, ?_⟩
          -- What no annotation is read from is neither an `end` nor a head.
          rintro rfl
          have hend : isEnd ('%' :: r) = false := rfl
          have hhead : Head.ofLine? ('%' :: r) = none := rfl
          rw [ofLine_of_readAll htext ha hread] at h
          by_cases htokens : tokens = [] <;> simp [hend, htokens, Statement.begin, hhead] at h

theorem ofLine_commented (h : Spoken raw) (line : Nat) (c : List Char) :
    ∃ b, (∀ a ∈ b, isBlank a = true) ∧ ofLine line (raw ++ commented c) =
      ((ofLine line raw).1, (ofLine line raw).2.map fun s =>
        .begin line (raw ++ commented c) (s.head ++ (b ++ ' ' :: mark c))) := by
  obtain ⟨a, t, htext, ha⟩ := h.text
  obtain ⟨tokens, x, r, hread, hx⟩ := h.rest
  obtain ⟨b, hb, htrim⟩ := trim_commented (by simp [htext] : trim raw ≠ []) c
  refine ⟨b, hb, ?_⟩
  rw [htext] at hread htrim
  have hread' : Annot.readAll (a :: t ++ (b ++ ' ' :: mark c)) =
      (tokens, x :: (r ++ (b ++ ' ' :: mark c))) := by
    have := Annot.readAll_append (congrArg Prod.snd hread) hx (b ++ ' ' :: mark c)
    rwa [hread] at this
  have hend : isEnd (x :: (r ++ (b ++ ' ' :: mark c))) = isEnd (x :: r) :=
    isEnd_comment (comment_mark hb c) (x :: r)
  rw [ofLine_of_readAll htrim ha hread', ofLine_of_readAll htext ha hread, hend]
  dsimp only
  split <;> rfl

end Item

/-- `s'` is `s` with a comment behind its last line. -/
structure Statement.Commented (c : List Char) (s s' : Statement) : Prop where
  start : s'.start = s.start
  stop : s'.stop = s.stop
  depth : s'.depth = s.depth + bracketDepth c
  texts : ∃ front, s.texts = front ++ [s.lastText] ∧ s'.texts = front ++ [s'.lastText]
  last : ∃ x, s.lastText <+: x ∧ s'.lastText = x ++ mark c
  head : s'.head = s.head ∨
    s.more = [] ∧ ∃ b, (∀ a ∈ b, isBlank a = true) ∧ s'.head = s.head ++ (b ++ ' ' :: mark c)

namespace Statement

theorem commented_begin (line : Nat) (raw raw' head : List Char) {b : List Char}
    (hb : ∀ a ∈ b, isBlank a = true) :
    Commented c (.begin line raw head) (.begin line raw' (head ++ (b ++ ' ' :: mark c))) where
  start := rfl
  stop := rfl
  depth := by
    show bracketDepth (head ++ (b ++ ' ' :: mark c)) = bracketDepth head + bracketDepth c
    rw [bracketDepth_append, List.append_cons b, bracketDepth_mark,
      bracketDepth_blanks (List.forall_mem_append.2 ⟨hb, by simp [isBlank]⟩), zero_add]
  texts := ⟨[], rfl, rfl⟩
  last := ⟨head ++ (b ++ [' ']), List.prefix_append _ _, by simp [begin, lastText]⟩
  head := .inr ⟨rfl, b, hb, rfl⟩

theorem relative_of_ne {margin : Nat} (h : trim raw ≠ []) :
    relative margin raw = List.replicate (indentation raw - margin) ' ' ++ trim raw := by
  unfold relative
  split
  · next hnil => exact absurd hnil h
  · rfl

theorem relative_commented (margin : Nat) (raw c : List Char) : ∃ x, relative margin raw <+: x ∧
    relative margin (raw ++ commented c) = x ++ mark c := by
  by_cases h : trim raw = []
  · have htrim := trim_commented_blank h c
    have hnil : relative margin raw = [] := by rw [relative, h]
    refine ⟨List.replicate (indentation (raw ++ commented c) - margin) ' ', ?_, ?_⟩
    · rw [hnil]
      exact List.nil_prefix
    · rw [relative_of_ne (htrim ▸ mark_ne_nil c), htrim]
  · obtain ⟨b, -, htrim⟩ := trim_commented h c
    have hne : trim (raw ++ commented c) ≠ [] := by simp [htrim, h]
    refine ⟨relative margin raw ++ (b ++ [' ']), List.prefix_append _ _, ?_⟩
    rw [relative_of_ne hne, relative_of_ne h, htrim, indentation_commented h]
    simp

theorem commented_extend (s : Statement) (line : Nat) (raw c : List Char) :
    Commented c (s.extend line raw) (s.extend line (raw ++ commented c)) where
  start := rfl
  stop := rfl
  depth := by
    show s.depth + bracketDepth (trim (raw ++ commented c)) =
      s.depth + bracketDepth (trim raw) + bracketDepth c
    rw [bracketDepth_trim, bracketDepth_trim, bracketDepth_append, add_assoc]
    rfl
  texts := ⟨s.texts, by simp [texts, extend, lastText], by simp [texts, extend, lastText]⟩
  last := by simpa [extend, lastText] using relative_commented s.margin raw c
  head := .inl rfl

end Statement

namespace Item

/-- What a line makes of the statement in front of it is the same with a comment behind it, but
for the comment. -/
theorem advance_commented (h : s ∈ (advance line current raw).2)
    (hh : Head.ofLine? s.head ≠ none) (c : List Char) : ∃ s', s.Commented c s' ∧
      advance line current (raw ++ commented c) = ((advance line current raw).1, some s') := by
  -- A line that continues no statement begins one.
  have hbegin (h : s ∈ (ofLine line raw).2) : ∃ s', s.Commented c s' ∧
      ofLine line (raw ++ commented c) = ((ofLine line raw).1, some s') := by
    obtain ⟨b, hb, hline⟩ := ofLine_commented (spoken (.inr ⟨s, h, hh⟩)) line c
    rw [Option.mem_def.1 h] at hline
    refine ⟨_, ?_, hline⟩
    conv => arg 2; rw [begin_of_ofLine h]
    exact Statement.commented_begin line raw _ s.head hb
  cases current with
  | none =>
    obtain ⟨s', hs', hline⟩ := hbegin h
    exact ⟨s', hs', by rw [advance, hline]; rfl⟩
  | some s₀ =>
    rw [advance] at h ⊢
    rw [s₀.continues_commented]
    split at h
    · next hgoes =>
      cases h
      exact ⟨_, s₀.commented_extend line raw c, by simp [advance, hgoes]⟩
    · next hends =>
      obtain ⟨s', hs', hline⟩ := hbegin h
      exact ⟨s', hs', by simp [advance, hends, hline]⟩

theorem ofLine_close (h : .close ∈ (ofLine line raw).1) : (ofLine line raw).2 = none := by
  have hspoken := spoken (.inl h)
  obtain ⟨a, t, htext, ha⟩ := hspoken.text
  obtain ⟨tokens, x, r, hread, -⟩ := hspoken.rest
  rw [htext] at hread
  rw [ofLine_of_readAll htext ha hread] at h ⊢
  dsimp only at h ⊢
  split
  · rfl
  · next hend =>
    by_cases htokens : tokens = [] <;> simp [hend, htokens] at h

theorem advance_commented_close (h : .close ∈ (ofLine line raw).1)
    (hcurrent : ∀ s ∈ current, s.continues raw = false) (c : List Char) :
    advance line current (raw ++ commented c) = advance line current raw := by
  obtain ⟨b, -, hline⟩ := ofLine_commented (spoken (.inl h)) line c
  have hsame : ofLine line (raw ++ commented c) = ofLine line raw := by
    rw [hline, ofLine_close h]
    exact Prod.ext rfl (ofLine_close h).symm
  cases current with
  | none => rw [advance, advance, hsame]
  | some s => simp [advance, s.continues_commented, hsame, hcurrent s rfl]

end Item

/-- A comment that may stand behind a statement of the source: what is read off whole lines stays
the same with it. -/
structure Statement.Admits (source : List Char) (s : Statement) (c : List Char) : Prop where
  /-- It leaves no bracket open. -/
  brackets : s.depth + bracketDepth c ≤ 0
  /-- It does not end in a comma, unless no line follows. -/
  comma : s.stop < (lines source).length → (trimRight c).getLast? ≠ some ','
  /-- It ends in an `end` exactly when the line of a container does. -/
  ends : ∀ kind name, Head.ofLine? s.head = some (.container kind name) →
    (beforeEnd? (' ' :: c)).isSome = (beforeEnd? s.lastText).isSome
  /-- It does not close the only back quote of a method's line by one that a colon follows. -/
  quotes : s.more = [] → ∀ name oldName, Head.ofLine? s.head = some (.member .method name oldName) →
    Head.closesQuote c = true → s.head.count Head.quoteMark ≠ 1

namespace Statement

theorem Commented.reworded {source : List Char} {head : Head} (h : s.Commented c s')
    (hc : s.Admits source c) (hs : Tight s.head) (hh : Head.ofLine? s.head = some head)
    (huse : head ≠ .useClause) : s.Reworded s' := by
  obtain ⟨x, hx, hlast⟩ := h.last
  refine ⟨h.start, h.stop, h.depth ▸ hc.brackets, ?_, h.texts, fun kind name hkind => ?_⟩
  · rcases h.head with heq | ⟨hmore, b, hb, heq⟩
    · rw [heq]
    · rw [heq, hh]
      refine Head.ofLine?_comment (comment_mark hb c) hs hh huse fun name oldName hmethod hq => ?_
      exact hc.quotes hmore name oldName (hmethod ▸ hh) (closesQuote_mark hb c ▸ hq)
  · rw [hlast, isSome_beforeEnd?_mark, hc.ends kind name hkind]

theorem Commented.continues {source : List Char} {raw : List Char} (h : s.Commented c s')
    (hc : s.Admits source c) (hstop : s.stop < (lines source).length)
    (hends : s.continues raw = false) : s'.continues raw = false := by
  obtain ⟨x, hx, hlast⟩ := h.last
  have hcomma := (getLast?_mark (a := ',') (by decide) x c).not.2 (hc.comma hstop)
  have hdepth : s'.depth ≤ 0 := h.depth ▸ hc.brackets
  have hbar : (trim raw).head? ≠ some '|' := fun hbar => by
    simp [Statement.continues, hbar] at hends
  rw [← hlast] at hcomma
  simp [Statement.continues, hdepth, hbar, hcomma]

theorem Commented.lastLine_goesOn (h : s.Commented c s') (hw : s.Reworded s') :
    s.lastLine <+: s'.lastLine := by
  obtain ⟨x, hx, hlast⟩ := h.last
  have htext : s.lastText <+: s'.lastText := hlast ▸ hx.trans (List.prefix_append _ _)
  simp only [lastLine, hw.head]
  split
  -- An `end` that closes the container stands behind the comment as well, and is cut off there.
  · next kind name hkind =>
    have hclosed := hw.closed kind name hkind
    cases hbefore : beforeEnd? s.lastText with
    | none =>
      rw [hbefore, Option.isSome_none, Option.isSome_eq_false_iff,
        Option.isNone_iff_eq_none] at hclosed
      simpa [hclosed] using htext
    | some t =>
      rw [hlast, isSome_beforeEnd?_mark, hbefore] at hclosed
      obtain ⟨t₀, ht₀⟩ := Option.isSome_iff_exists.1 hclosed
      obtain ⟨t', ht', hbehind⟩ := beforeEnd?_mark ht₀ x
      simpa [hlast, ht'] using ((beforeEnd?_front hbefore).trans hx).trans hbehind
  · exact htext

end Statement

namespace Item

/-- The items of a source, cut at its line `n`: those that are complete in front of it, and the
statement that may go on there. -/
structure Cut (source : List Char) (n : Nat) (raw : List Char) (after : List (List Char))
    (done : List (Nat × Item)) (current : Option Statement) : Prop where
  line : ∃ before, Text.lines source = before ++ raw :: after ∧ before.length + 1 = n
  complete : ∀ i ∈ done, stop i < n
  unfinished : ∀ s ∈ current, s.stop < n
  items : ofSource source =
    done ++ ((advance n current raw).1 ++ scan (n + 1) (advance n current raw).2 after)
  /-- What more there is on the line changes nothing in front of it. -/
  more : ∀ more, Unbroken more → ofSource (appendToLine more n source) =
    done ++ ((advance n current (raw ++ more)).1 ++
      scan (n + 1) (advance n current (raw ++ more)).2 after)

variable {source : List Char} {after : List (List Char)} {done : List (Nat × Item)}
  {i : Nat × Item}

theorem stop_none : ∀ s ∈ (none : Option Statement), s.stop < 1 := fun s hs => by cases hs

theorem cut_of_lines {before : List (List Char)} (h : Text.lines source = before ++ raw :: after) :
    ∃ done current, Cut source (before.length + 1) raw after done current := by
  obtain ⟨done, current, hscan, hdone, hcurrent⟩ := scan_append stop_none before
  rw [Nat.add_comm 1] at hscan hdone hcurrent
  refine ⟨done, current, ⟨before, h, rfl⟩, hdone, hcurrent, ?_, fun more hmore => ?_⟩
  · rw [ofSource, h, hscan, scan_cons]
  · rw [ofSource, lines_appendToLine hmore h, hscan, scan_cons]

theorem cut_of_mem (h : i ∈ ofSource source) (hi : stop i = n) :
    ∃ raw after done current, Cut source n raw after done current := by
  subst hi
  have hfirst : 1 ≤ stop i := by
    rcases mem_scan h with hfirst | ⟨s, hs, -⟩
    · exact hfirst
    · cases hs
  -- Behind the last line, too, there are items that are complete and a statement in front.
  have hlast : stop i < 1 + (Text.lines source).length := by
    obtain ⟨done, current, hscan, hdone, hcurrent⟩ := scan_append stop_none (Text.lines source)
    rw [ofSource, ← List.append_nil (Text.lines source), hscan] at h
    rcases List.mem_append.1 h with h | h
    · exact hdone i h
    · cases current with
      | none => cases h
      | some s =>
        obtain rfl := List.mem_singleton.1 h
        exact hcurrent s rfl
  have hlt : stop i - 1 < (Text.lines source).length := by omega
  have hsplit : Text.lines source = (Text.lines source).take (stop i - 1) ++
      (Text.lines source)[stop i - 1] :: (Text.lines source).drop (stop i - 1 + 1) := by
    rw [List.getElem_cons_drop, List.take_append_drop]
  obtain ⟨done, current, hcut⟩ := cut_of_lines hsplit
  have hlength : ((Text.lines source).take (stop i - 1)).length + 1 = stop i := by
    rw [List.length_take]
    omega
  exact ⟨_, _, done, current, hlength ▸ hcut⟩

theorem Cut.mem (hcut : Cut source n raw after done current) (h : i ∈ ofSource source)
    (hi : stop i = n) :
    (i.2 ∈ (ofLine n raw).1 ∧ ∀ s ∈ current, s.continues raw = false) ∨
      ∃ s ∈ (advance n current raw).2, i = (s.start, .statement s) ∧
        ∀ raw ∈ after.head?, s.continues raw = false := by
  rw [hcut.items] at h
  rcases List.mem_append.1 h with h | h
  · exact absurd hi (hcut.complete i h).ne
  · rcases List.mem_append.1 h with h | h
    · rcases mem_advance h with ⟨-, hitem, hends⟩ | ⟨s, hs, rfl, -⟩
      · exact .inl ⟨hitem, hends⟩
      · exact absurd hi (hcut.unfinished s hs).ne
    · rcases mem_scan h with hlater | hlast
      · omega
      · exact .inr hlast

theorem unbroken_commented (hc : Unbroken c) : Unbroken (commented c) :=
  unbroken_append.2 ⟨by decide, hc⟩

/-- Behind the end of a container, a comment is no part of any item. -/
theorem ofSource_close (hc : Unbroken c) (h : (n, .close) ∈ ofSource source) :
    ofSource (appendToLine (commented c) n source) = ofSource source := by
  have hstop : stop (n, .close) = n := rfl
  obtain ⟨raw, after, done, current, hcut⟩ := cut_of_mem h hstop
  rcases hcut.mem h hstop with ⟨hclose, hends⟩ | ⟨s, -, hs, -⟩
  · have hline := advance_commented_close hclose hends c
    rw [hcut.more _ (unbroken_commented hc), hline, hcut.items]
  · cases hs

/-- Behind a statement, a comment is a part of it, and of no other item. -/
theorem ofSource_statement (hc : Unbroken c) (h : (line, .statement s) ∈ ofSource source)
    (hh : Head.ofLine? s.head ≠ none) (hadmits : s.Admits source c) :
    ∃ before after s', s.Commented c s' ∧
      ofSource source = before ++ (line, .statement s) :: after ∧
      ofSource (appendToLine (commented c) s.stop source) =
        before ++ (line, .statement s') :: after := by
  have hstop : stop (line, .statement s) = s.stop := rfl
  obtain ⟨raw, after, done, current, hcut⟩ := cut_of_mem h hstop
  rcases hcut.mem h hstop with ⟨hown, -⟩ | ⟨s₀, hs, heq, hends⟩
  · exact absurd rfl (not_statement_of_ofLine hown s)
  · cases heq
    obtain ⟨s', hs', hline⟩ := advance_commented hs hh c
    have hends' : ∀ raw ∈ after.head?, s'.continues raw = false := fun raw' hraw' => by
      refine hs'.continues hadmits ?_ (hends raw' hraw')
      obtain ⟨before, hlines, hn⟩ := hcut.line
      cases after with
      | nil => cases hraw'
      | cons b after =>
        rw [hlines, List.length_append, List.length_cons, List.length_cons]
        omega
    have hitems := hcut.items
    have hmore := hcut.more _ (unbroken_commented hc)
    rw [Option.mem_def.1 hs, scan_ends hends] at hitems
    rw [hline, scan_ends hends'] at hmore
    refine ⟨done ++ (advance s.stop current raw).1, scan (s.stop + 1) none after, s', hs', ?_, ?_⟩
    · simpa using hitems
    · simpa [hs'.start] using hmore

theorem length_lines_commented (hc : Unbroken c) (h : i ∈ ofSource source) (hi : stop i = n) :
    (Text.lines (appendToLine (commented c) n source)).length = (Text.lines source).length := by
  obtain ⟨raw, after, done, current, hcut⟩ := cut_of_mem h hi
  obtain ⟨before, hlines, hn⟩ := hcut.line
  rw [← hn, lines_appendToLine (unbroken_commented hc) hlines, hlines]
  simp

end Item

theorem Items.proper {items : List (Nat × Item)} (h : Items items) : ∀ i ∈ items, i.2.Proper := by
  induction h with
  | nil => exact fun i hi => by cases hi
  | cons proper _ _ ih => exact List.forall_mem_cons.2 ⟨proper, ih⟩

def commentedAt (n : Nat) (c : List Char) (source : String) : String :=
  String.ofList (appendToLine (commented c) n source.toList)

/-- A comment behind the end of a container changes nothing. A comment behind another line of a
source that is accepted, the last of a statement that is no use clause, changes no more than the
last text line that the statement declares, if the statement admits it. -/
theorem parse_commented {file source : String} {f : Forest} (h : parse file source = .ok f)
    {c : List Char} (hc : Unbroken c) :
    (∀ n, (n, .close) ∈ Item.ofSource source.toList →
      parse file (commentedAt n c source) = .ok f) ∧
    ∀ line s, (line, .statement s) ∈ Item.ofSource source.toList →
      Head.ofLine? s.head ≠ some .useClause → s.Admits source.toList c →
      ∃ f' last', parse file (commentedAt s.stop c source) = .ok f' ∧ s.lastLine <+: last' ∧
        f.Reworded (String.ofList s.lastLine) (String.ofList last') f' := by
  obtain ⟨N, hrun, hfinish⟩ := parse_eq_ok_iff.1 h
  refine ⟨fun n hn => ?_, fun line s hs huse hadmits => ?_⟩
  · rw [parse_eq_ok_iff, commentedAt, String.toList_ofList, Item.ofSource_close hc hn,
      Item.length_lines_commented (n := n) hc hn rfl]
    exact ⟨N, hrun, hfinish⟩
  · obtain ⟨head, hh⟩ := (Outline.outline_of_parse h).1.heads line s hs
    obtain ⟨before, after, s', hs', hitems, hitems'⟩ :=
      Item.ofSource_statement hc hs (by simp [hh]) hadmits
    have htight : Tight s.head := ((items_ofSource source.toList).proper _ hs).tight
    have hw := hs'.reworded hadmits htight hh fun hhead => huse (hhead ▸ hh)
    have hlength := Item.length_lines_commented (n := s.stop) hc hs rfl
    rw [hitems] at hrun
    obtain ⟨N', hrun', hN⟩ := Nesting.run_reworded hw huse hrun
    obtain ⟨f', hfinish', hf⟩ := hN.finish hfinish
    refine ⟨f', s'.lastLine, ?_, hs'.lastLine_goesOn hw, hf⟩
    rw [parse_eq_ok_iff, commentedAt, String.toList_ofList, hitems', hlength]
    exact ⟨N', hrun', hfinish'⟩

theorem parse_commented_constant :
    let source := "class A\n  B: T\nend\n"
    let c := "see (B)".toList
    ∃ f, parse "" source = .ok f ∧ parse "" (commentedAt 3 c source) = .ok f ∧
      ∃ f' last', parse "" (commentedAt 2 c source) = .ok f' ∧ "B: T".toList <+: last' ∧
        f.Reworded "B: T" (String.ofList last') f' := by
  intro source c
  let constant : Decl := .leaf .constant { name := "B", text := ["B: T"], location := some ⟨2, 2⟩ }
  let container : Decl := .container .classDecl
    { name := "A", text := ["class A"], location := some ⟨1, 3⟩ } [constant] []
  let s : Statement := ⟨"B: T".toList, [], 2, 2, 2, 0⟩
  have hparse : parse "" source = .ok [container] := by
    simp only [source]
    cbv
  have hitems : Item.ofSource source.toList =
      [(1, .statement ⟨"class A".toList, [], 1, 1, 0, 0⟩), (2, .statement s), (3, .close)] := by
    simp only [source]
    cbv
  have hhead : Head.ofLine? s.head = some (.leaf .constant "B") := by cbv
  have hadmits : s.Admits source.toList c :=
    ⟨by decide, fun _ => by decide, fun kind name h => by simp [hhead] at h,
      fun _ name oldName h => by simp [hhead] at h⟩
  obtain ⟨hend, hstatement⟩ := parse_commented hparse (c := c) (by decide)
  refine ⟨[container], hparse, hend 3 (by simp [hitems]), ?_⟩
  have hlast : s.lastLine = "B: T".toList := by
    simp only [s]
    cbv
  have hword := hstatement 2 s (by simp [hitems]) (by simp [hhead]) hadmits
  rwa [hlast, String.ofList_toList] at hword

/-- An `end` on a container's last line is no `end` any more with a comment behind it. -/
theorem commented_inline_end : ¬ ∀ (file source : String) (f : Forest) (line : Nat) (s : Statement)
    (c : List Char), parse file source = .ok f →
      (line, .statement s) ∈ Item.ofSource source.toList →
      Head.ofLine? s.head ≠ some .useClause → Unbroken c →
      ∃ f', parse file (commentedAt s.stop c source) = .ok f' ∧
        (f' = f ∨ ∃ last last', f.Reworded last last' f') := by
  intro h
  let s : Statement := ⟨"class A end".toList, [], 1, 1, 0, 0⟩
  have hparse : parse "" "class A end\n" = .ok [.container .classDecl
      { name := "A", text := ["class A"], location := some ⟨1, 1⟩ } [] []] := by
    cbv
  have hitem : (1, .statement s) ∈ Item.ofSource "class A end\n".toList := by
    have hitems : Item.ofSource "class A end\n".toList = [(1, .statement s)] := by cbv
    rw [hitems]
    exact List.mem_singleton_self _
  have hhead : Head.ofLine? s.head = some (.container .classDecl "A") := by cbv
  have hcommented : commentedAt 1 "note".toList "class A end\n" = "class A end # note\n" := by
    have hline : appendToLine (commented "note".toList) 1 "class A end\n".toList =
        "class A end # note\n".toList := by cbv
    rw [commentedAt, hline, String.ofList_toList]
  have hfails : parse "" "class A end # note\n" = .error ⟨.missingEnd "A", "", 1⟩ := by cbv
  obtain ⟨f', hf', -⟩ := h "" "class A end\n" _ 1 s "note".toList hparse hitem
    (by simp [hhead]) (by decide)
  rw [hcommented, hfails] at hf'
  cases hf'

end SignatureLayers
