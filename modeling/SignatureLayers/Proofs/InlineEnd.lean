import Mathlib.Algebra.BigOperators.Group.List.Basic
import Mathlib.Algebra.Ring.Int.Defs
import SignatureLayers.Proofs.Scanning

namespace SignatureLayers

open Text

variable {s t v p q : List Char}

namespace Text

theorem trimRight_append (s t : List Char) :
    trimRight (s ++ t) = if trimRight t = [] then trimRight s else s ++ trimRight t := by
  have hleft (s : List Char) : trimRight s = (trimLeft s.reverse).reverse := rfl
  rw [hleft, List.reverse_append, Head.trimLeft_append, hleft t, hleft s]
  simp only [List.reverse_eq_nil_iff]
  split
  · rfl
  · rw [List.reverse_append, List.reverse_reverse]

theorem trimRight_split (s : List Char) :
    ∃ b, (∀ c ∈ b, isBlank c = true) ∧ s = trimRight s ++ b := by
  refine ⟨(s.reverse.takeWhile isBlank).reverse, fun c hc => ?_, ?_⟩
  · exact List.all_eq_true.1 List.all_takeWhile _ (List.mem_reverse.1 hc)
  · rw [trimRight, ← List.reverse_append, List.takeWhile_append_dropWhile, List.reverse_reverse]

theorem trimRight_blanks (h : ∀ c ∈ s, isBlank c = true) : trimRight s = [] := by
  have hleft : trimLeft s.reverse = [] := trimLeft_eq_nil fun c hc => h c (List.mem_reverse.1 hc)
  rw [trimRight, ← trimLeft, hleft, List.reverse_nil]

theorem head?_trimRight {c : Char} (hc : isBlank c = false) (s : List Char) :
    (trimRight (c :: s)).head? = some c := by
  have hone : trimRight [c] = [c] := trimRight_of_last ⟨c, rfl, hc⟩
  rw [← List.singleton_append, trimRight_append]
  split
  · rw [hone]
    rfl
  · rfl

theorem head?_trim (s : List Char) : (trim s).head? = (trimLeft s).head? := by
  rw [trim]
  cases hs : trimLeft s with
  | nil => rfl
  | cons c rest =>
    obtain ⟨b, hb, hblank⟩ := first_trimLeft (s := s) (by simp [hs])
    rw [hs] at hb
    cases hb
    exact head?_trimRight hblank rest

theorem Laid.front (h : Laid (p ++ q)) : Laid (trimRight p) := by
  generalize hl : p ++ q = l at h
  cases h with
  | empty =>
    rw [(List.append_eq_nil_iff.1 hl).1]
    exact .empty
  | text n h =>
    rename_i u
    -- The part ends among the spaces, or in the text behind them.
    rcases List.append_eq_append_iff.1 hl with ⟨a, ha, -⟩ | ⟨a, ha, hu⟩
    · have hblank : ∀ c ∈ p, isBlank c = true := fun c hc => by
        have hmem : c ∈ List.replicate n ' ' := ha ▸ List.mem_append_left a hc
        exact isBlank_of_mem_spaces c hmem
      rw [trimRight_blanks hblank]
      exact .empty
    · cases a with
      | nil =>
        rw [ha, List.append_nil, trimRight_blanks isBlank_of_mem_spaces]
        exact .empty
      | cons c a =>
        obtain ⟨b, hb, hblank⟩ := h.first
        rw [hu] at hb
        cases hb
        have hleft : trimLeft (c :: a) = c :: a := trimLeft_of_first ⟨c, rfl, hblank⟩
        have hne : trimRight (c :: a) ≠ [] := fun hnil => by
          have := head?_trimRight hblank a
          rw [hnil] at this
          cases this
        have htight : Tight (trimRight (c :: a)) := by
          have := tight_trim (s := c :: a)
          rw [trim, hleft] at this
          exact this hne
        rw [ha, trimRight_append, if_neg hne]
        exact .text n htight

end Text

def bracketWeight (c : Char) : Int :=
  if c == '(' || c == '[' || c == '\x7b' then 1
  else if c == ')' || c == ']' || c == '\x7d' then -1
  else 0

theorem bracketDepth_eq_sum (s : List Char) : bracketDepth s = (s.map bracketWeight).sum := by
  have hstep : ∀ (s : List Char) (depth : Int), s.foldl (fun depth c =>
      if c == '(' || c == '[' || c == '\x7b' then depth + 1
      else if c == ')' || c == ']' || c == '\x7d' then depth - 1
      else depth) depth = depth + (s.map bracketWeight).sum := by
    intro s
    induction s with
    | nil => simp
    | cons c s ih =>
      intro depth
      rw [List.foldl_cons, ih, List.map_cons, List.sum_cons, bracketWeight]
      split_ifs <;> omega
  rw [bracketDepth, hstep, zero_add]

theorem bracketDepth_append (s t : List Char) :
    bracketDepth (s ++ t) = bracketDepth s + bracketDepth t := by
  simp [bracketDepth_eq_sum]

theorem bracketDepth_blanks (h : ∀ c ∈ s, isBlank c = true) : bracketDepth s = 0 := by
  rw [bracketDepth_eq_sum]
  apply List.sum_eq_zero
  intro w hw
  obtain ⟨c, hc, rfl⟩ := List.mem_map.1 hw
  have hblank := h c hc
  unfold bracketWeight
  split_ifs with hopen hclose
  · simp only [Bool.or_eq_true, beq_iff_eq] at hopen
    rcases hopen with (rfl | rfl) | rfl <;> cases hblank
  · simp only [Bool.or_eq_true, beq_iff_eq] at hclose
    rcases hclose with (rfl | rfl) | rfl <;> cases hblank
  · rfl

theorem bracketDepth_trim (s : List Char) : bracketDepth (trim s) = bracketDepth s := by
  obtain ⟨b, hb, hright⟩ := trimRight_split (trimLeft s)
  have hleft : s = s.takeWhile isBlank ++ trimLeft s := List.takeWhile_append_dropWhile.symm
  have hblank : ∀ c ∈ s.takeWhile isBlank, isBlank c = true := fun c hc =>
    List.all_eq_true.1 List.all_takeWhile c hc
  conv_rhs => rw [hleft, hright, bracketDepth_append, bracketDepth_append,
    bracketDepth_blanks hblank, bracketDepth_blanks hb, zero_add, add_zero]
  rfl

theorem split_of_beforeEnd? (hs : Laid s) (h : beforeEnd? s = some t) :
    Laid t ∧ ∃ v, s = t ++ v ∧ Apart v ∧ trimLeft v = ['e', 'n', 'd'] ∧ bracketDepth v = 0 := by
  obtain ⟨lead, c, hc, hlead, rfl⟩ := beforeEnd?_eq_some.1 h
  -- The blank in front of the `end` goes with it.
  have hone : trimRight [c] = [] := trimRight_blanks (by simpa using hc)
  rw [hs.trimRight_eq] at hlead
  rw [trimRight_append, if_pos hone]
  obtain ⟨b, hb, hsplit⟩ := trimRight_split lead
  have hblank : ∀ x ∈ b ++ [c], isBlank x = true :=
    List.forall_mem_append.2 ⟨hb, by simpa using hc⟩
  refine ⟨.front (hlead ▸ hs), b ++ [c] ++ ['e', 'n', 'd'], ?_, ?_, ?_, ?_⟩
  · rw [hlead]
    conv_lhs => rw [hsplit]
    simp
  · cases b with
    | nil => exact ⟨c, rfl, hc⟩
    | cons x b => exact ⟨x, rfl, hb x List.mem_cons_self⟩
  · rw [trimLeft_blanks hblank]
    rfl
  · rw [bracketDepth_append, bracketDepth_blanks hblank]
    rfl

theorem notEnd_of_container {k : ContainerKind} {name : String}
    (h : Head.ofLine? s = some (.container k name)) : Item.isEnd s = false := by
  cases s with
  | nil => rfl
  | cons c s =>
    by_cases hc : c = 'e'
    · subst hc
      rcases Head.ofLine?_container.1 h with h | h | h <;> cases h
    · have hafter : after? "end".toList (c :: s) = none := by
        show after? ('e' :: _) (c :: s) = none
        rw [after?, if_neg (Ne.symm hc)]
      rw [Item.isEnd, hafter]
      rfl

theorem Continued.replace_last {depth : Int} {last l l' : List Char} {ls : List (List Char)}
    (h : Continued depth last (ls ++ [l]))
    (hbar : (trim l).head? = some '|' → (trim l').head? = some '|') (laid : Laid l')
    (unbroken : Unbroken l') : Continued depth last (ls ++ [l']) := by
  induction ls generalizing depth last with
  | nil =>
    cases h with
    | cons here _ _ _ => exact .cons (here.imp_right (Or.imp_left hbar)) laid unbroken .nil
  | cons x ls ih =>
    cases h with
    | cons here laid' unbroken' tail => exact .cons here laid' unbroken' (ih tail)

theorem Statement.Proper.wording {s : Statement} (hs : s.Proper) (hdepth : ¬ 0 < s.depth) :
    Wording s.head s.more :=
  ⟨hs.tight, hs.unbroken, hs.notEnd, hs.continued, hs.depth ▸ Int.not_lt.1 hdepth⟩

theorem Wording.cut_head {head : List Char} {k : ContainerKind} {name : String}
    (hw : Wording head []) (hh : Head.ofLine? head = some (.container k name))
    (h : beforeEnd? head = some t) :
    Wording t [] ∧ Head.ofLine? t = some (.container k name) := by
  have hlaidHead : Laid head := .text 0 hw.tight
  obtain ⟨hlaid, v, hsplit, hapart, hend, hweight⟩ := split_of_beforeEnd? hlaidHead h
  have hh' : Head.ofLine? t = some (.container k name) :=
    Head.ofLine?_cut hapart hend (by rw [← hsplit]; exact hh)
  have hdepth : bracketDepth t = bracketDepth head := by
    rw [hsplit, bracketDepth_append, hweight, add_zero]
  refine ⟨⟨hlaid.tight ?_, ?_, notEnd_of_container hh', .nil, ?_⟩, hh'⟩
  · obtain ⟨c, hc, hblank⟩ := hw.tight.first
    cases t with
    | nil => cases hh'
    | cons a t =>
      rw [hsplit] at hc
      exact ⟨c, hc, hblank⟩
  · have hu := hw.unbroken
    rw [hsplit] at hu
    exact (unbroken_append.1 hu).1
  · rw [hdepth]
    exact hw.closed

theorem Wording.cut_last {head l : List Char} {ls : List (List Char)}
    (hw : Wording head (ls ++ [l])) (h : beforeEnd? l = some t) : Wording head (ls ++ [t]) := by
  obtain ⟨hlaid, hunbroken⟩ := hw.continued.forall_mem l (by simp)
  obtain ⟨hlaid, v, hsplit, hapart, hend, hweight⟩ := split_of_beforeEnd? hlaid h
  refine ⟨hw.tight, hw.unbroken, hw.notEnd, hw.continued.replace_last (fun hbar => ?_) hlaid ?_, ?_⟩
  · rw [head?_trim, hsplit, Head.trimLeft_append, hend] at hbar
    rw [head?_trim]
    cases hleft : trimLeft t with
    | nil =>
      rw [hleft, if_pos rfl] at hbar
      cases hbar
    | cons c rest =>
      rw [hleft, if_neg (by simp)] at hbar
      exact hbar
  · rw [hsplit] at hunbroken
    exact (unbroken_append.1 hunbroken).1
  · have hweights : bracketDepth (trim t) = bracketDepth (trim l) := by
      rw [bracketDepth_trim, bracketDepth_trim, hsplit, bracketDepth_append, hweight, add_zero]
    rw [depthAfter_concat, hweights, ← depthAfter_concat]
    exact hw.closed

/-- What a statement says when the `end` behind its last line is cut off. -/
theorem Statement.Proper.cut {s : Statement} {k : ContainerKind} {name : String}
    {texts : List (List Char)} (hs : s.Proper) (hdepth : ¬ 0 < s.depth)
    (hh : Head.ofLine? s.head = some (.container k name)) (h : s.closedTexts? = some texts) :
    ∃ head more, texts = head :: more ∧ Wording head more ∧
      Head.ofLine? head = some (.container k name) := by
  have hw := hs.wording hdepth
  obtain ⟨t, hbefore, htexts⟩ := Option.map_eq_some_iff.1 h
  rw [Statement.lastText] at hbefore
  rw [Statement.texts] at htexts
  rcases List.eq_nil_or_concat' s.more with hmore | ⟨ls, l, hmore⟩
  · rw [hmore] at hw hbefore htexts
    obtain ⟨hcut, hh'⟩ := hw.cut_head hh hbefore
    exact ⟨t, [], htexts.symm, hcut, hh'⟩
  · rw [hmore] at hw hbefore htexts
    rw [List.getLast?_concat] at hbefore
    rw [← List.cons_append, List.dropLast_concat] at htexts
    exact ⟨s.head, ls ++ [t], htexts.symm, hw.cut_last hbefore, hh⟩

end SignatureLayers
