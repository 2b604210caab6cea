import Mathlib.Data.List.DropRight
import SignatureLayers.Proofs.Comments

namespace SignatureLayers

open Text

namespace Text

/-- A text with `more` behind its line `n`, in front of the break. -/
def appendToLine (more : List Char) (n : Nat) : List Char → List Char
  | [] => if n = 1 then more else []
  | '\r' :: '\n' :: rest =>
    if n = 1 then more ++ '\r' :: '\n' :: rest else '\r' :: '\n' :: appendToLine more (n - 1) rest
  | c :: rest =>
    if isBreak c then
      if n = 1 then more ++ c :: rest else c :: appendToLine more (n - 1) rest
    else c :: appendToLine more n rest

/-- A comment as it is put behind a line. -/
def commented (c : List Char) : List Char := " # ".toList ++ c

variable {s t more raw c : List Char}

theorem linesFrom_append (hs : Unbroken s) (cur t : List Char) :
    linesFrom cur (s ++ t) = linesFrom (s.reverse ++ cur) t := by
  induction s generalizing cur with
  | nil => rfl
  | cons a s ih =>
    rw [List.cons_append, linesFrom_of_not_break (hs a List.mem_cons_self),
      ih fun x hx => hs x (List.mem_cons_of_mem a hx)]
    simp

theorem head?_appendToLine (hmore : Unbroken more) (n : Nat) (s : List Char)
    (h : (appendToLine more n s).head? = some '\n') : s.head? = some '\n' := by
  have hhead (t : List Char) (h : (more ++ t).head? = some '\n') : t.head? = some '\n' := by
    cases more with
    | nil => exact h
    | cons a more =>
      cases h
      have := hmore '\n' List.mem_cons_self
      cases this
  unfold appendToLine at h
  split at h
  · split at h
    · exact hhead [] (by simpa using h)
    · cases h
  · split at h
    · exact hhead _ h
    · cases h
  · split at h
    · split at h
      · exact hhead _ h
      · exact h
    · exact h

theorem linesFrom_break {a : Char} {rest : List Char} (ha : isBreak a = true)
    (hrest : ∀ rest', a = '\r' → rest = '\n' :: rest' → False) (cur : List Char) :
    linesFrom cur (a :: rest) = cur.reverse :: linesFrom [] rest := by
  rw [linesFrom, if_pos ha]
  exact hrest

theorem appendToLine_break {a : Char} {rest : List Char} (ha : isBreak a = true)
    (hrest : ∀ rest', a = '\r' → rest = '\n' :: rest' → False) (more : List Char) (n : Nat) :
    appendToLine more n (a :: rest) =
      if n = 1 then more ++ a :: rest else a :: appendToLine more (n - 1) rest := by
  rw [appendToLine, if_pos ha]
  exact hrest

/-- One line of the text goes on, and all others stay as they are. -/
theorem linesFrom_appendToLine (hmore : Unbroken more) {cur : List Char}
    {before after : List (List Char)} (h : linesFrom cur s = before ++ raw :: after) :
    linesFrom cur (appendToLine more (before.length + 1) s) = before ++ (raw ++ more) :: after := by
  -- The lines before it are those that the count passes over, break by break.
  fun_induction linesFrom cur s generalizing before with
  | case1 cur hempty => simp at h
  | case2 cur hempty =>
    obtain ⟨rfl, rfl, rfl⟩ : before = [] ∧ raw = cur.reverse ∧ after = [] := by
      cases before <;> simp_all
    have hline := linesFrom_append hmore cur []
    rw [List.append_nil] at hline
    simpa [appendToLine, hline, linesFrom] using fun hmore hcur => hempty (by simp [hcur])
  | case3 cur rest ih =>
    cases before with
    | nil =>
      obtain ⟨rfl, rfl⟩ := List.cons.inj h
      simp [appendToLine, linesFrom_append hmore, linesFrom]
    | cons l before =>
      obtain ⟨rfl, hafter⟩ := List.cons.inj h
      simp [appendToLine, linesFrom, ih hafter]
  | case4 cur a rest hrest ha ih =>
    rw [appendToLine_break ha hrest]
    cases before with
    | nil =>
      obtain ⟨rfl, rfl⟩ := List.cons.inj h
      simp [linesFrom_append hmore, linesFrom_break ha hrest]
    | cons l before =>
      obtain ⟨rfl, hafter⟩ := List.cons.inj h
      have hrest' : ∀ rest', a = '\r' →
          appendToLine more (before.length + 1) rest = '\n' :: rest' → False := by
        intro rest' hcr hlf
        have hhead := head?_appendToLine hmore (before.length + 1) rest (by rw [hlf]; rfl)
        obtain ⟨rest'', hrest''⟩ := List.head?_eq_some_iff.1 hhead
        exact hrest rest'' hcr hrest''
      simp [linesFrom_break ha hrest', ih hafter]
  | case5 cur a rest hrest ha ih =>
    rw [Bool.not_eq_true] at ha
    have hchar : appendToLine more (before.length + 1) (a :: rest) =
        a :: appendToLine more (before.length + 1) rest := by
      rw [appendToLine, ha]
      · rfl
      · exact hrest
    rw [hchar, linesFrom_of_not_break ha]
    exact ih h

theorem lines_appendToLine (hmore : Unbroken more) {before after : List (List Char)}
    (h : lines s = before ++ raw :: after) :
    lines (appendToLine more (before.length + 1) s) = before ++ (raw ++ more) :: after :=
  linesFrom_appendToLine hmore h

def mark (c : List Char) : List Char := '#' :: trimRight (' ' :: c)

theorem trimRight_twice (s : List Char) : trimRight (trimRight s) = trimRight s := by
  simp only [trimRight, List.reverse_reverse, List.dropWhile_idempotent]

theorem mark_ne_nil (c : List Char) : mark c ≠ [] := List.cons_ne_nil _ _

theorem mark_eq (c : List Char) : mark c = trimRight ('#' :: ' ' :: c) := by
  rw [← List.singleton_append, trimRight_append]
  split
  · next hnil =>
    rw [mark, hnil]
    rfl
  · rfl

theorem trimRight_mark (x c : List Char) : trimRight (x ++ mark c) = x ++ mark c := by
  have hmark : trimRight (mark c) = mark c := by rw [mark_eq, trimRight_twice]
  rw [trimRight_append, hmark, if_neg (mark_ne_nil c)]

theorem trimRight_commented (c : List Char) : trimRight (commented c) = ' ' :: mark c := by
  show trimRight ([' '] ++ '#' :: ' ' :: c) = ' ' :: mark c
  rw [trimRight_append, ← mark_eq, if_neg (mark_ne_nil c)]
  rfl

theorem trimLeft_ne_nil (h : trim raw ≠ []) : trimLeft raw ≠ [] := by
  intro hnil
  rw [trim, hnil] at h
  exact h rfl

theorem trimLeft_eq_nil_of_trim (h : trim raw = []) : trimLeft raw = [] := by
  have hhead := head?_trim raw
  rw [h] at hhead
  exact List.head?_eq_none_iff.1 hhead.symm

theorem trim_commented (h : trim raw ≠ []) (c : List Char) :
    ∃ b, (∀ a ∈ b, isBlank a = true) ∧
      trim (raw ++ commented c) = trim raw ++ (b ++ ' ' :: mark c) := by
  obtain ⟨b, hb, hsplit⟩ := trimRight_split (trimLeft raw)
  refine ⟨b, hb, ?_⟩
  rw [trim, Head.trimLeft_append, if_neg (trimLeft_ne_nil h), trimRight_append,
    trimRight_commented, if_neg (List.cons_ne_nil _ _)]
  conv_lhs => rw [hsplit]
  rw [List.append_assoc, trim]

theorem trim_commented_blank (h : trim raw = []) (c : List Char) :
    trim (raw ++ commented c) = mark c := by
  rw [trim, Head.trimLeft_append, if_pos (trimLeft_eq_nil_of_trim h), mark_eq]
  rfl

theorem head?_trim_commented (h : trim raw ≠ []) (c : List Char) :
    (trim (raw ++ commented c)).head? = (trim raw).head? := by
  obtain ⟨b, -, htrim⟩ := trim_commented h c
  rw [htrim]
  obtain ⟨a, t, hcons⟩ := List.exists_cons_of_ne_nil h
  rw [hcons]
  rfl

theorem indentation_commented (h : trim raw ≠ []) (c : List Char) :
    indentation (raw ++ commented c) = indentation raw := by
  have hne : (raw.takeWhile isBlank).length ≠ raw.length := fun hlength => by
    have hsplit := congrArg List.length
      (List.takeWhile_append_dropWhile (p := isBlank) (l := raw))
    rw [List.length_append] at hsplit
    exact trimLeft_ne_nil h (List.length_eq_zero_iff.1 (by rw [trimLeft]; omega))
  rw [indentation, List.takeWhile_append, if_neg hne, indentation]

theorem comment_mark {b : List Char} (hb : ∀ a ∈ b, isBlank a = true) (c : List Char) :
    Comment (b ++ ' ' :: mark c) := by
  refine ⟨?_, ?_⟩
  · cases b with
    | nil => exact ⟨' ', rfl, rfl⟩
    | cons a b => exact ⟨a, rfl, hb a List.mem_cons_self⟩
  · rw [trimLeft_blanks hb]
    rfl

theorem getLast?_mark {a : Char} (ha : a ≠ '#') (x c : List Char) :
    (x ++ mark c).getLast? = some a ↔ (trimRight c).getLast? = some a := by
  have hmark : (x ++ mark c).getLast? = (mark c).getLast? :=
    List.getLast?_append_of_ne_nil x (List.cons_ne_nil _ _)
  have hspace : trimRight (' ' :: c) = if trimRight c = [] then [] else ' ' :: trimRight c := by
    rw [← List.singleton_append, trimRight_append]
    rfl
  rw [hmark, mark, hspace]
  split
  · next hnil => simpa [hnil] using ha.symm
  · next hne =>
    rw [List.getLast?_cons_of_ne_nil (List.cons_ne_nil _ _), List.getLast?_cons_of_ne_nil hne]

theorem closesQuote_mark {b : List Char} (hb : ∀ a ∈ b, isBlank a = true) (c : List Char) :
    Head.closesQuote (b ++ ' ' :: mark c) = Head.closesQuote c := by
  obtain ⟨b', hb', hsplit⟩ := trimRight_split (' ' :: c)
  have hfront : Head.quoteMark ∉ b ++ [' ', '#'] := fun hmem => by
    rcases List.mem_append.1 hmem with hmem | hmem
    · have hblank := hb _ hmem
      revert hblank
      decide
    · revert hmem
      decide
  have hspace : Head.quoteMark ∉ [' '] := by decide
  calc Head.closesQuote (b ++ ' ' :: mark c)
    _ = Head.closesQuote ((b ++ [' ', '#']) ++ trimRight (' ' :: c)) := by simp [mark]
    _ = Head.closesQuote (trimRight (' ' :: c) ++ b') := by
      rw [Head.closesQuote_append hfront, Head.closesQuote_blanks hb']
    _ = Head.closesQuote ([' '] ++ c) := by rw [← hsplit, List.singleton_append]
    _ = Head.closesQuote c := Head.closesQuote_append hspace c

end Text

theorem bracketDepth_mark (x c : List Char) :
    bracketDepth (x ++ mark c) = bracketDepth x + bracketDepth c := by
  obtain ⟨b, hb, hsplit⟩ := trimRight_split ('#' :: ' ' :: c)
  have hlead : bracketDepth ('#' :: ' ' :: c) = bracketDepth c := by
    show bracketDepth (['#', ' '] ++ c) = bracketDepth c
    rw [bracketDepth_append]
    exact zero_add _
  rw [hsplit, bracketDepth_append, bracketDepth_blanks hb, add_zero] at hlead
  rw [bracketDepth_append, mark_eq, hlead]

theorem beforeEnd?_front {s t : List Char} (h : beforeEnd? s = some t) : t <+: s := by
  obtain ⟨lead, c, -, hs, rfl⟩ := beforeEnd?_eq_some.1 h
  obtain ⟨b, -, hright⟩ := trimRight_split s
  obtain ⟨b', -, hlead⟩ := trimRight_split (lead ++ [c])
  refine ⟨b' ++ ['e', 'n', 'd'] ++ b, ?_⟩
  conv_rhs => rw [hright, hs, ← List.singleton_append, ← List.append_assoc, hlead]
  simp only [List.append_assoc]

theorem beforeEnd?_mark {c t : List Char} (h : beforeEnd? (' ' :: c) = some t) (x : List Char) :
    ∃ t', beforeEnd? (x ++ mark c) = some t' ∧ x <+: t' := by
  obtain ⟨lead, b, hb, hc, -⟩ := beforeEnd?_eq_some.1 h
  have hend : trimRight (x ++ mark c) = (x ++ '#' :: lead) ++ [b, 'e', 'n', 'd'] := by
    rw [trimRight_mark, mark, hc]
    simp
  refine ⟨_, beforeEnd?_eq_some.2 ⟨_, b, hb, hend, rfl⟩, ?_⟩
  have hne : trimRight ('#' :: (lead ++ [b])) ≠ [] := fun hnil => by
    have := head?_trimRight (c := '#') rfl (lead ++ [b])
    rw [hnil] at this
    cases this
  rw [List.append_assoc, List.cons_append, trimRight_append, if_neg hne]
  exact List.prefix_append _ _

theorem beforeEnd?_of_mark {x c t : List Char} (h : beforeEnd? (x ++ mark c) = some t) :
    ∃ t', beforeEnd? (' ' :: c) = some t' := by
  obtain ⟨lead, b, hb, hend, -⟩ := beforeEnd?_eq_some.1 h
  have hne : b ≠ '#' := by
    rintro rfl
    cases hb
  rw [trimRight_mark, mark] at hend
  rcases List.append_eq_append_iff.1 hend with ⟨a, -, ha⟩ | ⟨a, -, ha⟩
  · cases a with
    | nil => exact absurd (List.cons.inj ha).1.symm hne
    | cons x a => exact ⟨_, beforeEnd?_eq_some.2 ⟨a, b, hb, (List.cons.inj ha).2, rfl⟩⟩
  · have hmem : '#' ∈ [b, 'e', 'n', 'd'] := by
      rw [ha]
      exact List.mem_append_right a List.mem_cons_self
    simp [hne.symm] at hmem

theorem isSome_beforeEnd?_mark (x c : List Char) :
    (beforeEnd? (x ++ mark c)).isSome = (beforeEnd? (' ' :: c)).isSome := by
  rw [Bool.eq_iff_iff, Option.isSome_iff_exists, Option.isSome_iff_exists]
  constructor
  · rintro ⟨t, h⟩
    exact beforeEnd?_of_mark h
  · rintro ⟨t, h⟩
    obtain ⟨t', ht', -⟩ := beforeEnd?_mark h x
    exact ⟨t', ht'⟩

end SignatureLayers
