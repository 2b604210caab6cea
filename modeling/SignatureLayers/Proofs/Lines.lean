import Mathlib.Data.List.Basic
import SignatureLayers.Text.Blank

namespace SignatureLayers.Text

/-- A text that neither begins nor ends with a blank, and is not empty. -/
structure Tight (s : List Char) : Prop where
  first : ∃ c ∈ s.head?, isBlank c = false
  last : ∃ c ∈ s.getLast?, isBlank c = false

def Unbroken (s : List Char) : Prop := ∀ c ∈ s, isBreak c = false

instance : DecidablePred Unbroken := fun s =>
  decidable_of_iff (s.all fun c => !isBreak c) (by simp [Unbroken])

/-- Nothing, or a text behind some spaces: what is left of a line that is set against another. -/
inductive Laid : List Char → Prop
  | empty : Laid []
  | text (n : Nat) {s : List Char} (h : Tight s) : Laid (List.replicate n ' ' ++ s)

variable {s t m : List Char}

theorem trimLeft_of_first (h : ∃ c ∈ s.head?, isBlank c = false) : trimLeft s = s := by
  obtain ⟨c, hc, hblank⟩ := h
  cases s with
  | nil => cases hc
  | cons a s =>
    cases hc
    rw [trimLeft, List.dropWhile_cons, hblank]
    rfl

theorem trimRight_of_last (h : ∃ c ∈ s.getLast?, isBlank c = false) : trimRight s = s := by
  have hrev : trimLeft s.reverse = s.reverse :=
    trimLeft_of_first (by simpa only [List.head?_reverse] using h)
  rw [trimRight, ← trimLeft, hrev, List.reverse_reverse]

theorem trimLeft_blanks (hm : ∀ c ∈ m, isBlank c = true) (s : List Char) :
    trimLeft (m ++ s) = trimLeft s := by
  rw [trimLeft, List.dropWhile_append_of_pos hm, trimLeft]

theorem Tight.trim (h : Tight s) : trim s = s := by
  rw [Text.trim, trimLeft_of_first h.first, trimRight_of_last h.last]

theorem Tight.ne_nil (h : Tight s) : s ≠ [] := by
  rintro rfl
  obtain ⟨c, hc, -⟩ := h.first
  cases hc

theorem trim_indent (hm : ∀ c ∈ m, isBlank c = true) (h : Tight s) : trim (m ++ s) = s := by
  rw [trim, trimLeft_blanks hm, ← trim, h.trim]

theorem trimLeft_eq_nil (hm : ∀ c ∈ m, isBlank c = true) : trimLeft m = [] := by
  have := trimLeft_blanks hm []
  rwa [List.append_nil] at this

theorem isBlank_of_mem_spaces {n : Nat} : ∀ c ∈ List.replicate n ' ', isBlank c = true := by
  intro c hc
  rw [List.eq_of_mem_replicate hc]
  rfl

theorem indentation_indent (hm : ∀ c ∈ m, isBlank c = true) (h : Tight s) :
    indentation (m ++ s) = m.length := by
  obtain ⟨c, hc, hblank⟩ := h.first
  cases s with
  | nil => cases hc
  | cons a s =>
    cases hc
    rw [indentation, List.takeWhile_append_of_pos hm, List.takeWhile_cons, hblank]
    simp

theorem first_trimLeft (h : trimLeft s ≠ []) : ∃ c ∈ (trimLeft s).head?, isBlank c = false := by
  cases hs : trimLeft s with
  | nil => exact absurd hs h
  | cons c rest =>
    refine ⟨c, rfl, ?_⟩
    have := List.head?_dropWhile_not isBlank s
    rw [← trimLeft, hs] at this
    simpa using this

theorem last_trimLeft (hs : ∃ c ∈ s.getLast?, isBlank c = false) (h : trimLeft s ≠ []) :
    ∃ c ∈ (trimLeft s).getLast?, isBlank c = false := by
  obtain ⟨c, hc, hblank⟩ := hs
  have hsplit : s.takeWhile isBlank ++ trimLeft s = s := List.takeWhile_append_dropWhile
  refine ⟨c, ?_, hblank⟩
  rw [← hsplit, List.getLast?_append] at hc
  cases hl : (trimLeft s).getLast? with
  | none => exact absurd (List.getLast?_eq_none_iff.1 hl) h
  | some a =>
    rw [hl] at hc
    exact hc

theorem tight_trim (h : trim s ≠ []) : Tight (trim s) := by
  have hleft : trimLeft s ≠ [] := by
    intro hs
    rw [trim, hs] at h
    exact h rfl
  -- Trimming the reverse on its left is trimming on the right.
  have hrev : (trim s).reverse = trimLeft (trimLeft s).reverse := by
    rw [trim, trimRight, List.reverse_reverse, ← trimLeft]
  have hne : trimLeft (trimLeft s).reverse ≠ [] := by
    rw [← hrev]
    simpa using h
  obtain ⟨c, hc, hblank⟩ := first_trimLeft hleft
  constructor
  · obtain ⟨c', hc', hblank'⟩ := last_trimLeft (s := (trimLeft s).reverse)
      ⟨c, by simpa only [List.getLast?_reverse] using hc, hblank⟩ hne
    rw [← hrev, List.getLast?_reverse] at hc'
    exact ⟨c', hc', hblank'⟩
  · obtain ⟨c', hc', hblank'⟩ := first_trimLeft hne
    rw [← hrev, List.head?_reverse] at hc'
    exact ⟨c', hc', hblank'⟩

theorem Tight.last_indent (h : Tight s) (m : List Char) :
    ∃ c ∈ (m ++ s).getLast?, isBlank c = false := by
  obtain ⟨c, hc, hblank⟩ := h.last
  refine ⟨c, ?_, hblank⟩
  rw [List.getLast?_append, Option.mem_def.1 hc]
  rfl

theorem Laid.trimRight_eq (h : Laid s) : trimRight s = s := by
  cases h with
  | empty => rfl
  | text n h => exact trimRight_of_last (h.last_indent _)

theorem Laid.tight (h : Laid s) (hfirst : ∃ c ∈ s.head?, isBlank c = false) : Tight s := by
  refine ⟨hfirst, ?_⟩
  obtain ⟨c, hc, hblank⟩ := hfirst
  cases h with
  | empty => cases hc
  | text n h => exact h.last_indent _

theorem unbroken_append : Unbroken (s ++ t) ↔ Unbroken s ∧ Unbroken t := List.forall_mem_append

theorem unbroken_spaces (n : Nat) : Unbroken (List.replicate n ' ') := by
  intro c hc
  rw [List.eq_of_mem_replicate hc]
  rfl

theorem linesFrom_of_not_break {c : Char} (h : isBreak c = false) (cur s : List Char) :
    linesFrom cur (c :: s) = linesFrom (c :: cur) s := by
  rw [linesFrom, h]
  · rfl
  · rintro rest rfl -
    cases h

theorem linesFrom_line (h : Unbroken s) (cur rest : List Char) :
    linesFrom cur (s ++ '\n' :: rest) = (cur.reverse ++ s) :: linesFrom [] rest := by
  induction s generalizing cur with
  | nil =>
    rw [List.nil_append, linesFrom, List.append_nil]
    · rfl
    · rintro _ hc
      cases hc
  | cons c s ih =>
    have hc : isBreak c = false := h c List.mem_cons_self
    rw [List.cons_append, linesFrom_of_not_break hc, ih fun d hd => h d (List.mem_cons_of_mem c hd)]
    simp

theorem lines_unlines {ls : List (List Char)} (h : ∀ l ∈ ls, Unbroken l) :
    lines (ls.flatMap (· ++ ['\n'])) = ls := by
  induction ls with
  | nil => rfl
  | cons l ls ih =>
    rw [List.flatMap_cons, List.append_assoc, List.singleton_append, lines,
      linesFrom_line (h l List.mem_cons_self), List.reverse_nil, List.nil_append]
    exact congrArg (l :: ·) (ih fun l hl => h l (List.mem_cons_of_mem _ hl))

theorem unbroken_of_mem_linesFrom {cur l : List Char} (hcur : Unbroken cur)
    (h : l ∈ linesFrom cur s) : Unbroken l := by
  have hreverse : Unbroken cur.reverse := fun c hc => hcur c (List.mem_reverse.1 hc)
  have hnil : Unbroken [] := fun c hc => by cases hc
  fun_induction linesFrom cur s with
  | case1 cur hempty => cases h
  | case2 cur hempty =>
    rw [List.mem_singleton.1 h]
    exact hreverse
  | case3 cur rest ih =>
    rcases List.mem_cons.1 h with rfl | h
    · exact hreverse
    · exact ih hnil h hnil
  | case4 cur c rest hrest hc ih =>
    rcases List.mem_cons.1 h with rfl | h
    · exact hreverse
    · exact ih hnil h hnil
  | case5 cur c rest hrest hc ih =>
    have hcons : Unbroken (c :: cur) := by
      intro d hd
      rcases List.mem_cons.1 hd with rfl | hd
      · simpa using hc
      · exact hcur d hd
    exact ih hcons h fun d hd => hcons d (List.mem_reverse.1 hd)

theorem unbroken_of_mem_lines {l : List Char} (h : l ∈ lines s) : Unbroken l :=
  unbroken_of_mem_linesFrom (fun c hc => by cases hc) h

end SignatureLayers.Text
