import SignatureLayers.Grammar.Nesting
import SignatureLayers.Proofs.Context
import SignatureLayers.Proofs.Heads

namespace SignatureLayers

open Text

/-- Lines that continue a statement with `depth` open brackets behind the line `last`. -/
inductive Continued : Int → List Char → List (List Char) → Prop
  | nil {depth : Int} {last : List Char} : Continued depth last []
  | cons {depth : Int} {last l : List Char} {ls : List (List Char)}
    (here : 0 < depth ∨ (trim l).head? = some '|' ∨ last.getLast? = some ',')
    (laid : Laid l) (unbroken : Unbroken l)
    (tail : Continued (depth + bracketDepth (trim l)) l ls) : Continued depth last (l :: ls)

def depthAfter (depth : Int) (ls : List (List Char)) : Int :=
  ls.foldl (fun depth l => depth + bracketDepth (trim l)) depth

def Statement.extended (s : Statement) (ls : List (List Char)) : Statement :=
  { s with more := s.more ++ ls, stop := s.stop + ls.length, depth := depthAfter s.depth ls }

/-- The first line of a statement and those behind it. -/
structure Wording (head : List Char) (more : List (List Char)) : Prop where
  tight : Tight head
  unbroken : Unbroken head
  notEnd : Item.isEnd head = false
  continued : Continued (bracketDepth head) head more
  closed : depthAfter (bracketDepth head) more ≤ 0

/-- A comment as it is kept. -/
structure Remark (s : List Char) : Prop where
  mark : s.head? = some '#'
  tight : Tight s
  unbroken : Unbroken s

/-- An annotation that is read back from its token. -/
structure Annot.Legible (a : Annot) : Prop where
  delimited : ∃ opener closer, closer? opener = some closer ∧ closer ∉ a.payload.toList ∧
    a.token.toList = '%' :: 'a' :: opener :: a.payload.toList ++ [closer]
  unbroken : Unbroken a.token.toList

namespace Decl

def said : Decl → Head
  | .container k h _ _ => .container k h.name
  | .leaf .useClause _ => .useClause
  | .leaf k h => .leaf k h.name
  | .member k h oldName => .member k h.name oldName

/-- A declaration that is read back from its lines. -/
structure Legible (d : Decl) : Prop where
  comments : ∀ c ∈ d.header.comments, Remark c.toList
  annotations : ∀ a ∈ d.annotations, a.Legible
  wording : ∃ head more, d.header.text = (head :: more).map String.ofList ∧ Wording head more ∧
    Head.ofLine? head = some d.said ∧
      (d.kind = .leaf .useClause →
        d.name = String.ofList ([' '].intercalate (words ([' '].intercalate (head :: more)))))
  trailing : ∀ c ∈ d.trailing, Remark c.toList

/-- `d'` is written as `d` is, but for annotations that are lost. -/
structure Restates (d d' : Decl) : Prop where
  comments : d'.header.comments = d.header.comments
  annotations : d'.annotations ⊆ d.annotations
  text : d'.header.text = d.header.text
  said : d'.said = d.said
  kind : d'.kind = d.kind
  name : d'.name = d.name

theorem Legible.restated {d d' : Decl} (h : d.Legible) (hr : d.Restates d')
    (htrailing : ∀ c ∈ d'.trailing, Remark c.toList) : d'.Legible where
  comments := hr.comments ▸ h.comments
  annotations a ha := h.annotations a (hr.annotations ha)
  wording := by
    rw [hr.text, hr.said, hr.kind, hr.name]
    exact h.wording
  trailing := htrailing

def lastLine (d : Decl) : List Char := (d.header.text.getLast?.getD "").toList

def EndsInComma (d : Decl) : Prop := d.lastLine.getLast? = some ','

/-- A blank and an `end` behind it close the last line. -/
def EndsInEnd (d : Decl) : Prop :=
  ∃ lead c, isBlank c = true ∧ d.lastLine = lead ++ [c, 'e', 'n', 'd']

theorem EndsInEnd.last {d : Decl} (h : d.EndsInEnd) : d.lastLine.getLast? = some 'd' := by
  obtain ⟨lead, c, -, hlast⟩ := h
  rw [hlast]
  simp

end Decl

/-- An annotation ends at the first closing delimiter that belongs to its opening one. -/
theorem Annot.read?_eq_some_iff {s t : List Char} {a : Annot} : Annot.read? s = some (a, t) ↔
    ∃ opener closer payload, Annot.closer? opener = some closer ∧ closer ∉ payload ∧
      s = '%' :: 'a' :: opener :: (payload ++ closer :: t) ∧
        a = ⟨String.ofList payload, String.ofList ('%' :: 'a' :: opener :: payload ++ [closer])⟩ := by
  constructor
  · intro h
    unfold Annot.read? at h
    split at h
    · next opener rest =>
      obtain ⟨closer, hcloser, h⟩ := Option.bind_eq_some_iff.1 h
      split at h
      · cases h
      · next c after hafter =>
        cases h
        -- What the payload stops at is the closing delimiter.
        have hc : c = closer := by
          have := List.head?_dropWhile_not (fun c => decide (c ≠ closer)) rest
          rw [hafter] at this
          simpa using this
        have hrest : rest = rest.takeWhile (· ≠ closer) ++ closer :: t := by
          conv_lhs => rw [← List.takeWhile_append_dropWhile (p := (· ≠ closer)) (l := rest)]
          rw [hafter, hc]
        have hpayload : closer ∉ rest.takeWhile (· ≠ closer) := fun hmem => by
          have := List.all_eq_true.1 List.all_takeWhile _ hmem
          simp at this
        exact ⟨opener, closer, _, hcloser, hpayload, by rw [← hrest], rfl⟩
    · cases h
  · rintro ⟨opener, closer, payload, hcloser, hpayload, rfl, rfl⟩
    have hne : ∀ c ∈ payload, decide (c ≠ closer) = true := fun c hc => by
      simpa using fun he : c = closer => hpayload (he ▸ hc)
    have hdrop : (payload ++ closer :: t).dropWhile (· ≠ closer) = closer :: t := by
      rw [List.dropWhile_append_of_pos hne]
      simp
    have htake : (payload ++ closer :: t).takeWhile (· ≠ closer) = payload := by
      rw [List.takeWhile_append_of_pos hne]
      simp
    simp only [Annot.read?, hcloser, Option.bind_some, hdrop, htake]

theorem Annot.length_trimLeft_of_read? {s rest : List Char} {a : Annot}
    (h : Annot.read? s = some (a, rest)) : (trimLeft rest).length < s.length :=
  Nat.lt_of_le_of_lt (List.dropWhile_sublist isBlank).length_le (Annot.length_of_read? h)

theorem Annot.readAll_of_none {s : List Char} (h : Annot.read? s = none) :
    Annot.readAll s = ([], s) := by
  unfold Annot.readAll
  split
  · rfl
  · next hsome =>
    rw [h] at hsome
    cases hsome

theorem Annot.readAll_of_some {s rest : List Char} {a : Annot} (h : Annot.read? s = some (a, rest)) :
    Annot.readAll s =
      (a :: (Annot.readAll (trimLeft rest)).1, (Annot.readAll (trimLeft rest)).2) := by
  rw [Annot.readAll]
  split
  · next hnone =>
    rw [h] at hnone
    cases hnone
  · next hsome =>
    rw [h] at hsome
    cases hsome
    rfl

theorem beforeEnd?_eq_some {s t : List Char} :
    beforeEnd? s = some t ↔
      ∃ lead c, isBlank c = true ∧ trimRight s = lead ++ [c, 'e', 'n', 'd'] ∧
        t = trimRight (lead ++ [c]) := by
  unfold beforeEnd?
  constructor
  · intro h
    split at h
    · next c rest hrev =>
      split at h
      · next hc =>
        cases h
        refine ⟨rest.reverse, c, hc, ?_, by simp⟩
        simpa using congrArg List.reverse hrev
      · cases h
    · cases h
  · rintro ⟨lead, c, hc, hs, rfl⟩
    simp [hs, hc]

theorem Continued.forall_mem {depth : Int} {last : List Char} {ls : List (List Char)}
    (h : Continued depth last ls) : ∀ l ∈ ls, Laid l ∧ Unbroken l := by
  induction h with
  | nil => exact fun l hl => by cases hl
  | cons _ laid unbroken _ ih => exact List.forall_mem_cons.2 ⟨⟨laid, unbroken⟩, ih⟩

theorem Wording.forall_mem {head : List Char} {more : List (List Char)} (h : Wording head more) :
    ∀ l ∈ head :: more, Laid l ∧ Unbroken l :=
  List.forall_mem_cons.2 ⟨⟨.text 0 h.tight, h.unbroken⟩, h.continued.forall_mem⟩

theorem Wording.laid_last {head : List Char} {more : List (List Char)} (h : Wording head more) :
    Laid (more.getLast?.getD head) := by
  have hlast : (head :: more).getLast? = some (more.getLast?.getD head) := List.getLast?_cons
  exact (h.forall_mem _ (List.mem_of_getLast? hlast)).1

theorem Decl.lastLine_eq {d : Decl} {head : List Char} {more : List (List Char)}
    (h : d.header.text = (head :: more).map String.ofList) :
    d.lastLine = more.getLast?.getD head := by
  rw [Decl.lastLine, h, List.getLast?_map, List.getLast?_cons]
  exact String.toList_ofList

theorem Decl.Legible.beforeEnd?_lastLine {d : Decl} (h : d.Legible) (hend : ¬ d.EndsInEnd) :
    beforeEnd? d.lastLine = none := by
  obtain ⟨head, more, htext, hw, -, -⟩ := h.wording
  have hlaid : Laid d.lastLine := Decl.lastLine_eq htext ▸ hw.laid_last
  cases hb : beforeEnd? d.lastLine with
  | none => rfl
  | some t =>
    obtain ⟨lead, c, hc, hs, -⟩ := beforeEnd?_eq_some.1 hb
    rw [hlaid.trimRight_eq] at hs
    exact absurd ⟨lead, c, hc, hs⟩ hend

theorem Statement.extended_nil (s : Statement) : s.extended [] = s := by
  simp [Statement.extended, depthAfter]

theorem Statement.extended_cons (s : Statement) (l : List Char) (ls : List (List Char)) :
    s.extended (l :: ls) = (s.extended [l]).extended ls := by
  simp [Statement.extended, depthAfter]
  omega

def indented (m l : List Char) : List Char := if l = [] then [] else m ++ l

section Scanning
variable {m l : List Char} (hm : ∀ c ∈ m, isBlank c = true)
include hm

theorem trim_indented (hl : Laid l) : trim (indented m l) = trim l := by
  cases hl with
  | empty => rfl
  | text n h =>
    have hmn : ∀ c ∈ m ++ List.replicate n ' ', isBlank c = true :=
      List.forall_mem_append.2 ⟨hm, isBlank_of_mem_spaces⟩
    rw [indented, if_neg (by simp [h.ne_nil]), ← List.append_assoc, trim_indent hmn h,
      trim_indent isBlank_of_mem_spaces h]

theorem relative_indented (hl : Laid l) : Statement.relative m.length (indented m l) = l := by
  have htrim := trim_indented hm hl
  cases hl with
  | empty => rfl
  | text n h =>
    rename_i t
    have hmn : ∀ c ∈ m ++ List.replicate n ' ', isBlank c = true :=
      List.forall_mem_append.2 ⟨hm, isBlank_of_mem_spaces⟩
    rw [trim_indent isBlank_of_mem_spaces h] at htrim
    have hindent : indentation (indented m (List.replicate n ' ' ++ t)) = m.length + n := by
      rw [indented, if_neg (by simp [h.ne_nil]), ← List.append_assoc, indentation_indent hmn h]
      simp
    unfold Statement.relative
    rw [htrim, hindent, Nat.add_sub_cancel_left]
    cases t with
    | nil => exact absurd rfl h.ne_nil
    | cons => rfl

theorem scan_more {s : Statement} {line : Nat} {ls rest : List (List Char)}
    (hs : s.margin = m.length) (hstop : s.stop + 1 = line)
    (hc : Continued s.depth s.lastText ls)
    (hrest : ∀ r ∈ rest.head?, (s.extended ls).continues r = false) :
    Item.scan line (some s) (ls.map (indented m) ++ rest) =
      (s.start, .statement (s.extended ls)) :: Item.scan (line + ls.length) none rest := by
  induction ls generalizing s line with
  | nil =>
    rw [Statement.extended_nil] at hrest ⊢
    cases rest with
    | nil => rfl
    | cons r rest => simp [Item.scan, hrest r rfl]
  | cons l ls ih =>
    cases hc with
    | cons here laid unbroken tail =>
    -- A line continues the statement for the same reason at any indentation.
    have hcontinues : s.continues (indented m l) = true := by
      simp only [Statement.continues, trim_indented hm laid, Bool.or_eq_true, decide_eq_true_eq,
        beq_iff_eq]
      tauto
    have hrelative : Statement.relative s.margin (indented m l) = l :=
      hs ▸ relative_indented hm laid
    have hextend : s.extend line (indented m l) = s.extended [l] := by
      rw [Statement.extend, trim_indented hm laid, hrelative, ← hstop]
      rfl
    have hlast : (s.extended [l]).lastText = l := by simp [Statement.extended, Statement.lastText]
    have hnext : line + 1 + ls.length = line + (ls.length + 1) := by omega
    have hextended := s.extended_cons l ls
    rw [hextended] at hrest ⊢
    rw [List.map_cons, List.cons_append, Item.scan, if_pos hcontinues, hextend,
      ih (s := s.extended [l]) hs (congrArg (· + 1) hstop) (hlast.symm ▸ tail) hrest,
      List.length_cons, hnext]
    rfl

end Scanning
end SignatureLayers
