import Mathlib.Data.List.Basic
import Mathlib.Data.String.Basic
import SignatureLayers.Store.Tree

namespace SignatureLayers

theorem mem_intercalate {α : Type} {sep : List α} {c : α} (hc : c ∉ sep) (ls : List (List α)) :
    c ∈ sep.intercalate ls ↔ ∃ l ∈ ls, c ∈ l := by
  induction ls with
  | nil => simp
  | cons l ls ih =>
    cases ls with
    | nil => simp
    | cons l' ls => rw [List.intercalate_cons_cons, List.mem_append, List.mem_append, ih]; simp [hc]

namespace Path

def below (p : Path) (names : List String) : Path := { p with parts := p.parts ++ names }

theorem below_cons (p : Path) (name : String) (names : List String) :
    p.below (name :: names) = (p.child name).below names := by simp [below, child]

theorem below_injective (p : Path) : Function.Injective p.below := fun _ _ h =>
  List.append_cancel_left (congrArg parts h)

theorem toList_text (p : Path) : p.text.toList =
    if p.anchor = "" ∧ p.parts = [] then ['.']
    else p.anchor.toList ++ ['/'].intercalate (p.parts.map String.toList) := by
  rw [text]
  by_cases h : p.anchor = "" ∧ p.parts = []
  · simp [h.1, h.2]
  · rw [if_neg h, if_neg (by simpa using h), String.toList_append, String.toList_intercalate]
    rfl

theorem fault?_eq_unnameable_iff (p : Path) : p.fault? = some .unnameable ↔
    '\x00' ∈ p.anchor.toList ∨ ∃ part ∈ p.parts, '\x00' ∈ part.toList := by
  have hfault : p.fault? = some .unnameable ↔ '\x00' ∈ p.text.toList := by
    rw [fault?, String.contains_char_eq]
    by_cases hmem : '\x00' ∈ p.text.toList
    · simp [hmem]
    · by_cases hlong : longestPath < p.text.utf8ByteSize <;> simp [hmem, hlong]
  rw [hfault, toList_text]
  split
  · next h => simp [h.1, h.2]
  · rw [List.mem_append, mem_intercalate (by decide)]
    simp

theorem fault?_child_ne_unnameable {p : Path} {name : String} (hp : p.fault? ≠ some .unnameable)
    (hname : '\x00' ∉ name.toList) : (p.child name).fault? ≠ some .unnameable := by
  rw [Ne, fault?_eq_unnameable_iff] at hp ⊢
  simp only [child, List.mem_append, List.mem_singleton]
  grind

theorem cancel_cons (done : List String) (name : String) (rest : List String) :
    cancel done (name :: rest) =
      cancel (if name = ".." then done.tail else name :: done) rest := by
  split
  · next hdots => rw [hdots, cancel]
  · next hdots => exact cancel.eq_3 done name rest hdots

open String in
theorem splitOnAux_of_notMem {l r : List Char} (h : '/' ∉ r) :
    splitOnAux (ofList (l ++ r)) "/" 0 ⟨utf8Len l⟩ 0 [] = [ofList (l ++ r)] := by
  induction r generalizing l with
  | nil =>
    have hend : Pos.Raw.atEnd (ofList (l ++ [])) ⟨utf8Len l⟩ = true := by simp
    have hall := extract_of_valid [] (l ++ []) []
    rw [splitOnAux, if_pos hend]
    simpa using hall
  | cons c r ih =>
    obtain ⟨hc, hr⟩ := not_or.1 (mt List.mem_cons.2 h)
    have hopen : ¬ Pos.Raw.atEnd (ofList (l ++ c :: r)) ⟨utf8Len l⟩ = true := by
      rw [atEnd_of_valid]
      exact List.cons_ne_nil c r
    have hget : ¬ (Pos.Raw.get (ofList (l ++ c :: r)) ⟨utf8Len l⟩ == Pos.Raw.get "/" 0) = true := by
      rw [get_of_valid, show Pos.Raw.get "/" 0 = '/' from rfl]
      simpa using Ne.symm hc
    have hnext : Pos.Raw.next (ofList (l ++ c :: r)) (Pos.Raw.unoffsetBy ⟨utf8Len l⟩ 0) =
        ⟨utf8Len (l ++ [c])⟩ := by
      simpa using next_of_valid l c r
    rw [splitOnAux, if_neg hopen, if_neg hget, hnext]
    simpa using @ih (l ++ [c]) hr

open String in
theorem ofText_of_notMem {name : String} (h : '/' ∉ name.toList) (hempty : name ≠ "")
    (hdot : name ≠ ".") : ofText name = ⟨"", [name]⟩ := by
  have hsplit : name.splitOn "/" = [name] := by
    have haux := @splitOnAux_of_notMem [] name.toList h
    rw [List.nil_append, ofList_toList] at haux
    exact haux
  have hstart {front : String} (hfront : '/' ∈ front.toList) : name.startsWith front = false :=
    startsWith_string_eq_false_iff.2 fun hstarts => h (hstarts.subset hfront)
  rw [ofText, hstart (by decide), hstart (by decide), hstart (by decide), hsplit]
  simp [hempty, hdot]

/-- Why a relative path is refused, by its characters. -/
theorem fault?_relative {parts : List String} (h : parts ≠ []) :
    Path.fault? ⟨"", parts⟩ =
      let text := ['/'].intercalate (parts.map String.toList)
      if '\x00' ∈ text then some .unnameable
      else if longestPath < String.utf8Len text then some .tooLong else none := by
  have htext : (Path.text ⟨"", parts⟩).toList = ['/'].intercalate (parts.map String.toList) := by
    rw [toList_text, if_neg (by simp [h])]
    rfl
  have hsize : (Path.text ⟨"", parts⟩).utf8ByteSize =
      String.utf8Len (Path.text ⟨"", parts⟩).toList := by
    rw [← String.utf8ByteSize_ofList, String.ofList_toList]
  rw [Path.fault?, hsize, String.contains_char_eq, htext]
  simp only [decide_eq_true_eq]

end Path
end SignatureLayers
