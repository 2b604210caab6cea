import SignatureLayers.Directive
import SignatureLayers.Proofs.Lines

namespace SignatureLayers

open Text

namespace Directive

def Blanks (s : List Char) : Prop := ∀ c ∈ s, isBlank c = true

/-- An anchor in parentheses, with blanks around it. -/
inductive Bracketed (anchor : String) : List Char → Prop
  | intro {left right : List Char} (hleft : Blanks left) (hright : Blanks right)
    (hne : anchor ≠ "") (hanchor : ∀ c ∈ anchor.toList, c ≠ '(' ∧ c ≠ ')' ∧ isBlank c = false) :
    Bracketed anchor ('(' :: left ++ anchor.toList ++ right ++ [')'])

/-- A directive in words. -/
inductive Phrase : Directive → List Char → Prop
  | override : Phrase .override "override".toList
  | delete : Phrase .delete "delete".toList
  | after {anchor : String} {s : List Char} (h : Bracketed anchor s) :
    Phrase (.placed .after anchor) ("append_after".toList ++ s)
  | before {anchor : String} {s : List Char} (h : Bracketed anchor s) :
    Phrase (.placed .before anchor) ("prepend_before".toList ++ s)

/-- A payload states a directive: its words behind `patch:`, with blanks around all of it. -/
inductive States (d : Directive) : List Char → Prop
  | intro {before phrase after : List Char} (hbefore : Blanks before) (h : Phrase d phrase)
    (hafter : Blanks after) : States d (before ++ "patch:".toList ++ phrase ++ after)

variable {s t rest : List Char} {anchor payload : String} {d : Directive}

theorem all_isBlank_iff : s.all isBlank = true ↔ Blanks s := List.all_eq_true

theorem trimLeft_eq_cons_iff {c : Char} (hc : isBlank c = false) :
    trimLeft s = c :: t ↔ ∃ b, Blanks b ∧ s = b ++ c :: t := by
  constructor
  · intro h
    refine ⟨s.takeWhile isBlank, List.all_eq_true.1 List.all_takeWhile, ?_⟩
    rw [← h, trimLeft, List.takeWhile_append_dropWhile]
  · rintro ⟨b, hb, rfl⟩
    rw [trimLeft_blanks hb, trimLeft_of_first ⟨c, rfl, hc⟩]

theorem isAnchorChar_iff {c : Char} :
    isAnchorChar c = true ↔ c ≠ '(' ∧ c ≠ ')' ∧ isBlank c = false := by
  simp [isAnchorChar, and_assoc]

theorem takeWhile_anchor (hs : ∀ c ∈ s, isAnchorChar c = true)
    (ht : ∀ c ∈ t.head?, isAnchorChar c = false) :
    (s ++ t).takeWhile isAnchorChar = s ∧ (s ++ t).dropWhile isAnchorChar = t := by
  rw [List.takeWhile_append_of_pos hs, List.dropWhile_append_of_pos hs]
  cases t with
  | nil => simp
  | cons c t =>
    have hc : isAnchorChar c = false := ht c rfl
    simp [hc]

theorem bracketed_of_readAnchor? (h : readAnchor? s = some anchor) :
    ∃ p rest, Bracketed anchor p ∧ Blanks rest ∧ s = p ++ rest := by
  unfold readAnchor? at h
  split at h
  · next s =>
    simp only at h
    split at h
    · next c w rest hword hclose =>
      split at h
      · next hrest =>
        obtain rfl := Option.some.inj h
        rw [hword]
        -- The anchor with what follows it, and then the blanks before and behind it.
        have hanchor : ∀ a ∈ c :: w, isAnchorChar a = true := by
          rw [← hword]
          exact List.all_eq_true.1 List.all_takeWhile
        obtain ⟨right, hright, hbehind⟩ := (trimLeft_eq_cons_iff (by decide)).1 hclose
        have hsplit : trimLeft s = c :: (w ++ (right ++ ')' :: rest)) := by
          rw [← List.cons_append, ← hword, ← hbehind, List.takeWhile_append_dropWhile]
        have hc := isAnchorChar_iff.1 (hanchor c List.mem_cons_self)
        obtain ⟨left, hleft, rfl⟩ := (trimLeft_eq_cons_iff hc.2.2).1 hsplit
        refine ⟨_, rest, .intro hleft hright ?_ ?_, all_isBlank_iff.1 hrest, ?_⟩
        · simp [← String.toList_inj]
        · rw [String.toList_ofList]
          exact fun a ha => isAnchorChar_iff.1 (hanchor a ha)
        · simp
      · cases h
    · cases h
  · cases h

theorem not_isAnchorChar_behind (rest : List Char) {right : List Char} (hright : Blanks right) :
    ∀ a ∈ (right ++ ')' :: rest).head?, isAnchorChar a = false := by
  intro a ha
  cases right with
  | nil =>
    cases ha
    rfl
  | cons b right =>
    cases ha
    simp [isAnchorChar, hright a List.mem_cons_self]

theorem readAnchor?_bracketed {p : List Char} (h : Bracketed anchor p) (hrest : Blanks rest) :
    readAnchor? (p ++ rest) = some anchor := by
  obtain ⟨hleft, hright, hne, hanchor⟩ := h
  rename_i left right
  obtain ⟨c, w, hword⟩ : ∃ c w, anchor.toList = c :: w :=
    List.exists_cons_of_ne_nil (by simpa using hne)
  rw [hword] at hanchor ⊢
  have hopen : trimLeft (left ++ (c :: w ++ (right ++ ')' :: rest))) =
      c :: w ++ (right ++ ')' :: rest) :=
    (trimLeft_eq_cons_iff (hanchor c List.mem_cons_self).2.2).2 ⟨left, hleft, rfl⟩
  have hclose : trimLeft (right ++ ')' :: rest) = ')' :: rest :=
    (trimLeft_eq_cons_iff (by decide)).2 ⟨right, hright, rfl⟩
  obtain ⟨htake, hdrop⟩ := takeWhile_anchor (fun a ha => isAnchorChar_iff.2 (hanchor a ha))
    (not_isAnchorChar_behind rest hright)
  have hshape : '(' :: left ++ (c :: w) ++ right ++ [')'] ++ rest =
      '(' :: (left ++ (c :: w ++ (right ++ ')' :: rest))) := by simp
  rw [hshape, readAnchor?]
  simp only [hopen, htake, hdrop, hclose, all_isBlank_iff.2 hrest, if_true]
  rw [← hword, String.ofList_toList]

theorem readAnchor?_eq_some_iff :
    readAnchor? s = some anchor ↔ ∃ p rest, Bracketed anchor p ∧ Blanks rest ∧ s = p ++ rest := by
  refine ⟨bracketed_of_readAnchor?, ?_⟩
  rintro ⟨p, rest, hp, hrest, rfl⟩
  exact readAnchor?_bracketed hp hrest

theorem after?_trimLeft_iff {c : Char} {lead : List Char} (hlead : lead.head? = some c)
    (hc : isBlank c = false) :
    after? lead (trimLeft s) = some rest ↔ ∃ b, Blanks b ∧ s = b ++ lead ++ rest := by
  cases lead with
  | nil => cases hlead
  | cons a lead =>
    cases hlead
    rw [after?_eq_some_iff, List.cons_append, trimLeft_eq_cons_iff hc]
    simp only [List.append_assoc, List.cons_append]

theorem states_of_ofPayload? (h : ofPayload? payload = some d) : States d payload.toList := by
  obtain ⟨s, hpatch, h⟩ := Option.bind_eq_some_iff.1 h
  obtain ⟨before, hbefore, hsplit⟩ := (after?_trimLeft_iff rfl (by decide)).1 hpatch
  obtain ⟨phrase, after, hphrase, hafter, rfl⟩ :
      ∃ phrase after, Phrase d phrase ∧ Blanks after ∧ s = phrase ++ after := by
    split at h
    · next after hs =>
      split at h
      · next hafter =>
        cases h
        exact ⟨_, after, .override, all_isBlank_iff.1 hafter, after?_eq_some_iff.1 hs⟩
      · cases h
    split at h
    · next after hs =>
      split at h
      · next hafter =>
        cases h
        exact ⟨_, after, .delete, all_isBlank_iff.1 hafter, after?_eq_some_iff.1 hs⟩
      · cases h
    split at h
    · next r hs =>
      obtain ⟨anchor, hanchor, rfl⟩ := Option.map_eq_some_iff.1 h
      obtain ⟨p, after, hp, hafter, rfl⟩ := readAnchor?_eq_some_iff.1 hanchor
      exact ⟨_, after, .after hp, hafter, by rw [after?_eq_some_iff.1 hs, List.append_assoc]⟩
    · obtain ⟨r, hs, h⟩ := Option.bind_eq_some_iff.1 h
      obtain ⟨anchor, hanchor, rfl⟩ := Option.map_eq_some_iff.1 h
      obtain ⟨p, after, hp, hafter, rfl⟩ := readAnchor?_eq_some_iff.1 hanchor
      exact ⟨_, after, .before hp, hafter, by rw [after?_eq_some_iff.1 hs, List.append_assoc]⟩
  rw [hsplit, ← List.append_assoc]
  exact .intro hbefore hphrase hafter

theorem ofPayload?_of_states (h : States d payload.toList) : ofPayload? payload = some d := by
  rw [ofPayload?, Option.bind_eq_some_iff]
  generalize payload.toList = s at h ⊢
  obtain ⟨hbefore, hphrase, hafter⟩ := h
  rename_i before phrase after
  refine ⟨phrase ++ after, (after?_trimLeft_iff rfl (by decide)).2 ⟨before, hbefore, ?_⟩, ?_⟩
  · rw [List.append_assoc]
  have hread {anchor : String} {s : List Char} (h : Bracketed anchor s) :
      readAnchor? (s ++ after) = some anchor :=
    readAnchor?_eq_some_iff.2 ⟨s, after, h, hafter, rfl⟩
  -- A word that is tried before the right one fails at its first letter that differs.
  cases hphrase with
  | override =>
    rw [after?_eq_some_iff.2 rfl]
    exact if_pos (all_isBlank_iff.2 hafter)
  | delete =>
    have hoverride : after? "override".toList ("delete".toList ++ after) = none := rfl
    rw [hoverride, after?_eq_some_iff.2 rfl]
    exact if_pos (all_isBlank_iff.2 hafter)
  | @after anchor s h =>
    rw [List.append_assoc]
    have hoverride : after? "override".toList ("append_after".toList ++ (s ++ after)) = none := rfl
    have hdelete : after? "delete".toList ("append_after".toList ++ (s ++ after)) = none := rfl
    simp only [hoverride, hdelete, after?_eq_some_iff.2 rfl, hread h, Option.map_some]
  | @before anchor s h =>
    rw [List.append_assoc]
    have hoverride : after? "override".toList ("prepend_before".toList ++ (s ++ after)) = none :=
      rfl
    have hdelete : after? "delete".toList ("prepend_before".toList ++ (s ++ after)) = none := rfl
    have happend : after? "append_after".toList ("prepend_before".toList ++ (s ++ after)) = none :=
      rfl
    simp only [hoverride, hdelete, happend, after?_eq_some_iff.2 rfl, hread h, Option.bind_some,
      Option.map_some]

/-- What is read is what is stated. -/
theorem ofPayload?_eq_some_iff : ofPayload? payload = some d ↔ States d payload.toList :=
  ⟨states_of_ofPayload?, ofPayload?_of_states⟩

/-- The first of lowest rank among the annotations that are directives, and its place. -/
def Foremost (as : List Annot) : Option (Nat × Directive) → Prop
  | none => ∀ a ∈ as, ofPayload? a.payload = none
  | some (p, d) => ∃ xs a ys, as = xs ++ a :: ys ∧ xs.length = p ∧ ofPayload? a.payload = some d ∧
    (∀ x ∈ xs, ∀ e ∈ ofPayload? x.payload, d.rank < e.rank) ∧
      ∀ y ∈ ys, ∀ e ∈ ofPayload? y.payload, d.rank ≤ e.rank

variable {seen as : List Annot} {a : Annot} {best : Option (Nat × Directive)} {p : Nat}

theorem Foremost.skip (h : Foremost seen best) (ha : ofPayload? a.payload = none) :
    Foremost (seen ++ [a]) best := by
  cases best with
  | none => exact List.forall_mem_append.2 ⟨h, List.forall_mem_singleton.2 ha⟩
  | some b =>
    obtain ⟨xs, b, ys, rfl, hp, hb, hxs, hys⟩ := h
    refine ⟨xs, b, ys ++ [a], by simp, hp, hb, hxs, List.forall_mem_append.2 ⟨hys, ?_⟩⟩
    simp [ha]

theorem Foremost.keep {b : Nat × Directive} (h : Foremost seen (some b))
    (ha : ofPayload? a.payload = some d) (hle : b.2.rank ≤ d.rank) :
    Foremost (seen ++ [a]) (some b) := by
  obtain ⟨xs, b, ys, rfl, hp, hb, hxs, hys⟩ := h
  refine ⟨xs, b, ys ++ [a], by simp, hp, hb, hxs, List.forall_mem_append.2 ⟨hys, ?_⟩⟩
  simpa [ha] using hle

theorem Foremost.displace (h : Foremost seen best) (ha : ofPayload? a.payload = some d)
    (hlt : ∀ b ∈ best, d.rank < b.2.rank) :
    Foremost (seen ++ [a]) (some (seen.length, d)) := by
  refine ⟨seen, a, [], rfl, rfl, ha, fun x hx e he => ?_, List.forall_mem_nil _⟩
  cases best with
  | none => cases (h x hx).symm.trans he
  | some b =>
    have hb : d.rank < b.2.rank := hlt b rfl
    obtain ⟨xs, y, ys, rfl, -, hy, hxs, hys⟩ := h
    rcases List.mem_append.1 hx with hx | hx
    · exact Nat.lt_trans hb (hxs x hx e he)
    · rcases List.mem_cons.1 hx with rfl | hx
      · rw [Option.mem_def, hy] at he
        cases he
        exact hb
      · exact Nat.lt_of_lt_of_le hb (hys x hx e he)

theorem foremost_choose (h : Foremost seen best) :
    Foremost (seen ++ as) (choose best seen.length as) := by
  induction as generalizing seen best with
  | nil => rwa [List.append_nil]
  | cons a rest ih =>
    have hlength : seen.length + 1 = (seen ++ [a]).length := by simp
    simp only [choose]
    rw [List.append_cons, hlength]
    refine ih ?_
    split
    · next ha => exact h.skip ha
    · next d ha => exact h.displace ha fun _ hb => by cases hb
    · next d b ha =>
      split
      · next hlt =>
        exact h.displace ha fun _ hb => by
          cases hb
          exact hlt
      · next hle => exact h.keep ha (Nat.le_of_not_lt hle)

theorem foremost_winner? (as : List Annot) : Foremost as (winner? as) :=
  foremost_choose (show Foremost [] none from List.forall_mem_nil _)

/-- The deciding directive cuts the annotations in two. -/
theorem winner?_cut (h : winner? as = some (p, d)) : ∃ xs a ys, as = xs ++ a :: ys ∧
    xs.length = p ∧ ofPayload? a.payload = some d ∧
      (∀ x ∈ xs, ∀ e ∈ ofPayload? x.payload, d.rank < e.rank) ∧
        ∀ y ∈ ys, ∀ e ∈ ofPayload? y.payload, d.rank ≤ e.rank := by
  have := foremost_winner? as
  rwa [h] at this

theorem winner?_eq_none_iff : winner? as = none ↔ ∀ a ∈ as, ofPayload? a.payload = none := by
  have hforemost := foremost_winner? as
  constructor
  · intro h
    rwa [h] at hforemost
  · intro h
    rw [Option.eq_none_iff_forall_not_mem]
    rintro ⟨p, d⟩ hsome
    obtain ⟨xs, a, ys, rfl, -, ha, -⟩ := winner?_cut hsome
    cases (h a (by simp)).symm.trans ha

end Directive

open Directive

theorem eraseIdx_cut {α : Type} (xs ys : List α) (x : α) :
    (xs ++ x :: ys).eraseIdx xs.length = xs ++ ys := by
  rw [List.eraseIdx_append_of_length_le (Nat.le_refl _), Nat.sub_self, List.eraseIdx_cons_zero]

theorem Decl.annotations_dropAnnot (d : Decl) (p : Nat) :
    (d.dropAnnot p).annotations = d.annotations.eraseIdx p := by
  rw [annotations, dropAnnot, header_mapHeader, annotations]

theorem Decl.length_dropAnnot_lt {d : Decl} {p : Nat} {directive : Directive}
    (h : winner? d.annotations = some (p, directive)) :
    (d.dropAnnot p).annotations.length < d.annotations.length := by
  obtain ⟨xs, a, ys, hsplit, rfl, -⟩ := winner?_cut h
  rw [d.annotations_dropAnnot, hsplit, eraseIdx_cut]
  simp

/-- What comes of taking the deciding directive off a declaration again and again: the directives
in turn, each with the place of its token, and the declaration without them, with the places of the
tokens that it keeps. -/
structure Rounds where
  taken : List (Nat × Directive)
  left : Decl
  places : List Nat

/-- Takes off directives until none decides. The tokens are known by their `places`. -/
def Decl.rounds (d : Decl) (places : List Nat) : Rounds :=
  match h : winner? d.annotations with
  | none => ⟨[], d, places⟩
  | some (p, directive) =>
    have := length_dropAnnot_lt h
    let r := (d.dropAnnot p).rounds (places.eraseIdx p)
    { r with taken := (places.getD p 0, directive) :: r.taken }
termination_by d.annotations.length

theorem Decl.rounds_of_none {d : Decl} (h : winner? d.annotations = none) (places : List Nat) :
    d.rounds places = ⟨[], d, places⟩ := by
  rw [rounds]
  split
  · rfl
  · next hsome => cases h.symm.trans hsome

theorem Decl.rounds_of_some {d : Decl} {p : Nat} {directive : Directive}
    (h : winner? d.annotations = some (p, directive)) (places : List Nat) :
    d.rounds places =
      let r := (d.dropAnnot p).rounds (places.eraseIdx p)
      { r with taken := (places.getD p 0, directive) :: r.taken } := by
  rw [rounds]
  split
  · next hnone => cases h.symm.trans hnone
  · next hsome =>
    cases h.symm.trans hsome
    rfl

/-- Directives with the places of their tokens: the lower rank first, then the lower place. -/
def Ahead (x y : Nat × Directive) : Prop :=
  x.2.rank < y.2.rank ∨ x.2.rank = y.2.rank ∧ x.1 < y.1

/-- All tokens that are directives have been taken, in turn, and the others are left. -/
structure Rounds.Exhausts (r : Rounds) (tokens : List (Annot × Nat)) : Prop where
  taken_iff : ∀ place directive, (place, directive) ∈ r.taken ↔
    ∃ a, (a, place) ∈ tokens ∧ ofPayload? a.payload = some directive
  order : r.taken.Pairwise Ahead
  annotations : r.left.annotations =
    (tokens.filter fun t => ofPayload? t.1.payload = none).map Prod.fst
  places : r.places = (tokens.filter fun t => ofPayload? t.1.payload = none).map Prod.snd

variable {r : Rounds} {before behind : List (Annot × Nat)} {a : Annot} {u : Nat}
  {directive : Directive}

theorem Rounds.Exhausts.round (h : r.Exhausts (before ++ behind))
    (ha : ofPayload? a.payload = some directive)
    (hbefore : ∀ t ∈ before, ∀ e ∈ ofPayload? t.1.payload, directive.rank < e.rank)
    (hbehind : ∀ t ∈ behind, u < t.2 ∧ ∀ e ∈ ofPayload? t.1.payload, directive.rank ≤ e.rank) :
    Exhausts { r with taken := (u, directive) :: r.taken } (before ++ (a, u) :: behind) where
  taken_iff place e := by
    rw [List.mem_cons, h.taken_iff]
    simp only [List.mem_append, List.mem_cons]
    constructor
    · rintro (heq | ⟨b, hb, he⟩)
      · cases heq
        exact ⟨a, .inr (.inl rfl), ha⟩
      · exact ⟨b, hb.imp id .inr, he⟩
    · rintro ⟨b, hb | heq | hb, he⟩
      · exact .inr ⟨b, .inl hb, he⟩
      · cases heq
        rw [ha] at he
        cases he
        exact .inl rfl
      · exact .inr ⟨b, .inr hb, he⟩
  order := by
    refine List.pairwise_cons.2 ⟨fun x hx => ?_, h.order⟩
    obtain ⟨b, hb, he⟩ := (h.taken_iff x.1 x.2).1 hx
    rcases List.mem_append.1 hb with hb | hb
    · exact .inl (hbefore _ hb _ he)
    · obtain ⟨hlt, hle⟩ := hbehind _ hb
      rcases Nat.lt_or_eq_of_le (hle _ he) with hrank | hrank
      · exact .inl hrank
      · exact .inr ⟨hrank, hlt⟩
  annotations := by
    rw [h.annotations, List.filter_append, List.filter_append,
      List.filter_cons_of_neg (by simp [ha])]
  places := by
    rw [h.places, List.filter_append, List.filter_append, List.filter_cons_of_neg (by simp [ha])]

theorem exhausts_rounds {d : Decl} {places : List Nat}
    (hlength : d.annotations.length = places.length) (hplaces : places.Pairwise (· < ·)) :
    (d.rounds places).Exhausts (d.annotations.zip places) := by
  induction d, places using Decl.rounds.induct with
  | case1 d places h =>
    rw [Decl.rounds_of_none h]
    have hnone : ∀ t ∈ d.annotations.zip places, ofPayload? t.1.payload = none := fun t ht =>
      winner?_eq_none_iff.1 h t.1 (List.of_mem_zip ht).1
    have hall := List.filter_eq_self.2 fun t ht => decide_eq_true (hnone t ht)
    exact {
      taken_iff := fun place directive => by
        refine ⟨fun h => (List.not_mem_nil h).elim, fun ⟨a, ha, hd⟩ => ?_⟩
        cases (hnone _ ha).symm.trans hd
      order := .nil
      annotations := by rw [hall, List.map_fst_zip (Nat.le_of_eq hlength)]
      places := by rw [hall, List.map_snd_zip (Nat.le_of_eq hlength.symm)] }
  | case2 d places p directive h hlt ih =>
    rw [Decl.rounds_of_some h]
    obtain ⟨xs, a, ys, hsplit, rfl, ha, hxs, hys⟩ := winner?_cut h
    -- The places are cut where the annotations are.
    obtain ⟨us, u, vs, rfl, hus⟩ : ∃ us u vs, places = us ++ u :: vs ∧ us.length = xs.length := by
      have hp : xs.length < places.length := by
        rw [← hlength, hsplit]
        simp
      exact ⟨places.take xs.length, places[xs.length], places.drop (xs.length + 1),
        by simp, List.length_take_of_le (Nat.le_of_lt hp)⟩
    have hdropped : (d.dropAnnot xs.length).annotations = xs ++ ys := by
      rw [d.annotations_dropAnnot, hsplit, eraseIdx_cut]
    have hplace : (us ++ u :: vs).getD xs.length 0 = u := by simp [← hus]
    have herased : (us ++ u :: vs).eraseIdx xs.length = us ++ vs := by
      rw [← hus, eraseIdx_cut]
    rw [hsplit] at hlength ⊢
    rw [hdropped, herased, List.zip_append hus.symm] at ih
    rw [hplace, herased, List.zip_append hus.symm, List.zip_cons_cons]
    have hsub : (us ++ vs).Sublist (us ++ u :: vs) := .append_left (List.sublist_cons_self u vs) us
    refine (ih ?_ (hplaces.sublist hsub)).round ha (fun t ht => hxs t.1 (List.of_mem_zip ht).1)
      fun t ht => ⟨?_, hys t.1 (List.of_mem_zip ht).1⟩
    · simp only [List.length_append, List.length_cons] at hlength ⊢
      omega
    · exact List.rel_of_pairwise_cons (List.pairwise_append.1 hplaces).2.1 (List.of_mem_zip ht).2

def Decl.withoutDirectives (d : Decl) : Decl :=
  d.mapHeader fun h =>
    { h with annotations := h.annotations.filter fun a => ofPayload? a.payload = none }

theorem Decl.withoutDirectives_eq_self {d : Decl} (h : winner? d.annotations = none) :
    d.withoutDirectives = d := by
  have hall : d.annotations.filter (fun a => ofPayload? a.payload = none) = d.annotations :=
    List.filter_eq_self.2 fun a ha => decide_eq_true (winner?_eq_none_iff.1 h a ha)
  cases d <;> simp only [withoutDirectives, mapHeader, annotations, header] at hall ⊢ <;> rw [hall]

theorem Decl.withoutDirectives_dropAnnot {d : Decl} {p : Nat}
    (h : winner? d.annotations = some (p, directive)) :
    (d.dropAnnot p).withoutDirectives = d.withoutDirectives := by
  obtain ⟨xs, a, ys, hsplit, rfl, ha, -⟩ := winner?_cut h
  have herased : (d.annotations.eraseIdx xs.length).filter (fun a => ofPayload? a.payload = none) =
      d.annotations.filter fun a => ofPayload? a.payload = none := by
    rw [hsplit, eraseIdx_cut, List.filter_append, List.filter_append,
      List.filter_cons_of_neg (by simp [ha])]
  cases d <;>
    simp only [withoutDirectives, dropAnnot, mapHeader, annotations, header] at herased ⊢ <;>
    rw [herased]

theorem left_rounds (d : Decl) (places : List Nat) :
    (d.rounds places).left = d.withoutDirectives := by
  induction d, places using Decl.rounds.induct with
  | case1 d places h => rw [Decl.rounds_of_none h, Decl.withoutDirectives_eq_self h]
  | case2 d places p directive h hlt ih =>
    rw [Decl.rounds_of_some h, ← Decl.withoutDirectives_dropAnnot h]
    exact ih

/-- A payload is read as a directive just where it is written as one. When the deciding directive
of a declaration is taken off it until none is left, each of its tokens that is a directive goes
once, in the order of rank and place, and the others stay as they stood. -/
theorem directives_read_and_taken :
    (∀ payload directive, ofPayload? payload = some directive ↔ States directive payload.toList) ∧
      ∀ d : Decl,
        let r := d.rounds (List.range d.annotations.length)
        (∀ place directive, (place, directive) ∈ r.taken ↔
          ∃ a, d.annotations[place]? = some a ∧ ofPayload? a.payload = some directive) ∧
        r.taken.Pairwise Ahead ∧ r.left = d.withoutDirectives ∧
        r.places =
          (d.annotations.zipIdx.filter fun t => ofPayload? t.1.payload = none).map Prod.snd := by
  refine ⟨fun payload directive => ofPayload?_eq_some_iff, fun d => ?_⟩
  have h := exhausts_rounds (d := d) List.length_range.symm List.pairwise_lt_range
  have htokens : d.annotations.zip (List.range d.annotations.length) = d.annotations.zipIdx := by
    rw [List.range_eq_range', List.zipIdx_eq_zip_range']
  rw [htokens] at h
  refine ⟨fun place directive => ?_, h.order, left_rounds d _, h.places⟩
  rw [h.taken_iff]
  simp only [List.mk_mem_zipIdx_iff_getElem?]

end SignatureLayers
