import Mathlib.Data.List.TakeWhile
import SignatureLayers.Command.Console
import SignatureLayers.Proofs.Files

namespace SignatureLayers

namespace Catalog

/-- The templates are written in English, and the wanted language can be looked for. -/
def Speaks (c : Catalog) : Prop :=
  c.usual = "en" ∧ ∃ ts, templatesOf (c.firstLanguage none) = .ok ts

variable {c : Catalog} {id text : String} {language : String} {ts : List (String × String)}

theorem templatesOf_en : templatesOf "en" = .ok englishTemplates := by
  have hpath : Path.ofText "en" = ⟨"", ["en"]⟩ :=
    Path.ofText_of_notMem (by decide) (by decide) (by decide)
  have hopen : Path.fault? ⟨"", ["en"]⟩ = none := by
    rw [Path.fault?_relative (List.cons_ne_nil _ _)]
    decide +kernel
  have hlocate : languageStore.locate ⟨"", ["en"]⟩ =
      .ok (languageHome ++ ["en"], .directory []) := by
    rw [Store.locate, Store.allow, hopen]
    rfl
  rw [templatesOf, hpath, hlocate]
  rfl

theorem templatesOf_eq_ok (h : templatesOf language = .ok ts) :
    ts = [] ∨ ts = englishTemplates := by
  unfold templatesOf at h
  split at h
  · cases h
  · cases h
    exact .inl rfl
  · cases h
    split
    · exact .inr rfl
    · exact .inl rfl

theorem Speaks.template (hc : c.Speaks) (h : englishTemplates.lookup id = some text) :
    c.template id none = .ok text := by
  obtain ⟨husual, ts, hts⟩ := hc
  have hlanguage : c.firstLanguage none ≠ c.usual ∨ ts = englishTemplates := by
    rcases templatesOf_eq_ok hts with rfl | hts'
    · refine .inl fun hsame => ?_
      rw [hsame, husual, templatesOf_en] at hts
      cases hts
    · exact .inr hts'
  unfold Catalog.template
  dsimp only
  rw [hts]
  rcases templatesOf_eq_ok hts with rfl | rfl
  · have hother : c.firstLanguage none ≠ c.usual := by simpa [englishTemplates] using hlanguage
    simp [bind, Except.bind, pure, Except.pure, hother, husual ▸ templatesOf_en, h]
  · simp [bind, Except.bind, pure, Except.pure, h]

end Catalog

namespace Message
variable {ps : Parameters} {m : Message} {c : Catalog} {template : String} {name : List Char}
  {p : Part}

/-- A piece of a template that parameters fill: a plain character, or a parameter on its own. -/
inductive Piece.Fits (ps : Parameters) : Piece → Prop
  | literal (c : Char) : Fits ps (.literal c)
  | field {name : List Char} {p : Part} (h : find ps name = .ok p) :
    Fits ps (.field name none [])

theorem fill_eq_ok (depth : Nat) {template : List Char}
    (h : ∀ piece ∈ pieces template.length template, piece.Fits ps) :
    ∃ text, fill ps (depth + 1) template = .ok text := by
  rw [fill]
  dsimp only
  refine exists_map_eq_ok (exists_mapM_eq_ok fun piece hpiece => ?_) _
  cases h piece hpiece with
  | literal c => exact ⟨_, rfl⟩
  | field hfind =>
    dsimp only
    exact ⟨_, by rw [hfind]; rfl⟩

theorem words_eq_ok (hc : c.Speaks) (hm : englishTemplates.lookup m.id = some template)
    (h : ∀ piece ∈ pieces template.toList.length template.toList, piece.Fits m.parameters) :
    ∃ text, m.words c = .ok text := by
  obtain ⟨text, htext⟩ := fill_eq_ok 1 h
  have hformat : format template m.parameters = .ok text := by rw [format, htext]
  refine ⟨text, ?_⟩
  simp only [words, hc.template hm, hformat]

theorem words_of_field (hc : c.Speaks) (hm : englishTemplates.lookup m.id = some template)
    (before after : String) (hpieces : pieces template.toList.length template.toList =
      before.toList.map .literal ++ .field name none [] :: after.toList.map .literal)
    (hfind : find m.parameters name = .ok p) : ∃ text, m.words c = .ok text := by
  refine words_eq_ok hc hm fun piece hpiece => ?_
  rw [hpieces, List.mem_append, List.mem_cons] at hpiece
  rcases hpiece with hpiece | rfl | hpiece
  · obtain ⟨c, -, rfl⟩ := List.mem_map.1 hpiece
    exact .literal c
  · exact .field hfind
  · obtain ⟨c, -, rfl⟩ := List.mem_map.1 hpiece
    exact .literal c

end Message

namespace Command
variable {c : Console} {s : Store} {p : Progress} {e : Event} {r : Run}

/-- What commands tell. -/
inductive Event.Usual : Event → Prop
  | noticed (n : Notice) : Usual (.noticed n)
  | applied (path : Path) : Usual (.applied path)
  | skipped (path : Path) : Usual (.skipped path)
  | summary (count : Nat) : Usual (.summary count)
  | written (path : Path) : Usual (.written path)
  | noInputs : Usual .noInputs
  | notFound (path : Path) : Usual (.notFound path)
  | refused (e : SourceError) : Usual (.refused e)

theorem Event.Usual.fault? (h : e.Usual) (hc : c.catalog.Speaks) : c.fault? e = none := by
  have hsent {m : Message} (h : ∃ text, m.words c.catalog = .ok text) :
      c.fault? (.sent m) = none := by
    obtain ⟨text, htext⟩ := h
    simp [Console.fault?, htext]
  cases h with
  | noticed n => rfl
  | applied path => exact hsent (Message.words_of_field hc rfl "Applied " "" rfl rfl)
  | skipped path =>
    exact hsent (Message.words_of_field hc rfl "Skipped " " (already applied)" rfl rfl)
  | summary count =>
    exact hsent (Message.words_of_field hc rfl "Merged " " signature file(s)" rfl rfl)
  | written path =>
    exact hsent (Message.words_of_field hc rfl "Merged signatures written to " "" rfl rfl)
  | noInputs =>
    refine hsent (Message.words_eq_ok hc rfl fun piece hpiece => ?_)
    obtain ⟨c, -, rfl⟩ := List.mem_map.1 (show piece ∈
      "No input paths given and no patch_paths configured.".toList.map .literal from hpiece)
    exact .literal c
  | notFound path => exact hsent (Message.words_of_field hc rfl "Path not found: " "" rfl rfl)
  | refused e => exact hsent (Message.words_of_field hc rfl "Syntax error: " "" rfl rfl)

namespace Console

/-- A control sequence: an opening bracket behind the escape character, then parameters, then a
letter. -/
inductive Control : List Char → Prop
  | mk {params : List Char} {letter : Char} (hparams : ∀ c ∈ params, isParameter c = true)
    (hletter : letter.isAlpha = true) : Control (escapeChar :: '[' :: (params ++ [letter]))

/-- What is left of a text when the control sequences are taken out of it, first ones first. -/
inductive Stripped : List Char → List Char → Prop
  | nil : Stripped [] []
  | control {front rest out : List Char} (hfront : Control front) (h : Stripped rest out) :
    Stripped (front ++ rest) out
  | char {c : Char} {rest out : List Char}
    (hc : ∀ front more, Control front → front ++ more ≠ c :: rest) (h : Stripped rest out) :
    Stripped (c :: rest) (c :: out)

/-- What the standard output gets of a text. -/
def Emits (c : Console) (text out : String) : Prop :=
  if c.colorResult then out = text else Stripped text.toList out.toList

theorem Stripped.length_le {text out : List Char} (h : Stripped text out) :
    out.length ≤ text.length := by
  induction h with
  | nil => exact Nat.le_refl _
  | control hfront h ih =>
    rw [List.length_append]
    exact Nat.le_add_left_of_le ih
  | char hother h ih => exact Nat.succ_le_succ ih

end Console

end Command
end SignatureLayers
