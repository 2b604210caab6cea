import SignatureLayers.App
import SignatureLayers.Proofs.Coherence
import SignatureLayers.Proofs.Identities
import SignatureLayers.Proofs.UseOrder

namespace SignatureLayers

open Text Forest

namespace Forest
variable {f layer : Forest} {d : Decl}

theorem trailing_numbered (next : Nat) (d : Decl) : (numbered next d).trailing = d.trailing := by
  cases d <;> rfl

theorem annotations_numbered (next : Nat) (d : Decl) :
    (numbered next d).annotations = d.annotations := by
  cases d <;> rfl

theorem restates_numbered (next : Nat) (d : Decl) : d.Restates (numbered next d) := by
  cases d with
  | container | member => exact ⟨rfl, List.Subset.refl _, rfl, rfl, rfl, rfl⟩
  | leaf k h => cases k <;> exact ⟨rfl, List.Subset.refl _, rfl, rfl, rfl, rfl⟩

theorem forall_number {p : Kind → List Annot → Prop} (next : Nat)
    (h : ∀ d ∈ f, p d.kind d.annotations) :
    ∀ d ∈ (number next f).1, p d.kind d.annotations := by
  induction f generalizing next with
  | nil =>
    simp only [number]
    exact List.forall_mem_nil _
  | cons d rest ih =>
    obtain ⟨hd, hrest⟩ := List.forall_mem_cons.1 h
    rw [number_cons]
    refine List.forall_mem_cons.2 ⟨?_, ih _ hrest⟩
    rw [annotations_numbered, (restates_numbered next d).kind]
    exact hd

theorem secure_number (next : Nat) (h : Secure f) : Secure (number next f).1 := by
  induction f using Forest.induct generalizing next with
  | nil =>
    simp only [number]
    exact secure_nil
  | cons d rest inner tail =>
    obtain ⟨hd, hinner, hrest⟩ := secure_cons.1 h
    rw [number_cons, secure_cons, children_numbered]
    refine ⟨hd.restated (restates_numbered next d) ?_ ?_, inner _ hinner, tail _ hrest⟩
    · rw [trailing_numbered]
      exact hd.readable.legible.trailing
    · rw [children_numbered]
      exact forall_number (p := fun k _ => k ≠ .leaf .useClause) _ hd.readable.clauses

theorem Layered.number (h : Layered layer) (next : Nat) : Layered (layer.number next).1 where
  secure := secure_number next h.secure
  members := forall_number (p := fun k _ => k.isMember = false) next h.members
  placed := forall_number (p := fun k annotations => k = .leaf .useClause →
    ∀ token side anchor, Directive.winner? annotations ≠ some (token, .placed side anchor)) next
    h.placed

theorem Secure.firm {last : Bool} (h : Secure f) : Firm last f := by
  induction f using Forest.induct generalizing last with
  | nil => exact .nil
  | cons d rest inner tail =>
    obtain ⟨hd, hinner, hrest⟩ := secure_cons.1 h
    exact .cons (fun hc => absurd hc hd.comma) (inner hinner) (tail hrest)

theorem Secure.tidy (h : Secure f) : Tidy f :=
  ⟨fun d hd => (h d hd).readable, fun d hd hc => ⟨(h d hd).comma, (h d hd).closable hc⟩⟩

/-- No text of a layer runs into what follows it, and no use clause is to be placed. -/
def Mergeable (layer : Forest) : Prop :=
  ∀ d ∈ layer.preorder, ¬ d.EndsInComma ∧ (d.isContainer = true → ¬ d.EndsInEnd) ∧
    (d.kind = .leaf .useClause → ∀ token side anchor,
      Directive.winner? d.annotations ≠ some (token, .placed side anchor))

theorem layered_of_parse {file source : String} (h : parse file source = .ok layer)
    (hm : layer.Mergeable) : Layered layer := by
  have hparsed := parsed_of_parse h
  refine ⟨fun d hd => ?_, hparsed.members, fun d hd => ?_⟩
  · exact ⟨hparsed.readable d hd, (hm d hd).1, (hm d hd).2.1⟩
  · exact (hm d (mem_preorder_of_mem hd List.mem_cons_self)).2.2

end Forest

namespace App

def applyTexts (a : App) (texts : List (String × String)) : App :=
  texts.foldl (fun a t => (a.applyText t.1 t.2).2) a

theorem applyText_of_parse {a : App} (h : a.engine.Coherent) {file source : String}
    {layer : Forest} (hparse : parse file source = .ok layer) :
    (a.applyText file source).1 = none ∧ (a.applyText file source).2.engine.Coherent ∧
      (a.applyText file source).2.engine.tree =
        merged true false a.engine.tree (layer.number a.engine.next).1 := by
  let noted := a.note (.layerMerged layer.length file)
  have hnoted : noted.engine.Coherent :=
    ⟨h.mirrors, h.nodup, h.sound, h.fresh, h.unsynced⟩
  obtain ⟨hfault, hcoherent, htree⟩ := hnoted.mergeLayer layer
  rw [applyText_of_ok hparse, hfault]
  exact ⟨rfl, hcoherent, htree⟩

/-- What holds of a tree that is merged from layers which can be read back. -/
structure Renders (a : App) : Prop where
  coherent : a.engine.Coherent
  topped : a.engine.tree.Topped

theorem renders_ofSettings (suffixes : List String) : (ofSettings suffixes false).Renders :=
  ⟨Engine.coherent_empty, secure_nil, List.forall_mem_nil _, .nil⟩

theorem Renders.applyText {a : App} (h : a.Renders) {file source : String} {layer : Forest}
    (hparse : parse file source = .ok layer) (hm : layer.Mergeable) :
    (a.applyText file source).1 = none ∧ (a.applyText file source).2.Renders := by
  obtain ⟨hfault, hcoherent, htree⟩ := applyText_of_parse h.coherent hparse
  refine ⟨hfault, hcoherent, ?_⟩
  rw [htree]
  exact h.topped.merged ((layered_of_parse hparse hm).number _)

theorem Renders.applyTexts {a : App} (h : a.Renders) {texts : List (String × String)}
    (htexts : ∀ t ∈ texts, ∃ layer, parse t.1 t.2 = .ok layer ∧ layer.Mergeable) :
    (a.applyTexts texts).Renders :=
  List.foldlRecOn texts _ h fun _ ha t ht =>
    have ⟨_, hparse, hm⟩ := htexts t ht
    (ha.applyText hparse hm).2

/-- After any texts that are accepted, the rendered text is accepted; it is read as the merged
tree, up to identities and locations, and rendered as it is. -/
theorem parse_render (suffixes : List String) {texts : List (String × String)}
    (htexts : ∀ t ∈ texts, ∃ layer, parse t.1 t.2 = .ok layer ∧ layer.Mergeable) (file : String) :
    let a := (ofSettings suffixes false).applyTexts texts
    ∃ g, parse file a.render = .ok g ∧ g.bare = a.engine.tree.bare ∧
      Printer.print 2 g = a.render := by
  intro a
  have htopped := ((renders_ofSettings suffixes).applyTexts htexts).topped
  exact parse_print file 2 htopped.secure.tidy htopped.secure.firm htopped.members htopped.clauses

theorem parse_render_placed :
    let a := (ofSettings [] false).applyTexts
      [("a.rbs", "use X::Y\nclass B\n  # n\n  Z: Y\nend\n"),
        ("b.rbs", "%a\x7bpatch:append_after(B)\x7d\nclass D end\n")]
    ∃ g, parse "" a.render = .ok g ∧ g.bare = a.engine.tree.bare ∧
      Printer.print 2 g = a.render := by
  refine parse_render [] (fun t ht => ?_) ""
  simp only [List.mem_cons, List.not_mem_nil, or_false] at ht
  rcases ht with rfl | rfl
  · let clause : Decl := .leaf .useClause
      { name := "use X::Y"
        text := ["use X::Y"]
        location := some ⟨1, 1⟩ }
    let constant : Decl := .leaf .constant
      { name := "Z"
        text := ["Z: Y"]
        comments := ["# n"]
        location := some ⟨3, 4⟩ }
    let container : Decl := .container .classDecl
      { name := "B"
        text := ["class B"]
        location := some ⟨2, 5⟩ } [constant] []
    refine ⟨[clause, container], by cbv, fun d hd => ?_⟩
    simp only [preorder, clause, constant, container, List.mem_cons, List.append_nil,
      List.not_mem_nil, or_false] at hd
    rcases hd with rfl | rfl | rfl
    · refine ⟨?_, (fun hc => by cases hc), fun _ token side anchor hw => by cases hw⟩
      simp [Decl.EndsInComma, Decl.lastLine, Decl.header]
    · refine ⟨?_, fun _ hend => ?_, fun hk => by cases hk⟩
      · simp [Decl.EndsInComma, Decl.lastLine, Decl.header]
      · have := hend.last
        simp [Decl.lastLine, Decl.header] at this
    · refine ⟨?_, (fun hc => by cases hc), fun hk => by cases hk⟩
      simp [Decl.EndsInComma, Decl.lastLine, Decl.header]
  · let container : Decl := .container .classDecl
      { name := "D"
        text := ["class D"]
        annotations := [⟨"patch:append_after(B)", "%a\x7bpatch:append_after(B)\x7d"⟩]
        location := some ⟨1, 2⟩ } [] []
    refine ⟨[container], by cbv, fun d hd => ?_⟩
    simp only [preorder, container, List.mem_cons, List.append_nil, List.not_mem_nil,
      or_false] at hd
    subst hd
    refine ⟨?_, fun _ hend => ?_, fun hk => by cases hk⟩
    · simp [Decl.EndsInComma, Decl.lastLine, Decl.header]
    · have := hend.last
      simp [Decl.lastLine, Decl.header] at this

end App
end SignatureLayers
