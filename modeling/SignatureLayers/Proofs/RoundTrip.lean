import Mathlib.Data.List.Permutation
import SignatureLayers.Proofs.InlineEnd
import SignatureLayers.Proofs.Rereading

namespace SignatureLayers

open Text Forest

namespace Forest

/-- What a source declares: readable declarations, the use clauses first. -/
structure Parsed (last : Bool) (f : Forest) : Prop where
  readable : ∀ d ∈ f.preorder, d.Readable
  members : ∀ d ∈ f, d.isMember = false
  clauses : UsesFirst (f.map Decl.kind)
  firm : Firm last f

theorem Firm.of_false {last : Bool} {f : Forest} (h : Firm false f) : Firm last f := by
  induction f with
  | nil => exact .nil
  | cons d rest ih =>
    cases h with
    | cons here inner tail =>
      exact .cons (fun hc => .inl ((here hc).resolve_right fun h => absurd h.1 Bool.false_ne_true))
        inner (ih tail)

theorem Firm.concat {last : Bool} {f : Forest} {d : Decl} (h : Firm false f)
    (hd : d.EndsInComma → d.isContainer = true ∨ last = true) (inner : Firm false d.children) :
    Firm last (f ++ [d]) := by
  induction f with
  | nil => exact .cons (fun hc => (hd hc).imp_right fun hl => ⟨hl, rfl⟩) inner .nil
  | cons e rest ih =>
    cases h with
    | cons here inner' tail =>
      exact .cons (fun hc => .inl ((here hc).resolve_right fun h => absurd h.1 Bool.false_ne_true))
        inner' (ih tail)

theorem forall_preorder_concat {p : Decl → Prop} {f : Forest} {d : Decl}
    (hf : ∀ e ∈ f.preorder, p e) (hd : p d) (hc : ∀ e ∈ preorder d.children, p e) :
    ∀ e ∈ (f ++ [d]).preorder, p e := by
  rw [preorder_append, preorder_cons, preorder_nil, List.append_nil]
  exact List.forall_mem_append.2 ⟨hf, List.forall_mem_cons.2 ⟨hd, hc⟩⟩

end Forest

/-- The comments and annotations that wait are read back. -/
structure Pending.Legible (p : Pending) : Prop where
  comments : ∀ c ∈ p.comments, Remark c.toList
  annotations : ∀ a ∈ p.annotations, a.Legible

/-- An open container that is read back once it is closed. -/
structure Frame.Sound (f : Frame) : Prop where
  legible : (Decl.container f.kind f.header [] []).Legible
  readable : ∀ d ∈ f.children.preorder, d.Readable
  clauses : ∀ d ∈ f.children, d.kind ≠ .leaf .useClause
  firm : Firm false f.children

namespace Nesting

/-- What is put together before the last item. -/
structure Sound (N : Nesting) : Prop where
  roots : Parsed false N.roots
  frames : ∀ f ∈ N.stack, f.Sound
  pending : N.pending.Legible

/-- A declaration that may be added with all that is in it. -/
structure Fit (N : Nesting) (d : Decl) : Prop where
  readable : d.Readable
  children : ∀ e ∈ preorder d.children, e.Readable
  firm : Firm false d.children
  member : N.stack = [] → d.isMember = false
  clause : d.kind = .leaf .useClause → N.admitsUse = true

variable {N N' : Nesting} {d : Decl}

theorem pending_empty : Pending.Legible {} :=
  ⟨List.forall_mem_nil _, List.forall_mem_nil _⟩

theorem Sound.concat_roots {last : Bool} (h : Parsed false N.roots) (hd : N.Fit d)
    (hs : N.stack = []) (hcomma : d.EndsInComma → d.isContainer = true ∨ last = true) :
    Parsed last (N.roots ++ [d]) := by
  refine ⟨forall_preorder_concat h.readable hd.readable hd.children, ?_, ?_,
    h.firm.concat hcomma hd.firm⟩
  · refine List.forall_mem_append.2 ⟨h.members, ?_⟩
    simpa using hd.member hs
  · rw [List.map_append, UsesFirst, List.pairwise_append]
    refine ⟨h.clauses, List.pairwise_singleton _ _, fun k hk k' hk' huse => ?_⟩
    rw [List.map_singleton, List.mem_singleton] at hk'
    obtain ⟨r, hr, rfl⟩ := List.mem_map.1 hk
    have hadmits := hd.clause (hk' ▸ huse)
    simp only [admitsUse, Bool.and_eq_true, List.all_eq_true, beq_iff_eq] at hadmits
    exact hadmits.2 r hr

theorem Sound.add (h : N.Sound) (hd : N.Fit d)
    (hcomma : d.EndsInComma → d.isContainer = true) : (N.add d).Sound := by
  cases hs : N.stack with
  | nil =>
    have hadd : N.add d = ⟨N.roots ++ [d], [], {}⟩ := by
      unfold Nesting.add
      rw [hs]
    rw [hadd]
    exact ⟨concat_roots h.roots hd hs fun hc => .inl (hcomma hc), List.forall_mem_nil _, pending_empty⟩
  | cons f st =>
    have hadd : N.add d = ⟨N.roots, { f with children := f.children ++ [d] } :: st, {}⟩ := by
      unfold Nesting.add
      rw [hs]
    rw [hadd]
    obtain ⟨hf, hst⟩ := List.forall_mem_cons.1 (hs ▸ h.frames)
    -- A use clause is admitted only where nothing is open.
    have hclause : d.kind ≠ .leaf .useClause := fun huse => by
      have hadmits := hd.clause huse
      simp [admitsUse, hs] at hadmits
    refine ⟨h.roots, List.forall_mem_cons.2 ⟨⟨hf.legible, ?_, ?_, ?_⟩, hst⟩, pending_empty⟩
    · exact forall_preorder_concat hf.readable hd.readable hd.children
    · exact List.forall_mem_append.2 ⟨hf.clauses, by simpa using hclause⟩
    · exact hf.firm.concat (fun hc => .inl (hcomma hc)) hd.firm

theorem Sound.push {f : Frame} (h : N.Sound) (hf : f.Sound) : (N.push f).Sound :=
  ⟨h.roots, List.forall_mem_cons.2 ⟨hf, h.frames⟩, pending_empty⟩

theorem Sound.waiting {p : Pending} (h : N.Sound) (hp : p.Legible) : (N.waiting p).Sound :=
  ⟨h.roots, h.frames, hp⟩

theorem fit_close {f : Frame} (hf : f.Sound) (stop : Nat) {trailing : List String}
    (ht : ∀ c ∈ trailing, Remark c.toList) : N.Fit (f.close stop trailing) where
  readable :=
    ⟨hf.legible.restated ⟨rfl, List.Subset.refl _, rfl, rfl, rfl, rfl⟩ ht, hf.clauses⟩
  children := hf.readable
  firm := hf.firm
  member _ := rfl
  clause huse := by cases huse

theorem legible_header {p : Pending} (hp : p.Legible) {s : Statement} {head : List Char}
    {more : List (List Char)} {name : String} {d : Decl} (hw : Wording head more)
    (hheader : d.header = p.header name (head :: more) s.start s.stop)
    (hh : Head.ofLine? head = some d.said) (htrailing : d.trailing = [])
    (huse : d.kind = .leaf .useClause →
      name = String.ofList ([' '].intercalate (words ([' '].intercalate (head :: more))))) :
    d.Legible where
  comments := by
    rw [hheader]
    exact hp.comments
  annotations := by
    rw [Decl.annotations, hheader]
    exact hp.annotations
  wording := by
    refine ⟨head, more, ?_, hw, hh, fun hk => ?_⟩
    · rw [hheader]
      rfl
    · rw [Decl.name, hheader]
      exact huse hk
  trailing := by
    rw [htrailing]
    exact List.forall_mem_nil _

theorem fit_of_legible (hd : d.Legible) (hc : d.children = [])
    (member : N.stack = [] → d.isMember = false)
    (clause : d.kind = .leaf .useClause → N.admitsUse = true) : N.Fit d where
  readable := ⟨hd, by rw [hc]; exact List.forall_mem_nil _⟩
  children := by
    rw [hc, preorder_nil]
    exact List.forall_mem_nil _
  firm := by
    rw [hc]
    exact .nil
  member := member
  clause := clause

theorem declare_cases {s : Statement} {h : Head} (hN : N.Sound) (hs : s.Proper)
    (hdepth : ¬ 0 < s.depth) (hh : Head.ofLine? s.head = some h) (hd : N.declare s h = .ok N') :
    (∃ d, N' = N.add d ∧ N.Fit d ∧
      (d.EndsInComma → d.isContainer = true ∨ s.lastText.getLast? = some ',')) ∨
    ∃ f : Frame, N' = N.push f ∧ f.Sound := by
  have hw := hs.wording hdepth
  have hlast {d : Decl} {name : String}
      (hd : d.header = N.pending.header name s.texts s.start s.stop) : d.lastLine = s.lastText :=
    Decl.lastLine_eq (by rw [hd]; rfl)
  have hcomma {d : Decl} {name : String}
      (hd : d.header = N.pending.header name s.texts s.start s.stop) (hc : d.EndsInComma) :
      d.isContainer = true ∨ s.lastText.getLast? = some ',' := .inr (hlast hd ▸ hc)
  cases h with
  | useClause =>
    obtain ⟨hadmits, rfl⟩ := declare_useClause_iff.1 hd
    refine .inl ⟨_, rfl, fit_of_legible ?_ rfl (fun _ => rfl) fun _ => hadmits, hcomma rfl⟩
    exact legible_header hN.pending hw rfl hh rfl fun _ => rfl
  | leaf k name =>
    cases hd
    have hk := Head.ne_useClause_of_ofLine? hh
    have hsaid : (Decl.leaf k (N.pending.header name s.texts s.start s.stop)).said =
        .leaf k name := by
      cases k <;> first | rfl | exact absurd rfl hk
    have hkind : Kind.leaf k ≠ .leaf .useClause := fun h => hk (Kind.leaf.inj h)
    refine .inl ⟨_, rfl, fit_of_legible ?_ rfl (fun _ => rfl) fun h => absurd h hkind, hcomma rfl⟩
    exact legible_header hN.pending hw rfl (hsaid ▸ hh) rfl fun h => absurd h hkind
  | member k name oldName =>
    obtain ⟨hstack, rfl⟩ := declare_member_iff.1 hd
    refine .inl ⟨_, rfl, fit_of_legible ?_ rfl ?_ (fun h => by cases h), hcomma rfl⟩
    · exact legible_header hN.pending hw rfl hh rfl fun h => by cases h
    · intro hs
      simp [hs] at hstack
  | container k name =>
    simp only [declare] at hd
    split at hd
    · next texts hclosed =>
      cases hd
      obtain ⟨head, more, rfl, hw', hh'⟩ := hs.cut hdepth hh hclosed
      refine .inl ⟨_, rfl, fit_of_legible ?_ rfl (fun _ => rfl) (fun h => by cases h),
        fun _ => .inl rfl⟩
      exact legible_header hN.pending hw' rfl hh' rfl fun h => by cases h
    · cases hd
      refine .inr ⟨_, rfl, ⟨?_, ?_, List.forall_mem_nil _, .nil⟩⟩
      · exact legible_header hN.pending hw rfl hh rfl fun h => by cases h
      · rw [preorder_nil]
        exact List.forall_mem_nil _

/-- What an item before the last one leads to, and what the last one may leave. -/
theorem step_sound {line : Nat} {item : Item} (hN : N.Sound) (hitem : item.Proper)
    (h : N.step line item = .ok N') :
    (¬ item.EndsInComma → N'.Sound) ∧ (N'.stack = [] → Parsed true N'.roots) := by
  have hsound (hS : N'.Sound) :
      (¬ item.EndsInComma → N'.Sound) ∧ (N'.stack = [] → Parsed true N'.roots) :=
    ⟨fun _ => hS, fun _ => { hS.roots with firm := hS.roots.firm.of_false }⟩
  cases item with
  | blank =>
    cases h
    exact hsound (hN.waiting ⟨List.forall_mem_nil _, hN.pending.annotations⟩)
  | comment text =>
    cases h
    have hremark : Remark (String.ofList text).toList := by
      rw [String.toList_ofList]
      exact hitem
    exact hsound (hN.waiting ⟨List.forall_mem_append.2 ⟨hN.pending.comments,
      List.forall_mem_singleton.2 hremark⟩, hN.pending.annotations⟩)
  | annotations tokens =>
    cases h
    exact hsound (hN.waiting ⟨hN.pending.comments,
      List.forall_mem_append.2 ⟨hN.pending.annotations, hitem⟩⟩)
  | close =>
    obtain ⟨-, f, stack, hs, rfl⟩ := step_close_iff.1 h
    obtain ⟨hf, hstack⟩ := List.forall_mem_cons.1 (hs ▸ hN.frames)
    have hinner : Sound { N with stack } := ⟨hN.roots, hstack, hN.pending⟩
    exact hsound (hinner.add (fit_close hf line hN.pending.comments) fun _ => rfl)
  | statement s =>
    obtain ⟨hdepth, head, hh, hd⟩ := step_statement_iff.1 h
    rcases declare_cases hN hitem (Int.not_lt.2 hdepth) hh hd with
      ⟨d, rfl, hfit, hcomma⟩ | ⟨f, rfl, hf⟩
    · refine ⟨fun hne => hN.add hfit fun hc => (hcomma hc).resolve_right hne, fun hs => ?_⟩
      -- A comma at the end is harmless where nothing is open: no line follows it.
      have hstack : N.stack = [] := by
        unfold Nesting.add at hs
        split at hs
        · assumption
        · cases hs
      have hroots : (N.add d).roots = N.roots ++ [d] := by
        unfold Nesting.add
        rw [hstack]
      rw [hroots]
      exact Sound.concat_roots hN.roots hfit hstack fun _ => .inr rfl
    · exact hsound (hN.push hf)

theorem run_sound {items : List (Nat × Item)} (hN : N.Sound) (hitems : Items items)
    (h : N.run items = .ok N') (hs : N'.stack = []) : Parsed true N'.roots := by
  induction hitems generalizing N with
  | nil =>
    cases h
    exact { hN.roots with firm := hN.roots.firm.of_false }
  | @cons line item rest proper last tail ih =>
    obtain ⟨M, hM, hrun⟩ := run_cons h
    obtain ⟨hsound, hparsed⟩ := step_sound hN proper hM
    -- A statement that ends in a comma is the last item.
    by_cases hc : item.EndsInComma
    · rw [last hc] at hrun
      cases hrun
      exact hparsed hs
    · exact ih (hsound hc) hrun

end Nesting

/-- What a parse returns is read back, but for containers that run into their end. -/
theorem parsed_of_parse {file source : String} {f : Forest} (h : parse file source = .ok f) :
    Parsed true f := by
  obtain ⟨N, hrun, hfinish⟩ := parse_eq_ok_iff.1 h
  obtain ⟨hstack, -, rfl⟩ := Nesting.finish_eq_ok_iff.1 hfinish
  have hstart : Nesting.Sound {} :=
    ⟨⟨by simp, List.forall_mem_nil _, .nil, .nil⟩, List.forall_mem_nil _, Nesting.pending_empty⟩
  exact Nesting.run_sound hstart (items_ofSource _) hrun hstack

/-- Printing undoes parsing: a source's forest is read back from its text, whatever the
indentation, and printed to the same text again. -/
theorem parse_print_of_parse {file source : String} {f : Forest} (h : parse file source = .ok f)
    (hfree : ∀ d ∈ f.preorder, d.isContainer = true → ¬ d.EndsInComma ∧ ¬ d.EndsInEnd)
    (file' : String) (width : Nat) :
    ∃ g, parse file' (Printer.print width f) = .ok g ∧ g.bare = f.bare ∧
      Printer.print width g = Printer.print width f := by
  have hparsed := parsed_of_parse h
  exact parse_print file' width ⟨hparsed.readable, hfree⟩ hparsed.firm hparsed.members
    hparsed.clauses

theorem parse_print_of_parse_class :
    ∃ f g, parse "" "class A\n\n # n\n %a\x7bx\x7d @y: [\n   B\n ]\nend\n" = .ok f ∧
      parse "" (Printer.print 4 f) = .ok g ∧ g.bare = f.bare ∧
        Printer.print 4 g = Printer.print 4 f := by
  let member : Decl := .member .instanceVariable
    { name := "@y"
      text := ["@y: [", "  B", "]"]
      comments := ["# n"]
      annotations := [⟨"x", "%a\x7bx\x7d"⟩]
      location := some ⟨3, 6⟩ } none
  let container : Decl := .container .classDecl
    { name := "A"
      text := ["class A"]
      location := some ⟨1, 7⟩ } [member] []
  have hparse : parse "" "class A\n\n # n\n %a\x7bx\x7d @y: [\n   B\n ]\nend\n" = .ok [container] := by
    cbv
  have hfree : ∀ d ∈ preorder [container], d.isContainer = true →
      ¬ d.EndsInComma ∧ ¬ d.EndsInEnd := by
    intro d hd hc
    have hd' : d = container := by
      simp only [container, member, preorder, List.mem_cons, List.append_nil, List.not_mem_nil,
        or_false] at hd
      rcases hd with rfl | rfl
      · rfl
      · cases hc
    have hlast : d.lastLine.getLast? = some 'A' := by
      rw [hd', Decl.lastLine]
      simp [container, Decl.header]
    refine ⟨fun hcomma => ?_, fun hend => ?_⟩
    · rw [Decl.EndsInComma, hlast] at hcomma
      cases hcomma
    · have := hend.last
      rw [hlast] at this
      cases this
  obtain ⟨g, hg, hbare, hprint⟩ := parse_print_of_parse hparse hfree "" 4
  exact ⟨[container], g, hparse, hg, hbare, hprint⟩

end SignatureLayers
