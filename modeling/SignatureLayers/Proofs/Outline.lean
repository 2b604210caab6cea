import Mathlib.Algebra.BigOperators.Group.List.Basic
import Mathlib.Algebra.Ring.Int.Defs
import Mathlib.Data.List.DropRight
import SignatureLayers.Grammar.Nesting
import SignatureLayers.Proofs.Heads

namespace SignatureLayers

namespace Item

/-- An item that declares nothing and closes nothing: it leads up to one that does. -/
def isLead : Item → Bool
  | .blank | .comment _ | .annotations _ => true
  | .close | .statement _ => false

def isAnnotations : Item → Bool
  | .annotations _ => true
  | _ => false

def tokens : Item → List Annot
  | .annotations tokens => tokens
  | _ => []

def remark? : Item → Option String
  | .comment text => some (String.ofList text)
  | _ => none

end Item

namespace Statement

/-- The container whose header the statement is, when the statement does not close it itself. -/
def opener? (s : Statement) : Option (ContainerKind × String) :=
  match Head.ofLine? s.head, s.closedTexts? with
  | some (.container kind name), none => some (kind, name)
  | _, _ => none

def opened? (s : Statement) (p : Pending) : Option Frame :=
  s.opener?.map fun (kind, name) =>
    ⟨kind, p.header name s.texts s.start s.stop, p.firstLine s.start, []⟩

def declared? (s : Statement) (p : Pending) : Option Decl :=
  match Head.ofLine? s.head with
  | none => none
  | some .useClause => some (.leaf .useClause (p.header s.clauseName s.texts s.start s.stop))
  | some (.leaf kind name) => some (.leaf kind (p.header name s.texts s.start s.stop))
  | some (.member kind name oldName) =>
    some (.member kind (p.header name s.texts s.start s.stop) oldName)
  | some (.container kind name) =>
    s.closedTexts?.map fun texts => .container kind (p.header name texts s.start s.stop) [] []

end Statement

namespace Outline

def lead (items : List (Nat × Item)) : List (Nat × Item) := items.rtakeWhile (·.2.isLead)

def body (items : List (Nat × Item)) : List (Nat × Item) := items.rdropWhile (·.2.isLead)

def Leads (items : List (Nat × Item)) : Prop := ∀ i ∈ items, i.2.isLead = true

def tokens (items : List (Nat × Item)) : List Annot := items.flatMap (·.2.tokens)

def near (items : List (Nat × Item)) : List (Nat × Item) := items.rtakeWhile (·.2 != .blank)

def remarks (items : List (Nat × Item)) : List String := items.filterMap (·.2.remark?)

def firstLine? (sort : Item → Bool) (items : List (Nat × Item)) : Option Nat :=
  (items.find? (sort ·.2)).map Prod.fst

/-- What waits behind items that lead up to a declaration: all their annotations, and the comments
below the last blank line. -/
def pending (items : List (Nat × Item)) : Pending where
  annotations := tokens items
  annotationLine := firstLine? Item.isAnnotations items
  comments := remarks (near items)
  commentLine := firstLine? (·.remark?.isSome) (near items)

/-- The forest that items form, the last of which completes a declaration: a statement that
declares something by itself, or the end of a container whose header stands before its children.
Both take what leads up to them. -/
inductive Forms : List (Nat × Item) → Forest → Prop
  | nil : Forms [] []
  | declare {items up : List (Nat × Item)} {f : Forest} (line : Nat) {s : Statement} {d : Decl}
    (before : Forms items f) (leads : Leads up) (declared : s.declared? (pending up) = some d) :
    Forms (items ++ up ++ [(line, .statement s)]) (f ++ [d])
  | enclose {items up inner tail : List (Nat × Item)} {f g : Forest} (line stop : Nat)
    {s : Statement} {frame : Frame} (before : Forms items f) (leads : Leads up)
    (opened : s.opened? (pending up) = some frame) (children : Forms inner g)
    (trails : Leads tail) (free : tokens tail = []) :
    Forms (items ++ up ++ (line, .statement s) :: inner ++ tail ++ [(stop, .close)])
      (f ++ [{ frame with children := g }.close stop (pending tail).comments])

/-- The forest of all items of a source. -/
def Whole (items : List (Nat × Item)) (f : Forest) : Prop := Forms (body items) f

def weight : Item → Int
  | .statement s => if s.opener?.isSome then 1 else 0
  | .close => -1
  | _ => 0

/-- Open containers less ends. -/
def depth (items : List (Nat × Item)) : Int := (items.map (weight ·.2)).sum

/-- A balanced nesting: no end without a container, and no container without an end. -/
structure Balanced (items : List (Nat × Item)) : Prop where
  nonneg : ∀ before, before <+: items → 0 ≤ depth before
  closed : depth items = 0

def Uses (items : List (Nat × Item)) : Prop :=
  ∀ i ∈ items, ∀ s, i.2 = .statement s → Head.ofLine? s.head = some .useClause

/-- The rules: brackets are closed and heads are known, headers and ends are balanced, members stand
in containers, use clauses stand outside and first, and no annotation is left over where a container
or the source ends. -/
structure Grammatical (items : List (Nat × Item)) : Prop where
  brackets : ∀ line s, (line, Item.statement s) ∈ items → s.depth ≤ 0
  heads : ∀ line s, (line, Item.statement s) ∈ items → ∃ head, Head.ofLine? s.head = some head
  nesting : Balanced items
  members : ∀ before line s kind name oldName, before ++ [(line, .statement s)] <+: items →
    Head.ofLine? s.head = some (.member kind name oldName) → 1 ≤ depth before
  clauses : ∀ before line s, before ++ [(line, .statement s)] <+: items →
    Head.ofLine? s.head = some .useClause → depth before = 0 ∧ Uses before
  ends : ∀ before line, before ++ [(line, .close)] <+: items → tokens (lead before) = []
  last : tokens (lead items) = []

/-- The rules that an item breaks behind the items `before`, with the line to blame: the item's
own, but for annotations that an end follows the first of these. -/
inductive Breaks (before : List (Nat × Item)) (line : Nat) : Item → SourceFault → Nat → Prop
  | unbalanced {s : Statement} (unclosed : 0 < s.depth) :
    Breaks before line (.statement s) .unbalanced line
  | unexpectedToken {s : Statement} (closed : s.depth ≤ 0) (head : Head.ofLine? s.head = none) :
    Breaks before line (.statement s) (.unexpectedToken (String.ofList s.head)) line
  | memberOutside {s : Statement} {kind : MemberKind} {name : String} {oldName : Option String}
    (closed : s.depth ≤ 0) (head : Head.ofLine? s.head = some (.member kind name oldName))
    (outside : depth before < 1) :
    Breaks before line (.statement s) (.memberOutside kind name) line
  | lateUse {s : Statement} (closed : s.depth ≤ 0) (head : Head.ofLine? s.head = some .useClause)
    (late : ¬ (depth before = 0 ∧ Uses before)) : Breaks before line (.statement s) .lateUse line
  | unexpectedEnd (outside : depth before < 1) : Breaks before line .close .unexpectedEnd line
  | danglingAnnot {first : Nat} (inside : 1 ≤ depth before) (waits : tokens (lead before) ≠ [])
    (blame : (pending (lead before)).annotationLine = some first) :
    Breaks before line .close .danglingAnnot first

def Kept (items : List (Nat × Item)) : Prop :=
  ∀ before line item, before ++ [(line, item)] <+: items →
    ∀ fault blame, ¬ Breaks before line item fault blame

/-- The first rule that the items of a source break, with the line to blame; `last` is the number
of the last line. At the end the innermost open container comes before annotations that wait. -/
inductive FirstBreak (items : List (Nat × Item)) (last : Nat) : SourceFault → Nat → Prop
  | item {before : List (Nat × Item)} {line : Nat} {item : Item} {fault : SourceFault} {blame : Nat}
    (here : before ++ [(line, item)] <+: items) (kept : Kept before)
    (breaks : Breaks before line item fault blame) : FirstBreak items last fault blame
  | missingEnd {before after : List (Nat × Item)} {line : Nat} {s : Statement}
    {kind : ContainerKind} {name : String} (kept : Kept items)
    (here : items = before ++ (line, .statement s) :: after)
    (opener : s.opener? = some (kind, name)) (inside : Balanced after) :
    FirstBreak items last (.missingEnd name) last
  | danglingAnnot {first : Nat} (kept : Kept items) (closed : depth items = 0)
    (waits : tokens (lead items) ≠ [])
    (blame : (pending (lead items)).annotationLine = some first) :
    FirstBreak items last .danglingAnnot first

variable {items items' up : List (Nat × Item)} {i : Nat × Item} {line blame : Nat} {item : Item}
  {fault : SourceFault} {s : Statement} {d : Decl} {frame : Frame} {f : Forest}

theorem body_append_lead (items : List (Nat × Item)) : body items ++ lead items = items :=
  List.rdropWhile_append_rtakeWhile

theorem leads_lead (items : List (Nat × Item)) : Leads (lead items) := fun _ hi =>
  List.mem_rtakeWhile_imp (p := fun i : Nat × Item => i.2.isLead) hi

theorem lead_concat_of_lead (h : i.2.isLead = true) : lead (items ++ [i]) = lead items ++ [i] :=
  List.rtakeWhile_concat_pos _ _ _ h

theorem body_concat_of_lead (h : i.2.isLead = true) : body (items ++ [i]) = body items :=
  List.rdropWhile_concat_pos _ _ _ h

theorem lead_concat (h : i.2.isLead = false) : lead (items ++ [i]) = [] :=
  List.rtakeWhile_concat_neg _ _ _ (by simp [h])

theorem body_concat (h : i.2.isLead = false) :
    body (items ++ [i]) = body items ++ lead items ++ [i] := by
  rw [body_append_lead]
  exact List.rdropWhile_concat_neg _ _ _ (by simp [h])

@[simp] theorem pending_nil : pending [] = {} := rfl

theorem near_concat (items : List (Nat × Item)) (i : Nat × Item) :
    near (items ++ [i]) = if i.2 = .blank then [] else near items ++ [i] := by
  rw [near, List.rtakeWhile_concat]
  by_cases h : i.2 = .blank <;> simp [h, near]

theorem firstLine?_concat (sort : Item → Bool) (items : List (Nat × Item)) (line : Nat)
    (item : Item) : firstLine? sort (items ++ [(line, item)]) =
      (firstLine? sort items <|> if sort item then some line else none) := by
  cases hfind : items.find? (sort ·.2) <;> cases hitem : sort item <;>
    simp [firstLine?, hfind, hitem]

@[simp] theorem pending_blank (items : List (Nat × Item)) (line : Nat) :
    pending (items ++ [(line, .blank)]) = (pending items).dropComments := by
  simp [pending, Pending.dropComments, near_concat, tokens, remarks, Item.tokens,
    Item.isAnnotations, firstLine?]

@[simp] theorem pending_comment (items : List (Nat × Item)) (line : Nat) (text : List Char) :
    pending (items ++ [(line, .comment text)]) =
      (pending items).addComment line (String.ofList text) := by
  simp [pending, Pending.addComment, near_concat, firstLine?_concat, tokens, remarks, Item.tokens,
    Item.remark?, Item.isAnnotations]

@[simp] theorem pending_annotations (items : List (Nat × Item)) (line : Nat) (as : List Annot) :
    pending (items ++ [(line, .annotations as)]) = (pending items).addAnnotations line as := by
  simp [pending, Pending.addAnnotations, near_concat, firstLine?_concat, tokens, remarks,
    Item.tokens, Item.remark?, Item.isAnnotations]

theorem annotationLine_of_tokens (h : tokens items ≠ []) :
    ∃ first item, (first, item) ∈ items ∧ (pending items).annotationLine = some first := by
  have hmem : ∃ i ∈ items, i.2.isAnnotations = true := by
    by_contra hnone
    apply h
    rw [tokens, List.flatMap_eq_nil_iff]
    intro i hi
    cases hitem : i.2 with
    | annotations as => exact absurd ⟨i, hi, by rw [hitem]; rfl⟩ hnone
    | blank | comment | close | statement => rfl
  obtain ⟨i, hi, hann⟩ := hmem
  cases hfind : items.find? (·.2.isAnnotations) with
  | none => exact absurd hann (List.find?_eq_none.1 hfind i hi)
  | some j =>
    exact ⟨j.1, j.2, List.mem_of_find?_eq_some hfind, by simp [pending, firstLine?, hfind]⟩

@[simp] theorem depth_nil : depth [] = 0 := rfl

@[simp] theorem depth_cons (i : Nat × Item) (items : List (Nat × Item)) :
    depth (i :: items) = weight i.2 + depth items := by
  simp [depth]

@[simp] theorem depth_append (items items' : List (Nat × Item)) :
    depth (items ++ items') = depth items + depth items' := by
  simp [depth]

theorem weight_of_lead (h : i.2.isLead = true) : weight i.2 = 0 := by
  cases hi : i.2 <;> rw [hi] at h <;> first | rfl | cases h

theorem Leads.depth (h : Leads items) : depth items = 0 := by
  induction items with
  | nil => rfl
  | cons i items ih =>
    obtain ⟨hi, hitems⟩ := List.forall_mem_cons.1 h
    rw [depth_cons, weight_of_lead hi, ih hitems, add_zero]

theorem depth_body (items : List (Nat × Item)) : depth (body items) = depth items := by
  conv_rhs => rw [← body_append_lead items, depth_append, (leads_lead items).depth, add_zero]

theorem balanced_nil : Balanced [] :=
  ⟨fun before h => by simp [List.prefix_nil.1 h], rfl⟩

theorem Leads.balanced (h : Leads items) : Balanced items :=
  ⟨fun _ hb => Int.le_of_eq (Leads.depth fun i hi => h i (hb.subset hi)).symm, h.depth⟩

theorem Balanced.append (h : Balanced items) (h' : Balanced items') :
    Balanced (items ++ items') where
  nonneg before hb := by
    rcases List.prefix_or_prefix_of_prefix hb (List.prefix_append items items') with hb' | ⟨b, rfl⟩
    · exact h.nonneg before hb'
    · rw [depth_append, h.closed, zero_add]
      exact h'.nonneg b ((List.prefix_append_right_inj items).1 hb)
  closed := by rw [depth_append, h.closed, h'.closed, add_zero]

theorem balanced_singleton (h : weight i.2 = 0) : Balanced [i] where
  nonneg before hb := by
    rcases List.prefix_cons_iff.1 hb with rfl | ⟨t, rfl, ht⟩
    · exact Int.le_refl _
    · rw [List.prefix_nil.1 ht, depth_cons, h, depth_nil]
      exact Int.le_refl _
  closed := by rw [depth_cons, h, depth_nil, add_zero]

theorem Balanced.enclose {j : Nat × Item} (h : Balanced items) (hi : weight i.2 = 1)
    (hj : weight j.2 = -1) : Balanced (i :: items ++ [j]) where
  nonneg before hb := by
    rcases List.prefix_cons_iff.1 hb with rfl | ⟨t, rfl, ht⟩
    · exact Int.le_refl _
    · rw [depth_cons, hi]
      rcases List.prefix_concat_iff.1 ht with rfl | ht
      · rw [depth_append, h.closed, depth_cons, hj, depth_nil]
        decide
      · have := h.nonneg t ht
        omega
  closed := by
    rw [List.cons_append, depth_cons, depth_append, h.closed, depth_cons, hi, hj, depth_nil]
    decide

theorem weight_of_opened {s : Statement} {p : Pending} {frame : Frame}
    (h : s.opened? p = some frame) : weight (.statement s) = 1 := by
  obtain ⟨k, hk, -⟩ := Option.map_eq_some_iff.1 h
  rw [weight, hk]
  rfl

/-- A statement declares one thing without parts, or a container that it closes itself. -/
theorem declared_cases {p : Pending} (h : s.declared? p = some d) :
    (∃ name, (∀ kind name', Head.ofLine? s.head ≠ some (.container kind name')) ∧
      d.isContainer = false ∧ d.header = p.header name s.texts s.start s.stop) ∨
    ∃ kind name texts, Head.ofLine? s.head = some (.container kind name) ∧
      s.closedTexts? = some texts ∧
        d = .container kind (p.header name texts s.start s.stop) [] [] := by
  unfold Statement.declared? at h
  split at h
  · cases h
  · next hh =>
    cases h
    exact .inl ⟨s.clauseName, by simp [hh], rfl, rfl⟩
  · next name hh =>
    cases h
    exact .inl ⟨name, by simp [hh], rfl, rfl⟩
  · next name _ hh =>
    cases h
    exact .inl ⟨name, by simp [hh], rfl, rfl⟩
  · next kind name hh =>
    obtain ⟨texts, htexts, rfl⟩ := Option.map_eq_some_iff.1 h
    exact .inr ⟨kind, name, texts, hh, htexts, rfl⟩

theorem weight_of_declared {s : Statement} {p : Pending} {d : Decl} (h : s.declared? p = some d) :
    weight (.statement s) = 0 := by
  have hopener : s.opener? = none := by
    unfold Statement.opener?
    split
    · next hh hc =>
      rcases declared_cases h with ⟨name, hhead, -⟩ | ⟨kind, name, texts, -, htexts, -⟩
      · exact absurd hh (hhead _ _)
      · rw [hc] at htexts
        cases htexts
    · rfl
  rw [weight, hopener]
  rfl

theorem opened_of_declared {p : Pending} (h : s.declared? p = some d) : s.opened? p = none := by
  cases ho : s.opened? p with
  | none => rfl
  | some frame =>
    have hone := weight_of_opened ho
    rw [weight_of_declared h] at hone
    cases hone

theorem children_of_opened {p : Pending} (h : s.opened? p = some frame) : frame.children = [] := by
  obtain ⟨k, -, rfl⟩ := Option.map_eq_some_iff.1 h
  rfl

theorem Forms.balanced {f : Forest} (h : Forms items f) : Balanced items := by
  induction h with
  | nil => exact balanced_nil
  | declare line _ leads declared ih =>
    exact (ih.append leads.balanced).append (balanced_singleton (weight_of_declared declared))
  | @enclose items up inner tail f g line stop s frame _ leads opened _ trails _ ih ihinner =>
    have hinner := (ihinner.append trails.balanced).enclose (i := (line, .statement s))
      (j := (stop, .close)) (weight_of_opened opened) rfl
    have := (ih.append leads.balanced).append hinner
    simpa using this

theorem uses_append : Uses (items ++ items') ↔ Uses items ∧ Uses items' := List.forall_mem_append

theorem Leads.uses (h : Leads items) : Uses items := fun i hi s hs => by
  have := h i hi
  rw [hs] at this
  cases this

theorem uses_statement {s : Statement} :
    Uses [(line, .statement s)] ↔ Head.ofLine? s.head = some .useClause := by
  simp [Uses]

theorem kind_of_declared {p : Pending} (h : s.declared? p = some d) :
    d.kind = .leaf .useClause ↔ Head.ofLine? s.head = some .useClause := by
  unfold Statement.declared? at h
  split at h
  · cases h
  · next hh =>
    cases h
    simp [hh, Decl.kind]
  · next kind name hh =>
    cases h
    have := Head.ne_useClause_of_ofLine? hh
    simp [hh, Decl.kind, this]
  · next hh =>
    cases h
    simp [hh, Decl.kind]
  · next hh =>
    obtain ⟨texts, -, rfl⟩ := Option.map_eq_some_iff.1 h
    simp [hh, Decl.kind]

theorem head_of_opened {p : Pending} (h : s.opened? p = some frame) :
    Head.ofLine? s.head ≠ some .useClause := by
  obtain ⟨k, hk, -⟩ := Option.map_eq_some_iff.1 h
  unfold Statement.opener? at hk
  split at hk
  · next hh _ =>
    rw [hh]
    exact fun h => by cases h
  · cases hk

theorem Forms.uses (h : Forms items f) : (∀ d ∈ f, d.kind = .leaf .useClause) ↔ Uses items := by
  induction h with
  | nil => simp [Uses]
  | declare line _ leads declared ih =>
    rw [List.forall_mem_append, ih, uses_append, uses_append, uses_statement,
      List.forall_mem_singleton, kind_of_declared declared]
    exact ⟨fun h => ⟨⟨h.1, leads.uses⟩, h.2⟩, fun h => ⟨h.1.1, h.2⟩⟩
  | @enclose _ _ _ _ _ _ line stop s _ _ _ opened _ _ _ _ _ =>
    -- A container is no use clause, and neither is its header.
    constructor
    · intro h
      have := h _ (List.mem_append_right _ (List.mem_singleton.2 rfl))
      cases this
    · intro h
      exact absurd (h (line, .statement s) (by simp) s rfl) (head_of_opened opened)

theorem kept_nil : Kept [] := fun before line item h => by
  have := List.prefix_nil.1 h
  simp at this

theorem kept_concat : Kept (items ++ [(line, item)]) ↔
    Kept items ∧ ∀ fault blame, ¬ Breaks items line item fault blame := by
  constructor
  · intro h
    exact ⟨fun before line' item' hb => h before line' item' (hb.trans (List.prefix_append _ _)),
      h items line item List.prefix_rfl⟩
  · rintro ⟨hitems, hitem⟩ before line' item' hb
    rcases List.prefix_concat_iff.1 hb with heq | hb
    · obtain ⟨rfl, hlast⟩ := List.append_inj' heq rfl
      cases hlast
      exact hitem
    · exact hitems before line' item' hb

theorem prefix_of_mem {i : Nat × Item} (h : i ∈ items) : ∃ before, before ++ [i] <+: items := by
  obtain ⟨before, after, rfl⟩ := List.append_of_mem h
  exact ⟨before, after, by simp⟩

theorem Kept.nonneg (h : Kept items) {before : List (Nat × Item)} (hb : before <+: items) :
    0 ≤ depth before := by
  induction before using List.reverseRecOn with
  | nil => exact Int.le_refl 0
  | append_singleton before i ih =>
    obtain ⟨line, item⟩ := i
    have hbefore := ih ((List.prefix_append _ _).trans hb)
    rw [depth_append, depth_cons, depth_nil]
    cases item with
    | close =>
      have : ¬ depth before < 1 := fun hout => h before line .close hb _ _ (.unexpectedEnd hout)
      simp only [weight]
      omega
    | statement s =>
      simp only [weight]
      split <;> omega
    | blank | comment | annotations =>
      simp only [weight]
      omega

theorem Grammatical.kept (h : Grammatical items) : Kept items := by
  intro before line item hb fault blame hbreaks
  have hmem : (line, item) ∈ items := hb.subset (by simp)
  cases hbreaks with
  | @unbalanced s unclosed =>
    have := h.brackets line s hmem
    omega
  | @unexpectedToken s closed head =>
    obtain ⟨head', hh⟩ := h.heads line s hmem
    rw [hh] at head
    cases head
  | memberOutside closed head outside =>
    have := h.members before line _ _ _ _ hb head
    omega
  | lateUse closed head late => exact late (h.clauses before line _ hb head)
  | unexpectedEnd outside =>
    have := h.nesting.nonneg _ hb
    simp only [depth_append, depth_cons, depth_nil, weight] at this
    omega
  | danglingAnnot inside waits hfirst => exact waits (h.ends before line hb)

theorem Kept.grammatical (h : Kept items) (closed : depth items = 0)
    (last : tokens (lead items) = []) : Grammatical items := by
  have hbrackets (line : Nat) (s : Statement) (hs : (line, Item.statement s) ∈ items) :
      s.depth ≤ 0 := by
    obtain ⟨before, hb⟩ := prefix_of_mem hs
    exact Int.not_lt.1 fun hunclosed => h _ _ _ hb _ _ (.unbalanced hunclosed)
  have hclosed {before : List (Nat × Item)} {line : Nat} {s : Statement}
      (hb : before ++ [(line, .statement s)] <+: items) : s.depth ≤ 0 :=
    hbrackets line s (hb.subset (by simp))
  constructor
  · exact hbrackets
  · intro line s hs
    obtain ⟨before, hb⟩ := prefix_of_mem hs
    refine Option.ne_none_iff_exists'.1 fun hh => ?_
    exact h _ _ _ hb _ _ (.unexpectedToken (hclosed hb) hh)
  · exact ⟨fun before hb => h.nonneg hb, closed⟩
  · intro before line s kind name oldName hb hh
    exact Int.not_lt.1 fun hout => h _ _ _ hb _ _ (.memberOutside (hclosed hb) hh hout)
  · intro before line s hb hh
    by_contra hlate
    exact h _ _ _ hb _ _ (.lateUse (hclosed hb) hh hlate)
  · intro before line hb
    by_contra hwaits
    obtain ⟨first, item, -, hfirst⟩ := annotationLine_of_tokens hwaits
    by_cases hout : depth before < 1
    · exact h _ _ _ hb _ _ (.unexpectedEnd hout)
    · exact h _ _ _ hb _ _ (.danglingAnnot (Int.not_lt.1 hout) hwaits hfirst)
  · exact last

theorem Breaks.blame_mem (h : Breaks items line item fault blame) :
    blame = line ∨ ∃ item', (blame, item') ∈ items := by
  cases h with
  | danglingAnnot inside waits hfirst =>
    obtain ⟨first, item', hmem, hfirst'⟩ := annotationLine_of_tokens waits
    rw [hfirst] at hfirst'
    cases hfirst'
    exact .inr ⟨item', (List.rtakeWhile_suffix _ items).subset hmem⟩
  | _ => exact .inl rfl

theorem FirstBreak.blame_mem {last : Nat} (h : FirstBreak items last fault blame) :
    blame = last ∨ ∃ item, (blame, item) ∈ items := by
  cases h with
  | @item before line item _ _ here kept breaks =>
    rcases breaks.blame_mem with rfl | ⟨item', hmem⟩
    · exact .inr ⟨item, here.subset (by simp)⟩
    · exact .inr ⟨item', here.subset (List.mem_append_left _ hmem)⟩
  | missingEnd => exact .inl rfl
  | danglingAnnot kept closed waits hfirst =>
    obtain ⟨first, item, hmem, hfirst'⟩ := annotationLine_of_tokens waits
    rw [hfirst] at hfirst'
    cases hfirst'
    exact .inr ⟨item, (List.rtakeWhile_suffix _ items).subset hmem⟩

theorem FirstBreak.not_grammatical {last : Nat} (h : FirstBreak items last fault blame) :
    ¬ Grammatical items := by
  intro hg
  cases h with
  | item here kept breaks => exact hg.kept _ _ _ here _ _ breaks
  | @missingEnd before after line s kind name kept here opener inside =>
    have hbefore : 0 ≤ depth before := hg.nesting.nonneg before ⟨_, here.symm⟩
    have hclosed := hg.nesting.closed
    rw [here, depth_append, depth_cons, inside.closed] at hclosed
    simp only [weight, opener, Option.isSome_some, if_true] at hclosed
    omega
  | danglingAnnot kept closed waits hfirst => exact waits hg.last

end Outline
end SignatureLayers
