import SignatureLayers.Proofs.Outline
import SignatureLayers.Proofs.Rereading

namespace SignatureLayers

namespace Outline

/-- What items form that may have left containers open: each frame holds the forest of the items
behind its header. -/
inductive Stands : List (Nat × Item) → Forest → List Frame → Prop
  | roots {items : List (Nat × Item)} {f : Forest} (forms : Forms items f) : Stands items f []
  | inside {items up inner : List (Nat × Item)} {f g : Forest} {stack : List Frame} (line : Nat)
    {s : Statement} {frame : Frame} (outer : Stands items f stack) (leads : Leads up)
    (opened : s.opened? (pending up) = some frame) (children : Forms inner g) :
    Stands (items ++ up ++ (line, .statement s) :: inner) f ({ frame with children := g } :: stack)

/-- What the items are put together to. -/
structure Reached (items : List (Nat × Item)) (N : Nesting) : Prop where
  stands : Stands (body items) N.roots N.stack
  waits : N.pending = pending (lead items)

variable {items up rest : List (Nat × Item)} {line blame : Nat} {item : Item} {fault : SourceFault}
  {s : Statement} {head : Head} {d : Decl} {frame : Frame} {f : Forest} {stack : List Frame}
  {N N' : Nesting}

theorem declare_ok (hh : Head.ofLine? s.head = some head) (h : N.declare s head = .ok N') :
    (∃ d, s.declared? N.pending = some d ∧ N' = N.add d) ∨
      ∃ frame, s.opened? N.pending = some frame ∧ N' = N.push frame := by
  unfold Statement.declared? Statement.opened? Statement.opener?
  rw [hh]
  cases head with
  | useClause =>
    obtain ⟨-, rfl⟩ := Nesting.declare_useClause_iff.1 h
    exact .inl ⟨_, rfl, rfl⟩
  | leaf kind name =>
    cases h
    exact .inl ⟨_, rfl, rfl⟩
  | member kind name oldName =>
    obtain ⟨-, rfl⟩ := Nesting.declare_member_iff.1 h
    exact .inl ⟨_, rfl, rfl⟩
  | container kind name =>
    simp only [Nesting.declare] at h
    split at h
    · next hc =>
      cases h
      exact .inl ⟨_, by rw [hc]; rfl, rfl⟩
    · next hc =>
      cases h
      exact .inr ⟨_, by rw [hc]; rfl, rfl⟩

theorem declare_error_iff : N.declare s head = .error fault ↔
    (head = .useClause ∧ N.admitsUse = false ∧ fault = .lateUse) ∨
      ∃ kind name oldName, head = .member kind name oldName ∧ N.stack = [] ∧
        fault = .memberOutside kind name := by
  cases head with
  | useClause => cases h : N.admitsUse <;> simp [Nesting.declare, h, @eq_comm _ fault]
  | leaf kind name => simp [Nesting.declare]
  | member kind name oldName =>
    cases h : N.stack <;> simp [Nesting.declare, h, @eq_comm _ fault]
  | container kind name => cases h : s.closedTexts? <;> simp [Nesting.declare, h]

theorem Stands.forms (h : Stands items f []) : Forms items f := by
  cases h
  assumption

theorem Stands.depth (h : Stands items f stack) : depth items = stack.length := by
  induction h with
  | roots forms => exact forms.balanced.closed
  | inside line _ leads opened children ih =>
    simp [ih, leads.depth, weight_of_opened opened, children.balanced.closed]

theorem Stands.declare (h : Stands items N.roots N.stack) (leads : Leads up)
    (declared : s.declared? (pending up) = some d) :
    Stands (items ++ up ++ [(line, .statement s)]) (N.add d).roots (N.add d).stack := by
  obtain ⟨roots, stack, p⟩ := N
  cases h with
  | roots forms => exact .roots (forms.declare line leads declared)
  | inside line' outer leads' opened children =>
    have := outer.inside line' leads' opened (children.declare line leads declared)
    simpa [Nesting.add] using this

theorem Stands.push (h : Stands items N.roots N.stack) (leads : Leads up)
    (opened : s.opened? (pending up) = some frame) :
    Stands (items ++ up ++ [(line, .statement s)]) (N.push frame).roots (N.push frame).stack := by
  have := h.inside line leads opened .nil
  rwa [← children_of_opened opened] at this

theorem Stands.innermost (h : Stands items f (frame :: stack)) :
    ∃ before line s after kind, items = before ++ (line, Item.statement s) :: after ∧
      s.opener? = some (kind, frame.header.name) ∧ Balanced after := by
  cases h with
  | @inside items up inner f g stack line s frame outer leads opened children =>
    obtain ⟨⟨kind, name⟩, hopener, rfl⟩ := Option.map_eq_some_iff.1 opened
    exact ⟨items ++ up, line, s, inner, kind, rfl, hopener, children.balanced⟩

theorem Stands.close {tail : List (Nat × Item)} {stop : Nat}
    (h : Stands items N.roots (frame :: N.stack)) (trails : Leads tail) (free : tokens tail = []) :
    let N' := N.add (frame.close stop (pending tail).comments)
    Stands (items ++ tail ++ [(stop, .close)]) N'.roots N'.stack := by
  obtain ⟨roots, stack, p⟩ := N
  cases h with
  | inside line outer leads opened children =>
    cases outer with
    | roots forms => exact .roots (forms.enclose line stop leads opened children trails free)
    | inside line' outer leads' opened' children' =>
      have := outer.inside line' leads' opened'
        (children'.enclose line stop leads opened children trails free)
      simpa [Nesting.add] using this

namespace Reached

theorem start : Reached [] {} := ⟨.roots .nil, rfl⟩

theorem depth (h : Reached items N) : depth items = N.stack.length := by
  rw [← depth_body, h.stands.depth]

theorem depth_lt_one (h : Reached items N) : Outline.depth items < 1 ↔ N.stack = [] := by
  rw [h.depth, ← List.length_eq_zero_iff]
  omega

theorem admitsUse (h : Reached items N) :
    N.admitsUse = true ↔ Outline.depth items = 0 ∧ Uses items := by
  have huses : Uses items ↔ Uses (body items) := by
    conv_lhs => rw [← body_append_lead items, uses_append]
    exact and_iff_left (leads_lead items).uses
  rw [huses, h.depth, Nesting.admitsUse]
  cases hs : N.stack with
  | nil =>
    have hforms : Forms (body items) N.roots := (hs ▸ h.stands).forms
    simp [← hforms.uses]
  | cons frame stack =>
    simp
    omega

theorem wait {p : Pending} (h : Reached items N) (hlead : item.isLead = true)
    (hp : p = pending (lead items ++ [(line, item)])) :
    Reached (items ++ [(line, item)]) (N.waiting p) where
  stands := by
    rw [body_concat_of_lead hlead]
    exact h.stands
  waits := by
    rw [lead_concat_of_lead hlead]
    exact hp

theorem settle (hitem : item.isLead = false)
    (h : Stands (body items ++ lead items ++ [(line, item)]) N.roots N.stack)
    (hp : N.pending = {}) : Reached (items ++ [(line, item)]) N where
  stands := by rwa [body_concat hitem]
  waits := by rw [lead_concat hitem, hp, pending_nil]

end Reached

theorem step_lead (N : Nesting) (line : Nat) (h : item.isLead = true) :
    ∃ p, N.step line item = .ok (N.waiting p) ∧
      ∀ up, N.pending = pending up → p = pending (up ++ [(line, item)]) := by
  cases item with
  | blank => exact ⟨_, rfl, fun up hp => by rw [pending_blank, hp]⟩
  | comment text => exact ⟨_, rfl, fun up hp => by rw [pending_comment, hp]⟩
  | annotations as => exact ⟨_, rfl, fun up hp => by rw [pending_annotations, hp]⟩
  | close | statement => cases h

theorem step_statement (h : N.step line (.statement s) = .ok N') :
    (∃ d, s.declared? N.pending = some d ∧ N' = N.add d) ∨
      ∃ frame, s.opened? N.pending = some frame ∧ N' = N.push frame := by
  obtain ⟨-, head, hh, hd⟩ := Nesting.step_statement_iff.1 h
  exact declare_ok hh hd

theorem step_ok (hN : Reached items N) (h : N.step line item = .ok N') :
    Reached (items ++ [(line, item)]) N' := by
  by_cases hlead : item.isLead = true
  · obtain ⟨p, hstep, hp⟩ := step_lead N line hlead
    rw [hstep] at h
    cases h
    exact hN.wait hlead (hp _ hN.waits)
  · rw [Bool.not_eq_true] at hlead
    cases item with
    | blank | comment | annotations => cases hlead
    | close =>
      obtain ⟨hfree, frame, stack, hs, rfl⟩ := Nesting.step_close_iff.1 h
      have hstands : Stands (body items) N.roots (frame :: stack) := hs ▸ hN.stands
      rw [hN.waits] at hfree ⊢
      exact .settle rfl (Stands.close (N := { N with stack }) hstands (leads_lead items) hfree)
        (Nesting.pending_add _ _)
    | statement s =>
      rcases step_statement h with ⟨d, hd, rfl⟩ | ⟨frame, hframe, rfl⟩
      · rw [hN.waits] at hd
        exact .settle rfl (hN.stands.declare (leads_lead items) hd) (Nesting.pending_add _ _)
      · rw [hN.waits] at hframe
        exact .settle rfl (hN.stands.push (leads_lead items) hframe) rfl

theorem step_close_error_iff (hN : Reached items N) :
    N.step line .close = .error (fault, blame) ↔ Breaks items line .close fault blame := by
  constructor
  · intro h
    simp only [Nesting.step] at h
    split at h
    · next hs =>
      cases h
      exact .unexpectedEnd (hN.depth_lt_one.2 hs)
    · next hs =>
      split at h
      · cases h
      · next hwaits =>
        cases h
        have htokens : tokens (lead items) ≠ [] := by
          rw [hN.waits, List.isEmpty_iff] at hwaits
          exact hwaits
        obtain ⟨first, item, -, hfirst⟩ := annotationLine_of_tokens htokens
        rw [hN.waits, hfirst]
        refine .danglingAnnot (Int.not_lt.1 fun hlt => ?_) htokens hfirst
        rw [hN.depth_lt_one.1 hlt] at hs
        cases hs
  · intro h
    cases h with
    | unexpectedEnd outside => simp [Nesting.step, hN.depth_lt_one.1 outside]
    | danglingAnnot inside waits hfirst =>
      have hwaits : (pending (lead items)).annotations.isEmpty = false := by
        simpa [pending] using waits
      cases hs : N.stack with
      | nil =>
        have := hN.depth_lt_one.2 hs
        omega
      | cons frame stack => simp [Nesting.step, hs, hN.waits, hwaits, hfirst]

theorem step_statement_error_iff (hN : Reached items N) :
    N.step line (.statement s) = .error (fault, blame) ↔
      Breaks items line (.statement s) fault blame := by
  have hmap (head : Head) : (N.declare s head).mapError (·, line) = .error (fault, blame) ↔
      N.declare s head = .error fault ∧ line = blame := by
    cases N.declare s head <;> simp [Except.mapError]
  have huse : N.admitsUse = false ↔ ¬ (depth items = 0 ∧ Uses items) := by
    rw [← hN.admitsUse, Bool.not_eq_true]
  constructor
  · intro h
    simp only [Nesting.step] at h
    split at h
    · next hunclosed =>
      cases h
      exact .unbalanced hunclosed
    · next hclosed =>
      rw [Int.not_lt] at hclosed
      split at h
      · next hh =>
        cases h
        exact .unexpectedToken hclosed hh
      · next head hh =>
        obtain ⟨hd, rfl⟩ := (hmap head).1 h
        rcases declare_error_iff.1 hd with ⟨rfl, hlate, rfl⟩ | ⟨kind, name, oldName, rfl, hs, rfl⟩
        · exact .lateUse hclosed hh (huse.1 hlate)
        · exact .memberOutside hclosed hh (hN.depth_lt_one.2 hs)
  · intro h
    cases h with
    | unbalanced hunclosed => simp [Nesting.step, hunclosed]
    | unexpectedToken hclosed hh => simp [Nesting.step, Int.not_lt.2 hclosed, hh]
    | memberOutside hclosed hh outside =>
      simp only [Nesting.step, Int.not_lt.2 hclosed, if_false, hh, hmap, and_true]
      exact declare_error_iff.2 (.inr ⟨_, _, _, rfl, hN.depth_lt_one.1 outside, rfl⟩)
    | lateUse hclosed hh late =>
      simp only [Nesting.step, Int.not_lt.2 hclosed, if_false, hh, hmap, and_true]
      exact declare_error_iff.2 (.inl ⟨rfl, huse.2 late, rfl⟩)

theorem step_error_iff (hN : Reached items N) :
    N.step line item = .error (fault, blame) ↔ Breaks items line item fault blame := by
  cases item with
  | close => exact step_close_error_iff hN
  | statement s => exact step_statement_error_iff hN
  | blank | comment | annotations =>
    constructor
    · intro h
      cases h
    · intro h
      cases h

theorem kept_step (hN : Reached items N) (hkept : Kept items) (h : N.step line item = .ok N') :
    Kept (items ++ [(line, item)]) := by
  refine kept_concat.2 ⟨hkept, fun fault blame hb => ?_⟩
  rw [(step_error_iff hN).2 hb] at h
  cases h

theorem run_ok (hN : Reached items N) (hkept : Kept items) (h : N.run rest = .ok N') :
    Kept (items ++ rest) ∧ Reached (items ++ rest) N' := by
  induction rest generalizing items N with
  | nil =>
    cases h
    rw [List.append_nil]
    exact ⟨hkept, hN⟩
  | cons i rest ih =>
    obtain ⟨M, hM, hrest⟩ := Nesting.run_cons h
    have := ih (step_ok hN hM) (kept_step hN hkept hM) hrest
    rwa [List.append_assoc] at this

theorem run_error (hN : Reached items N) (hkept : Kept items)
    (h : N.run rest = .error (fault, blame)) : ∃ before line item,
      before ++ [(line, item)] <+: items ++ rest ∧ Kept before ∧
        Breaks before line item fault blame := by
  induction rest generalizing items N with
  | nil => cases h
  | cons i rest ih =>
    obtain ⟨line, item⟩ := i
    rw [Nesting.run] at h
    split at h
    · next M hM =>
      obtain ⟨before, line', item', hb, hrest⟩ := ih (step_ok hN hM) (kept_step hN hkept hM) h
      rw [List.append_assoc] at hb
      exact ⟨before, line', item', hb, hrest⟩
    · next e hM =>
      cases h
      exact ⟨items, line, item, ⟨rest, by simp⟩, hkept, (step_error_iff hN).1 hM⟩

/-- What the run over all items leads to, or where it stops. -/
theorem run_cases (items : List (Nat × Item)) :
    (∃ N, Nesting.run {} items = .ok N ∧ Kept items ∧ Reached items N) ∨
      ∃ fault blame before line item, Nesting.run {} items = .error (fault, blame) ∧
        before ++ [(line, item)] <+: items ∧ Kept before ∧ Breaks before line item fault blame := by
  cases h : Nesting.run {} items with
  | ok N => exact .inl ⟨N, rfl, run_ok .start kept_nil h⟩
  | error e =>
    obtain ⟨before, line, item, hrest⟩ := run_error .start kept_nil h
    exact .inr ⟨e.1, e.2, before, line, item, rfl, hrest⟩

theorem run_leads (hN : N.pending = {}) (leads : Leads up) (h : N.run up = .ok N') :
    N' = N.waiting (pending up) := by
  induction up using List.reverseRecOn generalizing N' with
  | nil =>
    cases h
    rw [pending_nil, ← hN]
    rfl
  | append_singleton up i ih =>
    obtain ⟨hup, hi⟩ := List.forall_mem_append.1 leads
    obtain ⟨M, hM, hstep⟩ := Nesting.run_append_iff.1 h
    obtain ⟨p, hp, hwaits⟩ := step_lead M i.1 (hi i (List.mem_singleton.2 rfl))
    rw [Nesting.run_singleton hstep] at hp
    cases hp
    rw [ih hup hM, hwaits up (by rw [ih hup hM]; rfl)]
    rfl

theorem pending_foldl_add (hN : N.pending = {}) (f : Forest) :
    (f.foldl Nesting.add N).pending = {} := by
  induction f generalizing N with
  | nil => exact hN
  | cons d f ih => exact ih (Nesting.pending_add N d)

/-- A run over items adds the forest that they form. -/
theorem Forms.run (h : Forms items f) (hN : N.pending = {}) (hrun : N.run items = .ok N') :
    N' = f.foldl Nesting.add N := by
  induction h generalizing N N' with
  | nil =>
    cases hrun
    rfl
  | @declare items up f line s d _ leads declared ih =>
    obtain ⟨M, hM, hlast⟩ := Nesting.run_append_iff.1 hrun
    obtain ⟨M₀, hM₀, hup⟩ := Nesting.run_append_iff.1 hM
    have hwaits := ih hN hM₀ ▸ pending_foldl_add hN f
    obtain rfl := run_leads hwaits leads hup
    rcases step_statement (Nesting.run_singleton hlast) with ⟨d', hd', rfl⟩ | ⟨frame, hframe, rfl⟩
    · obtain rfl : d = d' := Option.some.inj (declared.symm.trans hd')
      rw [Nesting.waiting_add, ih hN hM₀, List.foldl_append]
      rfl
    · have hnone : s.opened? (pending up) = none := opened_of_declared declared
      rw [show s.opened? (pending up) = some frame from hframe] at hnone
      cases hnone
  | @enclose items up inner tail f g line stop s frame _ leads opened _ trails _ ih ihinner =>
    obtain ⟨M₃, hM₃, hlast⟩ := Nesting.run_append_iff.1 hrun
    obtain ⟨M₂, hM₂, htail⟩ := Nesting.run_append_iff.1 hM₃
    obtain ⟨M, hM, hrest⟩ := Nesting.run_append_iff.1 hM₂
    obtain ⟨M₀, hM₀, hup⟩ := Nesting.run_append_iff.1 hM
    obtain ⟨M₁, hM₁, hinner⟩ := Nesting.run_cons hrest
    have hwaits := ih hN hM₀ ▸ pending_foldl_add hN f
    obtain rfl := run_leads hwaits leads hup
    rcases step_statement hM₁ with ⟨d, hd, -⟩ | ⟨frame', hframe, rfl⟩
    · have hnone : s.opened? (pending up) = none := opened_of_declared hd
      rw [opened] at hnone
      cases hnone
    · obtain rfl : frame = frame' := Option.some.inj (opened.symm.trans hframe)
      -- The children gather in the frame, and the end adds the container where it was opened.
      have hM₂ : M₂ = M₀.push { frame with children := g } := by
        have hpush : g.foldl Nesting.add (M₀.push frame) =
            M₀.push { frame with children := frame.children ++ g } :=
          Nesting.foldl_add_push _ _ _ _ _
        rw [children_of_opened opened, List.nil_append] at hpush
        exact (ihinner rfl hinner).trans hpush
      obtain rfl := run_leads (hM₂ ▸ rfl) trails htail
      obtain ⟨-, frame', stack, hs, rfl⟩ := Nesting.step_close_iff.1 (Nesting.run_singleton hlast)
      rw [hM₂] at hs ⊢
      cases hs
      rw [ih hN hM₀, List.foldl_append]
      exact Nesting.waiting_add _ _ _

theorem Whole.roots (h : Whole items f) (hrun : Nesting.run {} items = .ok N) : N.roots = f := by
  rw [← body_append_lead items] at hrun
  obtain ⟨M, hM, hlead⟩ := Nesting.run_append_iff.1 hrun
  have hM' : M = ⟨f, [], {}⟩ := (Forms.run h rfl hM).trans (Nesting.foldl_add_roots [] f)
  rw [run_leads (hM' ▸ rfl) (leads_lead items) hlead, hM']
  rfl

theorem start_of_ofLine {raw : List Char} (h : s ∈ (Item.ofLine line raw).2) : s.start = line := by
  unfold Item.ofLine at h
  split at h
  · cases h
  · cases h
  · dsimp only at h
    split at h
    · cases h
    · split at h
      · cases h
      · cases h
        rfl

theorem line_of_mem_scan {current : Option Statement} {ls : List (List Char)} {i : Nat × Item}
    {first : Nat} (hline : first ≤ line)
    (hcurrent : ∀ s ∈ current, first ≤ s.start ∧ s.start < line)
    (h : i ∈ Item.scan line current ls) : first ≤ i.1 ∧ i.1 < line + ls.length := by
  induction ls generalizing line current with
  | nil =>
    cases current with
    | none => cases h
    | some s =>
      obtain rfl := List.mem_singleton.1 h
      exact hcurrent s rfl
  | cons raw ls ih =>
    -- What the line holds of itself stands on it, and so does the statement that it begins.
    have hbegin (h : i ∈ (Item.ofLine line raw).1.map (line, ·) ++
        Item.scan (line + 1) (Item.ofLine line raw).2 ls) :
        first ≤ i.1 ∧ i.1 < line + (raw :: ls).length := by
      rw [List.length_cons]
      rcases List.mem_append.1 h with h | h
      · obtain ⟨item, -, rfl⟩ := List.mem_map.1 h
        exact ⟨hline, by omega⟩
      · have := ih (by omega) (fun s hs => by rw [start_of_ofLine hs]; omega) h
        omega
    cases current with
    | none => exact hbegin h
    | some s =>
      have hs := hcurrent s rfl
      rw [Item.scan] at h
      split at h
      · have := ih (by omega) (fun s' hs' => by
          cases hs'
          exact ⟨hs.1, Nat.lt_succ_of_lt hs.2⟩) h
        rw [List.length_cons]
        omega
      · rcases List.mem_cons.1 h with rfl | h
        · exact ⟨hs.1, by omega⟩
        · exact hbegin h

def lastLine (source : List Char) : Nat := max 1 (Text.lines source).length

/-- A source is accepted with the forest of its items, or refused for the first rule that is
broken. -/
theorem parse_cases (file source : String) :
    (∃ f, parse file source = .ok f ∧ Grammatical (Item.ofSource source.toList) ∧
      Whole (Item.ofSource source.toList) f) ∨
    ∃ fault blame, parse file source = .error ⟨fault, file, blame⟩ ∧
      FirstBreak (Item.ofSource source.toList) (lastLine source.toList) fault blame := by
  unfold parse
  dsimp only
  rcases run_cases (Item.ofSource source.toList) with ⟨N, hrun, hkept, hN⟩ |
    ⟨fault, blame, before, line, item, hrun, hb, hkept, hbreaks⟩
  · rw [hrun]
    dsimp only
    unfold Nesting.finish
    cases hs : N.stack with
    | cons frame stack =>
      obtain ⟨before, line, s, after, kind, hbody, hopener, hafter⟩ := (hs ▸ hN.stands).innermost
      have hitems : Item.ofSource source.toList = before ++
          (line, .statement s) :: (after ++ lead (Item.ofSource source.toList)) := by
        conv_lhs => rw [← body_append_lead (Item.ofSource source.toList), hbody]
        simp
      exact .inr ⟨_, _, rfl,
        .missingEnd hkept hitems hopener (hafter.append (leads_lead _).balanced)⟩
    | nil =>
      have hclosed : depth (Item.ofSource source.toList) = 0 := by
        rw [hN.depth, hs]
        rfl
      by_cases hwaits : tokens (lead (Item.ofSource source.toList)) = []
      · have hempty : N.pending.annotations.isEmpty = true := by
          rw [hN.waits, List.isEmpty_iff]
          exact hwaits
        refine .inl ⟨N.roots, ?_, hkept.grammatical hclosed hwaits, (hs ▸ hN.stands).forms⟩
        simp [hempty]
      · have hempty : N.pending.annotations.isEmpty = false := by
          rw [hN.waits]
          simpa [pending] using hwaits
        obtain ⟨first, item, -, hfirst⟩ := annotationLine_of_tokens hwaits
        refine .inr ⟨_, first, ?_, .danglingAnnot hkept hclosed hwaits hfirst⟩
        have hline : N.pending.annotationLine = some first := hN.waits ▸ hfirst
        simp [hempty, hline]
  · rw [hrun]
    exact .inr ⟨fault, blame, rfl, .item hb hkept hbreaks⟩

theorem run_of_parse {file source : String} (h : parse file source = .ok f) :
    ∃ N, Nesting.run {} (Item.ofSource source.toList) = .ok N ∧ N.roots = f := by
  obtain ⟨N, hrun, hfinish⟩ := parse_eq_ok_iff.1 h
  exact ⟨N, hrun, (Nesting.finish_eq_ok_iff.1 hfinish).2.2⟩

theorem outline_of_parse {file source : String} (h : parse file source = .ok f) :
    Grammatical (Item.ofSource source.toList) ∧ Whole (Item.ofSource source.toList) f := by
  rcases parse_cases file source with ⟨f', hf', houtline⟩ | ⟨fault, blame, herror, -⟩
  · rw [h] at hf'
    cases hf'
    exact houtline
  · rw [h] at herror
    cases herror

/-- A source is accepted exactly when its items keep the rules of the grammar, and then with the
forest that they form; it is refused for the first item that breaks a rule, at one of its lines. -/
theorem parse_accepts (file source : String) :
    ((∃ f, parse file source = .ok f) ↔ Grammatical (Item.ofSource source.toList)) ∧
      (∀ f, parse file source = .ok f ↔
        Grammatical (Item.ofSource source.toList) ∧ Whole (Item.ofSource source.toList) f) ∧
      ∀ e, parse file source = .error e → e.file = file ∧
        FirstBreak (Item.ofSource source.toList) (lastLine source.toList) e.fault e.line ∧
          1 ≤ e.line ∧ e.line ≤ lastLine source.toList := by
  have haccept (f : Forest) : parse file source = .ok f ↔
      Grammatical (Item.ofSource source.toList) ∧ Whole (Item.ofSource source.toList) f := by
    refine ⟨outline_of_parse, fun ⟨hg, hwhole⟩ => ?_⟩
    rcases parse_cases file source with ⟨f', hf', -, -⟩ | ⟨fault, blame, -, hbreak⟩
    · obtain ⟨N, hrun, rfl⟩ := run_of_parse hf'
      rw [hf', hwhole.roots hrun]
    · exact absurd hg hbreak.not_grammatical
  refine ⟨⟨fun ⟨f, h⟩ => ((haccept f).1 h).1, fun hg => ?_⟩, haccept, fun e he => ?_⟩
  · rcases parse_cases file source with ⟨f, hf, -⟩ | ⟨fault, blame, -, hbreak⟩
    · exact ⟨f, hf⟩
    · exact absurd hg hbreak.not_grammatical
  · rcases parse_cases file source with ⟨f, hf, -⟩ | ⟨fault, blame, herror, hbreak⟩
    · rw [he] at hf
      cases hf
    · rw [he] at herror
      cases herror
      refine ⟨rfl, hbreak, ?_⟩
      rcases hbreak.blame_mem with rfl | ⟨item, hmem⟩
      · exact ⟨Nat.le_max_left _ _, Nat.le_refl _⟩
      · obtain ⟨hfirst, hlast⟩ :=
          line_of_mem_scan (Nat.le_refl 1) (fun s hs => by cases hs) hmem
        have hlength : blame ≤ (Text.lines source.toList).length := by omega
        exact ⟨hfirst, hlength.trans (Nat.le_max_right _ _)⟩

end Outline
end SignatureLayers
