import SignatureLayers.Proofs.Acceptance

namespace SignatureLayers

def Header.Reworded (last last' : String) (h h' : Header) : Prop :=
  ∃ front, h.text = front ++ [last] ∧ h' = { h with text := front ++ [last'] }

variable {last last' : String}

theorem Header.Reworded.located {h h' : Header} (hw : h.Reworded last last' h')
    (location : Option Location) :
    Header.Reworded last last' { h with location } { h' with location } := by
  obtain ⟨front, htext, rfl⟩ := hw
  exact ⟨front, htext, rfl⟩

namespace Forest

/-- One declaration of the first forest has another last text line in the second. -/
inductive Reworded (last last' : String) : Forest → Forest → Prop
  | here (xs ys : Forest) (d : Decl) {h' : Header} (hw : d.header.Reworded last last' h') :
    Reworded last last' (xs ++ d :: ys) (xs ++ d.mapHeader (fun _ => h') :: ys)
  | inside (xs ys : Forest) (kind : ContainerKind) (h : Header) (trailing : List String)
    {cs cs' : Forest} (hw : Reworded last last' cs cs') :
    Reworded last last' (xs ++ .container kind h cs trailing :: ys)
      (xs ++ .container kind h cs' trailing :: ys)

namespace Reworded
variable {f f' : Forest}

theorem concat (h : f.Reworded last last' f') (e : Decl) :
    Forest.Reworded last last' (f ++ [e]) (f' ++ [e]) := by
  cases h with
  | here xs ys d hw => simpa using here xs (ys ++ [e]) d hw
  | inside xs ys kind h trailing hw => simpa using inside xs (ys ++ [e]) kind h trailing hw

theorem map_kind (h : f.Reworded last last' f') : f'.map Decl.kind = f.map Decl.kind := by
  cases h with
  | here xs ys d hw => simp
  | inside xs ys kind h trailing hw => simp [Decl.kind]

end Reworded
end Forest

/-- One open container has another header, or something in it has another last text line. -/
inductive Frame.Reworded (last last' : String) : Frame → Frame → Prop
  | header (frame : Frame) {h' : Header} (hw : frame.header.Reworded last last' h') :
    Reworded last last' frame { frame with header := h' }
  | children (frame : Frame) {cs' : Forest} (hw : frame.children.Reworded last last' cs') :
    Reworded last last' frame { frame with children := cs' }

theorem Frame.Reworded.close {frame frame' : Frame} (h : frame.Reworded last last' frame')
    (stop : Nat) (trailing : List String) (xs : Forest) :
    Forest.Reworded last last' (xs ++ [frame.close stop trailing])
      (xs ++ [frame'.close stop trailing]) := by
  cases h with
  | header hw => exact .here xs [] (frame.close stop trailing) (hw.located _)
  | children hw => exact .inside xs [] _ _ _ hw

namespace Nesting

/-- In what is put together so far, one last text line is another. -/
inductive Reworded (last last' : String) : Nesting → Nesting → Prop
  | roots {f f' : Forest} (stack : List Frame) (p : Pending) (hw : f.Reworded last last' f') :
    Reworded last last' ⟨f, stack, p⟩ ⟨f', stack, p⟩
  | stack (f : Forest) (inner outer : List Frame) (p : Pending) {frame frame' : Frame}
    (hw : frame.Reworded last last' frame') :
    Reworded last last' ⟨f, inner ++ frame :: outer, p⟩ ⟨f, inner ++ frame' :: outer, p⟩

variable {N N' M : Nesting} {d d' : Decl} {s : Statement} {line : Nat} {item : Item}

theorem reworded_add (N : Nesting)
    (h : ∀ xs, Forest.Reworded last last' (xs ++ [d]) (xs ++ [d'])) :
    (N.add d).Reworded last last' (N.add d') := by
  obtain ⟨roots, stack, p⟩ := N
  cases stack with
  | nil => exact .roots [] {} (h roots)
  | cons frame stack =>
    exact .stack roots [] stack {} (.children { frame with children := _ } (h frame.children))

theorem reworded_push (N : Nesting) {frame frame' : Frame}
    (h : frame.Reworded last last' frame') :
    (N.push frame).Reworded last last' (N.push frame') := .stack N.roots [] N.stack {} h

namespace Reworded

theorem pending (h : N.Reworded last last' N') : N'.pending = N.pending := by cases h <;> rfl

theorem waiting (h : N.Reworded last last' N') (p : Pending) :
    (N.waiting p).Reworded last last' (N'.waiting p) := by
  cases h with
  | roots stack _ hw => exact .roots stack p hw
  | stack f inner outer _ hw => exact .stack f inner outer p hw

theorem push (h : N.Reworded last last' N') (frame : Frame) :
    (N.push frame).Reworded last last' (N'.push frame) := by
  cases h with
  | roots stack _ hw => exact .roots (frame :: stack) {} hw
  | stack f inner outer _ hw => exact .stack f (frame :: inner) outer {} hw

theorem add (h : N.Reworded last last' N') (d : Decl) :
    (N.add d).Reworded last last' (N'.add d) := by
  cases h with
  | roots stack p hw =>
    cases stack with
    | nil => exact .roots [] {} (hw.concat d)
    | cons frame stack => exact .roots _ {} hw
  | stack f inner outer p hw =>
    cases inner with
    | cons frame inner => exact .stack f (_ :: inner) outer {} hw
    | nil =>
      cases hw with
      | header hw => exact .stack f [] outer {} (.header _ hw)
      | children hw => exact .stack f [] outer {} (.children _ (hw.concat d))

theorem isEmpty_stack (h : N.Reworded last last' N') : N'.stack.isEmpty = N.stack.isEmpty := by
  cases h with
  | roots => rfl
  | stack f inner outer p hw => cases inner <;> rfl

theorem admitsUse (h : N.Reworded last last' N') : N'.admitsUse = N.admitsUse := by
  have hroots : N'.roots.map Decl.kind = N.roots.map Decl.kind := by
    cases h with
    | roots stack p hw => exact hw.map_kind
    | stack => rfl
  have hall (f : Forest) :
      f.all (·.kind == .leaf .useClause) = (f.map Decl.kind).all (· == .leaf .useClause) := by
    rw [List.all_map]
    rfl
  rw [Nesting.admitsUse, Nesting.admitsUse, h.isEmpty_stack, hall, hall, hroots]

theorem declare {head : Head} (h : N.Reworded last last' N') (hd : N.declare s head = .ok M) :
    ∃ M', N'.declare s head = .ok M' ∧ M.Reworded last last' M' := by
  cases head with
  | useClause =>
    obtain ⟨hadmits, rfl⟩ := declare_useClause_iff.1 hd
    exact ⟨_, declare_useClause_iff.2 ⟨h.admitsUse.trans hadmits, rfl⟩, h.pending ▸ h.add _⟩
  | leaf kind name =>
    cases hd
    exact ⟨_, rfl, h.pending ▸ h.add _⟩
  | member kind name oldName =>
    obtain ⟨hopen, rfl⟩ := declare_member_iff.1 hd
    exact ⟨_, declare_member_iff.2 ⟨h.isEmpty_stack.trans hopen, rfl⟩, h.pending ▸ h.add _⟩
  | container kind name =>
    simp only [Nesting.declare, h.pending] at hd ⊢
    split at hd
    · cases hd
      exact ⟨_, rfl, h.add _⟩
    · cases hd
      exact ⟨_, rfl, h.push _⟩

theorem step (h : N.Reworded last last' N') (hs : N.step line item = .ok M) :
    ∃ M', N'.step line item = .ok M' ∧ M.Reworded last last' M' := by
  cases item with
  | blank | comment | annotations =>
    cases hs
    exact ⟨_, rfl, h.pending ▸ h.waiting _⟩
  | close =>
    obtain ⟨hfree, frame, stack, hstack, rfl⟩ := step_close_iff.1 hs
    cases h with
    | roots _ p hw =>
      obtain rfl : _ = frame :: stack := hstack
      exact ⟨_, step_close_iff.2 ⟨hfree, frame, stack, rfl, rfl⟩,
        (Reworded.roots stack p hw).add _⟩
    | stack f inner outer p hw =>
      cases inner with
      | cons frame' inner =>
        obtain ⟨rfl, rfl⟩ := List.cons.inj hstack
        exact ⟨_, step_close_iff.2 ⟨hfree, frame', _, rfl, rfl⟩,
          (Reworded.stack f inner outer p hw).add _⟩
      | nil =>
        obtain ⟨rfl, rfl⟩ := List.cons.inj hstack
        exact ⟨_, step_close_iff.2 ⟨hfree, _, _, rfl, rfl⟩,
          reworded_add ⟨f, outer, p⟩ (hw.close line p.comments)⟩
  | statement s =>
    obtain ⟨hdepth, head, hh, hd⟩ := step_statement_iff.1 hs
    obtain ⟨M', hM', hw⟩ := h.declare hd
    exact ⟨M', step_statement_iff.2 ⟨hdepth, head, hh, hM'⟩, hw⟩

theorem run {items : List (Nat × Item)} (h : N.Reworded last last' N')
    (hrun : N.run items = .ok M) :
    ∃ M', N'.run items = .ok M' ∧ M.Reworded last last' M' := by
  induction items generalizing N N' with
  | nil =>
    cases hrun
    exact ⟨N', rfl, h⟩
  | cons i items ih =>
    obtain ⟨M₁, hM₁, hrest⟩ := run_cons hrun
    obtain ⟨M₁', hM₁', hw⟩ := h.step hM₁
    obtain ⟨M', hM', hM⟩ := ih hw hrest
    refine ⟨M', ?_, hM⟩
    rw [Nesting.run, hM₁']
    exact hM'

theorem finish {stop : Nat} {f : Forest} (h : N.Reworded last last' N')
    (hf : N.finish stop = .ok f) :
    ∃ f', N'.finish stop = .ok f' ∧ f.Reworded last last' f' := by
  obtain ⟨hstack, hfree, rfl⟩ := finish_eq_ok_iff.1 hf
  cases h with
  | roots stack p hw => exact ⟨_, finish_eq_ok_iff.2 ⟨hstack, hfree, rfl⟩, hw⟩
  | stack f inner outer p hw => cases inner <;> cases hstack

end Reworded

end Nesting

/-- The last line of what a statement declares: an `end` that closes a container on it is no part
of that. -/
def Statement.lastLine (s : Statement) : List Char :=
  match Head.ofLine? s.head with
  | some (.container _ _) => (beforeEnd? s.lastText).getD s.lastText
  | _ => s.lastText

/-- `s'` says what `s` says, but for its last line. -/
structure Statement.Reworded (s s' : Statement) : Prop where
  start : s'.start = s.start
  stop : s'.stop = s.stop
  depth : s'.depth ≤ 0
  head : Head.ofLine? s'.head = Head.ofLine? s.head
  texts : ∃ front, s.texts = front ++ [s.lastText] ∧ s'.texts = front ++ [s'.lastText]
  closed : ∀ kind name, Head.ofLine? s.head = some (.container kind name) →
    (beforeEnd? s'.lastText).isSome = (beforeEnd? s.lastText).isSome

theorem Pending.reworded_header (p : Pending) (name : String) (front : List (List Char))
    (last last' : List Char) (start stop : Nat) :
    Header.Reworded (String.ofList last) (String.ofList last')
      (p.header name (front ++ [last]) start stop)
      (p.header name (front ++ [last']) start stop) := by
  refine ⟨front.map String.ofList, ?_, ?_⟩
  · simp [Pending.header]
  · simp [Pending.header]

namespace Nesting
variable {N M : Nesting} {s s' : Statement} {line : Nat}

theorem declare_reworded {head : Head} (h : s.Reworded s') (hh : Head.ofLine? s.head = some head)
    (huse : head ≠ .useClause) (hd : N.declare s head = .ok M) :
    ∃ M', N.declare s' head = .ok M' ∧
      M.Reworded (String.ofList s.lastLine) (String.ofList s'.lastLine) M' := by
  obtain ⟨front, htexts, htexts'⟩ := h.texts
  have hheader (name : String) : Header.Reworded (String.ofList s.lastText)
      (String.ofList s'.lastText) (N.pending.header name s.texts s.start s.stop)
      (N.pending.header name s'.texts s.start s.stop) := by
    rw [htexts, htexts']
    exact N.pending.reworded_header name front s.lastText s'.lastText s.start s.stop
  simp only [Statement.lastLine, h.head, hh]
  cases head with
  | useClause => exact absurd rfl huse
  | leaf kind name =>
    cases hd
    simp only [declare, h.start, h.stop]
    exact ⟨_, rfl, reworded_add N fun xs => .here xs [] (.leaf kind _) (hheader name)⟩
  | member kind name oldName =>
    obtain ⟨hopen, rfl⟩ := declare_member_iff.1 hd
    refine ⟨_, declare_member_iff.2 ⟨hopen, rfl⟩, ?_⟩
    rw [h.start, h.stop]
    exact reworded_add N fun xs => .here xs [] (.member kind _ oldName) (hheader name)
  | container kind name =>
    have hclosed := h.closed kind name hh
    simp only [declare, Statement.closedTexts?, h.start, h.stop] at hd ⊢
    cases hbefore : beforeEnd? s.lastText with
    | none =>
      have hbefore' : beforeEnd? s'.lastText = none := by simpa [hbefore] using hclosed
      rw [hbefore] at hd
      rw [hbefore']
      cases hd
      exact ⟨_, rfl, reworded_push N (.header _ (hheader name))⟩
    | some t =>
      obtain ⟨t', hbefore'⟩ : ∃ t', beforeEnd? s'.lastText = some t' := by
        rw [← Option.isSome_iff_exists, hclosed, hbefore]
        rfl
      rw [hbefore, htexts] at hd
      rw [hbefore', htexts']
      cases hd
      refine ⟨_, rfl, reworded_add N fun xs => .here xs [] (.container kind _ [] []) ?_⟩
      simp only [List.dropLast_concat]
      exact N.pending.reworded_header name front t t' s.start s.stop

theorem step_reworded (h : s.Reworded s') (huse : Head.ofLine? s.head ≠ some .useClause)
    (hs : N.step line (.statement s) = .ok M) :
    ∃ M', N.step line (.statement s') = .ok M' ∧
      M.Reworded (String.ofList s.lastLine) (String.ofList s'.lastLine) M' := by
  obtain ⟨-, head, hh, hd⟩ := step_statement_iff.1 hs
  obtain ⟨M', hM', hw⟩ := declare_reworded h hh (fun hhead => huse (hhead ▸ hh)) hd
  exact ⟨M', step_statement_iff.2 ⟨h.depth, head, h.head.trans hh, hM'⟩, hw⟩

/-- Among other items, too. -/
theorem run_reworded {before after : List (Nat × Item)} (h : s.Reworded s')
    (huse : Head.ofLine? s.head ≠ some .useClause)
    (hrun : N.run (before ++ (line, .statement s) :: after) = .ok M) :
    ∃ M', N.run (before ++ (line, .statement s') :: after) = .ok M' ∧
      M.Reworded (String.ofList s.lastLine) (String.ofList s'.lastLine) M' := by
  induction before generalizing N with
  | nil =>
    obtain ⟨M₁, hstep, hafter⟩ := run_cons hrun
    obtain ⟨M₁', hstep', hw⟩ := step_reworded h huse hstep
    obtain ⟨M', hafter', hM⟩ := hw.run hafter
    refine ⟨M', ?_, hM⟩
    rw [List.nil_append, run, hstep']
    exact hafter'
  | cons i before ih =>
    obtain ⟨M₁, hstep, hrest⟩ := run_cons hrun
    obtain ⟨M', hrest', hM⟩ := ih hrest
    refine ⟨M', ?_, hM⟩
    rw [List.cons_append, run, hstep]
    exact hrest'

end Nesting
end SignatureLayers
