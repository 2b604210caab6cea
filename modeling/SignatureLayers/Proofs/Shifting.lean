import SignatureLayers.Proofs.TrailingComments

namespace SignatureLayers

variable {n line : Nat} {raw : List Char} {current : Option Statement} {s : Statement}

def Location.shifted (n : Nat) (l : Location) : Location := ⟨l.start + n, l.stop + n⟩

def Header.shifted (n : Nat) (h : Header) : Header :=
  { h with location := h.location.map (·.shifted n) }

namespace Forest

def shifted (n : Nat) : Forest → Forest
  | [] => []
  | .container k h cs t :: rest => .container k (h.shifted n) (shifted n cs) t :: shifted n rest
  | d :: rest => d.mapHeader (·.shifted n) :: shifted n rest

end Forest

def Decl.shifted (n : Nat) (d : Decl) : Decl :=
  (d.mapHeader (·.shifted n)).mapChildren (Forest.shifted n)

def Statement.shifted (n : Nat) (s : Statement) : Statement :=
  { s with start := s.start + n, stop := s.stop + n }

def Item.shifted (n : Nat) : Item → Item
  | .statement s => .statement (s.shifted n)
  | item => item

def Pending.shifted (n : Nat) (p : Pending) : Pending :=
  { p with
    annotationLine := p.annotationLine.map (· + n)
    commentLine := p.commentLine.map (· + n) }

def Frame.shifted (n : Nat) (frame : Frame) : Frame :=
  ⟨frame.kind, frame.header.shifted n, frame.start + n, frame.children.shifted n⟩

/-- What has been put together, `n` lines further down and behind the forest `f`. -/
def Nesting.beyond (f : Forest) (n : Nat) (N : Nesting) : Nesting :=
  ⟨f ++ N.roots.shifted n, N.stack.map (·.shifted n), N.pending.shifted n⟩

@[simp] theorem Decl.kind_shifted (n : Nat) (d : Decl) : (d.shifted n).kind = d.kind := by
  cases d <;> rfl

theorem Forest.shifted_eq_map (n : Nat) (f : Forest) : f.shifted n = f.map (Decl.shifted n) := by
  induction f with
  | nil => simp [shifted]
  | cons d rest ih =>
    rw [List.map_cons, ← ih]
    cases d <;> simp [shifted, Decl.shifted, Decl.mapHeader, Decl.mapChildren]

@[simp] theorem Forest.shifted_nil (n : Nat) : shifted n [] = [] := by simp [shifted]

namespace Item

def moved (n : Nat) (i : Nat × Item) : Nat × Item := (i.1 + n, i.2.shifted n)

theorem ofLine_shifted (n line : Nat) (raw : List Char) : ofLine (line + n) raw =
    ((ofLine line raw).1, (ofLine line raw).2.map (·.shifted n)) := by
  unfold ofLine
  split
  · rfl
  · rfl
  · dsimp only
    split
    · rfl
    · split <;> rfl

theorem moved_ofLine (n line : Nat) (raw : List Char) :
    ((ofLine line raw).1.map (line, ·)).map (moved n) = (ofLine line raw).1.map (line + n, ·) := by
  rw [List.map_map]
  refine List.map_congr_left fun item hitem => ?_
  cases item with
  | statement s => exact absurd rfl (not_statement_of_ofLine hitem s)
  | _ => rfl

theorem advance_shifted (n line : Nat) (current : Option Statement) (raw : List Char) :
    advance (line + n) (current.map (·.shifted n)) raw =
      ((advance line current raw).1.map (moved n),
        (advance line current raw).2.map (·.shifted n)) := by
  cases current with
  | none => simp only [advance, Option.map_none, ofLine_shifted, moved_ofLine]
  | some s =>
    have hcontinues : (s.shifted n).continues raw = s.continues raw := rfl
    simp only [advance, Option.map_some, hcontinues]
    split
    · rfl
    · rw [ofLine_shifted, List.map_cons, moved_ofLine]
      rfl

theorem scan_shifted (n line : Nat) (current : Option Statement) (ls : List (List Char)) :
    scan (line + n) (current.map (·.shifted n)) ls = (scan line current ls).map (moved n) := by
  induction ls generalizing line current with
  | nil => cases current <;> rfl
  | cons raw ls ih =>
    rw [scan_cons, scan_cons, advance_shifted, List.map_append, ← ih, Nat.add_right_comm]

end Item

theorem Pending.firstLine_shifted (n : Nat) (p : Pending) (start : Nat) :
    (p.shifted n).firstLine (start + n) = p.firstLine start + n := by
  have hline (first : Option Nat) :
      (first.map (· + n)).getD (start + n) = first.getD start + n := by cases first <;> rfl
  simp only [firstLine, shifted, hline, Nat.add_min_add_right]

theorem Pending.header_shifted (n : Nat) (p : Pending) (name : String) (text : List (List Char))
    (start stop : Nat) : (p.shifted n).header name text (start + n) (stop + n) =
      (p.header name text start stop).shifted n := by
  simp only [header, Header.shifted, Location.shifted, firstLine_shifted, Option.map_some]
  rfl

namespace Nesting
variable {f : Forest} {N M : Nesting} {item : Item} {items : List (Nat × Item)} {head : Head}

theorem add_beyond (f : Forest) (n : Nat) (N : Nesting) (d : Decl) :
    (N.beyond f n).add (d.shifted n) = (N.add d).beyond f n := by
  obtain ⟨roots, stack, p⟩ := N
  cases stack with
  | nil => simp [beyond, add, Forest.shifted_eq_map, Pending.shifted]
  | cons frame stack => simp [beyond, add, Frame.shifted, Forest.shifted_eq_map, Pending.shifted]

theorem admitsUse_beyond (hf : ∀ d ∈ f, d.kind = .leaf .useClause) (n : Nat) (N : Nesting) :
    (N.beyond f n).admitsUse = N.admitsUse := by
  have hall : f.all (·.kind == .leaf .useClause) = true := by simpa using hf
  simp [admitsUse, beyond, hall, Forest.shifted_eq_map, Function.comp_def]

theorem isEmpty_stack_beyond (f : Forest) (n : Nat) (N : Nesting) :
    (N.beyond f n).stack.isEmpty = N.stack.isEmpty := List.isEmpty_map

theorem declare_beyond (hf : head = .useClause → ∀ d ∈ f, d.kind = .leaf .useClause)
    (h : N.declare s head = .ok M) :
    (N.beyond f n).declare (s.shifted n) head = .ok (M.beyond f n) := by
  have hheader (name : String) (texts : List (List Char)) :
      (N.beyond f n).pending.header name texts (s.shifted n).start (s.shifted n).stop =
        (N.pending.header name texts s.start s.stop).shifted n :=
    N.pending.header_shifted n name texts s.start s.stop
  have hadd (d : Decl) : Except.ok ((N.beyond f n).add (d.shifted n)) =
      (.ok ((N.add d).beyond f n) : Except SourceFault Nesting) :=
    congrArg Except.ok (add_beyond f n N d)
  cases head with
  | useClause =>
    obtain ⟨hadmits, rfl⟩ := declare_useClause_iff.1 h
    rw [declare, if_pos ((admitsUse_beyond (hf rfl) n N).trans hadmits), hheader]
    exact hadd (.leaf .useClause _)
  | leaf kind name =>
    cases h
    simp only [declare, hheader]
    exact hadd (.leaf kind _)
  | member kind name oldName =>
    obtain ⟨hopen, rfl⟩ := declare_member_iff.1 h
    rw [declare, isEmpty_stack_beyond, hopen, hheader]
    exact hadd (.member kind _ oldName)
  | container kind name =>
    have hclosed : (s.shifted n).closedTexts? = s.closedTexts? := rfl
    simp only [declare, hclosed, hheader] at h ⊢
    split at h
    · cases h
      have hempty (h : Header) : Decl.shifted n (.container kind h [] []) =
          .container kind (h.shifted n) [] [] := by
        simp [Decl.shifted, Decl.mapHeader, Decl.mapChildren]
      rw [← hempty]
      exact hadd _
    · cases h
      have hstart : (N.beyond f n).pending.firstLine (s.shifted n).start =
          N.pending.firstLine s.start + n := N.pending.firstLine_shifted n s.start
      rw [hstart]
      simp [beyond, Frame.shifted, Pending.shifted, Statement.texts, Statement.shifted]

theorem step_beyond
    (hf : ∀ s, item = .statement s → Head.ofLine? s.head = some .useClause →
      ∀ d ∈ f, d.kind = .leaf .useClause) (h : N.step line item = .ok M) :
    (N.beyond f n).step (line + n) (item.shifted n) = .ok (M.beyond f n) := by
  cases item with
  | blank =>
    cases h
    rfl
  | comment text =>
    cases h
    obtain ⟨roots, stack, annotations, annotationLine, comments, commentLine⟩ := N
    cases commentLine <;> rfl
  | annotations tokens =>
    cases h
    obtain ⟨roots, stack, annotations, annotationLine, comments, commentLine⟩ := N
    cases annotationLine <;> rfl
  | close =>
    obtain ⟨hfree, frame, stack, hstack, rfl⟩ := step_close_iff.1 h
    obtain ⟨roots, stack', p⟩ := N
    obtain rfl : stack' = frame :: stack := hstack
    refine step_close_iff.2 ⟨hfree, frame.shifted n, stack.map (·.shifted n), rfl, ?_⟩
    exact (add_beyond f n ⟨roots, stack, p⟩ (frame.close line p.comments)).symm
  | statement s =>
    obtain ⟨hdepth, head, hhead, hdeclare⟩ := step_statement_iff.1 h
    exact step_statement_iff.2 ⟨hdepth, head, hhead,
      declare_beyond (fun huse => hf s rfl (huse ▸ hhead)) hdeclare⟩

theorem roots_step (h : N.step line item = .ok M) : N.roots <+: M.roots := by
  have hadd (N : Nesting) (d : Decl) : N.roots <+: (N.add d).roots := by
    obtain ⟨roots, stack, p⟩ := N
    cases stack with
    | nil => exact List.prefix_append roots [d]
    | cons frame stack => exact List.prefix_rfl
  cases item with
  | blank | comment | annotations =>
    cases h
    exact List.prefix_rfl
  | close =>
    obtain ⟨-, frame, stack, -, rfl⟩ := step_close_iff.1 h
    exact hadd { N with stack } _
  | statement s =>
    rcases Outline.step_statement h with ⟨d, -, rfl⟩ | ⟨frame, -, rfl⟩
    · exact hadd N d
    · exact List.prefix_rfl

theorem roots_run (h : N.run items = .ok M) : N.roots <+: M.roots := by
  induction items generalizing N with
  | nil =>
    cases h
    exact List.prefix_rfl
  | cons i items ih =>
    obtain ⟨N₁, hstep, hrest⟩ := run_cons h
    exact (roots_step hstep).trans (ih hrest)

theorem use_mem_roots (h : N.step line (.statement s) = .ok M)
    (hs : Head.ofLine? s.head = some .useClause) : ∃ d ∈ M.roots, d.kind = .leaf .useClause := by
  obtain ⟨-, head, hhead, hdeclare⟩ := step_statement_iff.1 h
  obtain rfl : .useClause = head := Option.some.inj (hs.symm.trans hhead)
  obtain ⟨hadmits, rfl⟩ := declare_useClause_iff.1 hdeclare
  obtain ⟨roots, stack, p⟩ := N
  obtain rfl : stack = [] := by
    simp only [admitsUse, Bool.and_eq_true, List.isEmpty_iff] at hadmits
    exact hadmits.1
  exact ⟨_, List.mem_append_right _ (List.mem_singleton.2 rfl), rfl⟩

/-- Items add the same further down and behind another forest, unless this makes a use clause come
late. -/
theorem run_beyond
    (hf : (∀ d ∈ f, d.kind = .leaf .useClause) ∨ ∀ d ∈ M.roots, d.kind ≠ .leaf .useClause)
    (h : N.run items = .ok M) :
    (N.beyond f n).run (items.map (Item.moved n)) = .ok (M.beyond f n) := by
  induction items generalizing N with
  | nil =>
    cases h
    rfl
  | cons i items ih =>
    -- A clause that this item declares is a root at the end of the run too, as no root is lost.
    obtain ⟨N₁, hstep, hrest⟩ := run_cons h
    have hbeyond : (N.beyond f n).step (i.1 + n) (i.2.shifted n) = .ok (N₁.beyond f n) := by
      refine step_beyond (fun s hs huse => hf.resolve_right fun hnone => ?_) hstep
      rw [hs] at hstep
      obtain ⟨d, hd, hkind⟩ := use_mem_roots hstep huse
      exact hnone d ((roots_run hrest).subset hd) hkind
    rw [List.map_cons, run]
    simp only [Item.moved, hbeyond]
    exact ih hrest

end Nesting
end SignatureLayers
