import SignatureLayers.Printer
import SignatureLayers.Proofs.Reading

namespace SignatureLayers

open Text

/-- A declaration that is read back, with no use clause in it. -/
structure Decl.Readable (d : Decl) : Prop where
  legible : d.Legible
  clauses : ∀ c ∈ d.children, c.kind ≠ .leaf .useClause

namespace Forest

/-- A forest without its identities and locations. -/
def bare : Forest → Forest
  | [] => []
  | .container k h cs t :: rest =>
    .container k { h with id := 0, location := none } (bare cs) t :: bare rest
  | d :: rest => d.mapHeader (fun h => { h with id := 0, location := none }) :: bare rest

/-- Use clauses stand before all that is none. -/
def UsesFirst (ks : List Kind) : Prop :=
  ks.Pairwise fun before after => after = .leaf .useClause → before = .leaf .useClause

/-- A forest whose declarations are read back, and each container before its own end. -/
structure Tidy (f : Forest) : Prop where
  readable : ∀ d ∈ f.preorder, d.Readable
  closable : ∀ d ∈ f.preorder, d.isContainer = true → ¬ d.EndsInComma ∧ ¬ d.EndsInEnd

/-- No text runs into the next one by a comma at its end; at the end of all that does no harm. -/
inductive Firm : Bool → Forest → Prop
  | nil {last : Bool} : Firm last []
  | cons {last : Bool} {d : Decl} {rest : Forest}
    (here : d.EndsInComma → d.isContainer = true ∨ last = true ∧ rest = [])
    (inner : Firm false d.children) (tail : Firm last rest) : Firm last (d :: rest)

theorem bare_cons (d : Decl) (rest : Forest) : bare (d :: rest) = bare [d] ++ bare rest := by
  cases d <;> simp [bare]

theorem Tidy.children {d : Decl} {rest : Forest} (h : Tidy (d :: rest)) : Tidy d.children := by
  have hsub : ∀ e ∈ preorder d.children, e ∈ preorder (d :: rest) := fun e he => by
    simp [preorder_cons, he]
  exact ⟨fun e he => h.readable e (hsub e he), fun e he => h.closable e (hsub e he)⟩

theorem Tidy.tail {d : Decl} {rest : Forest} (h : Tidy (d :: rest)) : Tidy rest := by
  have hsub : ∀ e ∈ preorder rest, e ∈ preorder (d :: rest) := fun e he => by
    simp [preorder_cons, he]
  exact ⟨fun e he => h.readable e (hsub e he), fun e he => h.closable e (hsub e he)⟩

theorem Tidy.head {d : Decl} {rest : Forest} (h : Tidy (d :: rest)) : d.Readable :=
  h.readable d (by simp [preorder_cons])

end Forest

namespace Printer

def innerLines (width depth : Nat) (d : Decl) : List String :=
  match d with
  | .container _ _ cs t =>
    linesAt width (depth + 1) none cs ++ t.map (spaces (width * (depth + 1)) ++ ·) ++
      [spaces (width * depth) ++ "end"]
  | _ => []

def declLines (width depth : Nat) (d : Decl) : List String :=
  headerLines (spaces (width * depth)) d.header ++ innerLines width depth d

theorem linesAt_nil (width depth : Nat) (before : Option Decl) :
    linesAt width depth before [] = [] := by
  rw [linesAt]

theorem linesAt_cons (width depth : Nat) (before : Option Decl) (d : Decl) (rest : Forest) :
    linesAt width depth before (d :: rest) =
      gap before d ++ declLines width depth d ++ linesAt width depth (some d) rest := by
  cases d <;> simp [linesAt, declLines, innerLines, Decl.header]

theorem toList_spaces (n : Nat) : (spaces n).toList = List.replicate n ' ' := String.toList_ofList

theorem toList_headerLines (n : Nat) (h : Header) :
    (headerLines (spaces n) h).map String.toList =
      Nesting.headerText (List.replicate n ' ') h := by
  simp only [headerLines, Nesting.headerText, List.map_append, List.map_map]
  congr 1
  · congr 1 <;> exact List.map_congr_left fun _ _ => by simp [toList_spaces]
  · apply List.map_congr_left
    intro l _
    by_cases hl : l = ""
    · subst hl
      rfl
    · have hl' : l.toList ≠ [] := mt String.toList_eq_nil_iff.1 hl
      simp [indented, hl, toList_spaces]

/-- Blank lines are placed by where the sibling before ended: the line in front of `n`. -/
def Follows (n : Nat) : Option Decl → Option Decl → Prop
  | none, none => True
  | some _, some b => ∃ start, b.location = some ⟨start, n - 1⟩
  | _, _ => False

theorem gap_of_follows {n : Nat} {before before' : Option Decl} {d d' : Decl} {stop : Int}
    (h : Follows n before before')
    (hd : d'.location = some ⟨(n + (gap before d).length : Nat), stop⟩) :
    gap before' d' = gap before d := by
  cases before with
  | none =>
    cases before' with
    | none => rfl
    | some => exact h.elim
  | some b =>
    cases before' with
    | none => exact h.elim
    | some b' =>
      obtain ⟨start, hb⟩ := h
      -- The sibling before ends on the line in front of `n`, so it is parted by the blank line alone.
      have hparted : parted b' d' = decide ((1 : Int) < 1 + (gap (some b) d).length) := by
        simp only [parted, hb, hd, decide_eq_decide]
        omega
      by_cases hp : parted b d = true
      · simp [gap, hp] at hparted ⊢
        exact hparted
      · simp [gap, hp] at hparted ⊢
        exact hparted

end Printer

namespace Nesting

open Forest Printer

variable {last : Bool} {N : Nesting} {n : Nat}

/-- Nothing that is not allowed where the forest `f` is to be added. -/
structure Admits (N : Nesting) (f : Forest) : Prop where
  members : N.stack = [] → ∀ d ∈ f, d.isMember = false
  clauses : N.stack = [] → UsesFirst (N.roots.map Decl.kind ++ f.map Decl.kind)
  inner : N.stack ≠ [] → ∀ d ∈ f, d.kind ≠ .leaf .useClause

def push (N : Nesting) (f : Frame) : Nesting := { N with stack := f :: N.stack, pending := {} }

theorem pending_add (N : Nesting) (d : Decl) : (N.add d).pending = {} := by
  unfold add
  split <;> rfl

theorem foldl_add_push (k : ContainerKind) (h : Header) (start : Nat) (cs g : Forest) :
    g.foldl add (N.push ⟨k, h, start, cs⟩) = N.push ⟨k, h, start, cs ++ g⟩ := by
  induction g generalizing cs with
  | nil => rw [List.append_nil, List.foldl_nil]
  | cons d g ih =>
    have hadd : (N.push ⟨k, h, start, cs⟩).add d = N.push ⟨k, h, start, cs ++ [d]⟩ := rfl
    rw [List.foldl_cons, hadd, ih, List.append_assoc, List.singleton_append]

theorem foldl_add_roots (f g : Forest) : g.foldl add ⟨f, [], {}⟩ = ⟨f ++ g, [], {}⟩ := by
  induction g generalizing f with
  | nil => rw [List.append_nil, List.foldl_nil]
  | cons d g ih =>
    have hadd : (Nesting.mk f [] {}).add d = ⟨f ++ [d], [], {}⟩ := rfl
    rw [List.foldl_cons, hadd, ih, List.append_assoc, List.singleton_append]

theorem Admits.tail {d d' : Decl} {rest : Forest} (h : N.Admits (d :: rest))
    (hkind : d'.kind = d.kind) : (N.add d').Admits rest := by
  cases hs : N.stack with
  | nil =>
    have hadd : N.add d' = ⟨N.roots ++ [d'], [], {}⟩ := by
      unfold add
      rw [hs]
    rw [hadd]
    refine ⟨fun _ => (List.forall_mem_cons.1 (h.members hs)).2, fun _ => ?_,
      fun hne => absurd rfl hne⟩
    have hclauses := h.clauses hs
    simpa [hkind] using hclauses
  | cons f st =>
    have hadd : N.add d' = ⟨N.roots, { f with children := f.children ++ [d'] } :: st, {}⟩ := by
      unfold add
      rw [hs]
    rw [hadd]
    have hne : N.stack ≠ [] := by simp [hs]
    exact ⟨fun hs => absurd hs (List.cons_ne_nil _ _), fun hs => absurd hs (List.cons_ne_nil _ _),
      fun _ => (List.forall_mem_cons.1 (h.inner hne)).2⟩

theorem Admits.admitsUse {d : Decl} {rest : Forest} (h : N.Admits (d :: rest))
    (hd : d.kind = .leaf .useClause) : N.admitsUse = true := by
  have hs : N.stack = [] := by
    by_contra hne
    exact h.inner hne d List.mem_cons_self hd
  have hclauses := h.clauses hs
  rw [UsesFirst, List.pairwise_append] at hclauses
  have hroots : ∀ r ∈ N.roots, r.kind = .leaf .useClause := fun r hr =>
    hclauses.2.2 r.kind (List.mem_map_of_mem hr) d.kind (by simp) hd
  simp only [Nesting.admitsUse, hs, List.isEmpty_nil, Bool.true_and, List.all_eq_true, beq_iff_eq]
  exact hroots

theorem waiting_add (N : Nesting) (p : Pending) (d : Decl) : (N.waiting p).add d = N.add d := by
  unfold add waiting
  cases N.stack <;> rfl

def taken (N : Nesting) (n : Nat) : Decl → Nesting
  | .container k h _ _ => N.push ⟨k, h.reread n, n, []⟩
  | d => N.add (d.mapHeader (·.reread n))

theorem declare_said {s : Statement} {d : Decl} {rest : Forest} (hs : Says s d n)
    (hN : N.Admits (d :: rest)) (hend : d.isContainer = true → beforeEnd? d.lastLine = none) :
    (N.waiting (gathered n d.header.comments d.annotations)).declare s d.said =
      .ok (N.taken n d) := by
  have hheader := hs.header
  have hfirst := hs.first
  generalize gathered n d.header.comments d.annotations = p at hheader hfirst
  cases d with
  | container k h cs t =>
    have hclosed : s.closedTexts? = none := by
      rw [Statement.closedTexts?, hs.last, hend rfl]
      rfl
    simp only [Decl.said, declare, hclosed]
    show Except.ok (N.push ⟨k, p.header h.name s.texts s.start s.stop, p.firstLine s.start, []⟩) = _
    rw [hfirst]
    exact congrArg (fun h => Except.ok (N.push ⟨k, h, n, []⟩)) hheader
  | leaf k h =>
    by_cases hk : k = .useClause
    · subst hk
      have huse : (N.waiting p).admitsUse = true := hN.admitsUse rfl
      simp only [Decl.said, declare, huse, if_true]
      rw [hs.clause rfl, waiting_add]
      exact congrArg (fun h => Except.ok (N.add (.leaf .useClause h))) hheader
    · have hsaid : Decl.said (.leaf k h) = .leaf k h.name := by
        cases k <;> first | rfl | exact absurd rfl hk
      rw [hsaid, declare, waiting_add]
      exact congrArg (fun h => Except.ok (N.add (.leaf k h))) hheader
  | member k h o =>
    have hstack : (N.waiting p).stack.isEmpty = false := by
      have hne : N.stack ≠ [] := by
        intro hs
        have := hN.members hs _ List.mem_cons_self
        cases this
      simpa [waiting] using hne
    simp only [Decl.said, declare, hstack, Bool.false_eq_true, if_false]
    rw [waiting_add]
    exact congrArg (fun h => Except.ok (N.add (.member k h o))) hheader

/-- `d'` is `d` as it is read from the lines from number `n` on. -/
structure Again (width depth n : Nat) (d d' : Decl) : Prop where
  bare : bare [d'] = bare [d]
  lines : declLines width depth d' = declLines width depth d
  place : d'.location = some ⟨n, n + (declLines width depth d).length - 1⟩
  kind : d'.kind = d.kind

/-- `g` is the forest `f`, as it is added when the lines from number `n` on are read. -/
structure Rereads (last : Bool) (width depth : Nat) (N : Nesting) (n : Nat)
    (before before' : Option Decl) (f g : Forest) : Prop where
  reads : Reads last N n ((linesAt width depth before f).map String.toList) (g.foldl add N)
  bare : g.bare = f.bare
  lines : linesAt width depth before' g = linesAt width depth before f

theorem length_headerLines (margin : String) (h : Header) :
    (headerLines margin h).length = h.comments.length + h.annotations.length + h.text.length := by
  simp [headerLines, Nat.add_assoc]

theorem quiet_linesAt (width depth : Nat) (before : Option Decl) {f : Forest} (hf : f.Tidy) :
    Quiet ((linesAt width depth before f).map String.toList) := by
  cases f with
  | nil =>
    rw [linesAt_nil]
    exact fun r hr => by cases hr
  | cons d rest =>
    have hd : d.Legible := hf.head.legible
    have hgap : Quiet ((gap before d).map String.toList) := by
      intro r hr
      cases before with
      | none => cases hr
      | some b =>
        rw [gap] at hr
        split at hr
        · cases hr
          exact fun h => by cases h
        · cases hr
    simp only [linesAt_cons, declLines, List.map_append, List.append_assoc, toList_headerLines]
    exact hgap.append (quiet_headerText isBlank_of_mem_spaces hd _)

theorem reads_leaf (width depth : Nat) {d : Decl} {rest : Forest} (hf : Tidy (d :: rest))
    (hN : N.pending = {}) (hadmits : N.Admits (d :: rest)) (hcomma : d.EndsInComma → last = true)
    (hleaf : d.isContainer = false) :
    ∃ d', Reads last N n ((declLines width depth d).map String.toList) (N.add d') ∧
      Again width depth n d d' := by
  have hd : d.Legible := hf.head.legible
  have hinner : innerLines width depth d = [] := by
    cases d with
    | container => cases hleaf
    | leaf | member => rfl
  have htaken : N.taken n d = N.add (d.mapHeader (·.reread n)) := by
    cases d with
    | container => cases hleaf
    | leaf | member => rfl
  refine ⟨d.mapHeader (·.reread n), ?_, ?_, ?_, ?_, d.kind_mapHeader _⟩
  · rw [declLines, hinner, List.append_nil, toList_headerLines, ← htaken]
    refine reads_header isBlank_of_mem_spaces hd hN hcomma fun s hs => declare_said hs hadmits ?_
    intro hcontainer
    rw [hleaf] at hcontainer
    cases hcontainer
  · cases d with
    | container => cases hleaf
    | leaf | member => simp [Forest.bare, Decl.mapHeader, Header.reread]
  · cases d with
    | container => cases hleaf
    | leaf | member => rfl
  · rw [declLines, hinner, List.append_nil, length_headerLines, Decl.location, Decl.header_mapHeader]
    rfl

theorem reads_end {m : List Char} (hm : ∀ c ∈ m, isBlank c = true) {k : ContainerKind} {h : Header}
    {start n' : Nat} {cs : Forest} {t : List String} :
    Reads last ((N.push ⟨k, h, start, cs⟩).waiting (gathered n' t [])) n [m ++ ['e', 'n', 'd']]
      (N.add (.container k { h with location := some ⟨start, n⟩ } cs t)) := by
  apply reads_item (ofLine_end hm)
  rw [← waiting_add N (gathered n' t [])]
  rfl

/-- What is printed behind the children of a container. -/
def closing (width depth : Nat) (t : List String) : List (List Char) :=
  t.map (List.replicate (width * (depth + 1)) ' ' ++ ·.toList) ++
    [List.replicate (width * depth) ' ' ++ ['e', 'n', 'd']]

theorem length_closing (width depth : Nat) (t : List String) :
    (closing width depth t).length = t.length + 1 := by
  simp [closing]

theorem quiet_end (width depth : Nat) :
    Quiet [List.replicate (width * depth) ' ' ++ ['e', 'n', 'd']] :=
  quiet_indent isBlank_of_mem_spaces ⟨⟨'e', rfl, rfl⟩, ⟨'d', rfl, rfl⟩⟩ (by decide) []

theorem quiet_closing (width depth : Nat) {t : List String} (ht : ∀ c ∈ t, Remark c.toList) :
    Quiet (closing width depth t) :=
  (quiet_comments isBlank_of_mem_spaces ht).append (quiet_end width depth)

theorem reads_closing (last : Bool) (width depth : Nat) {k : ContainerKind} {h : Header}
    {start : Nat} {cs : Forest} {t : List String} (ht : ∀ c ∈ t, Remark c.toList) :
    Reads last (N.push ⟨k, h, start, cs⟩) n (closing width depth t)
      (N.add (.container k { h with location := some ⟨start, n + t.length⟩ } cs t)) := by
  have htrailing : Reads false (N.push ⟨k, h, start, cs⟩) n
      (t.map (List.replicate (width * (depth + 1)) ' ' ++ ·.toList))
      ((N.push ⟨k, h, start, cs⟩).waiting (gathered n t [])) :=
    reads_comments_of_none isBlank_of_mem_spaces rfl ht
  refine htrailing.append ?_ (quiet_end width depth)
  rw [List.length_map]
  exact reads_end isBlank_of_mem_spaces

theorem map_declLines_container (width depth : Nat) (k : ContainerKind) (h : Header) (cs : Forest)
    (t : List String) :
    (declLines width depth (.container k h cs t)).map String.toList =
      headerText (List.replicate (width * depth) ' ') h ++
        ((linesAt width (depth + 1) none cs).map String.toList ++ closing width depth t) := by
  simp [declLines, innerLines, closing, toList_headerLines, toList_spaces, Decl.header]

theorem again_container (width depth n : Nat) {k : ContainerKind} {h : Header} {cs g : Forest}
    {t : List String} (hbare : g.bare = Forest.bare cs)
    (hlines : linesAt width (depth + 1) none g = linesAt width (depth + 1) none cs) {stop : Nat}
    (hstop : n + (declLines width depth (.container k h cs t)).length = stop + 1) :
    Again width depth n (.container k h cs t)
      (.container k { h.reread n with location := some ⟨n, stop⟩ } g t) := by
  refine ⟨?_, ?_, ?_, rfl⟩
  · simp only [Forest.bare, Header.reread, hbare]
  · simp only [declLines, innerLines, hlines]
    rfl
  · show some (Location.mk n stop) = _
    congr 2
    omega

/-- A container is read from its header, its children, the comments behind them and its end. -/
theorem reads_container (width depth : Nat) {d : Decl} {rest : Forest} (hf : Tidy (d :: rest))
    (hN : N.pending = {}) (hadmits : N.Admits (d :: rest)) (hcontainer : d.isContainer = true)
    (hchildren : ∀ {N : Nesting} {n : Nat}, N.pending = {} → N.Admits d.children →
      ∃ g, Rereads false width (depth + 1) N n none none d.children g) :
    ∃ d', Reads last N n ((declLines width depth d).map String.toList) (N.add d') ∧
      Again width depth n d d' := by
  have hmem : d ∈ preorder (d :: rest) := by simp [preorder_cons]
  have hd := hf.head.legible
  obtain ⟨hcomma, hend⟩ := hf.closable d hmem hcontainer
  have hinner := hf.head.clauses
  have htidy := hf.children
  cases d with
  | leaf | member => cases hcontainer
  | container k h cs t =>
    let m := List.replicate (width * depth) ' '
    -- The header opens the container, its children fill it, and the end adds it to what was open.
    let opened := N.push ⟨k, h.reread n, n, []⟩
    have hheader : Reads false N n (headerText m h) opened :=
      reads_header isBlank_of_mem_spaces hd hN (fun hc => absurd hc hcomma) fun s hs =>
        declare_said hs hadmits fun _ => hd.beforeEnd?_lastLine hend
    have hopened : opened.Admits cs :=
      ⟨fun hs => absurd hs (List.cons_ne_nil _ _), fun hs => absurd hs (List.cons_ne_nil _ _),
        fun _ => hinner⟩
    obtain ⟨g, hg⟩ := hchildren (N := opened) (n := n + (headerText m h).length) rfl hopened
    have hfilled := hg.reads
    rw [foldl_add_push, List.nil_append] at hfilled
    have hquiet := quiet_closing width depth hd.trailing
    have hclosed := hfilled.append (reads_closing last width depth hd.trailing) hquiet
    have hall := hheader.append hclosed ((quiet_linesAt _ _ _ htidy).append hquiet)
    have hlines := map_declLines_container width depth k h cs t
    refine ⟨_, hlines ▸ hall, again_container width depth n hg.bare hg.lines ?_⟩
    have hlength := congrArg List.length hlines
    simp only [List.length_map, List.length_append, length_closing] at hlength
    show n + (declLines width depth (.container k h cs t)).length = _ + t.length + 1
    rw [hlength, List.length_map, Decl.children, ← Nat.add_assoc, ← Nat.add_assoc, ← Nat.add_assoc]

theorem reads_gap (hN : N.pending = {}) (before : Option Decl) (d : Decl) :
    Reads last N n ((gap before d).map String.toList) N := by
  have hblank : N.step n .blank = .ok N := by
    rw [step, hN]
    exact congrArg (fun p => Except.ok (N.waiting p)) hN.symm
  cases before with
  | none => exact .nil _ _ _
  | some b =>
    simp only [gap]
    split
    · have hline : Item.ofLine n [] = ([.blank], none) := rfl
      exact reads_item hline hblank
    · exact .nil _ _ _

/-- The lines of a forest are read as the same forest, placed anew. -/
theorem reads_linesAt (width : Nat) {f : Forest} (hf : f.Tidy) (hfirm : Firm last f) (depth : Nat)
    {before before' : Option Decl} (hN : N.pending = {}) (hadmits : N.Admits f)
    (hbefore : Follows n before before') :
    ∃ g, Rereads last width depth N n before before' f g := by
  induction f using Forest.induct generalizing last N n depth before before' with
  | nil =>
    refine ⟨[], ?_, rfl, ?_⟩
    · rw [linesAt_nil]
      exact .nil _ _ _
    · rw [linesAt_nil, linesAt_nil]
  | cons d rest ihc ihr =>
    cases hfirm with
    | cons here inner tail =>
    let n' := n + (gap before d).length
    have hgap : Reads false N n ((gap before d).map String.toList) N := reads_gap hN before d
    -- Only the last declaration of all may end in a comma, and then no line follows.
    have hdecl : ∃ d', Reads (last && rest.isEmpty) N n' ((declLines width depth d).map String.toList)
        (N.add d') ∧ Again width depth n' d d' := by
      by_cases hc : d.isContainer = true
      · exact reads_container width depth hf hN hadmits hc fun hN hadmits =>
          ihc hf.children inner (depth + 1) hN hadmits trivial
      · refine reads_leaf width depth hf hN hadmits (fun hcomma => ?_) (by simpa using hc)
        rcases here hcomma with hc' | ⟨hlast, hrest⟩
        · exact absurd hc' hc
        · simp [hlast, hrest]
    obtain ⟨d', hreads, hagain⟩ := hdecl
    let n'' := n' + (declLines width depth d).length
    have hplace : Follows n'' (some d) (some d') := ⟨n', hagain.place⟩
    obtain ⟨g, hg⟩ := ihr (N := N.add d') (n := n'') hf.tail tail depth (N.pending_add d')
      (hadmits.tail hagain.kind) hplace
    refine ⟨d' :: g, ?_, ?_, ?_⟩
    · have hrest : (last && rest.isEmpty) = true →
          last = true ∧ (linesAt width depth (some d) rest).map String.toList = [] := by
        intro h
        simp only [Bool.and_eq_true, List.isEmpty_iff] at h
        obtain ⟨hlast, rfl⟩ := h
        simp [hlast, linesAt_nil]
      have hbelow := hreads.append_of_last (by simpa [n'', n'] using hg.reads)
        (quiet_linesAt width depth _ hf.tail) hrest
      have hquiet := quiet_linesAt width depth none hf
      simp only [linesAt_cons, gap, List.nil_append, List.map_append] at hquiet
      simp only [linesAt_cons, List.map_append, List.append_assoc, List.foldl_cons]
      exact hgap.append (by rwa [List.length_map]) hquiet
    · rw [bare_cons, hagain.bare, hg.bare, ← bare_cons]
    · rw [linesAt_cons, linesAt_cons, gap_of_follows hbefore hagain.place, hagain.lines, ← hg.lines]
  
end Nesting

namespace Printer

open Forest

theorem unbroken_headerLines {d : Decl} (hd : d.Legible) (n : Nat) :
    ∀ l ∈ headerLines (spaces n) d.header, Unbroken l.toList := by
  have hm : Unbroken (spaces n).toList := by
    rw [toList_spaces]
    exact unbroken_spaces n
  obtain ⟨head, more, htext, hw, -, -⟩ := hd.wording
  intro l hl
  simp only [headerLines, List.mem_append, List.mem_map] at hl
  rcases hl with (⟨c, hc, rfl⟩ | ⟨a, ha, rfl⟩) | ⟨t, ht, rfl⟩
  · rw [String.toList_append]
    exact unbroken_append.2 ⟨hm, (hd.comments c hc).unbroken⟩
  · rw [String.toList_append]
    exact unbroken_append.2 ⟨hm, (hd.annotations a ha).unbroken⟩
  · split
    · exact fun c hc => by cases hc
    · rw [htext] at ht
      obtain ⟨s, hs, rfl⟩ := List.mem_map.1 ht
      rw [String.toList_append, String.toList_ofList]
      exact unbroken_append.2 ⟨hm, (hw.forall_mem s hs).2⟩

theorem eq_empty_of_mem_gap {before : Option Decl} {d : Decl} {l : String} (h : l ∈ gap before d) :
    l = "" := by
  unfold gap at h
  split at h
  · split at h
    · exact List.mem_singleton.1 h
    · cases h
  · cases h

theorem unbroken_linesAt (width : Nat) {f : Forest} (hf : f.Tidy) (depth : Nat)
    (before : Option Decl) : ∀ l ∈ linesAt width depth before f, Unbroken l.toList := by
  induction f using Forest.induct generalizing depth before with
  | nil =>
    rw [linesAt_nil]
    exact fun l hl => by cases hl
  | cons d rest ihc ihr =>
    have hd : d.Legible := hf.head.legible
    have hgap : ∀ l ∈ gap before d, Unbroken l.toList := fun l hl => by
      rw [eq_empty_of_mem_gap hl]
      exact fun c hc => by cases hc
    have hend : Unbroken "end".toList := by decide
    have hinner : ∀ l ∈ innerLines width depth d, Unbroken l.toList := by
      cases d with
      | leaf | member => exact fun l hl => by cases hl
      | container k h cs t =>
        intro l hl
        simp only [innerLines, List.mem_append, List.mem_map, List.mem_singleton] at hl
        rcases hl with (hl | ⟨c, hc, rfl⟩) | rfl
        · exact ihc hf.children (depth + 1) none l hl
        · rw [String.toList_append, toList_spaces]
          exact unbroken_append.2 ⟨unbroken_spaces _, (hd.trailing c hc).unbroken⟩
        · rw [String.toList_append, toList_spaces]
          exact unbroken_append.2 ⟨unbroken_spaces _, hend⟩
    intro l hl
    simp only [linesAt_cons, declLines, List.mem_append] at hl
    rcases hl with (hl | hl | hl) | hl
    · exact hgap l hl
    · exact unbroken_headerLines hd _ l hl
    · exact hinner l hl
    · exact ihr hf.tail depth _ l hl

theorem lines_print (width : Nat) {f : Forest} (hf : f.Tidy) :
    lines (print width f).toList = (linesAt width 0 none f).map String.toList := by
  have htext : (print width f).toList =
      ((linesAt width 0 none f).map String.toList).flatMap (· ++ ['\n']) := by
    rw [print, String.toList_join, List.flatMap_map, List.flatMap_map]
    simp only [String.toList_append]
    rfl
  rw [htext, lines_unlines]
  intro l hl
  obtain ⟨s, hs, rfl⟩ := List.mem_map.1 hl
  exact unbroken_linesAt width hf 0 none s hs

end Printer

open Forest Printer

/-- A forest is read back from its text, up to its locations, and printed to the same text. -/
theorem parse_print (file : String) (width : Nat) {f : Forest} (hf : f.Tidy) (hfirm : Firm true f)
    (hmembers : ∀ d ∈ f, d.isMember = false) (huses : UsesFirst (f.map Decl.kind)) :
    ∃ g, parse file (print width f) = .ok g ∧ g.bare = f.bare ∧ print width g = print width f := by
  have hadmits : Nesting.Admits {} f := ⟨fun _ => hmembers, fun _ => huses, absurd rfl⟩
  have hstart : Follows 1 none none := trivial
  obtain ⟨g, hreads, hbare, hlines⟩ := Nesting.reads_linesAt width hf hfirm 0 rfl hadmits hstart
  refine ⟨g, ?_, hbare, ?_⟩
  · have hrun : Nesting.run {} (Item.ofSource (print width f).toList) = .ok ⟨g, [], {}⟩ := by
      have hall := hreads [] (fun r hr => by cases hr) fun _ => rfl
      rw [List.append_nil, Nesting.foldl_add_roots] at hall
      rw [Item.ofSource, lines_print width hf, hall]
      rfl
    simp only [parse, hrun]
    rfl
  · rw [print, hlines, print]

end SignatureLayers
