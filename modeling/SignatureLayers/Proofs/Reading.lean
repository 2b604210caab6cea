import Mathlib.Data.List.Basic
import SignatureLayers.Proofs.Legible

namespace SignatureLayers

open Text

/-- No line that continues a statement of itself stands first. -/
def Quiet (ls : List (List Char)) : Prop := ∀ r ∈ ls.head?, (trim r).head? ≠ some '|'

theorem Quiet.append {ls ls' : List (List Char)} (h : Quiet ls) (h' : Quiet ls') :
    Quiet (ls ++ ls') := by
  cases ls with
  | nil => exact h'
  | cons r ls => exact h

def Header.reread (h : Header) (n : Nat) : Header :=
  let length := h.comments.length + h.annotations.length + h.text.length
  { h with
    id := 0
    location := some ⟨n, n + length - 1⟩ }

namespace Nesting

section Items

variable {N N' : Nesting} {s : Statement} {line : Nat} {item : Item}
  {items items' : List (Nat × Item)}

theorem declare_useClause_iff : N.declare s .useClause = .ok N' ↔ N.admitsUse = true ∧
    N' = N.add (.leaf .useClause (N.pending.header s.clauseName s.texts s.start s.stop)) := by
  cases h : N.admitsUse <;> simp [declare, h, @eq_comm _ N']

theorem declare_member_iff {kind : MemberKind} {name : String} {oldName : Option String} :
    N.declare s (.member kind name oldName) = .ok N' ↔ N.stack.isEmpty = false ∧
      N' = N.add (.member kind (N.pending.header name s.texts s.start s.stop) oldName) := by
  cases h : N.stack.isEmpty <;> simp [declare, h, @eq_comm _ N']

theorem step_close_iff : N.step line .close = .ok N' ↔
    N.pending.annotations = [] ∧ ∃ frame stack, N.stack = frame :: stack ∧
      N' = add { N with stack } (frame.close line N.pending.comments) := by
  constructor
  · intro h
    simp only [step] at h
    split at h
    · cases h
    · next frame stack hs =>
      split at h
      · next hfree =>
        cases h
        exact ⟨List.isEmpty_iff.1 hfree, frame, stack, hs, rfl⟩
      · cases h
  · rintro ⟨hfree, frame, stack, hs, rfl⟩
    simp [step, hs, hfree]

theorem step_statement_iff : N.step line (.statement s) = .ok N' ↔
    s.depth ≤ 0 ∧ ∃ head, Head.ofLine? s.head = some head ∧ N.declare s head = .ok N' := by
  constructor
  · intro h
    simp only [step] at h
    split at h
    · cases h
    · next hdepth =>
      split at h
      · cases h
      · next head hh =>
        cases hd : N.declare s head with
        | error e =>
          rw [hd] at h
          cases h
        | ok M =>
          rw [hd] at h
          cases h
          exact ⟨Int.not_lt.1 hdepth, head, hh, hd⟩
  · rintro ⟨hdepth, head, hh, hd⟩
    simp only [step, if_neg (Int.not_lt.2 hdepth), hh, hd]
    rfl

theorem run_cons {i : Nat × Item} (h : N.run (i :: items) = .ok N') :
    ∃ M, N.step i.1 i.2 = .ok M ∧ M.run items = .ok N' := by
  rw [run] at h
  split at h
  · next M hM => exact ⟨M, hM, h⟩
  · cases h

theorem run_append_iff : N.run (items ++ items') = .ok N' ↔
    ∃ M, N.run items = .ok M ∧ M.run items' = .ok N' := by
  induction items generalizing N with
  | nil => simp [run]
  | cons i items ih =>
    rw [List.cons_append, run, run]
    cases N.step i.1 i.2 with
    | error e => simp
    | ok M => exact ih

theorem run_singleton (h : N.run [(line, item)] = .ok N') : N.step line item = .ok N' := by
  obtain ⟨M, hM, hnil⟩ := run_cons h
  cases hnil
  exact hM

end Items

/-- The lines `ls` from number `n` on lead from `N` to `N'`, whatever quiet line follows; `last` says
that none may follow. -/
def Reads (last : Bool) (N : Nesting) (n : Nat) (ls : List (List Char)) (N' : Nesting) : Prop :=
  ∀ rest, Quiet rest → (last = true → rest = []) →
    N.run (Item.scan n none (ls ++ rest)) = N'.run (Item.scan (n + ls.length) none rest)

variable {last : Bool} {N N' N'' : Nesting} {n : Nat} {ls ls' : List (List Char)} {m : List Char}

theorem Reads.nil (last : Bool) (N : Nesting) (n : Nat) : Reads last N n [] N :=
  fun _ _ _ => rfl

theorem Reads.append_of_last {last' : Bool} (h : Reads last' N n ls N')
    (h' : Reads last N' (n + ls.length) ls' N'') (hq : Quiet ls')
    (hend : last' = true → last = true ∧ ls' = []) : Reads last N n (ls ++ ls') N'' := by
  intro rest hrest hlast
  have hnone : last' = true → ls' ++ rest = [] := fun hl => by
    obtain ⟨hl, rfl⟩ := hend hl
    exact hlast hl
  rw [List.append_assoc, h (ls' ++ rest) (hq.append hrest) hnone, h' rest hrest hlast,
    List.length_append, Nat.add_assoc]

theorem Reads.append (h : Reads false N n ls N') (h' : Reads last N' (n + ls.length) ls' N'')
    (hq : Quiet ls') : Reads last N n (ls ++ ls') N'' :=
  h.append_of_last h' hq fun h => absurd h Bool.false_ne_true

theorem reads_item {raw : List Char} {item : Item} (hraw : Item.ofLine n raw = ([item], none))
    (hstep : N.step n item = .ok N') : Reads last N n [raw] N' := by
  intro rest _ _
  rw [List.singleton_append, Item.scan, hraw]
  show N.run ((n, item) :: Item.scan (n + 1) none rest) = _
  rw [run, hstep]
  rfl

theorem isBlank_of_closer? {opener closer : Char} (h : Annot.closer? opener = some closer) :
    isBlank closer = false := by
  unfold Annot.closer? at h
  split at h <;> cases h <;> rfl

theorem tight_token {a : Annot} (h : a.Legible) : Tight a.token.toList := by
  obtain ⟨opener, closer, hcloser, -, htoken⟩ := h.delimited
  rw [htoken]
  exact ⟨⟨'%', rfl, rfl⟩, ⟨closer, List.getLast?_concat, isBlank_of_closer? hcloser⟩⟩

theorem read?_token {a : Annot} (h : a.Legible) : Annot.read? a.token.toList = some (a, []) := by
  obtain ⟨opener, closer, hcloser, hpayload, htoken⟩ := h.delimited
  refine Annot.read?_eq_some_iff.2
    ⟨opener, closer, a.payload.toList, hcloser, hpayload, htoken, ?_⟩
  rw [← htoken, String.ofList_toList, String.ofList_toList]

theorem ofLine_other {raw s : List Char} {c : Char} (h : trim raw = c :: s) (hc : c ≠ '#') :
    Item.ofLine n raw =
      let (tokens, rest) := Annot.readAll (c :: s)
      let lead := if tokens.isEmpty then [] else [.annotations tokens]
      if rest.isEmpty then (lead, none)
      else if Item.isEnd rest then (lead ++ [.close], none)
      else (lead, some (.begin n raw rest)) := by
  rw [Item.ofLine, h]
  split
  · next hs => cases hs
  · next hs =>
    cases hs
    exact absurd rfl hc
  · rfl

section Lines
variable (hm : ∀ c ∈ m, isBlank c = true)
include hm

theorem ofLine_remark {s : List Char} (h : Remark s) :
    Item.ofLine n (m ++ s) = ([.comment s], none) := by
  rw [Item.ofLine, trim_indent hm h.tight]
  have hmark := h.mark
  cases s with
  | nil => cases hmark
  | cons c s =>
    cases hmark
    rfl

theorem ofLine_token {a : Annot} (h : a.Legible) :
    Item.ofLine n (m ++ a.token.toList) = ([.annotations [a]], none) := by
  have htrim := trim_indent hm (tight_token h)
  have hread := Annot.readAll_of_some (read?_token h)
  have hnil : Annot.readAll (trimLeft []) = ([], []) := Annot.readAll_of_none rfl
  rw [hnil] at hread
  obtain ⟨opener, closer, -, -, htoken⟩ := h.delimited
  have htoken' : a.token.toList = '%' :: 'a' :: opener :: (a.payload.toList ++ [closer]) := htoken
  rw [htoken'] at htrim hread ⊢
  rw [ofLine_other htrim (by decide), hread]
  rfl

theorem ofLine_end : Item.ofLine n (m ++ ['e', 'n', 'd']) = ([.close], none) := by
  have htight : Tight ['e', 'n', 'd'] := ⟨⟨'e', rfl, rfl⟩, ⟨'d', rfl, rfl⟩⟩
  rw [ofLine_other (trim_indent hm htight) (by decide), Annot.readAll_of_none rfl]
  rfl

theorem ofLine_head {head : List Char} {more : List (List Char)} {h : Head} (hw : Wording head more)
    (hh : Head.ofLine? head = some h) :
    Item.ofLine n (m ++ head) = ([], some (.begin n (m ++ head) head)) := by
  have htrim := trim_indent hm hw.tight
  cases head with
  | nil => exact absurd rfl hw.tight.ne_nil
  | cons c s =>
    have hmark : c ≠ '#' := by
      rintro rfl
      cases hh
    have hread : Annot.read? (c :: s) = none := by
      unfold Annot.read?
      split
      · next hs =>
        cases hs
        cases hh
      · rfl
    rw [ofLine_other htrim hmark, Annot.readAll_of_none hread]
    simp only [List.isEmpty_cons, List.isEmpty_nil, hw.notEnd]
    rfl

end Lines

def gathered (n : Nat) (cs : List String) (as : List Annot) : Pending where
  annotations := as
  annotationLine := if as = [] then none else some (n + cs.length)
  comments := cs
  commentLine := if cs = [] then none else some n

def waiting (N : Nesting) (p : Pending) : Nesting := { N with pending := p }

theorem firstLine_gathered (n : Nat) (cs : List String) (as : List Annot) :
    (gathered n cs as).firstLine (n + cs.length + as.length) = n := by
  unfold gathered Pending.firstLine
  by_cases hc : cs = []
  · by_cases ha : as = [] <;> simp [hc, ha]
  · by_cases ha : as = [] <;> simp [hc, ha]

def headerText (m : List Char) (h : Header) : List (List Char) :=
  h.comments.map (m ++ ·.toList) ++ h.annotations.map (m ++ ·.token.toList) ++
    h.text.map (indented m ·.toList)

theorem headerText_eq {d : Decl} {head : List Char} {more : List (List Char)}
    (h : d.header.text = (head :: more).map String.ofList) :
    headerText m d.header = d.header.comments.map (m ++ ·.toList) ++
      (d.annotations.map (m ++ ·.token.toList) ++ (indented m head :: more.map (indented m))) := by
  rw [headerText, h, List.map_map, List.append_assoc]
  have htext : (head :: more).map ((indented m ·.toList) ∘ String.ofList) =
      (head :: more).map (indented m) :=
    List.map_congr_left fun l _ => congrArg _ String.toList_ofList
  rw [htext]
  rfl

section Declarations
variable (hm : ∀ c ∈ m, isBlank c = true)
include hm

theorem quiet_indent {s : List Char} (h : Tight s) (hbar : s.head? ≠ some '|')
    (ls : List (List Char)) : Quiet ((m ++ s) :: ls) := by
  intro r hr
  cases hr
  rwa [trim_indent hm h]

theorem quiet_comments {cs : List String} (h : ∀ c ∈ cs, Remark c.toList) :
    Quiet (cs.map (m ++ ·.toList)) := by
  cases cs with
  | nil => exact fun r hr => by cases hr
  | cons c cs =>
    have hc := h c List.mem_cons_self
    exact quiet_indent hm hc.tight (by simp [hc.mark]) _

theorem quiet_annotations {as : List Annot} (h : ∀ a ∈ as, a.Legible) :
    Quiet (as.map (m ++ ·.token.toList)) := by
  cases as with
  | nil => exact fun r hr => by cases hr
  | cons a as =>
    have ha := h a List.mem_cons_self
    obtain ⟨opener, closer, -, -, htoken⟩ := ha.delimited
    exact quiet_indent hm (tight_token ha) (by simp [htoken]) _

theorem quiet_text {head : List Char} {more : List (List Char)} {h : Head} (hw : Wording head more)
    (hh : Head.ofLine? head = some h) (ls : List (List Char)) : Quiet (indented m head :: ls) := by
  rw [indented, if_neg hw.tight.ne_nil]
  refine quiet_indent hm hw.tight (fun hbar => ?_) ls
  cases head with
  | nil => cases hbar
  | cons c s =>
    cases hbar
    cases hh

theorem quiet_headerText {d : Decl} (hd : d.Legible) (ls : List (List Char)) :
    Quiet (headerText m d.header ++ ls) := by
  obtain ⟨head, more, htext, hw, hh, -⟩ := hd.wording
  rw [headerText_eq htext, List.append_assoc, List.append_assoc, List.cons_append]
  exact (quiet_comments hm hd.comments).append
    ((quiet_annotations hm hd.annotations).append (quiet_text hm hw hh _))

theorem reads_comments {cs cs' : List String} (h : ∀ c ∈ cs', Remark c.toList) :
    Reads last (N.waiting (gathered n cs [])) (n + cs.length) (cs'.map (m ++ ·.toList))
      (N.waiting (gathered n (cs ++ cs') [])) := by
  induction cs' generalizing cs with
  | nil =>
    rw [List.append_nil]
    exact .nil _ _ _
  | cons c cs' ih =>
    have hc := List.forall_mem_cons.1 h
    have hstep : (N.waiting (gathered n cs [])).step (n + cs.length) (.comment c.toList) =
        .ok (N.waiting (gathered n (cs ++ [c]) [])) := by
      simp only [step, waiting, gathered, Pending.addComment, String.ofList_toList]
      cases cs <;> simp
    have hfirst : Reads false _ _ [m ++ c.toList] _ := reads_item (ofLine_remark hm hc.1) hstep
    have hrest : Reads last (N.waiting (gathered n (cs ++ [c]) [])) (n + (cs ++ [c]).length) _
        (N.waiting (gathered n (cs ++ [c] ++ cs') [])) := ih hc.2
    rw [List.append_assoc, List.length_append, ← Nat.add_assoc] at hrest
    exact hfirst.append hrest (quiet_comments hm hc.2)

theorem reads_comments_of_none {cs : List String} (hN : N.pending = {})
    (h : ∀ c ∈ cs, Remark c.toList) :
    Reads last N n (cs.map (m ++ ·.toList)) (N.waiting (gathered n cs [])) := by
  have hstart : N.waiting (gathered n [] []) = N :=
    congrArg (Nesting.mk N.roots N.stack) hN.symm
  have hreads : Reads last (N.waiting (gathered n [] [])) (n + [].length) _
      (N.waiting (gathered n ([] ++ cs) [])) := reads_comments hm h
  rwa [hstart] at hreads

theorem reads_annotations {cs : List String} {as as' : List Annot} (h : ∀ a ∈ as', a.Legible) :
    Reads last (N.waiting (gathered n cs as)) (n + cs.length + as.length)
      (as'.map (m ++ ·.token.toList)) (N.waiting (gathered n cs (as ++ as'))) := by
  induction as' generalizing as with
  | nil =>
    rw [List.append_nil]
    exact .nil _ _ _
  | cons a as' ih =>
    have ha := List.forall_mem_cons.1 h
    have hstep : (N.waiting (gathered n cs as)).step (n + cs.length + as.length)
        (.annotations [a]) = .ok (N.waiting (gathered n cs (as ++ [a]))) := by
      simp only [step, waiting, gathered, Pending.addAnnotations]
      cases as <;> simp
    have hfirst : Reads false _ _ [m ++ a.token.toList] _ :=
      reads_item (ofLine_token hm ha.1) hstep
    have hrest : Reads last (N.waiting (gathered n cs (as ++ [a])))
        (n + cs.length + (as ++ [a]).length) _ (N.waiting (gathered n cs (as ++ [a] ++ as'))) :=
      ih ha.2
    rw [List.append_assoc, List.length_append, ← Nat.add_assoc] at hrest
    exact hfirst.append hrest (quiet_annotations hm ha.2)

/-- The lines of a statement declare what its head says; a comma at its end must end the text. -/
theorem reads_statement {head : List Char} {more : List (List Char)} {h : Head}
    (hw : Wording head more) (hh : Head.ofLine? head = some h)
    (hcomma : (more.getLast?.getD head).getLast? = some ',' → last = true)
    (hdeclare : N.declare ((Statement.begin n (m ++ head) head).extended more) h = .ok N') :
    Reads last N n ((head :: more).map (indented m)) N' := by
  intro rest hquiet hlast
  let s := Statement.begin n (m ++ head) head
  have hmargin : s.margin = m.length := indentation_indent hm hw.tight
  have hdepth : ¬ 0 < (s.extended more).depth := Int.not_lt.2 hw.closed
  have hend : (s.extended more).lastText = more.getLast?.getD head := rfl
  -- No bracket is open and no bar follows; behind a comma nothing follows at all.
  have hrest : ∀ r ∈ rest.head?, (s.extended more).continues r = false := by
    intro r hr
    have hcomma' : (s.extended more).lastText.getLast? ≠ some ',' := by
      intro hc
      rw [hlast (hcomma (hend ▸ hc))] at hr
      cases hr
    simp [Statement.continues, hdepth, hquiet r hr, hcomma']
  have hstop : s.stop + 1 = n + 1 := rfl
  have hscan := scan_more hm hmargin hstop hw.continued hrest
  have hlength : n + ((head :: more).map (indented m)).length = n + 1 + more.length := by
    simp
    omega
  rw [hlength, List.map_cons, indented, if_neg hw.tight.ne_nil, List.cons_append, Item.scan,
    ofLine_head hm hw hh]
  show N.run (Item.scan (n + 1) (some s) _) = _
  rw [hscan]
  have hstep : N.step s.start (.statement (s.extended more)) = .ok N' := by
    exact step_statement_iff.2 ⟨hw.closed, h, hh, hdeclare⟩
  rw [run, hstep]

/-- A statement that says what the declaration `d` says, with what waits for it from line `n` on. -/
structure Says (s : Statement) (d : Decl) (n : Nat) : Prop where
  first : (gathered n d.header.comments d.annotations).firstLine s.start = n
  header : (gathered n d.header.comments d.annotations).header d.name s.texts s.start s.stop =
    d.header.reread n
  last : s.lastText = d.lastLine
  clause : d.kind = .leaf .useClause → s.clauseName = d.name

theorem reads_header {d : Decl} (hd : d.Legible) (hN : N.pending = {})
    (hcomma : d.EndsInComma → last = true)
    (hdeclare : ∀ s, Says s d n →
      (N.waiting (gathered n d.header.comments d.annotations)).declare s d.said = .ok N') :
    Reads last N n (headerText m d.header) N' := by
  obtain ⟨head, more, htext, hw, hh, hname⟩ := hd.wording
  have hlast : d.lastLine = more.getLast?.getD head := Decl.lastLine_eq htext
  -- The statement stands below the comments and the annotations that it takes.
  let start := n + d.header.comments.length + d.annotations.length
  let s := (Statement.begin start (m ++ head) head).extended more
  have hsays : Says s d n := by
    refine ⟨firstLine_gathered n _ _, ?_, hlast.symm, fun hk => (hname hk).symm⟩
    have hstop : (s.stop : Int) = n + (d.header.comments.length + d.annotations.length +
        d.header.text.length : Nat) - 1 := by
      rw [htext, List.length_map, List.length_cons]
      show ((start + more.length : Nat) : Int) = _
      omega
    have htexts : s.texts.map String.ofList = d.header.text := htext.symm
    rw [Pending.header, htexts, hstop]
    show Header.mk 0 _ _ _ _ (some ⟨((gathered n _ _).firstLine start : Nat), _⟩) = _
    rw [firstLine_gathered]
    rfl
  have hcomments : Reads false N n _ (N.waiting (gathered n d.header.comments [])) :=
    reads_comments_of_none hm hN hd.comments
  have hannotations : Reads false (N.waiting (gathered n d.header.comments []))
      (n + d.header.comments.length) _ (N.waiting (gathered n d.header.comments d.annotations)) :=
    reads_annotations hm hd.annotations
  have hcomma' : (more.getLast?.getD head).getLast? = some ',' → last = true := hlast ▸ hcomma
  have hstatement := reads_statement (n := start) hm hw hh hcomma' (hdeclare s hsays)
  have htail : Quiet ((head :: more).map (indented m)) := quiet_text hm hw hh _
  have hlower := hannotations.append (by rwa [List.length_map]) htail
  rw [headerText_eq htext]
  exact hcomments.append (by rwa [List.length_map])
    ((quiet_annotations hm hd.annotations).append htail)

end Declarations

theorem finish_eq_ok_iff {N : Nesting} {last : Nat} {f : Forest} : N.finish last = .ok f ↔
    N.stack = [] ∧ N.pending.annotations = [] ∧ N.roots = f := by
  unfold finish
  split
  · next hstack => simp [hstack]
  · next hstack =>
    split
    · next hfree => simp [hstack, List.isEmpty_iff.1 hfree]
    · next hwaits =>
      rw [List.isEmpty_iff] at hwaits
      simp [hwaits]

end Nesting

theorem parse_eq_ok_iff {file source : String} {f : Forest} : parse file source = .ok f ↔
    ∃ N, Nesting.run {} (Item.ofSource source.toList) = .ok N ∧
      N.finish (max 1 (lines source.toList).length) = .ok f := by
  unfold parse
  dsimp only
  constructor
  · intro h
    split at h
    · cases h
    · next N hrun =>
      split at h
      · cases h
      · next f' hfinish =>
        cases h
        exact ⟨N, hrun, hfinish⟩
  · rintro ⟨N, hrun, hfinish⟩
    simp only [hrun, hfinish]

end SignatureLayers
