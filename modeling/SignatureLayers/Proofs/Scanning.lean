import SignatureLayers.Proofs.Legible

namespace SignatureLayers

open Text

/-- A statement as it is scanned, whether its brackets are closed or not. -/
structure Statement.Proper (s : Statement) : Prop where
  tight : Tight s.head
  unbroken : Unbroken s.head
  notEnd : Item.isEnd s.head = false
  continued : Continued (bracketDepth s.head) s.head s.more
  depth : s.depth = depthAfter (bracketDepth s.head) s.more

namespace Item

def Proper : Item → Prop
  | .blank | .close => True
  | .comment text => Remark text
  | .annotations tokens => ∀ a ∈ tokens, a.Legible
  | .statement s => s.Proper

def EndsInComma : Item → Prop
  | .statement s => s.lastText.getLast? = some ','
  | _ => False

end Item

/-- Items of a source: a statement that ends in a comma is the last of them. -/
inductive Items : List (Nat × Item) → Prop
  | nil : Items []
  | cons {line : Nat} {item : Item} {rest : List (Nat × Item)} (proper : item.Proper)
    (last : item.EndsInComma → rest = []) (tail : Items rest) : Items ((line, item) :: rest)

variable {s t raw : List Char}

theorem tight_of_suffix {c : Char} {s' : List Char} (hs : Tight s) (h : s = s' ++ c :: t)
    (hc : isBlank c = false) : Tight (c :: t) := by
  refine ⟨⟨c, rfl, hc⟩, ?_⟩
  obtain ⟨b, hb, hblank⟩ := hs.last
  refine ⟨b, ?_, hblank⟩
  rw [h, List.getLast?_append_of_ne_nil _ (by simp)] at hb
  exact hb

theorem trimLeft_suffix (s : List Char) : ∃ s', s = s' ++ trimLeft s :=
  ⟨s.takeWhile isBlank, List.takeWhile_append_dropWhile.symm⟩

theorem tight_trimLeft_suffix {s' : List Char} (hs : Tight s) (h : s = s' ++ t)
    (hne : trimLeft t ≠ []) : Tight (trimLeft t) := by
  obtain ⟨b, hb⟩ := trimLeft_suffix t
  obtain ⟨c, hc, hblank⟩ := first_trimLeft hne
  cases ht : trimLeft t with
  | nil => exact absurd ht hne
  | cons a rest =>
    rw [ht] at hc hb
    cases hc
    have hsplit : s = (s' ++ b) ++ c :: rest := by rw [h, List.append_assoc, ← hb]
    exact tight_of_suffix hs hsplit hblank

theorem legible_of_read? {a : Annot} (hs : Unbroken s) (h : Annot.read? s = some (a, t)) :
    a.Legible ∧ s = a.token.toList ++ t := by
  obtain ⟨opener, closer, payload, hcloser, hpayload, rfl, rfl⟩ := Annot.read?_eq_some_iff.1 h
  have hs' : '%' :: 'a' :: opener :: (payload ++ closer :: t) =
      ('%' :: 'a' :: opener :: payload ++ [closer]) ++ t := by simp
  refine ⟨⟨⟨opener, closer, hcloser, ?_, ?_⟩, ?_⟩, ?_⟩
  · rwa [String.toList_ofList]
  · rw [String.toList_ofList, String.toList_ofList]
  · rw [String.toList_ofList]
    rw [hs'] at hs
    exact (unbroken_append.1 hs).1
  · rw [String.toList_ofList]
    exact hs'

theorem legible_of_readAll (hs : s = [] ∨ Tight s) (hu : Unbroken s) :
    (∀ a ∈ (Annot.readAll s).1, a.Legible) ∧ Unbroken (Annot.readAll s).2 ∧
      ((Annot.readAll s).2 = [] ∨ Tight (Annot.readAll s).2) := by
  induction hn : s.length using Nat.strongRecOn generalizing s with
  | _ n ih =>
  cases hread : Annot.read? s with
  | none =>
    rw [Annot.readAll_of_none hread]
    exact ⟨(fun a ha => by cases ha), hu, hs⟩
  | some r =>
    obtain ⟨a, t⟩ := r
    obtain ⟨hlegible, hsplit⟩ := legible_of_read? hu hread
    rw [Annot.readAll_of_some hread]
    have hut : Unbroken t := by
      rw [hsplit] at hu
      exact (unbroken_append.1 hu).2
    obtain ⟨b, hb⟩ := trimLeft_suffix t
    have hut' : Unbroken (trimLeft t) := by
      rw [hb] at hut
      exact (unbroken_append.1 hut).2
    have htight : trimLeft t = [] ∨ Tight (trimLeft t) := by
      rcases hs with rfl | hs
      · cases hread
      · by_cases hne : trimLeft t = []
        · exact .inl hne
        · exact .inr (tight_trimLeft_suffix hs hsplit hne)
    have hlt : (trimLeft t).length < n := hn ▸ Annot.length_trimLeft_of_read? hread
    obtain ⟨htokens, hrest⟩ := ih _ hlt htight hut' rfl
    exact ⟨List.forall_mem_cons.2 ⟨hlegible, htokens⟩, hrest⟩

theorem unbroken_trim (h : Unbroken s) : Unbroken (trim s) := by
  intro c hc
  have hleft : c ∈ trimLeft s := by
    have := (List.dropWhile_sublist isBlank).subset (List.mem_reverse.1 hc)
    exact List.mem_reverse.1 this
  exact h c ((List.dropWhile_sublist isBlank).subset hleft)

theorem trimmed_trim (s : List Char) : trim s = [] ∨ Tight (trim s) := by
  by_cases h : trim s = []
  · exact .inl h
  · exact .inr (tight_trim h)

theorem Statement.proper_begin {line : Nat} (ht : Tight t) (hu : Unbroken t)
    (hend : Item.isEnd t = false) : (Statement.begin line raw t).Proper :=
  ⟨ht, hu, hend, .nil, rfl⟩

theorem proper_ofLine (line : Nat) (h : Unbroken raw) :
    (∀ i ∈ (Item.ofLine line raw).1, i.Proper ∧ ¬ i.EndsInComma) ∧
      ∀ s ∈ (Item.ofLine line raw).2, s.Proper := by
  have hu := unbroken_trim h
  have ht := trimmed_trim raw
  unfold Item.ofLine
  split
  · simp [Item.Proper, Item.EndsInComma]
  · next text hraw =>
    rw [hraw] at hu ht
    have hremark : Remark ('#' :: text) := ⟨rfl, ht.resolve_left (List.cons_ne_nil _ _), hu⟩
    simpa [Item.Proper, Item.EndsInComma] using hremark
  · obtain ⟨htokens, hrest, htight⟩ := legible_of_readAll ht hu
    generalize Annot.readAll (trim raw) = r at htokens hrest htight
    obtain ⟨tokens, rest⟩ := r
    have hlead : ∀ i ∈ if tokens.isEmpty then [] else [Item.annotations tokens],
        i.Proper ∧ ¬ i.EndsInComma := by
      split
      · exact fun i hi => by cases hi
      · simpa [Item.Proper, Item.EndsInComma] using htokens
    simp only
    split
    · exact ⟨hlead, fun s hs => by cases hs⟩
    · next hne =>
      split
      · refine ⟨List.forall_mem_append.2 ⟨hlead, ?_⟩, fun s hs => by cases hs⟩
        simp [Item.Proper, Item.EndsInComma]
      · next hend =>
        refine ⟨hlead, fun s hs => ?_⟩
        cases hs
        have htight' : Tight rest := htight.resolve_left (by simpa using hne)
        exact Statement.proper_begin htight' hrest (by simpa using hend)

theorem laid_relative (margin : Nat) (h : Unbroken raw) :
    Laid (Statement.relative margin raw) ∧ Unbroken (Statement.relative margin raw) ∧
      trim (Statement.relative margin raw) = trim raw := by
  unfold Statement.relative
  split
  · next hraw => exact ⟨.empty, (fun c hc => by cases hc), hraw.symm⟩
  · next hraw =>
    have ht : Tight (trim raw) := tight_trim hraw
    exact ⟨.text _ ht, unbroken_append.2 ⟨unbroken_spaces _, unbroken_trim h⟩,
      trim_indent isBlank_of_mem_spaces ht⟩

theorem depthAfter_concat (depth : Int) (ls : List (List Char)) (l : List Char) :
    depthAfter depth (ls ++ [l]) = depthAfter depth ls + bracketDepth (trim l) := by
  rw [depthAfter, List.foldl_append]
  rfl

theorem Continued.snoc {depth : Int} {last l : List Char} {ls : List (List Char)}
    (h : Continued depth last ls) (laid : Laid l) (unbroken : Unbroken l)
    (here : 0 < depthAfter depth ls ∨ (trim l).head? = some '|' ∨
      (ls.getLast?.getD last).getLast? = some ',') : Continued depth last (ls ++ [l]) := by
  induction h with
  | nil => exact .cons here laid unbroken .nil
  | cons here' laid' unbroken' tail ih =>
    refine .cons here' laid' unbroken' (ih ?_)
    rwa [List.getLast?_cons, Option.getD_some] at here

theorem Statement.Proper.extend {s : Statement} {line : Nat} (hs : s.Proper) (h : Unbroken raw)
    (hc : s.continues raw = true) : (s.extend line raw).Proper := by
  obtain ⟨laid, unbroken, htrim⟩ := laid_relative s.margin h
  refine ⟨hs.tight, hs.unbroken, hs.notEnd, hs.continued.snoc laid unbroken ?_, ?_⟩
  · rw [htrim, ← hs.depth]
    simpa [Statement.continues, Statement.lastText, or_assoc] using hc
  · show s.depth + bracketDepth (trim raw) =
      depthAfter (bracketDepth s.head) (s.more ++ [Statement.relative s.margin raw])
    rw [depthAfter_concat, ← hs.depth, htrim]

theorem Items.append {line : Nat} {is : List Item} {rest : List (Nat × Item)}
    (h : ∀ i ∈ is, i.Proper ∧ ¬ i.EndsInComma) (hrest : Items rest) :
    Items (is.map (line, ·) ++ rest) := by
  induction is with
  | nil => exact hrest
  | cons i is ih =>
    obtain ⟨⟨hproper, hcomma⟩, his⟩ := List.forall_mem_cons.1 h
    exact .cons hproper (fun hc => absurd hc hcomma) (ih his)

theorem items_scan {current : Option Statement} {line : Nat} {ls : List (List Char)}
    (hls : ∀ l ∈ ls, Unbroken l) (hcurrent : ∀ s ∈ current, s.Proper) :
    Items (Item.scan line current ls) := by
  induction ls generalizing line current with
  | nil =>
    cases current with
    | none => exact .nil
    | some s => exact .cons (hcurrent s rfl) (fun _ => rfl) .nil
  | cons raw ls ih =>
    obtain ⟨hraw, hls⟩ := List.forall_mem_cons.1 hls
    obtain ⟨hitems, hnext⟩ := proper_ofLine line hraw
    have hbegin : Items ((Item.ofLine line raw).1.map (line, ·) ++
        Item.scan (line + 1) (Item.ofLine line raw).2 ls) := .append hitems (ih hls hnext)
    cases current with
    | none => exact hbegin
    | some s =>
      have hs := hcurrent s rfl
      rw [Item.scan]
      split
      · next hc => exact ih hls fun s' hs' => Option.mem_some.1 hs' ▸ hs.extend hraw hc
      · next hc =>
        -- A comma would have made the line a part of the statement.
        refine .cons hs (fun hcomma => ?_) hbegin
        have hcomma' : s.lastText.getLast? = some ',' := hcomma
        simp [Statement.continues, hcomma'] at hc

theorem items_ofSource (source : List Char) : Items (Item.ofSource source) :=
  items_scan (fun _ hl => unbroken_of_mem_lines hl) fun s hs => by cases hs

end SignatureLayers
