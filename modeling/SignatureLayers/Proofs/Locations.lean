import Mathlib.Data.List.Basic
import Mathlib.Data.List.Pairwise
import SignatureLayers.Proofs.TrailingComments

namespace SignatureLayers

open Forest

namespace Item
variable {line first : Nat} {raw : List Char} {current : Option Statement} {ls : List (List Char)}
  {i j : Nat × Item} {items items' : List (Nat × Item)} {s : Statement}

/-- `j` begins no earlier than `i`, and on a later line where `i` declares or closes something. -/
def Precedes (i j : Nat × Item) : Prop := i.1 ≤ j.1 ∧ (i.2.isLead = false → stop i < j.1)

def Sited : Nat × Item → Prop
  | (line, .statement s) => line = s.start ∧ s.start ≤ s.stop
  | _ => True

/-- Items in the order of their lines. -/
structure Ordered (items : List (Nat × Item)) : Prop where
  precede : items.Pairwise Precedes
  sited : ∀ i ∈ items, Sited i

theorem Ordered.append (h : Ordered (items ++ items')) :
    Ordered items ∧ Ordered items' ∧ ∀ i ∈ items, ∀ j ∈ items', Precedes i j := by
  obtain ⟨hpre, hsuf, hacross⟩ := List.pairwise_append.1 h.precede
  obtain ⟨hsited, hsited'⟩ := List.forall_mem_append.1 h.sited
  exact ⟨⟨hpre, hsited⟩, ⟨hsuf, hsited'⟩, hacross⟩

theorem pairwise_ofLine (line : Nat) (raw : List Char) :
    ((ofLine line raw).1.map (line, ·)).Pairwise Precedes := by
  unfold ofLine
  split
  · simp
  · simp
  · dsimp only
    split
    · split <;> simp
    · split <;> split <;> simp [Precedes, isLead]

theorem sited_ofLine (h : i ∈ (ofLine line raw).1.map (line, ·)) : Sited i := by
  obtain ⟨item, hitem, rfl⟩ := List.mem_map.1 h
  cases item with
  | statement s => exact absurd rfl (not_statement_of_ofLine hitem s)
  | _ => trivial

/-- What a line holds precedes all that comes behind it, the statement that it begins included. -/
theorem precedes_of_ofLine (hi : i ∈ (ofLine line raw).1.map (line, ·))
    (hj : j ∈ scan (line + 1) (ofLine line raw).2 ls) : Precedes i j := by
  obtain ⟨item, hitem, rfl⟩ := List.mem_map.1 hi
  have hline : line ≤ j.1 := (Outline.line_of_mem_scan (Nat.le_succ line) (fun s hs => by
    rw [Outline.start_of_ofLine hs]
    exact ⟨Nat.le_refl line, Nat.lt_succ_self line⟩) hj).1
  refine ⟨hline, fun hlead => ?_⟩
  cases item with
  | blank | comment | annotations => cases hlead
  | statement s => exact absurd rfl (not_statement_of_ofLine hitem s)
  | close =>
    -- An end begins no statement.
    rw [ofLine_close hitem] at hj
    exact (Outline.line_of_mem_scan (Nat.le_refl _) (fun s hs => by cases hs) hj).1

theorem ordered_scan (hcurrent : ∀ s ∈ current, s.start ≤ s.stop ∧ s.stop < line)
    (ls : List (List Char)) : Ordered (scan line current ls) := by
  induction ls generalizing line current with
  | nil =>
    cases current with
    | none => exact ⟨.nil, List.forall_mem_nil _⟩
    | some s =>
      exact ⟨List.pairwise_singleton _ _, List.forall_mem_singleton.2 ⟨rfl, (hcurrent s rfl).1⟩⟩
  | cons raw ls ih =>
    have hbegin : Ordered ((ofLine line raw).1.map (line, ·) ++
        scan (line + 1) (ofLine line raw).2 ls) := by
      have hrest : Ordered (scan (line + 1) (ofLine line raw).2 ls) := ih fun s hs => by
        rw [Outline.start_of_ofLine hs, stop_of_ofLine hs]
        exact ⟨Nat.le_refl line, Nat.lt_succ_self line⟩
      exact ⟨List.pairwise_append.2 ⟨pairwise_ofLine line raw, hrest.precede,
        fun i hi j hj => precedes_of_ofLine hi hj⟩,
        List.forall_mem_append.2 ⟨fun i => sited_ofLine, hrest.sited⟩⟩
    cases current with
    | none => exact hbegin
    | some s =>
      obtain ⟨hs, hstop⟩ := hcurrent s rfl
      rw [scan]
      split
      · exact ih fun s' hs' => by
          cases hs'
          exact ⟨(hs.trans hstop.le : s.start ≤ line), Nat.lt_succ_self line⟩
      · refine ⟨List.pairwise_cons.2 ⟨fun j hj => ?_, hbegin.precede⟩,
          List.forall_mem_cons.2 ⟨⟨rfl, hs⟩, hbegin.sited⟩⟩
        have hline : line ≤ j.1 := by
          have hscan : j ∈ scan line none (raw :: ls) := hj
          exact (Outline.line_of_mem_scan (Nat.le_refl line) (fun s hs => by cases hs) hscan).1
        exact ⟨(hs.trans hstop.le).trans hline, fun _ => hstop.trans_le hline⟩

theorem ordered_ofSource (source : List Char) : Ordered (ofSource source) :=
  ordered_scan (fun s hs => by cases hs) _

theorem stop_of_ofSource {source : List Char} (h : i ∈ ofSource source) :
    stop i ≤ (Text.lines source).length := by
  obtain ⟨done, current, hscan, hdone, hcurrent⟩ :=
    scan_append stop_none (Text.lines source)
  have hall := hscan []
  rw [List.append_nil] at hall
  rw [ofSource, hall, List.mem_append] at h
  have hlt : stop i < 1 + (Text.lines source).length := by
    rcases h with h | h
    · exact hdone i h
    · cases current with
      | none => cases h
      | some s =>
        rw [List.mem_singleton.1 h]
        exact hcurrent s rfl
  omega

end Item

namespace Forest
variable {lo mid hi : Int} {f : Forest} {d : Decl} {l : Location}

/-- The declarations of a forest lie between the lines `lo` and `hi`, one behind the other and each
around its children. -/
inductive Within : Int → Int → Forest → Prop
  | nil {lo hi : Int} : Within lo hi []
  | cons {lo hi : Int} {d : Decl} {rest : Forest} {l : Location} (located : d.location = some l)
    (after : lo < l.start) (ordered : l.start ≤ l.stop) (before : l.stop < hi)
    (inner : Within l.start l.stop d.children) (later : Within l.stop hi rest) :
    Within lo hi (d :: rest)

theorem Within.concat (h : Within lo mid f) (located : d.location = some l) (after : lo < l.start)
    (hmid : mid ≤ l.start) (ordered : l.start ≤ l.stop) (before : l.stop < hi)
    (inner : Within l.start l.stop d.children) : Within lo hi (f ++ [d]) := by
  induction h with
  | nil => exact .cons located after ordered before inner .nil
  | cons located' after' ordered' before' inner' _ _ ih =>
    exact .cons located' after' ordered' (by omega) inner' (ih (by omega) hmid)

end Forest

namespace Decl

/-- `a` ends on a line before the one on which `b` begins. -/
def EndsBefore (a b : Decl) : Prop :=
  ∃ l ∈ a.location, ∃ m ∈ b.location, l.stop < m.start

/-- `p` begins on a line before `d` and ends on a line behind it. -/
def Surrounds (p d : Decl) : Prop :=
  ∃ l ∈ p.location, ∃ m ∈ d.location, l.start < m.start ∧ m.stop < l.stop

end Decl

namespace Forest
variable {lo hi : Int} {f : Forest} {d p : Decl}

theorem Within.located (h : Within lo hi f) (hd : d ∈ f.preorder) :
    ∃ l, d.location = some l ∧ lo < l.start ∧ l.start ≤ l.stop ∧ l.stop < hi := by
  induction h with
  | nil => simp at hd
  | @cons lo hi e rest l located after ordered before _ _ inner later =>
    rw [preorder_cons, List.mem_cons, List.mem_append] at hd
    rcases hd with rfl | hd | hd
    · exact ⟨l, located, after, ordered, before⟩
    · obtain ⟨m, hm, hlo, hle, hhi⟩ := inner hd
      exact ⟨m, hm, by omega, hle, by omega⟩
    · obtain ⟨m, hm, hlo, hle, hhi⟩ := later hd
      exact ⟨m, hm, by omega, hle, hhi⟩

theorem Within.pairwise (h : Within lo hi f) : f.Pairwise Decl.EndsBefore := by
  induction h with
  | nil => exact .nil
  | cons located _ _ _ _ later _ ih =>
    refine List.pairwise_cons.2 ⟨fun b hb => ?_, ih⟩
    obtain ⟨m, hm, hafter, -⟩ := later.located (mem_preorder_of_mem hb List.mem_cons_self)
    exact ⟨_, located, m, hm, hafter⟩

theorem Within.children (h : Within lo hi f) (hp : p ∈ f.preorder) :
    ∃ l, p.location = some l ∧ Within l.start l.stop p.children := by
  induction h with
  | nil => simp at hp
  | cons located _ _ _ within _ inner later =>
    rw [preorder_cons, List.mem_cons, List.mem_append] at hp
    rcases hp with rfl | hp | hp
    · exact ⟨_, located, within⟩
    · exact inner hp
    · exact later hp

theorem Within.surrounds (h : Within lo hi f) (hp : p ∈ f.preorder) (hd : d ∈ p.children) :
    p.Surrounds d := by
  obtain ⟨l, hl, within⟩ := h.children hp
  obtain ⟨m, hm, hafter, -, hbefore⟩ :=
    within.located (mem_preorder_of_mem hd List.mem_cons_self)
  exact ⟨l, hl, m, hm, hafter, hbefore⟩

end Forest

theorem Pending.firstLine_le (p : Pending) (start : Nat) : p.firstLine start ≤ start :=
  (Nat.min_le_right _ _).trans (Nat.min_le_right _ _)

namespace Outline
variable {items up : List (Nat × Item)} {f : Forest} {s : Statement} {start : Nat} {d : Decl}
  {frame : Frame} {p : Pending}

theorem mem_of_firstLine? {sort : Item → Bool} {n : Nat} (h : firstLine? sort items = some n) :
    ∃ i ∈ items, i.1 = n := by
  obtain ⟨i, hi, rfl⟩ := Option.map_eq_some_iff.1 h
  exact ⟨i, List.mem_of_find?_eq_some hi, rfl⟩

theorem le_firstLine_pending {n : Nat} (hup : ∀ i ∈ up, n ≤ i.1) (hstart : n ≤ start) :
    n ≤ (pending up).firstLine start := by
  have hbound {sort : Item → Bool} {items : List (Nat × Item)} (hsub : items ⊆ up) :
      n ≤ (firstLine? sort items).getD start := by
    cases hfirst : firstLine? sort items with
    | none => exact hstart
    | some m =>
      obtain ⟨i, hi, rfl⟩ := mem_of_firstLine? hfirst
      exact hup i (hsub hi)
  have hnear : near up ⊆ up := (List.rtakeWhile_suffix _ up).subset
  dsimp only [Pending.firstLine, pending]
  exact le_min (hbound hnear) (le_min (hbound (List.Subset.refl up)) hstart)

theorem location_of_declared (h : s.declared? p = some d) :
    d.location = some ⟨p.firstLine s.start, s.stop⟩ ∧ d.children = [] := by
  rcases declared_cases h with ⟨name, -, hleaf, hheader⟩ | ⟨kind, name, texts, -, -, rfl⟩
  · rw [Decl.location, hheader]
    exact ⟨rfl, Decl.children_eq_nil hleaf⟩
  · exact ⟨rfl, rfl⟩

theorem start_of_opened (h : s.opened? p = some frame) : frame.start = p.firstLine s.start := by
  obtain ⟨k, -, rfl⟩ := Option.map_eq_some_iff.1 h
  rfl

theorem firstLine_behind {items rest : List (Nat × Item)} {line lo : Nat}
    (hitems : Item.Ordered (items ++ up ++ (line, .statement s) :: rest))
    (hlo : ∀ i ∈ items ++ up ++ (line, .statement s) :: rest, lo < i.1) :
    s.start ≤ s.stop ∧ lo < (pending up).firstLine s.start ∧
      ∀ i ∈ items, i.2.isLead = false → Item.stop i < (pending up).firstLine s.start := by
  obtain ⟨hbefore, hlast, hprecede⟩ := hitems.append
  obtain ⟨-, -, hbehind⟩ := hbefore.append
  obtain ⟨hloBefore, hloLast⟩ := List.forall_mem_append.1 hlo
  obtain ⟨-, hloUp⟩ := List.forall_mem_append.1 hloBefore
  obtain ⟨⟨rfl, hle⟩, -⟩ := List.forall_mem_cons.1 hlast.sited
  obtain ⟨hstart, -⟩ := List.forall_mem_cons.1 hloLast
  exact ⟨hle, le_firstLine_pending hloUp hstart, fun i hi hlead =>
    le_firstLine_pending (fun j hj => (hbehind i hi j hj).2 hlead)
      ((hprecede i (List.mem_append_left _ hi) _ List.mem_cons_self).2 hlead)⟩

/-- What items form lies between any two lines between which the items do. -/
theorem Forms.within (h : Forms items f) (hitems : Item.Ordered items) (lo hi : Nat)
    (hlo : ∀ i ∈ items, lo < i.1)
    (hhi : ∀ i ∈ items, i.2.isLead = false → Item.stop i < hi) : Within lo hi f := by
  induction h generalizing lo hi with
  | nil => exact .nil
  | @declare items up f line s d _ leads declared ih =>
    obtain ⟨hle, hafter, hmid⟩ := firstLine_behind hitems hlo
    have hbody := ih hitems.append.1.append.1 _ _ (fun i hi => hlo i (by simp [hi])) hmid
    have hstop : s.stop < hi := hhi (line, .statement s) (by simp) rfl
    have hfirst := ((pending up).firstLine_le s.start).trans hle
    obtain ⟨hlocation, hchildren⟩ := location_of_declared declared
    exact hbody.concat hlocation (Int.ofNat_lt.2 hafter) (Int.le_refl _) (Int.ofNat_le.2 hfirst)
      (Int.ofNat_lt.2 hstop) (hchildren ▸ .nil)
  | @enclose items up inner tail f g line stop s frame _ leads opened _ trails free ih ihinner =>
    have hassoc : items ++ up ++ (line, .statement s) :: inner ++ tail ++ [(stop, .close)] =
        items ++ up ++ (line, .statement s) :: (inner ++ (tail ++ [(stop, .close)])) := by simp
    rw [hassoc] at hitems hlo hhi
    obtain ⟨hle, hafter, hmid⟩ := firstLine_behind hitems hlo
    have hbody := ih hitems.append.1.append.1 _ _ (fun i hi => hlo i (by simp [hi])) hmid
    have hstop : stop < hi := hhi (stop, .close) (by simp) rfl
    have hfirst := ((pending up).firstLine_le s.start).trans hle
    -- The children stand behind the header and in front of the end.
    obtain ⟨hheader, hrest⟩ := List.pairwise_cons.1 hitems.append.2.1.precede
    have hordered : Item.Ordered (inner ++ (tail ++ [(stop, .close)])) :=
      ⟨hrest, (List.forall_mem_cons.1 hitems.append.2.1.sited).2⟩
    have hbehind : ∀ i ∈ inner ++ (tail ++ [(stop, .close)]), s.stop < i.1 :=
      fun i hi => (hheader i hi).2 rfl
    have hend : s.stop < stop := hbehind (stop, .close) (by simp)
    have hinner := ihinner hordered.append.1 ((pending up).firstLine s.start) stop
      (fun i hi => hfirst.trans_lt (hbehind i (List.mem_append_left _ hi)))
      (fun i hi hlead => (hordered.append.2.2 i hi (stop, .close) (by simp)).2 hlead)
    rw [← start_of_opened opened] at hmid hafter hfirst hinner hbody
    exact hbody.concat rfl (Int.ofNat_lt.2 hafter) (Int.le_refl _)
      (Int.ofNat_le.2 (hfirst.trans hend.le)) (Int.ofNat_lt.2 hstop) hinner

end Outline

/-- The declarations of an accepted source have locations on its lines. Of two siblings the first
ends before the second begins, and a container begins before its children and ends behind them. -/
theorem parse_locations {file source : String} {f : Forest} (h : parse file source = .ok f) :
    (∀ d ∈ f.preorder, ∃ l, d.location = some l ∧ 1 ≤ l.start ∧ l.start ≤ l.stop ∧
      l.stop ≤ (Text.lines source.toList).length) ∧
    f.Pairwise Decl.EndsBefore ∧
    ∀ p ∈ f.preorder, p.children.Pairwise Decl.EndsBefore ∧ ∀ d ∈ p.children, p.Surrounds d := by
  obtain ⟨-, hwhole⟩ := Outline.outline_of_parse h
  have hordered := Item.ordered_ofSource source.toList
  have hbody : Outline.body (Item.ofSource source.toList) ⊆ Item.ofSource source.toList := by
    conv_rhs => rw [← Outline.body_append_lead (Item.ofSource source.toList)]
    exact List.subset_append_left _ _
  rw [← Outline.body_append_lead (Item.ofSource source.toList)] at hordered
  have hwithin : Within 0 ((Text.lines source.toList).length + 1 : Nat) f :=
    hwhole.within hordered.append.1 0 _
      (fun i hi => (Outline.line_of_mem_scan (Nat.le_refl 1) (fun s hs => by cases hs)
        (hbody hi)).1)
      (fun i hi _ => Nat.lt_succ_of_le (Item.stop_of_ofSource (hbody hi)))
  refine ⟨fun d hd => ?_, hwithin.pairwise, fun p hp => ?_⟩
  · obtain ⟨l, hl, hstart, hle, hstop⟩ := hwithin.located hd
    exact ⟨l, hl, hstart, hle, by omega⟩
  · obtain ⟨l, -, hbelow⟩ := hwithin.children hp
    exact ⟨hbelow.pairwise, fun d hd => hwithin.surrounds hp hd⟩

set_option maxRecDepth 2000 in
/-- Comments, annotations and blank lines above declarations of one and of several lines. -/
theorem parse_locations_class :
    let source := "\n# c\n%a\x7bx\x7d\nclass A\n  B: [\n  T ]\n\n  # d\n  @y: T\n  # e\nend\nclass D end"
    ∃ f, parse "" source = .ok f ∧
      f.preorder.map (fun d => (d.name, d.location)) =
        [("A", some ⟨2, 11⟩), ("B", some ⟨5, 6⟩), ("@y", some ⟨8, 9⟩), ("D", some ⟨12, 12⟩)] ∧
      (∀ d ∈ f.preorder, ∃ l, d.location = some l ∧ 1 ≤ l.start ∧ l.start ≤ l.stop ∧
        l.stop ≤ (Text.lines source.toList).length) ∧
      f.Pairwise Decl.EndsBefore ∧
      ∀ p ∈ f.preorder, p.children.Pairwise Decl.EndsBefore ∧ ∀ d ∈ p.children, p.Surrounds d := by
  intro source
  let constant : Decl := .leaf .constant
    { name := "B", text := ["B: [", "T ]"], location := some ⟨5, 6⟩ }
  let member : Decl := .member .instanceVariable
    { name := "@y", text := ["@y: T"], comments := ["# d"], location := some ⟨8, 9⟩ } none
  let first : Decl := .container .classDecl
    { name := "A"
      text := ["class A"]
      annotations := [⟨"x", "%a\x7bx\x7d"⟩]
      comments := ["# c"]
      location := some ⟨2, 11⟩ } [constant, member] ["# e"]
  let last : Decl := .container .classDecl
    { name := "D", text := ["class D"], location := some ⟨12, 12⟩ } [] []
  have hparse : parse "" source = .ok [first, last] := by
    simp only [source]
    cbv
  exact ⟨_, hparse, by simp [first, last, constant, member, preorder_cons, Decl.children,
    Decl.name, Decl.location, Decl.header], parse_locations hparse⟩

end SignatureLayers
