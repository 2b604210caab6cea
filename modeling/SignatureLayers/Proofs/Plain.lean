import Mathlib.Data.List.Basic
import SignatureLayers.Proofs.Preloaded
import SignatureLayers.Proofs.Rendering

namespace SignatureLayers

open Forest
open Merge (usePosition)
open Printer

/-- No annotation is a directive. -/
def Decl.Undirected (d : Decl) : Prop :=
  ∀ a ∈ d.annotations, Directive.ofPayload? a.payload = none

theorem Decl.Undirected.winner? {d : Decl} (h : d.Undirected) :
    Directive.winner? d.annotations = none := Directive.winner?_eq_none_iff.2 h

namespace Forest
variable {known fresh : Bool} {cs ds rest : Forest} {d : Decl}

theorem completed_last (known : Bool)
    (h : ∀ known, merged known true [] d.children = d.children) :
    completed known d.children (.into cs d.hollow [] true) = cs ++ [d] := by
  cases d with
  | container k header ds t =>
    rw [completed]
    show cs ++ [Decl.container k header (merged _ true [] ds) t] = _
    rw [show merged _ true [] ds = ds from h _]
  | leaf | member => rfl

theorem taken_eq_none
    (hd : d.isContainer = true → ∀ x ∈ cs, x.key = d.key → x.isContainer = false) :
    ((resolved? known d.key cs).filter fun (_, x, _) => d.isContainer && x.isContainer) = none := by
  cases hfound : resolved? known d.key cs with
  | none => rfl
  | some found =>
    obtain ⟨xs, x, ys⟩ := found
    obtain ⟨rfl, -, hkey⟩ := cut?_eq_some (resolved?_eq_some hfound).2
    cases hcontainer : d.isContainer with
    | false => simp [Option.filter]
    | true =>
      have hx := hd hcontainer x (by simp) hkey
      simp [Option.filter, hx]

theorem settled_fresh (known : Bool) (hw : Directive.winner? d.annotations = none)
    (huse : d.kind ≠ .leaf .useClause)
    (hd : d.isContainer = true → ∀ x ∈ cs, x.key = d.key → x.isContainer = false) :
    settled known true d cs = .into cs d.hollow [] true := by
  simp only [settled, hw, taken_eq_none hd, placed, huse, ↓reduceIte]

theorem apart_of_lone (h : ∀ name, Lone name (cs ++ d :: rest)) (hd : d.isContainer = true) :
    ∀ x ∈ cs, x.key = d.key → x.isContainer = false := fun _ hx hkey =>
  apart_of_namesakes (h d.name).1 hd hx (congrArg Key.name hkey)

theorem merged_fresh (hplain : ∀ d ∈ ds.preorder, d.Undirected ∧ d.kind ≠ .leaf .useClause)
    (hlone : ∀ name, Lone name (cs ++ ds)) : merged known true cs ds = cs ++ ds := by
  -- What has been merged stands in `cs`, so `cs` is any forest here.
  induction ds using Forest.induct generalizing known cs with
  | nil => simp
  | cons d rest inner tail =>
    rw [preorder_cons, List.forall_mem_cons, List.forall_mem_append] at hplain
    obtain ⟨⟨hw, huse⟩, hbelow, hrest⟩ := hplain
    have hchildren (known : Bool) : merged known true [] d.children = d.children :=
      inner hbelow fun name => (hlone name).children (by simp)
    have hsettled := settled_fresh known hw.winner? huse fun hd => apart_of_lone hlone hd
    rw [merged_cons, hsettled, completed_last known hchildren,
      tail hrest (by simpa using hlone), List.append_assoc]
    rfl

theorem usePosition_of_all (h : ∀ d ∈ cs, d.kind = .leaf .useClause) :
    usePosition cs = cs.length := by
  have hall : cs.zipIdx.filter (·.1.kind == .leaf .useClause) = cs.zipIdx := by
    apply List.filter_eq_self.2
    intro q hq
    simpa using h q.1 (List.fst_mem_of_mem_zipIdx hq)
  rw [usePosition, hall, List.getLast?_zipIdx]
  rcases List.eq_nil_or_concat' cs with rfl | ⟨xs, x, rfl⟩
  · rfl
  · simp

theorem settled_top (hw : Directive.winner? d.annotations = none) (hm : d.isMember = false)
    (hd : d.isContainer = true → ∀ x ∈ cs, x.key = d.key → x.isContainer = false)
    (huse : d.kind = .leaf .useClause → ∀ x ∈ cs, x.kind = .leaf .useClause ∧ x.key ≠ d.key) :
    settled true false d cs = .into cs d.hollow [] true := by
  have hkind : d.kind.isVariable = false ∧ d.kind.isVisibility = false := by
    cases d with
    | container | leaf => exact ⟨rfl, rfl⟩
    | member => cases hm
  simp only [settled, hw, taken_eq_none hd, placed]
  by_cases hclause : d.kind = .leaf .useClause
  · have hnew : resolved? true d.key cs = none :=
      cut?_eq_none.2 (homonyms_eq_nil.2 fun x hx => (huse hclause x hx).2)
    have hposition := usePosition_of_all fun x hx => (huse hclause x hx).1
    rw [if_pos hclause, hnew, hposition, List.take_length, List.drop_length]
    rfl
  · simp [hclause, hkind]

/-- Declarations of a source that do not speak of each other: none has a directive, no two
containers in one place have one name, and neither do two use clauses. -/
structure Plain (layer : Forest) : Prop where
  undirected : ∀ d ∈ layer.preorder, d.Undirected
  lone : ∀ name, layer.Lone name
  clauses : ((layer.filter (·.kind == .leaf .useClause)).map Decl.name).Nodup

theorem Plain.before_use (h : Plain (cs ++ d :: rest))
    (hfirst : UsesFirst ((cs ++ d :: rest).map Decl.kind)) (hd : d.kind = .leaf .useClause) :
    ∀ x ∈ cs, x.kind = .leaf .useClause ∧ x.key ≠ d.key := by
  intro x hx
  rw [UsesFirst, List.map_append, List.pairwise_append] at hfirst
  have hxclause : x.kind = .leaf .useClause :=
    hfirst.2.2 x.kind (List.mem_map_of_mem hx) d.kind (by simp) hd
  have hnames := h.clauses
  rw [List.filter_append, List.map_append, List.nodup_append] at hnames
  have hname : x.name ≠ d.name :=
    hnames.2.2 x.name (List.mem_map_of_mem (by simp [hx, hxclause])) d.name
      (List.mem_map_of_mem (by simp [hd]))
  exact ⟨hxclause, fun hkey => hname (congrArg Key.name hkey)⟩

/-- What goes to the top goes behind all that is there. -/
theorem merged_top (cs : Forest) (hplain : Plain (cs ++ ds))
    (hmembers : ∀ d ∈ ds, d.isMember = false)
    (hfirst : UsesFirst ((cs ++ ds).map Decl.kind))
    (hinner : ∀ d ∈ ds, ∀ e ∈ preorder d.children, e.kind ≠ .leaf .useClause) :
    merged true false cs ds = cs ++ ds := by
  induction ds generalizing cs with
  | nil => simp
  | cons d rest ih =>
    obtain ⟨hm, hmembers⟩ := List.forall_mem_cons.1 hmembers
    obtain ⟨hd, hinner⟩ := List.forall_mem_cons.1 hinner
    have hmem : d ∈ cs ++ d :: rest := by simp
    have hself : ∀ e ∈ d :: preorder d.children, e.Undirected := fun e he =>
      hplain.undirected e (mem_preorder_of_mem hmem he)
    obtain ⟨hw, hbelow⟩ := List.forall_mem_cons.1 hself
    have hchildren (known : Bool) : merged known true [] d.children = d.children :=
      merged_fresh (fun e he => ⟨hbelow e he, hd e he⟩) fun name =>
        (hplain.lone name).children hmem
    have hsettled := settled_top hw.winner? hm (apart_of_lone hplain.lone) (hplain.before_use hfirst)
    have hsplit : cs ++ d :: rest = (cs ++ [d]) ++ rest := by simp
    rw [merged_cons, hsettled, completed_last true hchildren, hsplit,
      ih (cs ++ [d]) (hsplit ▸ hplain) hmembers (hsplit ▸ hfirst) hinner]

theorem ne_use_of_children {f : Forest} (htop : ∀ d ∈ f, d.kind ≠ .leaf .useClause)
    (hinner : ∀ d ∈ f.preorder, ∀ c ∈ d.children, c.kind ≠ .leaf .useClause) :
    ∀ d ∈ f.preorder, d.kind ≠ .leaf .useClause := by
  induction f using Forest.induct with
  | nil => simp
  | cons d rest inner tail =>
    rw [preorder_cons, List.forall_mem_cons, List.forall_mem_append] at hinner ⊢
    obtain ⟨hd, htop⟩ := List.forall_mem_cons.1 htop
    exact ⟨hd, inner hinner.1 hinner.2.1, tail htop hinner.2.2⟩

/-- A plain source is merged into nothing as it stands. -/
theorem merged_of_parse {file source : String} {layer : Forest}
    (hparse : parse file source = .ok layer) (hplain : Plain layer) :
    merged true false [] layer = layer := by
  have hparsed := parsed_of_parse hparse
  refine merged_top [] hplain hparsed.members hparsed.clauses fun d hd => ?_
  have hreadable : ∀ e ∈ d :: preorder d.children, e.Readable := fun e he =>
    hparsed.readable e (mem_preorder_of_mem hd he)
  obtain ⟨hd, hbelow⟩ := List.forall_mem_cons.1 hreadable
  exact ne_use_of_children hd.clauses fun e he => (hbelow e he).clauses

theorem gap_anonymous (before : Option Decl) (d : Decl) :
    gap (before.map Decl.anonymous) d.anonymous = gap before d := by
  cases before with
  | none => rfl
  | some b =>
    have hparted : parted b.anonymous d.anonymous = parted b d := by
      rw [parted, parted, Decl.location_anonymous, Decl.location_anonymous]
    simp only [Option.map_some, gap, hparted]

theorem linesAt_anonymous (width depth : Nat) (before : Option Decl) (f : Forest) :
    linesAt width depth (before.map Decl.anonymous) f.anonymous = linesAt width depth before f := by
  induction f using Forest.induct generalizing depth before with
  | nil => rw [anonymous_nil, linesAt_nil, linesAt_nil]
  | cons d rest inner tail =>
    have hlines : declLines width depth d.anonymous = declLines width depth d := by
      cases d with
      | container k header cs t =>
        have hinner : linesAt width (depth + 1) none (anonymous cs) =
            linesAt width (depth + 1) none cs := inner (depth + 1) none
        show headerLines _ header ++ (linesAt width (depth + 1) none (anonymous cs) ++ _ ++ _) = _
        rw [hinner]
        rfl
      | leaf | member => rfl
    rw [anonymous_cons, linesAt_cons, linesAt_cons, gap_anonymous, hlines]
    exact congrArg _ (tail depth (some d))

theorem print_anonymous (width : Nat) (f : Forest) :
    Printer.print width f.anonymous = Printer.print width f := by
  rw [Printer.print, Printer.print]
  exact congrArg (fun lines => String.join (lines.map (· ++ "\n")))
    (linesAt_anonymous width 0 none f)

end Forest

namespace App

/-- A plain source alone gives back its own declarations, and its own text. -/
theorem apply_plain {source : String} {layer : Forest} (hparse : parse "" source = .ok layer)
    (hplain : layer.Plain) (s : Store) :
    let r := ({} : App).apply s (some source) none
    r.1 = .ok [] ∧ r.2.engine.tree.anonymous = layer.anonymous ∧
      r.2.render = Printer.print 2 layer := by
  obtain ⟨hfault, -, htree⟩ := applyText_of_parse (a := {}) Engine.coherent_empty hparse
  have happly : ({} : App).apply s (some source) none =
      (.ok [], (({} : App).applyText "" source).2) := by
    rw [App.apply]
    generalize ({} : App).applyText "" source = r at hfault
    obtain ⟨fault, a⟩ := r
    cases hfault
    rfl
  have htree' : (({} : App).applyText "" source).2.engine.tree.anonymous = layer.anonymous :=
    calc (({} : App).applyText "" source).2.engine.tree.anonymous
      _ = (merged true false [] (number 1 layer).1).anonymous := congrArg anonymous htree
      _ = merged true false [] layer.anonymous := by
        rw [anonymous_merged, anonymous_nil, anonymous_number]
      _ = (merged true false [] layer).anonymous := by rw [anonymous_merged, anonymous_nil]
      _ = layer.anonymous := by rw [merged_of_parse hparse hplain]
  rw [happly]
  refine ⟨rfl, htree', ?_⟩
  rw [render, ← print_anonymous, htree', print_anonymous]

/-- Variables on both sides of a method, and a remark that is no directive, stay where they are. -/
theorem apply_plain_class :
    let source := "use X::Y\nclass A\n  @v: Y\n\n  %a\x7bpure\x7d\n  def m: () -> Y\n  @w: Y\nend\n"
    let r := ({} : App).apply ⟨.directory [], .ofText "/"⟩ (some source) none
    ∃ layer, parse "" source = .ok layer ∧ layer.Plain ∧ r.1 = .ok [] ∧
      r.2.engine.tree.anonymous = layer.anonymous ∧ r.2.render = Printer.print 2 layer := by
  intro source r
  let clause : Decl := .leaf .useClause
    { name := "use X::Y"
      text := ["use X::Y"]
      location := some ⟨1, 1⟩ }
  let first : Decl := .member .instanceVariable
    { name := "@v"
      text := ["@v: Y"]
      location := some ⟨3, 3⟩ } none
  let method : Decl := .member .method
    { name := "m"
      text := ["def m: () -> Y"]
      annotations := [⟨"pure", "%a\x7bpure\x7d"⟩]
      location := some ⟨5, 6⟩ } none
  let last : Decl := .member .instanceVariable
    { name := "@w"
      text := ["@w: Y"]
      location := some ⟨7, 7⟩ } none
  let container : Decl := .container .classDecl
    { name := "A"
      text := ["class A"]
      location := some ⟨2, 8⟩ } [first, method, last] []
  have hparse : parse "" source = .ok [clause, container] := by
    simp only [source]
    cbv
  have hmem : ∀ d ∈ preorder [clause, container], d = clause ∨ d = container ∨ d = first ∨
      d = method ∨ d = last := by
    intro d hd
    simpa only [preorder, clause, first, method, last, container, List.mem_cons, List.append_nil,
      List.not_mem_nil, or_false] using hd
  have hremark : Directive.ofPayload? "pure" = none := by cbv
  have hplain : Forest.Plain [clause, container] := by
    refine ⟨fun d hd => ?_, fun name => ⟨?_, fun d hd => ?_⟩, ?_⟩
    · rcases hmem d hd with rfl | rfl | rfl | rfl | rfl <;>
        simp [Decl.Undirected, Decl.annotations, Decl.header, clause, container, first, method,
          last, hremark]
    · simp only [namesakes, clause, container, List.countP_cons, List.countP_nil, Decl.isContainer,
        Bool.true_and, Bool.false_and, Bool.false_eq_true, ↓reduceIte]
      split <;> decide
    · rcases hmem d hd with rfl | rfl | rfl | rfl | rfl <;>
        simp [namesakes, Decl.children, Decl.isContainer, clause, container, first, method, last]
    · simp [clause, container, Decl.kind]
  exact ⟨_, hparse, hplain, apply_plain hparse hplain ⟨.directory [], .ofText "/"⟩⟩

end App
end SignatureLayers
