import Mathlib
import SignatureLayers.Proofs.Coherence

namespace SignatureLayers

open Forest
open Merge (absorbTrailing addTrailing)

namespace Index
variable {i : Index} {c : Context} {cs : Forest} {path : List String} {o : Owner}

theorem descend?_eq_some (h : i.Mirrors (c.plug cs)) (hn : (Forest.ids (c.plug cs)).Nodup)
    (hd : i.descend? c.owner path = some o) :
    ∃ c' cs', cs = Context.plug c' cs' ∧ Context.owner (c ++ c') = o ∧ c'.path = path ∧
      c'.Clear := by
  induction path generalizing c cs with
  | nil =>
    rw [descend?] at hd
    cases hd
    refine ⟨[], cs, rfl, by simp, rfl, by simp [Context.Clear]⟩
  | cons name path ih =>
    rw [descend?, childAt?_eq_view, h.view_owner hn] at hd
    cases hf : first? cs ⟨name, false⟩ with
    | none => simp [hf] at hd
    | some r =>
      obtain ⟨xs, d, ys, rfl, hxs, hkey, rfl⟩ := exists_of_first? hf
      cases d with
      | leaf | member => simp [hf, Decl.ref, Decl.isContainer] at hd
      | container k header ds t =>
        let l : Shell := ⟨xs, k, header, t, ys⟩
        have hname : header.name = name := congrArg Key.name hkey
        have hplug : Context.plug (c ++ [l]) ds = c.plug (l.plug ds) := Context.plug_append ..
        have hd : i.descend? (Context.owner (c ++ [l])) path = some o := by
          rw [Context.owner_concat]
          simpa [hf, Decl.ref, Decl.isContainer, Decl.id, Decl.header] using hd
        obtain ⟨c', cs', hds, howner, hpath, hclear⟩ := ih (hplug ▸ h) (hplug ▸ hn) hd
        refine ⟨l :: c', cs', ?_, ?_, ?_, ?_⟩
        · rw [Context.plug_cons, ← hds]
          rfl
        · rw [← howner, List.append_assoc]
          rfl
        · rw [Context.path, List.map_cons, ← hpath, ← hname]
          rfl
        · rw [Context.clear_cons, first?_eq_none_iff]
          exact ⟨hname ▸ hxs, hclear⟩

theorem containerFor?_eq_some (h : i.Mirrors cs) (hn : (Forest.ids cs).Nodup)
    (hd : i.containerFor? path = some o) :
    ∃ c cs', cs = Context.plug c cs' ∧ c.owner = o ∧ c.path = path ∧ c.Clear :=
  descend?_eq_some (c := []) h hn hd

end Index

namespace Context

theorem Clear.leads {c : Context} (h : c.Clear) : c.Leads true := by
  induction c with
  | nil => rfl
  | cons l c ih =>
    obtain ⟨hbefore, hc⟩ := clear_cons.1 h
    rw [Leads, hbefore]
    exact ih hc

/-- A chain of containers: none has siblings or a directive. -/
def Chain (c : Context) : Prop :=
  ∀ l ∈ c, l.before = [] ∧ l.after = [] ∧ Directive.winner? l.header.annotations = none

end Context

namespace Forest
variable {moved : String → Prop} {c chain : Context} {cs layer : Forest} {d x : Decl}

theorem Sound.of_plug (h : Sound moved (c.plug cs)) (hc : c.Clear) : Sound moved cs := by
  induction c with
  | nil => exact h
  | cons l c ih =>
    obtain ⟨hbefore, hc⟩ := Context.clear_cons.1 hc
    rw [first?_eq_none_iff, ← homonyms_eq_nil] at hbefore
    exact ih (h.children_first hbefore) hc

/-- A container that no directive speaks of is taken in by the first declaration of its name, if
this is a container too. -/
theorem settled_absorbed {xs ys : Forest} (fresh : Bool)
    (hw : Directive.winner? d.annotations = none) (hd : d.isContainer = true)
    (hcut : cut? d.key cs = some (xs, x, ys)) (hx : x.isContainer = true) :
    settled true fresh d cs = .into xs (absorbTrailing d.trailing x) ys false := by
  simp [settled, resolved?, hw, hcut, hd, hx, Option.filter]

theorem addTrailing_nil (own : List String) : addTrailing own [] = own := rfl

/-- The container that a path names takes in a plain one of its name, children and all. -/
theorem merged_shell {l : Shell} (hfirst : first? l.before ⟨l.header.name, false⟩ = none)
    (hw : Directive.winner? d.annotations = none) (hd : d.isContainer = true)
    (hkey : d.key = ⟨l.header.name, false⟩) :
    merged true false (l.plug cs) [d] =
      { l with trailing := addTrailing l.trailing d.trailing }.plug
        (merged true false cs d.children) := by
  let x : Decl := .container l.kind l.header cs l.trailing
  have hbefore : homonyms ⟨l.header.name, false⟩ l.before = [] :=
    homonyms_eq_nil.2 (first?_eq_none_iff.1 hfirst)
  have hcut : cut? d.key (l.plug cs) = some (l.before, x, l.after) :=
    hkey ▸ cut?_middle hbefore rfl l.after
  have hall : l.before.all (·.key != (absorbTrailing d.trailing x).key) = true := by
    rw [all_key_ne]
    exact List.isEmpty_iff.2 hbefore
  rw [merged_cons, merged_nil, settled_absorbed false hw hd hcut rfl, completed, hall]
  rfl

/-- A chain that is merged along a clear way changes what stands at the end of it, and nothing but
trailing comments around it. -/
theorem merged_chain (cs layer : Forest) (hc : c.Clear) (hchain : chain.Chain)
    (hpath : chain.path = c.path) (next : Nat) : ∃ c' next',
      merged true false (c.plug cs) (number next (chain.plug layer)).1 =
        c'.plug (merged true false cs (number next' layer).1) ∧
      c'.Clear ∧ c'.path = c.path ∧ (∀ o, Context.ownerFrom o c' = Context.ownerFrom o c) ∧
      ((∀ l ∈ chain, l.trailing = []) → c' = c) := by
  induction c generalizing chain next with
  | nil =>
    obtain rfl : chain = [] := List.map_eq_nil_iff.1 hpath
    exact ⟨[], next, rfl, hc, rfl, fun _ => rfl, fun _ => rfl⟩
  | cons l c ih =>
    -- The outermost container of the chain meets the one that the way begins with.
    obtain ⟨m, rest, rfl, hname, hrest⟩ := List.map_eq_cons_iff.1 hpath
    obtain ⟨⟨hbefore, hafter, hw⟩, hchain⟩ := List.forall_mem_cons.1 hchain
    obtain ⟨hfirst, hclear⟩ := Context.clear_cons.1 hc
    obtain ⟨c', next', hmerged, hc', hpath', howner, hsame⟩ := ih hclear hchain hrest (next + 1)
    let d : Decl := .container m.kind m.header (Context.plug rest layer) m.trailing
    have hlayer : (number next (Context.plug (m :: rest) layer)).1 = [numbered next d] := by
      rw [Context.plug_cons, Shell.plug, hbefore, hafter, List.nil_append, number_cons, number]
    have hkey : (numbered next d).key = ⟨l.header.name, false⟩ :=
      congrArg (Key.mk · false) hname
    refine ⟨{ l with trailing := addTrailing l.trailing m.trailing } :: c', next', ?_, ?_, ?_,
      fun o => howner _, fun hnone => ?_⟩
    · rw [hlayer, Context.plug_cons, merged_shell (d := numbered next d) hfirst hw rfl hkey,
        children_numbered, Context.plug_cons, ← hmerged]
      rfl
    · exact Context.clear_cons.2 ⟨hfirst, hc'⟩
    · exact congrArg (l.header.name :: ·) hpath'
    · obtain ⟨hm, hnone⟩ := List.forall_mem_cons.1 hnone
      rw [hsame hnone, hm, addTrailing_nil]

end Forest

namespace Engine

/-- A chain of containers without directives, merged along a path that the index resolves, makes of
the children at its end what the layer in the chain makes of them where they are a forest of their
own. Around them it changes at most trailing comments. -/
theorem mergeLayer_chain (layers : List Forest) {path : List String} {o : Owner}
    (ho : (afterLayers layers).index.containerFor? path = some o) {chain : Context}
    (hchain : chain.Chain) (hpath : chain.path = path) (layer : Forest) :
    let e := afterLayers layers
    let below := e.mergeLayer (chain.plug layer)
    let apart := (ofForest (e.tree.childrenOf o) false).mergeLayer layer
    below.1 = none ∧ apart.1 = none ∧ below.2.index.containerFor? path = some o ∧
      (below.2.tree.childrenOf o).anonymous = apart.2.tree.anonymous ∧
      ((∀ l ∈ chain, l.trailing = []) →
        below.2.tree = e.tree.updateChildren o fun _ => below.2.tree.childrenOf o) := by
  have hcoherent := coherent_afterLayers layers
  intro e below apart
  obtain ⟨c, cs, htree, rfl, rfl, hclear⟩ :=
    Index.containerFor?_eq_some hcoherent.mirrors hcoherent.nodup ho
  obtain ⟨hfault, hbelow, hmerged⟩ := hcoherent.mergeLayer (chain.plug layer)
  obtain ⟨c', next, hchain, hclear', hpath', howner, hsame⟩ :=
    merged_chain cs layer hclear hchain hpath e.next
  have hat : e.At c cs := ⟨htree, hcoherent.mirrors, hcoherent.nodup⟩
  have hat' : below.2.At c' (merged true false cs (number next layer).1) :=
    ⟨by rw [hmerged, htree, hchain], hbelow.mirrors, hbelow.nodup⟩
  have howner' : c'.owner = c.owner := howner .root
  have hchildren' :
      below.2.tree.childrenOf c.owner = merged true false cs (number next layer).1 :=
    howner' ▸ hat'.childrenOf
  -- The children of the owner are as sound as the tree, so they can be a tree of their own.
  have hsound : Sound (fun _ => True) cs := (htree ▸ hcoherent.sound).of_plug hclear
  obtain ⟨hfault', -, hapart⟩ := Coherent.mergeLayer (coherentFor_ofForest hsound) layer
  have hforest : apart = (ofForest cs false).mergeLayer layer :=
    congrArg (fun f => (ofForest f false).mergeLayer layer) hat.childrenOf
  have hstart : (ofForest cs false).tree.anonymous = cs.anonymous := anonymous_number 1 cs
  refine ⟨hfault, hforest ▸ hfault', ?_, ?_, fun hnone => ?_⟩
  · have hfound := Index.containerFor?_path hat'.mirrors_plug hat'.nodup_plug hclear'.leads
    rw [hpath', howner'] at hfound
    exact hfound
  · rw [hchildren', hforest, hapart, anonymous_merged, anonymous_merged, anonymous_number,
      anonymous_number, hstart]
  · rw [hchildren', hat.updateChildren, hat'.tree, hsame hnone]

/-- A class two levels down is replaced, and another one is put before it. -/
theorem mergeLayer_chain_nested :
    let old : Decl := .container .classDecl { name := "C", location := some ⟨3, 4⟩ } [] []
    let inner : Decl := .container .classDecl { name := "B" } [old] []
    let outer : Decl := .container .classDecl { name := "A" } [inner] []
    let new : Decl := .container .moduleDecl
      { name := "C", annotations := [⟨"patch:override", ""⟩] } [] []
    let first : Decl := .container .classDecl
      { name := "D", annotations := [⟨"patch:prepend_before(C)", ""⟩] } [] []
    let chain : Context := [⟨[], .classDecl, { name := "A" }, [], []⟩,
      ⟨[], .classDecl, { name := "B" }, [], []⟩]
    let e := afterLayers [[outer]]
    let below := e.mergeLayer (chain.plug [new, first])
    let apart := (ofForest (e.tree.childrenOf (.container 2)) false).mergeLayer [new, first]
    e.index.containerFor? ["A", "B"] = some (.container 2) ∧ chain.Chain ∧ chain.path = ["A", "B"] ∧
      below.2.tree.map Decl.name = ["A"] ∧ apart.2.tree.map Decl.name = ["D", "C"] ∧
      below.1 = none ∧ apart.1 = none ∧
      below.2.index.containerFor? ["A", "B"] = some (.container 2) ∧
      (below.2.tree.childrenOf (.container 2)).anonymous = apart.2.tree.anonymous ∧
      ((∀ l ∈ chain, l.trailing = []) → below.2.tree =
        e.tree.updateChildren (.container 2) fun _ => below.2.tree.childrenOf (.container 2)) := by
  intro old inner outer new first chain e below apart
  have hfound : e.index.containerFor? ["A", "B"] = some (.container 2) := by
    simp only [e, outer, inner, old]
    cbv
  have hchain : chain.Chain := by
    simp [Context.Chain, chain, Directive.winner?, Directive.choose]
  have hnames : below.2.tree.map Decl.name = ["A"] ∧ apart.2.tree.map Decl.name = ["D", "C"] := by
    simp only [below, apart, chain, first, new, e, outer, inner, old]
    constructor <;> cbv
  exact ⟨hfound, hchain, rfl, hnames.1, hnames.2,
    mergeLayer_chain [[outer]] hfound hchain rfl [new, first]⟩

end Engine
end SignatureLayers
