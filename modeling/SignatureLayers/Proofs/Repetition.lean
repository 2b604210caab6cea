import SignatureLayers.Proofs.Frame
import SignatureLayers.Proofs.Independence

namespace SignatureLayers

open Forest
open Merge (absorbTrailing addTrailing)

namespace Forest
variable {key : Key} {f : Decl → Option Decl} {cs layer : Forest} {d : Decl}

/-- An edit that takes the later siblings of its key out leaves at most one. It changes nothing
more if it leaves alone what it makes. -/
theorem editKey_twice (hf : Keyed key f) (hsame : ∀ x, ∀ y ∈ f x, f y = some y) (cs : Forest) :
    editKey key f false (editKey key f false cs) = editKey key f false cs := by
  induction cs with
  | nil => rfl
  | cons d rest ih =>
    by_cases hd : d.key = key
    · have hout : editKey key f false (d :: rest) =
          (f d).toList ++ rest.filter (·.key != key) := by
        rw [editKey, if_pos hd, if_neg Bool.false_ne_true]
      have hrest : ∀ u ∈ rest.filter (·.key != key), u.key ≠ key := fun u hu =>
        bne_iff_ne.1 (List.mem_filter.1 hu).2
      have hkept : (rest.filter (·.key != key)).filter (·.key != key) =
          rest.filter (·.key != key) :=
        List.filter_eq_self.2 fun u hu => bne_iff_ne.2 (hrest u hu)
      rw [hout]
      cases hfd : f d with
      | none => exact editKey_of_none f false (cut?_eq_none.2 (homonyms_eq_nil.2 hrest))
      | some y =>
        have hy : y.key = key := hf d hd y (by simp [hfd])
        show editKey key f false (y :: rest.filter (·.key != key)) = _
        rw [editKey, if_pos hy, hsame d y hfd, if_neg Bool.false_ne_true, hkept]
    · rw [editKey, if_neg hd, editKey, if_neg hd, ih]

theorem revision?_twice (hd : d.Removes) :
    ∀ x, ∀ y ∈ revision? d x, revision? d y = some y := by
  obtain ⟨token, directive, hw, rfl | rfl⟩ := hd
  · intro x y hy
    simp only [revision?, hw, Option.mem_def, Option.some.injEq] at hy ⊢
    subst hy
    cases d <;> rfl
  · intro x y hy
    simp [revision?, hw] at hy

/-- An override or a deletion that comes a second time changes nothing. -/
theorem merged_twice (cs : Forest) (hd : d.Removes) :
    merged true false (merged true false cs [d]) [d] = merged true false cs [d] := by
  have hkeep : (Directive.winner? d.annotations).isNone = false := by
    obtain ⟨token, directive, hw, -⟩ := hd
    rw [hw]
    rfl
  rw [merged_removes false cs hd, merged_removes false _ hd, revised, revised, hkeep]
  exact editKey_twice (keyed_revision? d) (revision?_twice hd) cs

theorem addTrailing_cons (own : List String) (c : String) (more : List String) :
    addTrailing own (c :: more) =
      addTrailing (if c ∈ own then own else own ++ [c]) more := rfl

theorem addTrailing_of_subset {own more : List String} (h : more ⊆ own) :
    addTrailing own more = own := by
  induction more with
  | nil => rfl
  | cons c more ih =>
    obtain ⟨hc, hmore⟩ := List.cons_subset.1 h
    rw [addTrailing_cons, if_pos hc, ih hmore]

theorem subset_addTrailing (own more : List String) : more ⊆ addTrailing own more := by
  induction more generalizing own with
  | nil => exact List.nil_subset _
  | cons c more ih =>
    rw [addTrailing_cons]
    refine List.cons_subset.2 ⟨(prefix_addTrailing _ more).subset ?_, ih _⟩
    split
    · assumption
    · exact List.mem_append_right _ List.mem_cons_self

theorem addTrailing_twice (own more : List String) :
    addTrailing (addTrailing own more) more = addTrailing own more :=
  addTrailing_of_subset (subset_addTrailing own more)

/-- What leaves the end of a clear way alone the second time leaves all around it alone, too, when
it comes in a chain of containers. -/
theorem merged_chain_twice {c chain : Context} (hc : c.Clear) (hchain : chain.Chain)
    (hpath : chain.path = c.path) (cs : Forest)
    (hlayer : merged true false (merged true false cs layer) layer = merged true false cs layer) :
    merged true false (merged true false (c.plug cs) (chain.plug layer)) (chain.plug layer) =
      merged true false (c.plug cs) (chain.plug layer) := by
  induction c generalizing chain with
  | nil =>
    obtain rfl : chain = [] := List.map_eq_nil_iff.1 hpath
    exact hlayer
  | cons l c ih =>
    obtain ⟨m, rest, rfl, hname, hrest⟩ := List.map_eq_cons_iff.1 hpath
    obtain ⟨⟨hbefore, hafter, hw⟩, hchain⟩ := List.forall_mem_cons.1 hchain
    obtain ⟨hfirst, hclear⟩ := Context.clear_cons.1 hc
    let d : Decl := .container m.kind m.header (Context.plug rest layer) m.trailing
    have hplug : Context.plug (m :: rest) layer = [d] := by
      rw [Context.plug_cons, Shell.plug, hbefore, hafter, List.nil_append]
    have hshell (trailing : List String) (cs : Forest) :
        merged true false ({ l with trailing }.plug cs) [d] =
          { l with trailing := addTrailing trailing m.trailing }.plug
            (merged true false cs (Context.plug rest layer)) :=
      merged_shell (l := { l with trailing }) hfirst hw rfl (congrArg (Key.mk · false) hname)
    rw [hplug, Context.plug_cons, hshell l.trailing, hshell, addTrailing_twice,
      ih hclear hchain hrest]

theorem merged_append (known fresh : Bool) (cs first second : Forest) :
    merged known fresh cs (first ++ second) =
      merged known fresh (merged known fresh cs first) second := by
  induction first generalizing cs with
  | nil => rw [List.nil_append, merged_nil]
  | cons d rest ih => rw [List.cons_append, merged_cons, merged_cons, ih]

end Forest

namespace Engine

/-- A layer that ends in an override or a deletion, and leads there through containers that the
index resolves, makes the same of a tree when it is merged once and when it is merged twice, be it
as two layers or with both copies in one. -/
theorem mergeLayer_twice (layers : List Forest) {path : List String} {o : Owner}
    (ho : (afterLayers layers).index.containerFor? path = some o) {chain : Context}
    (hchain : chain.Chain) (hpath : chain.path = path) {d : Decl} (hd : d.Removes) :
    let e := afterLayers layers
    let layer := chain.plug [d]
    let once := e.mergeLayer layer
    let twice := once.2.mergeLayer layer
    let doubled := e.mergeLayer (layer ++ layer)
    once.1 = none ∧ twice.1 = none ∧ doubled.1 = none ∧
      twice.2.tree.anonymous = once.2.tree.anonymous ∧
        doubled.2.tree.anonymous = once.2.tree.anonymous := by
  have hcoherent := coherent_afterLayers layers
  intro e layer once twice doubled
  obtain ⟨c, cs, htree, rfl, rfl, hclear⟩ :=
    Index.containerFor?_eq_some hcoherent.mirrors hcoherent.nodup ho
  obtain ⟨hfault, honce, hmerged⟩ := hcoherent.mergeLayer layer
  obtain ⟨hfault', -, hmerged'⟩ := honce.mergeLayer layer
  obtain ⟨hfault'', -, hmerged''⟩ := hcoherent.mergeLayer (layer ++ layer)
  have hsame : merged true false (merged true false e.tree layer) layer =
      merged true false e.tree layer := by
    rw [htree]
    exact merged_chain_twice hclear hchain hpath cs (merged_twice cs hd)
  -- Without identities it is all one which numbers the copies get.
  refine ⟨hfault, hfault', hfault'', ?_, ?_⟩
  · rw [hmerged', hmerged]
    simp only [anonymous_merged, anonymous_number]
    rw [← anonymous_merged, ← anonymous_merged, hsame]
  · rw [hmerged'', hmerged]
    simp only [anonymous_merged, anonymous_number]
    rw [← anonymous_merged, merged_append, hsame, anonymous_merged]

/-- A class inside another one is replaced, and the new one orders its own children by a
directive. -/
theorem mergeLayer_twice_inside :
    let decl (name : String) (annotations : List Annot) (children : Forest) : Decl :=
      .container .classDecl { name, annotations } children []
    let base := [decl "A" [] [decl "C" [] [decl "X" [] []], decl "B" [] []]]
    let chain : Context := [⟨[], .classDecl, { name := "A" }, ["# end"], []⟩]
    let new := decl "C" [⟨"patch:override", ""⟩]
      [decl "D" [] [], decl "E" [⟨"patch:prepend_before(D)", ""⟩] []]
    let e := afterLayers [base]
    let layer := chain.plug [new]
    let once := e.mergeLayer layer
    let twice := once.2.mergeLayer layer
    let doubled := e.mergeLayer (layer ++ layer)
    e.index.containerFor? ["A"] = some (.container 1) ∧ chain.Chain ∧ chain.path = ["A"] ∧
      new.Removes ∧ e.tree.preorder.map Decl.name = ["A", "C", "X", "B"] ∧
      once.2.tree.preorder.map Decl.name = ["A", "C", "E", "D", "B"] ∧
      once.1 = none ∧ twice.1 = none ∧ doubled.1 = none ∧
        twice.2.tree.anonymous = once.2.tree.anonymous ∧
          doubled.2.tree.anonymous = once.2.tree.anonymous := by
  intro decl base chain new e layer once twice doubled
  have hfound : e.index.containerFor? ["A"] = some (.container 1) := by
    simp only [e, base, decl]
    cbv
  have hchain : chain.Chain := by
    simp [Context.Chain, chain, Directive.winner?, Directive.choose]
  have hnew : new.Removes := ⟨0, .override, by decide +kernel, .inl rfl⟩
  have hnames : e.tree.preorder.map Decl.name = ["A", "C", "X", "B"] ∧
      once.2.tree.preorder.map Decl.name = ["A", "C", "E", "D", "B"] := by
    simp only [once, layer, chain, new, e, base, decl]
    constructor <;> cbv
  exact ⟨hfound, hchain, rfl, hnew, hnames.1, hnames.2,
    mergeLayer_twice [base] hfound hchain rfl hnew⟩

end Engine
end SignatureLayers
