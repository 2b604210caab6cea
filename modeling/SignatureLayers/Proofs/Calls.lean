import Mathlib
import SignatureLayers.Grammar.Nesting
import SignatureLayers.Proofs.Coherence

namespace SignatureLayers

open Forest

namespace Merge

/-- A declaration that is settled among the children of `owner`, and the engine at that time. -/
structure Call where
  engine : Engine
  owner : Owner
  fresh : Bool
  decl : Decl

/-- The calls of `settle` while a layer is merged into the children of an owner. -/
inductive Calls : Owner → Bool → Forest → Engine → Call → Prop
  | first (o : Owner) (fresh : Bool) (d : Decl) (rest : Forest) (e : Engine) :
    Calls o fresh (d :: rest) e ⟨e, o, fresh, d⟩
  | inside {o : Owner} {fresh : Bool} {d : Decl} {rest : Forest} {e e₁ : Engine}
    {into : Destination} {call : Call} (hd : settle o fresh d e = .ok (some into) e₁)
    (h : Calls into.owner into.fresh d.children e₁ call) : Calls o fresh (d :: rest) e call
  | behind {o : Owner} {fresh : Bool} {d : Decl} {rest : Forest} {e e₁ : Engine} {call : Call}
    (hd : (settle o fresh d >>= mergeInto d.children) e = .ok () e₁)
    (h : Calls o fresh rest e₁ call) : Calls o fresh (d :: rest) e call

theorem mergeInto_nil (into : Option Destination) : mergeInto [] into = pure () := by
  cases into with
  | none => rfl
  | some into => rw [mergeInto, mergeAll_nil]

variable {moved : String → Prop} {o : Owner} {fresh : Bool} {d : Decl} {rest layer : Forest}
  {e e₁ : Engine} {call : Call}

theorem Calls.behind_leaf {into : Option Destination} (hd : d.isContainer = false)
    (hrun : settle o fresh d e = .ok into e₁) (h : Calls o fresh rest e₁ call) :
    Calls o fresh (d :: rest) e call := by
  refine .behind ?_ h
  rw [bind_apply hrun, Decl.children_eq_nil hd, mergeInto_nil]
  rfl

/-- Where a run has begun in order, all is in order for each of its calls. -/
theorem Calls.ready (h : Calls o fresh layer e call) {c : Context} {known : Bool} {cs : Forest}
    (ho : c.owner = o) (hready : Ready moved e c known cs layer) :
    ∃ c' known' cs' rest, c'.owner = call.owner ∧
      Ready moved call.engine c' known' cs' (call.decl :: rest) := by
  induction h generalizing c known cs with
  | first o fresh d rest e => exact ⟨c, known, cs, rest, ho, hready⟩
  | @inside o fresh d rest e e₁ into call hd h ih =>
    subst ho
    obtain ⟨e', hrun, hat, -, hsync⟩ := hready.yields_settle fresh
    obtain ⟨hinto, rfl⟩ := EStateM.Result.ok.inj (hrun.symm.trans hd)
    have hsettled := settled_cases known fresh d cs
    generalize hout : settled known fresh d cs = out at hat hinto hsettled
    cases out with
    | done => cases hinto
    | into xs x ys fresh' =>
      cases hinto
      by_cases hcontainer : d.isContainer = true
      · have hx := hsettled.isContainer hcontainer
        cases x with
        | leaf | member => cases hx
        | container k header cs' t =>
          exact ih (Context.owner_concat ..)
            (hready.below hcontainer hout hat (hsync.trans hready.unsynced))
      · -- What owns nothing has no children to be settled.
        rw [Decl.children_eq_nil (by simpa using hcontainer)] at h
        cases h
  | @behind o fresh d rest e e₁ call hd h ih =>
    subst ho
    have hsettle := hready.yields_settle fresh
    have hrun := hsettle.bind fun e₁ h₁ hsync₁ =>
      reaches_mergeInto hready h₁ (hsync₁.trans hready.unsynced) fun fresh _ _ _ _ =>
        reaches_mergeAll fresh
    obtain ⟨e', hrun, hat, -, hsync⟩ := hrun
    obtain ⟨-, rfl⟩ := EStateM.Result.ok.inj (hrun.symm.trans hd)
    exact ih rfl (hready.later hat (hsync.trans hready.unsynced))

/-- Whatever is settled finds the first child of its owner with its key, if the way to the owner is
clear, and nothing otherwise. -/
theorem existing?_of_calls (layers : List Forest) (layer : Forest)
    (h : Calls .root false (layer.number (Engine.afterLayers layers).next).1
      ((Engine.afterLayers layers).started layer) call) :
    let children := call.engine.tree.childrenOf call.owner
    call.engine.tree.ids.Nodup ∧ ∃ c : Context, c.owner = call.owner ∧
      call.engine.tree = c.plug children ∧
      existing? call.owner call.decl call.engine =
        .ok (if c.Clear then (first? children call.decl.key).map (⟨·, call.owner⟩) else none)
          call.engine := by
  have hstart := (Engine.coherent_afterLayers layers).ready layer fun _ _ _ => trivial
  obtain ⟨c, known, cs, rest, ho, hready⟩ := h.ready (Context.owner_nil) hstart
  have hchildren : call.engine.tree.childrenOf call.owner = cs := ho ▸ hready.here.childrenOf
  have hfound := existing?_apply (d := call.decl) hready.here hready.leads
  refine ⟨hready.here.nodup, c, ho, hchildren.symm ▸ hready.here.tree, ?_⟩
  rw [ho] at hfound
  rw [hfound, hready.leads.eq_clear, hchildren]
  by_cases hclear : c.Clear
  · simp only [resolved?, hclear, decide_true, ↓reduceIte, entryOf, ← map_cut?, Option.map_map]
    rfl
  · simp only [resolved?, hclear, decide_false, Bool.false_eq_true, ↓reduceIte, entryOf,
      Option.map_none]

/-- A class that is new to the tree is the owner that its own directives look into. -/
theorem existing?_of_calls_fresh :
    ∃ layer, parse "" "class A\n  B: T\n  %a\x7bpatch:delete\x7d\n  B: T\nend\n" = .ok layer ∧
      ∃ call, Calls .root false (layer.number (Engine.afterLayers []).next).1
          ((Engine.afterLayers []).started layer) call ∧
        existing? call.owner call.decl call.engine =
          .ok (some ⟨⟨2, false⟩, .container 1⟩) call.engine ∧
        let children := call.engine.tree.childrenOf call.owner
        call.engine.tree.ids.Nodup ∧ ∃ c : Context, c.owner = call.owner ∧
          call.engine.tree = c.plug children ∧
          existing? call.owner call.decl call.engine =
            .ok (if c.Clear then (first? children call.decl.key).map (⟨·, call.owner⟩) else none)
              call.engine := by
  let inner : Decl := .leaf .constant
    { name := "B"
      text := ["B: T"]
      location := some ⟨2, 2⟩ }
  let deletion : Decl := .leaf .constant
    { name := "B"
      text := ["B: T"]
      annotations := [⟨"patch:delete", "%a\x7bpatch:delete\x7d"⟩]
      location := some ⟨3, 4⟩ }
  let container : Decl := .container .classDecl
    { name := "A"
      text := ["class A"]
      location := some ⟨1, 5⟩ } [inner, deletion] []
  refine ⟨[container], by cbv, ?_⟩
  have hrun : ∃ call, Calls .root false (number (Engine.afterLayers []).next [container]).1
      ((Engine.afterLayers []).started [container]) call ∧
      existing? call.owner call.decl call.engine =
        .ok (some ⟨⟨2, false⟩, .container 1⟩) call.engine := by
    rw [number_cons]
    apply Exists.intro
    refine ⟨?run, ?lookup⟩
    case run =>
      apply Calls.inside
      · conv_lhs => cbv
      rw [children_numbered, Decl.children, number_cons, number_cons]
      apply Calls.behind_leaf rfl
      · conv_lhs => cbv
      apply Calls.first
    case lookup => cbv
  obtain ⟨call, hrun, hfound⟩ := hrun
  exact ⟨call, hrun, hfound, existing?_of_calls [] [container] hrun⟩

/-- A constant stands before the new class of its name, and a directive in the class finds nothing
there, though the class has what it speaks of. -/
theorem existing?_shadowed :
    ∃ layer, parse "" "A: T\nclass A\n  B: T\n  %a\x7bpatch:delete\x7d\n  B: T\nend\n" = .ok layer ∧
      ∃ call, Calls .root false (layer.number (Engine.afterLayers []).next).1
          ((Engine.afterLayers []).started layer) call ∧
        existing? call.owner call.decl call.engine = .ok none call.engine ∧
        ∃ d ∈ call.engine.tree.childrenOf call.owner, d.key = call.decl.key := by
  let outer : Decl := .leaf .constant
    { name := "A"
      text := ["A: T"]
      location := some ⟨1, 1⟩ }
  let inner : Decl := .leaf .constant
    { name := "B"
      text := ["B: T"]
      location := some ⟨3, 3⟩ }
  let deletion : Decl := .leaf .constant
    { name := "B"
      text := ["B: T"]
      annotations := [⟨"patch:delete", "%a\x7bpatch:delete\x7d"⟩]
      location := some ⟨4, 5⟩ }
  let container : Decl := .container .classDecl
    { name := "A"
      text := ["class A"]
      location := some ⟨2, 6⟩ } [inner, deletion] []
  refine ⟨[outer, container], by cbv, ?_⟩
  rw [number_cons, number_cons]
  apply Exists.intro
  refine ⟨?run, ?lookup, ?child⟩
  case run =>
    apply Calls.behind_leaf rfl
    · conv_lhs => cbv
    apply Calls.inside
    · conv_lhs => cbv
    rw [children_numbered, Decl.children, number_cons, number_cons]
    apply Calls.behind_leaf rfl
    · conv_lhs => cbv
    apply Calls.first
  case lookup => cbv
  case child => exact ⟨_, by cbv; exact List.mem_cons_self, by cbv⟩

end Merge
end SignatureLayers
