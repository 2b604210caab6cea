import SignatureLayers.Proofs.Replacement

namespace SignatureLayers

namespace Context

theorem clear_concat {c : Context} {l : Shell} :
    Clear (c ++ [l]) ↔ c.Clear ∧ ∀ d ∈ l.before, d.key ≠ ⟨l.header.name, false⟩ := by
  unfold Clear
  rw [List.forall_mem_append, List.forall_mem_singleton]

end Context

namespace Forest
variable {q : Decl → Prop} {P : Forest → Prop} {c : Context} {fresh : Bool}
  {d : Decl} {cs cs' layer : Forest} {out : Outcome}

/-- The tree keeps `P` when a declaration with `q` is settled among the children of any owner. -/
def Steady (q : Decl → Prop) (P : Forest → Prop) : Prop :=
  ∀ {c : Context} {fresh : Bool} {d : Decl} {cs : Forest}, q d → P (c.plug cs) →
    P (c.plug (settled (decide c.Clear) fresh d cs).children)

theorem Steady.completed {ds : Forest}
    (ih : ∀ {c : Context} {fresh : Bool} {cs : Forest}, P (c.plug cs) →
      P (c.plug (merged (decide c.Clear) fresh cs ds)))
    (h : P (c.plug out.children)) : P (c.plug (completed (decide c.Clear) ds out)) := by
  cases out with
  | done cs => exact h
  | into xs x ys fresh =>
    cases x with
    | leaf | member => exact h
    | container k header cs t =>
      let l : Shell := ⟨xs, k, header, t, ys⟩
      have hplug (cs : Forest) : Context.plug (c ++ [l]) cs = c.plug (l.plug cs) :=
        Context.plug_append ..
      have hinner : P (Context.plug (c ++ [l])
          (merged (decide (Context.Clear (c ++ [l]))) fresh cs ds)) := ih (hplug cs ▸ h)
      have hclear : decide (Context.Clear (c ++ [l])) =
          (decide c.Clear && xs.all (·.key != ⟨header.name, false⟩)) := by
        rw [Bool.eq_iff_iff]
        simp [Context.clear_concat, l]
      rw [hplug, hclear] at hinner
      exact hinner

theorem Steady.merged (h : Steady q P) (hlayer : ∀ d ∈ layer.preorder, q d) (hP : P (c.plug cs)) :
    P (c.plug (merged (decide c.Clear) fresh cs layer)) := by
  induction layer using Forest.induct generalizing c cs fresh with
  | nil =>
    rw [merged_nil]
    exact hP
  | cons d rest inner tail =>
    rw [preorder_cons, List.forall_mem_cons, List.forall_mem_append] at hlayer
    obtain ⟨hd, hbelow, hrest⟩ := hlayer
    rw [merged_cons]
    exact tail hrest (Steady.completed (inner hbelow) (h hd hP))

/-- Wherever a merge has got to in a layer, the tree has kept what each settling keeps. -/
theorem Steady.calls {moved : String → Prop} {e : Engine} {o : Owner} {call : Merge.Call}
    (h : Steady q P) (hcall : Merge.Calls o fresh layer e call) {known : Bool}
    (ho : c.owner = o) (hready : Merge.Ready moved e c known cs layer)
    (hlayer : ∀ d ∈ layer.preorder, q d) (hP : P e.tree) :
    P call.engine.tree ∧ q call.decl := by
  induction hcall generalizing c known cs with
  | first o fresh d rest e =>
    rw [preorder_cons, List.forall_mem_cons] at hlayer
    exact ⟨hP, hlayer.1⟩
  | @inside o fresh d rest e e₁ into call hd hcall ih =>
    subst ho
    rw [preorder_cons, List.forall_mem_cons, List.forall_mem_append] at hlayer
    obtain ⟨hq, hbelow, -⟩ := hlayer
    obtain ⟨e', hrun, hat, -, hsync⟩ := hready.yields_settle fresh
    obtain ⟨hinto, rfl⟩ := EStateM.Result.ok.inj (hrun.symm.trans hd)
    have hP₁ : P e'.tree := by
      rw [hat.tree, hready.leads.eq_clear]
      exact h hq (hready.here.tree ▸ hP)
    have hsettled := settled_cases known fresh d cs
    generalize hout : settled known fresh d cs = out at hat hinto hsettled
    cases out with
    | done => cases hinto
    | into xs x ys fresh' =>
      cases hinto
      by_cases hcontainer : d.isContainer = true
      · have hx := hsettled.isContainer hcontainer
        cases x with
        | leaf | member => cases hx
        | container k header cs' t =>
          exact ih (Context.owner_concat ..)
            (hready.below hcontainer hout hat (hsync.trans hready.unsynced)) hbelow hP₁
      · rw [Decl.children_eq_nil (by simpa using hcontainer)] at hcall
        cases hcall
  | @behind o fresh d rest e e₁ call hd hcall ih =>
    subst ho
    rw [preorder_cons, List.forall_mem_cons, List.forall_mem_append] at hlayer
    obtain ⟨hq, hbelow, hrest⟩ := hlayer
    have hrun := (hready.yields_settle fresh).bind fun e₁ h₁ hsync₁ =>
      Merge.reaches_mergeInto hready h₁ (hsync₁.trans hready.unsynced) fun fresh _ _ _ _ =>
        Merge.reaches_mergeAll fresh
    obtain ⟨e', hrun, hat, -, hsync⟩ := hrun
    obtain ⟨-, rfl⟩ := EStateM.Result.ok.inj (hrun.symm.trans hd)
    refine ih rfl (hready.later hat (hsync.trans hready.unsynced)) hrest ?_
    rw [hat.tree, hready.leads.eq_clear]
    exact Steady.completed (h.merged hbelow) (h hq (hready.here.tree ▸ hP))

/-- A tree stays sound when the children of an owner are exchanged for others, as long as these are
sound where the way to the owner is clear. -/
theorem Sound.plug {moved : String → Prop} (h : Sound moved (c.plug cs))
    (hcs : c.Clear → Sound moved cs') : Sound moved (c.plug cs') := by
  induction c with
  | nil => exact hcs (List.forall_mem_nil _)
  | cons l c ih =>
    rw [Context.plug_cons, Shell.plug] at h ⊢
    refine h.change rfl rfl fun hbefore => ih (h.children_first hbefore) fun hclear => hcs ?_
    exact Context.clear_cons.2
      ⟨first?_eq_none_iff.2 (homonyms_eq_nil.1 hbefore), hclear⟩

theorem steady_sound : Steady (fun _ => True) (Sound fun _ => True) := by
  intro c fresh d cs _ h
  refine h.plug fun hclear => ?_
  rw [decide_eq_true hclear]
  exact (settled_cases true fresh d cs).sound (fun _ => trivial) (h.of_plug hclear)

end Forest

theorem Engine.Reached.sound {e : Engine} (h : e.Reached) : e.tree.Sound fun _ => True := by
  cases h with
  | between layers => exact (coherent_afterLayers layers).sound
  | @within layers layer call h =>
    have hcoherent := coherent_afterLayers layers
    have hstart := hcoherent.ready layer fun _ _ _ => trivial
    exact (Forest.steady_sound.calls h Context.owner_nil hstart (fun _ _ => trivial)
      hcoherent.sound).1

end SignatureLayers
