import SignatureLayers.Proofs.Resolution
import SignatureLayers.Proofs.RoundTrip

namespace SignatureLayers

open Forest
open Merge (addTrailing absorbTrailing)

/-- A declaration that is read back whatever follows it. -/
structure Decl.Secure (d : Decl) : Prop where
  readable : d.Readable
  comma : ¬ d.EndsInComma
  closable : d.isContainer = true → ¬ d.EndsInEnd

def Forest.Secure (f : Forest) : Prop := ∀ d ∈ f.preorder, d.Secure

namespace Decl
variable {d d' : Decl}

theorem restates_withLocation (d : Decl) (location : Option Location) :
    d.Restates (d.withLocation location) := by
  cases d with
  | container | member => exact ⟨rfl, List.Subset.refl _, rfl, rfl, rfl, rfl⟩
  | leaf k h => cases k <;> exact ⟨rfl, List.Subset.refl _, rfl, rfl, rfl, rfl⟩

theorem restates_absorbTrailing (more : List String) (d : Decl) :
    d.Restates (absorbTrailing more d) := by
  cases d <;> exact ⟨rfl, List.Subset.refl _, rfl, rfl, rfl, rfl⟩

theorem restates_mapChildren (f : List Decl → List Decl) (d : Decl) :
    d.Restates (d.mapChildren f) := by
  cases d <;> exact ⟨rfl, List.Subset.refl _, rfl, rfl, rfl, rfl⟩

theorem PutAs.restates (h : d.PutAs d') : d.Restates d' := by
  obtain ⟨location, annotations, hsub, rfl⟩ := h
  cases d with
  | container | member => exact ⟨rfl, hsub.subset, rfl, rfl, rfl, rfl⟩
  | leaf k h => cases k <;> exact ⟨rfl, hsub.subset, rfl, rfl, rfl, rfl⟩

theorem PutAs.trailing (h : d.PutAs d') : d'.trailing = d.trailing := by
  obtain ⟨location, annotations, hsub, rfl⟩ := h
  cases d <;> rfl

theorem isContainer_of_kind (h : d'.kind = d.kind) : d'.isContainer = d.isContainer := by
  cases d <;> cases d' <;> first | rfl | cases h

theorem Restates.lastLine (h : d.Restates d') : d'.lastLine = d.lastLine := by
  rw [Decl.lastLine, h.text, Decl.lastLine]

theorem Secure.restated (h : d.Secure) (hr : d.Restates d')
    (htrailing : ∀ c ∈ d'.trailing, Remark c.toList)
    (hclauses : ∀ c ∈ d'.children, c.kind ≠ .leaf .useClause) : d'.Secure where
  readable := ⟨h.readable.legible.restated hr htrailing, hclauses⟩
  comma := by
    rw [EndsInComma, hr.lastLine]
    exact h.comma
  closable hc := by
    rw [isContainer_of_kind hr.kind] at hc
    unfold EndsInEnd
    rw [hr.lastLine]
    exact h.closable hc

end Decl

namespace Forest
variable {known fresh : Bool} {d : Decl} {cs xs ys layer : Forest} {out : Outcome}

theorem secure_nil : Secure [] := by
  unfold Secure
  rw [preorder_nil]
  exact List.forall_mem_nil _

theorem secure_cons : Secure (d :: cs) ↔ d.Secure ∧ Secure d.children ∧ Secure cs := by
  unfold Secure
  rw [preorder_cons, List.forall_mem_cons, List.forall_mem_append]

theorem secure_append : Secure (xs ++ ys) ↔ Secure xs ∧ Secure ys := by
  unfold Secure
  rw [preorder_append, List.forall_mem_append]

theorem secure_iff : Secure cs ↔ ∀ d ∈ cs, d.Secure ∧ Secure d.children := by
  induction cs with
  | nil => exact ⟨fun _ => List.forall_mem_nil _, fun _ => secure_nil⟩
  | cons d rest ih => rw [secure_cons, ih, List.forall_mem_cons, and_assoc]

theorem map_kind_completed (known : Bool) (ds : Forest) (out : Outcome) :
    (completed known ds out).map Decl.kind = out.children.map Decl.kind := by
  cases out with
  | done => rfl
  | into xs x ys fresh => simp [completed, Outcome.children]

theorem forall_kind_merged {p : Kind → Prop} (hcs : ∀ e ∈ cs, p e.kind)
    (hlayer : ∀ e ∈ layer, p e.kind) : ∀ e ∈ merged known fresh cs layer, p e.kind := by
  induction layer generalizing cs with
  | nil =>
    rw [merged_nil]
    exact hcs
  | cons d rest ih =>
    rw [merged_cons]
    obtain ⟨hd, hrest⟩ := List.forall_mem_cons.1 hlayer
    have hsettled : ∀ e ∈ (settled known fresh d cs).children, p e.kind := by
      refine (settled_cases known fresh d cs).forall hcs (fun d' hput => ?_) (fun x l hx => ?_)
        fun x hx => ?_
      · rw [hput.kind]
        exact hd
      · rw [(x.restates_withLocation l).kind]
        exact hx
      · rw [(x.restates_absorbTrailing d.trailing).kind]
        exact hx
    refine ih (fun e he => ?_) hrest
    have hkind := List.mem_map_of_mem (f := Decl.kind) he
    rw [map_kind_completed] at hkind
    obtain ⟨e', he', hsame⟩ := List.mem_map.1 hkind
    rw [← hsame]
    exact hsettled e' he'

theorem mem_addTrailing {own more : List String} {c : String} (h : c ∈ addTrailing own more) :
    c ∈ own ∨ c ∈ more := by
  induction more generalizing own with
  | nil => exact .inl h
  | cons m more ih =>
    have hstep : c ∈ addTrailing (if m ∈ own then own else own ++ [m]) more := h
    rcases ih hstep with h | h
    · split at h
      · exact .inl h
      · rcases List.mem_append.1 h with h | h
        · exact .inl h
        · exact .inr (List.mem_cons.2 (.inl (List.mem_singleton.1 h)))
    · exact .inr (List.mem_cons_of_mem _ h)

theorem Settlement.secure (h : Settlement known d cs out) (hcs : Secure cs) (hd : d.Secure) :
    Secure out.children := by
  rw [secure_iff] at hcs ⊢
  refine h.forall hcs (fun d' hput => ?_) (fun x l hx => ?_) fun x hx => ?_
  · rw [hput.children]
    refine ⟨hd.restated hput.restates (fun c hc => ?_)
        (by rw [hput.children]; exact List.forall_mem_nil _),
      secure_nil⟩
    rw [hput.trailing] at hc
    exact hd.readable.legible.trailing c hc
  · have hchildren : (x.withLocation l).children = x.children := x.children_mapHeader _
    rw [hchildren]
    refine ⟨hx.1.restated (x.restates_withLocation l) ?_ ?_, hx.2⟩
    · cases x with
      | container => exact hx.1.readable.legible.trailing
      | leaf | member => exact List.forall_mem_nil _
    · rw [hchildren]
      exact hx.1.readable.clauses
  · have hchildren := (x.alike_absorbTrailing d.trailing).children
    rw [hchildren]
    refine ⟨hx.1.restated (x.restates_absorbTrailing _) (fun c hc => ?_) ?_, hx.2⟩
    · cases x with
      | container k header cs' t =>
        rcases mem_addTrailing hc with hc | hc
        · exact hx.1.readable.legible.trailing c hc
        · exact hd.readable.legible.trailing c hc
      | leaf | member => cases hc
    · rw [hchildren]
      exact hx.1.readable.clauses

/-- What is merged into siblings that are read back is read back. -/
theorem secure_merged (hcs : Secure cs) (hlayer : Secure layer) :
    Secure (merged known fresh cs layer) := by
  induction layer using Forest.induct generalizing known fresh cs with
  | nil =>
    rw [merged_nil]
    exact hcs
  | cons d rest inner tail =>
    rw [merged_cons]
    obtain ⟨hd, hinner, hrest⟩ := secure_cons.1 hlayer
    have hsettled := (settled_cases known fresh d cs).secure hcs hd
    refine tail ?_ hrest
    generalize settled known fresh d cs = out at hsettled
    cases out with
    | done cs' => exact hsettled
    | into xs x ys fresh' =>
      rw [Outcome.children, secure_append, secure_cons] at hsettled
      obtain ⟨hxs, hx, hbelow, hys⟩ := hsettled
      rw [completed, secure_append, secure_cons]
      refine ⟨hxs, ?_⟩
      cases x with
      | leaf | member => exact ⟨hx, hbelow, hys⟩
      | container k h cs' t =>
        -- Neither the children there are nor those that come are use clauses, so none is in the end.
        let known' := known && xs.all (·.key != (Decl.container k h cs' t).key)
        have hmerged : Secure (merged known' fresh' cs' d.children) := inner hbelow hinner
        have hclauses : ∀ e ∈ merged known' fresh' cs' d.children, e.kind ≠ .leaf .useClause :=
          forall_kind_merged (p := (· ≠ .leaf .useClause)) hx.readable.clauses hd.readable.clauses
        exact ⟨hx.restated (Decl.restates_mapChildren _ _) hx.readable.legible.trailing hclauses,
          hmerged, hys⟩

end Forest
end SignatureLayers
