import Mathlib.Data.List.Basic
import SignatureLayers.Proofs.Identities
import SignatureLayers.Proofs.LocalMerge

namespace SignatureLayers

open Forest
open Merge (absorbTrailing usePosition variablePlace?)

namespace Decl
variable (d : Decl)

@[simp] theorem anonymous_hollow : d.hollow.anonymous = d.anonymous.hollow := by
  cases d <;> simp [anonymous, hollow, mapHeader, mapChildren, Forest.anonymous]

@[simp] theorem anonymous_withLocation (location : Option Location) :
    (d.withLocation location).anonymous = d.anonymous.withLocation location := by
  cases d <;> rfl

@[simp] theorem anonymous_dropAnnot (token : Nat) :
    (d.dropAnnot token).anonymous = d.anonymous.dropAnnot token := by
  cases d <;> rfl

@[simp] theorem anonymous_absorbTrailing (more : List String) :
    (absorbTrailing more d).anonymous = absorbTrailing more d.anonymous := by
  cases d <;> rfl

theorem anonymous_withChildren (cs : Forest) :
    (d.mapChildren fun _ => cs).anonymous = d.anonymous.mapChildren fun _ => cs.anonymous := by
  cases d <;> rfl

end Decl

def Outcome.anonymous : Outcome → Outcome
  | .done cs => .done cs.anonymous
  | .into xs d ys fresh => .into xs.anonymous d.anonymous ys.anonymous fresh

namespace Forest
variable {key : Key} {cs xs ys : Forest} {d x t : Decl} {known fresh : Bool}

@[simp] theorem anonymous_nil : anonymous [] = [] := by rw [anonymous]

theorem anonymous_append (xs ys : Forest) :
    anonymous (xs ++ ys) = anonymous xs ++ anonymous ys := by
  simp only [anonymous_eq_map, List.map_append]

theorem anonymous_take (n : Nat) (cs : Forest) : anonymous (cs.take n) = (anonymous cs).take n := by
  simp only [anonymous_eq_map, List.map_take]

theorem anonymous_drop (n : Nat) (cs : Forest) : anonymous (cs.drop n) = (anonymous cs).drop n := by
  simp only [anonymous_eq_map, List.map_drop]

def anonymousCut : Forest × Decl × Forest → Forest × Decl × Forest
  | (xs, x, ys) => (anonymous xs, x.anonymous, anonymous ys)

theorem homonyms_anonymous (key : Key) (cs : Forest) :
    homonyms key (anonymous cs) = anonymous (homonyms key cs) := by
  simp [homonyms, anonymous_eq_map, List.filter_map, Function.comp_def]

theorem filter_ne_anonymous (key : Key) (cs : Forest) :
    (anonymous cs).filter (·.key != key) = anonymous (cs.filter (·.key != key)) := by
  simp [anonymous_eq_map, List.filter_map, Function.comp_def]

theorem cut?_anonymous (key : Key) (cs : Forest) :
    cut? key (anonymous cs) = (cut? key cs).map anonymousCut := by
  induction cs with
  | nil => simp [cut?]
  | cons d rest ih =>
    rw [anonymous_cons, cut?, cut?, Decl.key_anonymous, ih]
    split
    · simp [anonymousCut]
    · rw [Option.map_map, Option.map_map]
      congr 1
      funext cut
      obtain ⟨xs, x, ys⟩ := cut
      simp [anonymousCut, anonymous_cons]

theorem resolved?_anonymous (known : Bool) (key : Key) (cs : Forest) :
    resolved? known key (anonymous cs) = (resolved? known key cs).map anonymousCut := by
  unfold resolved?
  split
  · exact cut?_anonymous key cs
  · rfl

theorem anchorCut?_anonymous (anchor : String) (cs : Forest) :
    anchorCut? anchor (anonymous cs) = (anchorCut? anchor cs).map anonymousCut := by
  simp only [anchorCut?, cut?_anonymous, Option.map_or]

theorem anchorFrom?_anonymous (anchor : String) (x : Decl) (rest : Forest) :
    anchorFrom? anchor x.anonymous (anonymous rest) =
      (anchorFrom? anchor x rest).map anonymousCut := by
  rw [anchorFrom?, anchorFrom?, cut?_anonymous, cut?_anonymous, Decl.name_anonymous]
  split <;> simp [Option.map_or]

theorem ofKind_anonymous (kind : Kind) (cs : Forest) :
    (anonymous cs).zipIdx.filter (·.1.kind == kind) =
      (cs.zipIdx.filter (·.1.kind == kind)).map (Prod.map Decl.anonymous id) := by
  rw [anonymous_eq_map, List.zipIdx_map, List.filter_map]
  simp [Function.comp_def]

theorem usePosition_anonymous (cs : Forest) : usePosition (anonymous cs) = usePosition cs := by
  rw [usePosition, usePosition, ofKind_anonymous, List.getLast?_map, Option.elim_map]
  rfl

theorem variablePlace?_anonymous (kind : Kind) (cs : Forest) :
    variablePlace? kind (anonymous cs) =
      (variablePlace? kind cs).map (Prod.map Decl.anonymous id) := by
  rw [variablePlace?, variablePlace?, ofKind_anonymous, ofKind_anonymous, List.getLast?_map,
    List.head?_map]
  cases (cs.zipIdx.filter (·.1.kind == kind)).getLast? <;> rfl

theorem any_kind_anonymous (kind : Kind) (cs : Forest) :
    (anonymous cs).any (·.kind == kind) = cs.any (·.kind == kind) := by
  simp [anonymous_eq_map, Function.comp_def]

theorem all_key_anonymous (key : Key) (cs : Forest) :
    (anonymous cs).all (·.key != key) = cs.all (·.key != key) := by
  simp [anonymous_eq_map, Function.comp_def]

theorem beside_anonymous (side : Side) (xs : Forest) (t : Decl) (ys : Forest) (d : Decl)
    (fresh : Bool) :
    beside side (anonymous xs) t.anonymous (anonymous ys) d.anonymous fresh =
      (beside side xs t ys d fresh).anonymous := by
  cases side <;> simp [beside, Outcome.anonymous, anonymous_append, anonymous_cons]

theorem relocated_anonymous (d : Decl) (side : Side) (anchor : String) (xs : Forest) (x : Decl)
    (ys : Forest) :
    relocated d.anonymous side anchor (anonymous xs) x.anonymous (anonymous ys) =
      (relocated d side anchor xs x ys).anonymous := by
  rw [relocated, relocated, ← anonymous_append, anchorFrom?_anonymous]
  cases anchorFrom? anchor x (xs ++ ys) with
  | none => simp [Outcome.anonymous]
  | some found =>
    obtain ⟨us, t, vs⟩ := found
    simp only [Option.map_some, anonymousCut, Decl.location_anonymous, Decl.trailing_anonymous,
      ← Decl.anonymous_withLocation, ← Decl.anonymous_absorbTrailing, beside_anonymous]

theorem placed_anonymous (known fresh : Bool) (d : Decl) (cs : Forest) :
    placed known fresh d.anonymous (anonymous cs) = (placed known fresh d cs).anonymous := by
  simp only [placed, Decl.kind_anonymous, usePosition_anonymous, variablePlace?_anonymous,
    any_kind_anonymous]
  cases variablePlace? d.kind cs <;> simp only [Option.map_none, Option.map_some, Prod.map] <;>
    split_ifs <;> simp [Outcome.anonymous, anonymous_take, anonymous_drop]

theorem taken_anonymous (d : Decl) (found : Option (Forest × Decl × Forest)) :
    ((found.map anonymousCut).filter fun (_, x, _) => d.anonymous.isContainer && x.isContainer) =
      (found.filter fun (_, x, _) => d.isContainer && x.isContainer).map anonymousCut := by
  rw [Option.filter_map]
  simp [Function.comp_def, anonymousCut]

theorem settled_anonymous (known fresh : Bool) (d : Decl) (cs : Forest) :
    settled known fresh d.anonymous (anonymous cs) = (settled known fresh d cs).anonymous := by
  simp only [settled, Decl.key_anonymous, Decl.annotations_anonymous, resolved?_anonymous,
    taken_anonymous, anchorCut?_anonymous]
  generalize resolved? known d.key cs = found
  generalize (found.filter fun (_, x, _) => d.isContainer && x.isContainer) = taken
  cases Directive.winner? d.annotations with
  | none =>
    cases taken with
    | none => simp [placed_anonymous]
    | some => simp [Outcome.anonymous, anonymousCut]
  | some winner =>
    obtain ⟨token, directive⟩ := winner
    cases directive with
    | override =>
      cases found with
      | none => rfl
      | some => simp [Outcome.anonymous, anonymousCut, filter_ne_anonymous]
    | delete =>
      cases found with
      | none => rfl
      | some => simp [Outcome.anonymous, filter_ne_anonymous]
    | placed side anchor =>
      cases taken with
      | none =>
        cases hcut : anchorCut? anchor cs with
        | none => simp [hcut, Outcome.anonymous]
        | some => simp [hcut, anonymousCut, ← beside_anonymous]
      | some => simp [anonymousCut, relocated_anonymous]

theorem completed_anonymous {ds : Forest} {out : Outcome}
    (ih : ∀ {known fresh : Bool} {cs : Forest},
      merged known fresh (anonymous cs) (anonymous ds) = anonymous (merged known fresh cs ds)) :
    completed known (anonymous ds) out.anonymous = anonymous (completed known ds out) := by
  cases out with
  | done cs => rfl
  | into xs x ys fresh =>
    simp only [completed, Outcome.anonymous, Decl.key_anonymous, all_key_anonymous,
      Decl.children_anonymous, ih, anonymous_append, anonymous_cons, Decl.anonymous_withChildren]

/-- A layer is merged alike whatever the identities are. -/
theorem anonymous_merged (known fresh : Bool) (cs layer : Forest) :
    anonymous (merged known fresh cs layer) =
      merged known fresh (anonymous cs) (anonymous layer) := by
  induction layer using Forest.induct generalizing known fresh cs with
  | nil => rw [merged_nil, anonymous_nil, merged_nil]
  | cons d rest inner tail =>
    rw [anonymous_cons, merged_cons, merged_cons, tail, Decl.children_anonymous, settled_anonymous,
      completed_anonymous fun {known fresh cs} => (inner known fresh cs).symm]

theorem Sound.of_anonymous {moved : String → Prop} {f g : Forest} (h : Sound moved f)
    (hfg : anonymous f = anonymous g) : Sound moved g := by
  -- The siblings of a key in `g` are, up to identities, those in `f`.
  induction h generalizing g with
  | @intro cs apart inner ih =>
    have hhom (key : Key) :
        (homonyms key cs).map Decl.anonymous = (homonyms key g).map Decl.anonymous := by
      rw [← anonymous_eq_map, ← anonymous_eq_map, ← homonyms_anonymous, hfg, homonyms_anonymous]
    refine .intro (fun key x y rest hm hk hx => ?_) fun key x rest hk => ?_
    · have hmap := hhom key
      rw [hk, List.map_cons, List.map_cons, List.map_eq_cons_iff] at hmap
      obtain ⟨x', _, hcs, hx', hmap⟩ := hmap
      obtain ⟨y', _, rfl, hy', -⟩ := List.map_eq_cons_iff.1 hmap
      rw [← Decl.isContainer_anonymous, ← hx', Decl.isContainer_anonymous] at hx
      rw [← Decl.isContainer_anonymous, ← hy', Decl.isContainer_anonymous]
      exact apart key x' y' _ hm hcs hx
    · have hmap := hhom key
      rw [hk, List.map_cons, List.map_eq_cons_iff] at hmap
      obtain ⟨x', rest', hcs, hx', -⟩ := hmap
      refine ih key x' rest' hcs ?_
      rw [← Decl.children_anonymous, ← Decl.children_anonymous, hx']

theorem Sound.number {moved : String → Prop} {f : Forest} (h : Sound moved f) (next : Nat) :
    Sound moved (number next f).1 :=
  h.of_anonymous (anonymous_number next f).symm

end Forest
end SignatureLayers
