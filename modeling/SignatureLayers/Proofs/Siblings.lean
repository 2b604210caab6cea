import Mathlib.Data.List.Basic
import SignatureLayers.Merge.Layer
import SignatureLayers.Proofs.Mirror

namespace SignatureLayers

open Merge (addTrailing absorbTrailing usePosition variablePlace?)

/-- What becomes of the siblings when a declaration is settled among them: either all is done, or
the children of the declaration are to be merged into one of the siblings. -/
inductive Outcome
  | done (children : Forest)
  | into (before : Forest) (d : Decl) (after : Forest) (fresh : Bool)

def Outcome.children : Outcome → Forest
  | .done cs => cs
  | .into xs d ys _ => xs ++ d :: ys

namespace Forest

/-- The first sibling with a key, with those before and those behind it. -/
def cut? (key : Key) : Forest → Option (Forest × Decl × Forest)
  | [] => none
  | d :: rest =>
    if d.key = key then some ([], d, rest)
    else (cut? key rest).map fun (xs, x, ys) => (d :: xs, x, ys)

/-- The sibling that a key resolves to. It does not where the owner is not `known` by its path. -/
def resolved? (known : Bool) (key : Key) (cs : Forest) : Option (Forest × Decl × Forest) :=
  if known then cut? key cs else none

def anchorCut? (anchor : String) (cs : Forest) : Option (Forest × Decl × Forest) :=
  (cut? ⟨anchor, true⟩ cs).or (cut? ⟨anchor, false⟩ cs)

/-- The anchor of the container `x` among the other siblings. It is not looked for among the
declarations when it names `x`. -/
def anchorFrom? (anchor : String) (x : Decl) (rest : Forest) : Option (Forest × Decl × Forest) :=
  (cut? ⟨anchor, true⟩ rest).or (if anchor = x.name then none else cut? ⟨anchor, false⟩ rest)

def beside (side : Side) (xs : Forest) (t : Decl) (ys : Forest) (d : Decl) (fresh : Bool) :
    Outcome :=
  match side with
  | .after => .into (xs ++ [t]) d ys fresh
  | .before => .into xs d (t :: ys) fresh

/-- The container `x` takes `d` in; it moves beside the anchor unless this is itself. -/
def relocated (d : Decl) (side : Side) (anchor : String) (xs : Forest) (x : Decl) (ys : Forest) :
    Outcome :=
  match anchorFrom? anchor x (xs ++ ys) with
  | none => .into xs (absorbTrailing d.trailing x) ys false
  | some (us, t, vs) =>
    beside side us t vs (absorbTrailing d.trailing (x.withLocation t.location)) false

def placed (known fresh : Bool) (d : Decl) (cs : Forest) : Outcome :=
  if d.kind = .leaf .useClause then
    if known then .done cs
    else .into (cs.take (usePosition cs)) d.hollow (cs.drop (usePosition cs)) true
  else if fresh then .into cs d.hollow [] true
  else if d.kind.isVariable then
    if known then .done cs
    else match variablePlace? d.kind cs with
      | some (neighbour, p) =>
        .into (cs.take p) (d.withLocation neighbour.location).hollow (cs.drop p) true
      | none => .into cs d.hollow [] true
  else if d.kind.isVisibility && cs.any (·.kind == d.kind) then .done cs
  else .into cs d.hollow [] true

def settled (known fresh : Bool) (d : Decl) (cs : Forest) : Outcome :=
  let found := resolved? known d.key cs
  let taken := found.filter fun (_, x, _) => d.isContainer && x.isContainer
  match Directive.winner? d.annotations with
  | none =>
    match taken with
    | some (xs, x, ys) => .into xs (absorbTrailing d.trailing x) ys false
    | none => placed found.isSome fresh d cs
  | some (token, .override) =>
    match found with
    | some (xs, x, ys) =>
      .into xs ((d.dropAnnot token).withLocation x.location).hollow
        (ys.filter (·.key != d.key)) true
    | none => .done cs
  | some (_, .delete) => .done (if found.isSome then cs.filter (·.key != d.key) else cs)
  | some (token, .placed side anchor) =>
    match taken with
    | some (xs, x, ys) => relocated d side anchor xs x ys
    | none =>
      match anchorCut? anchor cs with
      | some (xs, t, ys) =>
        beside side xs t ys ((d.dropAnnot token).withLocation t.location).hollow true
      | none => .done cs

/-- A layer merged into the siblings `cs`, one declaration after the other. -/
def merged (known fresh : Bool) (cs : Forest) : Forest → Forest
  | [] => cs
  | .container k h ds t :: rest =>
    match settled known fresh (.container k h ds t) cs with
    | .done cs => merged known fresh cs rest
    | .into xs x ys fresh' =>
      let inner := merged (known && xs.all (·.key != x.key)) fresh' x.children ds
      merged known fresh (xs ++ x.mapChildren (fun _ => inner) :: ys) rest
  | d :: rest => merged known fresh (settled known fresh d cs).children rest
termination_by layer => layer.size
decreasing_by
  · exact size_tail_lt _ rest
  · exact size_inner_lt k h ds t rest
  · exact size_tail_lt _ rest
  · exact size_tail_lt d rest

def completed (known : Bool) (ds : Forest) : Outcome → Forest
  | .done cs => cs
  | .into xs x ys fresh =>
    let inner := merged (known && xs.all (·.key != x.key)) fresh x.children ds
    xs ++ x.mapChildren (fun _ => inner) :: ys

@[simp] theorem merged_nil (known fresh : Bool) (cs : Forest) : merged known fresh cs [] = cs := by
  rw [merged]

@[simp] theorem mapChildren_children (d : Decl) : d.mapChildren (fun _ => d.children) = d := by
  cases d <;> rfl

theorem completed_nil (known : Bool) (out : Outcome) : completed known [] out = out.children := by
  cases out with
  | done => rfl
  | into => simp [completed, Outcome.children]

/-- One declaration after the other: each is settled, and its children follow. -/
theorem merged_cons (known fresh : Bool) (cs : Forest) (d : Decl) (rest : Forest) :
    merged known fresh cs (d :: rest) =
      merged known fresh (completed known d.children (settled known fresh d cs)) rest := by
  cases d with
  | container k h ds t =>
    rw [merged]
    cases settled known fresh (.container k h ds t) cs <;> rfl
  | leaf | member =>
    rw [merged, Decl.children, completed_nil] <;> exact fun _ _ _ _ hd => by cases hd

def homonyms (key : Key) (cs : Forest) : Forest := cs.filter (·.key == key)

theorem homonyms_append (key : Key) (xs ys : Forest) :
    homonyms key (xs ++ ys) = homonyms key xs ++ homonyms key ys := List.filter_append ..

theorem homonyms_cons (key : Key) (d : Decl) (rest : Forest) :
    homonyms key (d :: rest) = if d.key = key then d :: homonyms key rest else homonyms key rest := by
  by_cases h : d.key = key <;> simp [homonyms, h]

theorem homonyms_eq_nil {key : Key} {cs : Forest} :
    homonyms key cs = [] ↔ ∀ d ∈ cs, d.key ≠ key := by simp [homonyms]

theorem homonyms_filter_ne (key key' : Key) (cs : Forest) :
    homonyms key (cs.filter (·.key != key')) = if key = key' then [] else homonyms key cs := by
  rw [homonyms, List.filter_filter]
  split
  · next h => simp [h]
  · next h =>
    apply List.filter_congr
    intro d _
    by_cases hd : d.key = key <;> simp [hd, h]

variable {key : Key} {cs xs ys : Forest} {x : Decl}

theorem cut?_eq_some (h : cut? key cs = some (xs, x, ys)) :
    cs = xs ++ x :: ys ∧ homonyms key xs = [] ∧ x.key = key := by
  induction cs generalizing xs with
  | nil => cases h
  | cons d rest ih =>
    rw [cut?] at h
    split at h
    · next hd =>
      cases h
      exact ⟨rfl, rfl, hd⟩
    · next hd =>
      obtain ⟨⟨us, u, vs⟩, hrest, heq⟩ := Option.map_eq_some_iff.1 h
      cases heq
      obtain ⟨rfl, hnil, hkey⟩ := ih hrest
      exact ⟨rfl, by rw [homonyms_cons, if_neg hd, hnil], hkey⟩

theorem anchorCut?_eq_some {anchor : String} (h : anchorCut? anchor cs = some (xs, x, ys)) :
    cs = xs ++ x :: ys := by
  rcases Option.or_eq_some_iff.1 h with h | ⟨-, h⟩ <;> exact (cut?_eq_some h).1

theorem anchorFrom?_eq_some {anchor : String} {d : Decl}
    (h : anchorFrom? anchor d cs = some (xs, x, ys)) : cs = xs ++ x :: ys := by
  rcases Option.or_eq_some_iff.1 h with h | ⟨-, h⟩
  · exact (cut?_eq_some h).1
  · split at h
    · cases h
    · exact (cut?_eq_some h).1

theorem name_of_anchorCut? {anchor : String} (h : anchorCut? anchor cs = some (xs, x, ys)) :
    x.name = anchor := by
  rcases Option.or_eq_some_iff.1 h with h | ⟨-, h⟩ <;>
    exact congrArg Key.name (cut?_eq_some h).2.2

theorem name_of_anchorFrom? {anchor : String} {d : Decl}
    (h : anchorFrom? anchor d cs = some (xs, x, ys)) : x.name = anchor := by
  rcases Option.or_eq_some_iff.1 h with h | ⟨-, h⟩
  · exact congrArg Key.name (cut?_eq_some h).2.2
  · split at h
    · cases h
    · exact congrArg Key.name (cut?_eq_some h).2.2

theorem resolved?_eq_some {known : Bool} {found : Forest × Decl × Forest}
    (h : resolved? known key cs = some found) : known = true ∧ cut? key cs = some found := by
  unfold resolved? at h
  split at h
  · next hknown => exact ⟨hknown, h⟩
  · cases h

theorem cut?_middle (hx : homonyms key xs = []) (hkey : x.key = key) (ys : Forest) :
    cut? key (xs ++ x :: ys) = some (xs, x, ys) := by
  induction xs with
  | nil => simp [cut?, hkey]
  | cons d xs ih =>
    rw [homonyms_cons] at hx
    split at hx
    · cases hx
    · next hd => rw [List.cons_append, cut?, if_neg hd, ih hx, Option.map_some]

theorem cut?_eq_none : cut? key cs = none ↔ homonyms key cs = [] := by
  induction cs with
  | nil => simp [cut?, homonyms]
  | cons d rest ih =>
    rw [cut?, homonyms_cons]
    split <;> simp [ih]

theorem map_cut? (key : Key) (cs : Forest) :
    (cut? key cs).map (fun (_, x, _) => x.ref) = first? cs key := by
  induction cs with
  | nil => rfl
  | cons d rest ih =>
    rw [cut?, first?_cons]
    split
    · rfl
    · rw [← ih, Option.map_map]
      rfl

theorem first?_eq_head? (key : Key) (cs : Forest) :
    first? cs key = (homonyms key cs).head?.map Decl.ref := by
  rw [first?, homonyms, List.head?_filter]

theorem all_key_ne (key : Key) (cs : Forest) :
    cs.all (·.key != key) = (homonyms key cs).isEmpty := by
  rw [Bool.eq_iff_iff, List.all_eq_true, List.isEmpty_iff, homonyms_eq_nil]
  simp

theorem homonyms_of_cut? (h : cut? key cs = some (xs, x, ys)) :
    homonyms key cs = x :: homonyms key ys := by
  obtain ⟨rfl, hx, hkey⟩ := cut?_eq_some h
  rw [homonyms_append, homonyms_cons, if_pos hkey, hx]
  rfl

theorem filter_of_cut? (h : cut? key cs = some (xs, x, ys)) :
    cs.filter (·.key != key) = xs ++ ys.filter (·.key != key) := by
  obtain ⟨rfl, hx, hkey⟩ := cut?_eq_some h
  have hall : xs.filter (·.key != key) = xs :=
    List.filter_eq_self.2 fun y hy => bne_iff_ne.2 (homonyms_eq_nil.1 hx y hy)
  simp [hall, hkey]

end Forest

/-- A declaration of a layer as it is put into a tree: its children follow later, its location may
be a neighbour's, and the annotation that was its directive is used up. -/
def Decl.PutAs (d d' : Decl) : Prop :=
  ∃ location annotations, annotations.Sublist d.annotations ∧
    d' = (d.mapHeader fun h => { h with location, annotations }).hollow

theorem Decl.putAs_hollow (d : Decl) : d.PutAs d.hollow :=
  ⟨d.location, d.annotations, .refl _, by cases d <;> rfl⟩

theorem Decl.putAs_withLocation (d : Decl) (location : Option Location) :
    d.PutAs (d.withLocation location).hollow :=
  ⟨location, d.annotations, .refl _, by cases d <;> rfl⟩

theorem Decl.putAs_dropAnnot (d : Decl) (token : Nat) (location : Option Location) :
    d.PutAs ((d.dropAnnot token).withLocation location).hollow :=
  ⟨location, d.annotations.eraseIdx token, List.eraseIdx_sublist .., by cases d <;> rfl⟩

namespace Forest

/-- Where a new declaration is put among its siblings, and as what. -/
inductive Placement (d : Decl) (cs : Forest) : Forest → Decl → Forest → Prop
  | last (plain : Directive.winner? d.annotations = none) (hd : d.kind ≠ .leaf .useClause) :
    Placement d cs cs d.hollow []
  | afterUses (plain : Directive.winner? d.annotations = none)
    (hd : d.kind = .leaf .useClause) :
    Placement d cs (cs.take (usePosition cs)) d.hollow (cs.drop (usePosition cs))
  | amongVariables (neighbour : Decl) (p : Nat) (plain : Directive.winner? d.annotations = none)
    (hd : d.kind.isVariable = true) (hp : variablePlace? d.kind cs = some (neighbour, p)) :
    Placement d cs (cs.take p) (d.withLocation neighbour.location).hollow (cs.drop p)
  | after (token : Nat) (anchor : String) (xs : Forest) (t : Decl) (ys : Forest)
    (hw : Directive.winner? d.annotations = some (token, .placed .after anchor))
    (hcut : anchorCut? anchor cs = some (xs, t, ys)) :
    Placement d cs (xs ++ [t]) ((d.dropAnnot token).withLocation t.location).hollow ys
  | before (token : Nat) (anchor : String) (xs : Forest) (t : Decl) (ys : Forest)
    (hw : Directive.winner? d.annotations = some (token, .placed .before anchor))
    (hcut : anchorCut? anchor cs = some (xs, t, ys)) :
    Placement d cs xs ((d.dropAnnot token).withLocation t.location).hollow (t :: ys)

/-- All that can become of the siblings `cs` when `d` is settled among them. -/
inductive Settlement (known : Bool) (d : Decl) (cs : Forest) : Outcome → Prop
  | kept : Settlement known d cs (.done cs)
  | removed (token : Nat) (hw : Directive.winner? d.annotations = some (token, .delete)) :
    Settlement known d cs (.done (cs.filter (·.key != d.key)))
  | replaced (token : Nat) (xs : Forest) (x : Decl) (ys : Forest)
    (hw : Directive.winner? d.annotations = some (token, .override))
    (hcut : cut? d.key cs = some (xs, x, ys)) :
    Settlement known d cs (.into xs ((d.dropAnnot token).withLocation x.location).hollow
      (ys.filter (·.key != d.key)) true)
  | absorbed (xs : Forest) (x : Decl) (ys : Forest) (hknown : known = true)
    (hcut : cut? d.key cs = some (xs, x, ys)) (hd : d.isContainer = true)
    (hx : x.isContainer = true) :
    Settlement known d cs (.into xs (absorbTrailing d.trailing x) ys false)
  | moved (token : Nat) (side : Side) (anchor : String) (xs : Forest) (x : Decl) (ys us vs : Forest)
    (t : Decl) (hw : Directive.winner? d.annotations = some (token, .placed side anchor))
    (hknown : known = true) (hcut : cut? d.key cs = some (xs, x, ys)) (hd : d.isContainer = true)
    (hx : x.isContainer = true) (hrest : us ++ vs = xs ++ ys)
    (ht : us.getLast? = some t ∨ vs.head? = some t) (hanchor : t.name = anchor) :
    Settlement known d cs
      (.into us (absorbTrailing d.trailing (x.withLocation t.location)) vs false)
  | inserted (xs : Forest) (d' : Decl) (ys : Forest) (hput : Placement d cs xs d' ys)
    (hnew : known = true → d.isContainer = true →
      ∀ x ∈ (homonyms d.key cs).head?, x.isContainer = false) :
    Settlement known d cs (.into xs d' ys true)

variable {known fresh : Bool} {d : Decl} {cs : Forest}

theorem absorber_of_taken
    (h : (resolved? known d.key cs).filter
      (fun (_, x, _) => d.isContainer && x.isContainer) = some (xs, x, ys)) :
    known = true ∧ cut? d.key cs = some (xs, x, ys) ∧ d.isContainer = true ∧
      x.isContainer = true := by
  obtain ⟨hfound, hboth⟩ := Option.filter_eq_some_iff.1 h
  obtain ⟨hknown, hcut⟩ := resolved?_eq_some hfound
  exact ⟨hknown, hcut, Bool.and_eq_true_iff.1 hboth⟩

theorem head_of_not_taken
    (h : (resolved? known d.key cs).filter
      (fun (_, x, _) => d.isContainer && x.isContainer) = none) :
    known = true → d.isContainer = true → ∀ x ∈ (homonyms d.key cs).head?, x.isContainer = false := by
  rintro rfl hd x hx
  cases hcut : cut? d.key cs with
  | none => simp [cut?_eq_none.1 hcut] at hx
  | some found =>
    obtain ⟨xs, y, ys⟩ := found
    rw [homonyms_of_cut? hcut] at hx
    cases hx
    simpa [resolved?, hcut, Option.filter, hd] using h

theorem settlement_placed (hw : Directive.winner? d.annotations = none)
    (hnew : known = true → d.isContainer = true →
      ∀ x ∈ (homonyms d.key cs).head?, x.isContainer = false) (present : Bool) :
    Settlement known d cs (placed present fresh d cs) := by
  unfold placed
  split
  · next hu =>
    split
    · exact .kept
    · exact .inserted _ _ _ (.afterUses hw hu) hnew
  · next hu =>
    have hlast : Settlement known d cs (.into cs d.hollow [] true) :=
      .inserted _ _ _ (.last hw hu) hnew
    split
    · exact hlast
    · split
      · next hv =>
        split
        · exact .kept
        · split
          · next neighbour p hp => exact .inserted _ _ _ (.amongVariables neighbour p hw hv hp) hnew
          · exact hlast
      · split
        · exact .kept
        · exact hlast

theorem settlement_relocated {token : Nat} {side : Side} {anchor : String} {xs ys : Forest}
    {x : Decl} (hw : Directive.winner? d.annotations = some (token, .placed side anchor))
    (hknown : known = true) (hcut : cut? d.key cs = some (xs, x, ys)) (hd : d.isContainer = true)
    (hx : x.isContainer = true) :
    Settlement known d cs (relocated d side anchor xs x ys) := by
  unfold relocated
  split
  · exact .absorbed xs x ys hknown hcut hd hx
  · next us t vs hfound =>
    have hrest : us ++ t :: vs = xs ++ ys := (anchorFrom?_eq_some hfound).symm
    have hanchor := name_of_anchorFrom? hfound
    cases side with
    | after =>
      exact .moved token .after anchor xs x ys (us ++ [t]) vs t hw hknown hcut hd hx
        (by simpa using hrest) (.inl List.getLast?_concat) hanchor
    | before =>
      exact .moved token .before anchor xs x ys us (t :: vs) t hw hknown hcut hd hx hrest
        (.inr rfl) hanchor

/-- Whatever the directive, the settled declaration does one of the listed things. -/
theorem settled_cases (known fresh : Bool) (d : Decl) (cs : Forest) :
    Settlement known d cs (settled known fresh d cs) := by
  unfold settled
  simp only
  split
  · next hw =>
    split
    · next xs x ys htaken =>
      obtain ⟨hknown, hcut, hd, hx⟩ := absorber_of_taken htaken
      exact .absorbed xs x ys hknown hcut hd hx
    · next htaken => exact settlement_placed hw (head_of_not_taken htaken) _
  · next token hw =>
    split
    · next xs x ys hfound =>
      exact .replaced token xs x ys hw (resolved?_eq_some hfound).2
    · exact .kept
  · next token hw =>
    generalize resolved? known d.key cs = found
    cases found with
    | none => exact .kept
    | some _ => exact .removed token hw
  · next token side anchor hw =>
    split
    · next xs x ys htaken =>
      obtain ⟨hknown, hcut, hd, hx⟩ := absorber_of_taken htaken
      exact settlement_relocated hw hknown hcut hd hx
    · next htaken =>
      split
      · next xs t ys hcut =>
        cases side with
        | after =>
          exact .inserted _ _ _ (.after token anchor xs t ys hw hcut) (head_of_not_taken htaken)
        | before =>
          exact .inserted _ _ _ (.before token anchor xs t ys hw hcut) (head_of_not_taken htaken)
      · exact .kept

end Forest
end SignatureLayers
