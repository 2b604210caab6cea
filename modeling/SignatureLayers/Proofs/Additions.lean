import SignatureLayers.Proofs.TopLevel
import SignatureLayers.Proofs.Repetition
import SignatureLayers.Proofs.Depth
import SignatureLayers.Proofs.Plain

namespace SignatureLayers

open Forest
open Merge (absorbTrailing usePosition variablePlace?)

namespace Forest
variable {c : Context} {l : Shell} {path : List String} {cs xs ys us vs layer : Forest} {d x : Decl}
  {out : Outcome}

/-- All that can become of the siblings `cs` of a known owner that was there before the layer, when
a declaration is settled among them that no directive speaks of. -/
inductive Addition (d : Decl) (cs : Forest) : Outcome → Prop
  | dropped : Addition d cs (.done cs)
  | absorbed (xs : Forest) (x : Decl) (ys : Forest) (hd : d.isContainer = true)
    (hx : x.isContainer = true) (hcut : cut? d.key cs = some (xs, x, ys)) :
    Addition d cs (.into xs (absorbTrailing d.trailing x) ys false)
  | clause (hk : d.kind = .leaf .useClause) (hnew : cut? d.key cs = none) :
    Addition d cs (.into (cs.take (usePosition cs)) d.hollow (cs.drop (usePosition cs)) true)
  | amongVariables (neighbour : Decl) (p : Nat) (hk : d.kind.isVariable = true)
    (hnew : cut? d.key cs = none) (hp : variablePlace? d.kind cs = some (neighbour, p)) :
    Addition d cs
      (.into (cs.take p) (d.withLocation neighbour.location).hollow (cs.drop p) true)
  | last (hk : d.kind ≠ .leaf .useClause)
    (hvariable : d.kind.isVariable = true → cut? d.key cs = none ∧ variablePlace? d.kind cs = none)
    (hmark : d.kind.isVisibility = true → ∀ x ∈ cs, x.kind ≠ d.kind) :
    Addition d cs (.into cs d.hollow [] true)

theorem isVisibility_of_isVariable {k : Kind} (h : k.isVariable = true) :
    k.isVisibility = false := by
  unfold Kind.isVariable at h
  split at h
  · rfl
  · rfl
  · rfl
  · cases h

theorem addition_placed : Addition d cs (placed (cut? d.key cs).isSome false d cs) := by
  unfold placed
  split
  · next hk =>
    split
    · exact .dropped
    · next hnew => exact .clause hk (by simpa using hnew)
  · next hk =>
    rw [if_neg Bool.false_ne_true]
    split
    · next hvariable =>
      have hmark := isVisibility_of_isVariable hvariable
      split
      · exact .dropped
      · next hnew =>
        have hnew : cut? d.key cs = none := by simpa using hnew
        split
        · next neighbour p hp => exact .amongVariables neighbour p hvariable hnew hp
        · next hp => exact .last hk (fun _ => ⟨hnew, hp⟩) fun h => by simp [hmark] at h
    · next hvariable =>
      split
      · exact .dropped
      · next hmark =>
        refine .last hk (fun h => absurd h hvariable) fun h x hx hkind => hmark ?_
        rw [h, Bool.true_and, List.any_eq_true]
        exact ⟨x, hx, beq_iff_eq.2 hkind⟩

theorem addition_cases (hw : Directive.winner? d.annotations = none) (cs : Forest) :
    Addition d cs (settled true false d cs) := by
  simp only [settled, hw, resolved?, if_true]
  split
  · next xs x ys htaken =>
    obtain ⟨hcut, hboth⟩ := Option.filter_eq_some_iff.1 htaken
    obtain ⟨hd, hx⟩ := Bool.and_eq_true_iff.1 hboth
    exact .absorbed xs x ys hd hx hcut
  · exact addition_placed

/-- The declarations that a layer has in the containers of a path. -/
def below : List String → Forest → Forest
  | [], f => f
  | name :: path, f =>
    (f.filter fun d => d.isContainer && d.name == name).flatMap fun d => below path d.children

theorem below_nil (path : List String) : below path [] = [] := by
  cases path <;> rfl

theorem below_cons (name : String) (path : List String) (d : Decl) (rest : Forest) :
    below (name :: path) (d :: rest) =
      (if d.isContainer && d.name == name then below path d.children else []) ++
        below (name :: path) rest := by
  rw [below, below, List.filter_cons]
  split <;> rfl

theorem below_sublist (path : List String) (f : Forest) : (below path f).Sublist (preorder f) := by
  induction path generalizing f with
  | nil => exact sublist_preorder f
  | cons name path outer =>
    induction f with
    | nil => exact List.nil_sublist _
    | cons d rest inner =>
      rw [below_cons, preorder_cons]
      refine (List.Sublist.append ?_ inner).cons _
      split
      · exact outer d.children
      · exact List.nil_sublist _

theorem forall_below {q : Decl → Prop} {name : String} {f : Forest}
    (h : ∀ d ∈ preorder f, ∀ c ∈ d.children, q c) : ∀ d ∈ below (name :: path) f, q d := by
  induction path generalizing name f with
  | nil =>
    intro d hd
    obtain ⟨e, he, hd⟩ := List.mem_flatMap.1 hd
    exact h e ((sublist_preorder f).mem (List.mem_filter.1 he).1) d hd
  | cons next path ih =>
    intro d hd
    obtain ⟨e, he, hd⟩ := List.mem_flatMap.1 hd
    refine ih (fun x hx => h x ?_) d hd
    exact mem_preorder_of_mem (List.mem_filter.1 he).1 (List.mem_cons_of_mem _ hx)

theorem exists_exchanged {y : Decl} (h : us ++ d :: vs = xs ++ x :: ys) (hne : d ≠ x)
    (hkey : y.key = x.key) :
    ∃ us' vs', xs ++ y :: ys = us' ++ d :: vs' ∧ us'.map Decl.key = us.map Decl.key := by
  rcases List.append_eq_append_iff.1 h with ⟨as, rfl, hsplit⟩ | ⟨as, rfl, hsplit⟩
  · cases as with
    | nil => exact absurd (List.cons.inj hsplit).1 hne
    | cons a as =>
      obtain ⟨rfl, rfl⟩ := List.cons.inj hsplit
      exact ⟨us, as ++ y :: ys, by simp, rfl⟩
  · cases as with
    | nil => exact absurd (List.cons.inj hsplit).1.symm hne
    | cons a as =>
      obtain ⟨rfl, rfl⟩ := List.cons.inj hsplit
      exact ⟨xs ++ y :: as, vs, by simp, by simp [hkey]⟩

theorem exists_inserted {y : Decl} (h : us ++ d :: vs = xs ++ ys) :
    ∃ us' vs', xs ++ y :: ys = us' ++ d :: vs' ∧ ∀ u ∈ us', u ∈ us ∨ u = y ∧ ys ≠ [] := by
  rcases List.append_eq_append_iff.1 h with ⟨as, rfl, hsplit⟩ | ⟨as, rfl, rfl⟩
  · cases as with
    | nil =>
      obtain rfl : d :: vs = ys := hsplit
      refine ⟨us ++ [y], vs, by simp, fun u hu => ?_⟩
      rw [List.mem_append, List.mem_singleton] at hu
      exact hu.imp_right fun hu => ⟨hu, List.cons_ne_nil _ _⟩
    | cons a as =>
      obtain ⟨rfl, rfl⟩ := List.cons.inj hsplit
      exact ⟨us, as ++ y :: ys, by simp, fun u hu => .inl hu⟩
  · refine ⟨xs ++ y :: as, vs, by simp, fun u hu => ?_⟩
    simp only [List.mem_append, List.mem_cons] at hu ⊢
    have hne : as ++ d :: vs ≠ [] := by simp
    tauto

/-- What a plain declaration makes of the siblings of a container that it does not go to, it makes
around this container. -/
theorem exists_shell (cs : Forest) (hfirst : first? l.before ⟨l.header.name, false⟩ = none)
    (hw : Directive.winner? d.annotations = none)
    (hother : ¬ (d.isContainer = true ∧ d.name = l.header.name)) :
    ∃ l' : Shell, merged true false (l.plug cs) [d] = l'.plug cs ∧ l'.header = l.header ∧
      first? l'.before ⟨l.header.name, false⟩ = none := by
  let x : Decl := .container l.kind l.header cs l.trailing
  rw [first?_eq_none_iff] at hfirst
  -- It is enough to find the container again.
  suffices h : ∃ us vs, merged true false (l.plug cs) [d] = us ++ x :: vs ∧
      ∀ u ∈ us, u.key ≠ ⟨l.header.name, false⟩ by
    obtain ⟨us, vs, hmerged, hus⟩ := h
    exact ⟨⟨us, l.kind, l.header, l.trailing, vs⟩, hmerged, rfl, first?_eq_none_iff.2 hus⟩
  rw [merged_cons, merged_nil]
  have hcases := addition_cases hw (l.plug cs)
  generalize settled true false d (l.plug cs) = out at hcases
  have hinserted (xs ys : Forest) (d' : Decl) (hsplit : l.plug cs = xs ++ ys) (hput : d.PutAs d')
      (hfree : ys = [] ∨ cut? d.key (l.plug cs) = none) :
      ∃ us vs, completed true d.children (.into xs d' ys true) = us ++ x :: vs ∧
        ∀ u ∈ us, u.key ≠ ⟨l.header.name, false⟩ := by
    obtain ⟨us, vs, hsame, hus⟩ := exists_inserted (y := d'.mapChildren fun _ =>
      merged (true && xs.all (·.key != d'.key)) true d'.children d.children) hsplit
    refine ⟨us, vs, hsame, fun u hu => ?_⟩
    rcases hus u hu with hu | ⟨rfl, hys⟩
    · exact hfirst u hu
    · have hnew := homonyms_eq_nil.1 (cut?_eq_none.1 (hfree.resolve_left hys))
      rw [Decl.key_of_shape (Decl.shape_mapChildren _ d'), hput.key]
      exact (hnew x List.mem_append_cons_self).symm
  cases hcases with
  | dropped => exact ⟨l.before, l.after, rfl, hfirst⟩
  | absorbed xs y ys hd hy hcut =>
    obtain ⟨hsplit, -, hkey⟩ := cut?_eq_some hcut
    have hne : x ≠ y := by
      rintro rfl
      exact hother ⟨hd, congrArg Key.name hkey.symm⟩
    have hfill : l.before ++ x :: l.after = xs ++ y :: ys := hsplit
    obtain ⟨us, vs, hsame, hus⟩ := exists_exchanged
      (y := (absorbTrailing d.trailing y).mapChildren fun _ =>
        merged (true && xs.all (·.key != (absorbTrailing d.trailing y).key)) false
          (absorbTrailing d.trailing y).children d.children) hfill hne
      ((Decl.key_of_shape (Decl.shape_mapChildren _ _)).trans
        (y.alike_absorbTrailing d.trailing).key)
    refine ⟨us, vs, hsame, fun u hu => ?_⟩
    obtain ⟨b, hb, hbu⟩ := List.mem_map.1 (hus ▸ List.mem_map_of_mem (f := Decl.key) hu)
    exact hbu ▸ hfirst b hb
  | clause hk hnew =>
    exact hinserted _ _ _ (List.take_append_drop ..).symm d.putAs_hollow (.inr hnew)
  | amongVariables neighbour p hk hnew hp =>
    exact hinserted _ _ _ (List.take_append_drop ..).symm (d.putAs_withLocation _) (.inr hnew)
  | last => exact hinserted _ _ _ (List.append_nil _).symm d.putAs_hollow (.inl rfl)

/-- A layer without directives makes of the children at the end of a clear way what the
declarations that it has under their path make of them. -/
theorem merged_below (cs : Forest) (hc : c.Clear) (hpath : c.path = path)
    (hw : ∀ d ∈ layer.preorder, Directive.winner? d.annotations = none) :
    ∃ c', merged true false (c.plug cs) layer =
        c'.plug (merged true false cs (below path layer)) ∧
      c'.Clear ∧ c'.path = path ∧ ∀ o, Context.ownerFrom o c' = Context.ownerFrom o c := by
  induction path generalizing c cs layer with
  | nil =>
    obtain rfl : c = [] := List.map_eq_nil_iff.1 hpath
    exact ⟨[], rfl, hc, rfl, fun _ => rfl⟩
  | cons name path outer =>
    induction layer generalizing c cs with
    | nil =>
      rw [merged_nil, below_nil, merged_nil]
      exact ⟨c, rfl, hc, hpath, fun _ => rfl⟩
    | cons d rest inner =>
      obtain ⟨l, c, rfl, rfl, hrest⟩ := List.map_eq_cons_iff.1 hpath
      rw [preorder_cons, List.forall_mem_cons, List.forall_mem_append] at hw
      obtain ⟨hd, hbelow, hw⟩ := hw
      obtain ⟨hfirst, hclear⟩ := Context.clear_cons.1 hc
      have hlayer : merged true false (Context.plug (l :: c) cs) (d :: rest) =
          merged true false (merged true false (l.plug (Context.plug c cs)) [d]) rest :=
        merged_append true false _ [d] rest
      rw [hlayer, below_cons, merged_append]
      by_cases hname : d.isContainer = true ∧ d.name = l.header.name
      · -- The declaration goes to the container that the way begins with.
        obtain ⟨c₁, hmerged, hc₁, hpath₁, howner₁⟩ := outer cs hclear hrest hbelow
        let l₁ : Shell := { l with trailing := Merge.addTrailing l.trailing d.trailing }
        have hkey : d.key = ⟨l.header.name, false⟩ := by
          cases d with
          | container => exact congrArg (Key.mk · false) hname.2
          | leaf | member => cases hname.1
        obtain ⟨c', hrun, hc', hpath', howner⟩ :=
          inner (c := l₁ :: c₁) (merged true false cs (below path d.children))
            (Context.clear_cons.2 ⟨hfirst, hc₁⟩) (congrArg (l.header.name :: ·) hpath₁) hw
        rw [merged_shell hfirst hd hname.1 hkey, hmerged, if_pos (by simpa using hname)]
        exact ⟨c', hrun, hc', hpath', fun o => (howner o).trans (howner₁ _)⟩
      · obtain ⟨l₁, hmerged, hheader, hfirst₁⟩ :=
          exists_shell (Context.plug c cs) hfirst hd hname
        have hname₁ : l₁.header.name = l.header.name := congrArg Header.name hheader
        obtain ⟨c', hrun, hc', hpath', howner⟩ :=
          inner (c := l₁ :: c) cs (Context.clear_cons.2 ⟨hname₁ ▸ hfirst₁, hclear⟩)
            (congr (congrArg List.cons hname₁) hrest) hw
        rw [hmerged, if_neg (by simpa using hname), merged_nil]
        refine ⟨c', hrun, hc', hpath', fun o => (howner o).trans ?_⟩
        rw [Context.ownerFrom, Context.ownerFrom, hheader]

end Forest
end SignatureLayers
