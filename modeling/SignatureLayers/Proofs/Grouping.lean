import Mathlib.Data.List.Triplewise
import SignatureLayers.Proofs.Additions

namespace SignatureLayers

open Forest
open Merge (variablePlace?)

namespace Forest
variable {P : Forest → Prop} {kind : Kind} {cs cs' cs₁ us vs rest ds : Forest} {d x : Decl}
  {out : Outcome} {p : Nat}

theorem exists_of_getLast?_zipIdx {q : Decl → Bool}
    (h : (cs.zipIdx.filter (q ·.1)).getLast? = some (x, p)) :
    ∃ us vs, cs = us ++ x :: vs ∧ us.length = p ∧ q x = true ∧ ∀ v ∈ vs, q v = false := by
  induction cs using List.reverseRecOn with
  | nil => simp at h
  | append_singleton cs d ih =>
    rw [List.zipIdx_append, List.filter_append, List.zipIdx_singleton, List.filter_singleton] at h
    cases hd : q d with
    | true =>
      simp only [hd, Nat.zero_add, cond_true, List.getLast?_append, List.getLast?_singleton,
        Option.some_or, Option.some.injEq, Prod.mk.injEq] at h
      obtain ⟨rfl, rfl⟩ := h
      exact ⟨cs, [], rfl, rfl, hd, List.forall_mem_nil _⟩
    | false =>
      simp only [hd, cond_false, List.append_nil] at h
      obtain ⟨us, vs, rfl, hp, hx, hvs⟩ := ih h
      refine ⟨us, vs ++ [d], by simp, hp, hx, List.forall_mem_append.2 ⟨hvs, ?_⟩⟩
      exact List.forall_mem_singleton.2 hd

theorem exists_of_head?_zipIdx {q : Decl → Bool} {n : Nat}
    (h : ((cs.zipIdx n).filter (q ·.1)).head? = some (x, p)) :
    ∃ us vs, cs = us ++ x :: vs ∧ n + us.length = p ∧ q x = true ∧ ∀ u ∈ us, q u = false := by
  induction cs generalizing n with
  | nil => simp at h
  | cons d rest ih =>
    rw [List.zipIdx_cons, List.filter_cons] at h
    cases hd : q d with
    | true =>
      simp only [hd, ↓reduceIte, List.head?_cons, Option.some.injEq, Prod.mk.injEq] at h
      obtain ⟨rfl, rfl⟩ := h
      exact ⟨[], rest, rfl, rfl, hd, List.forall_mem_nil _⟩
    | false =>
      simp only [hd, Bool.false_eq_true, ↓reduceIte] at h
      obtain ⟨us, vs, rfl, hp, hx, hus⟩ := ih h
      exact ⟨d :: us, vs, rfl, by simp only [List.length_cons]; omega, hx,
        List.forall_mem_cons.2 ⟨hd, hus⟩⟩

/-- Where a variable goes: behind the last of its kind, else ahead of the first method. -/
theorem variablePlace?_eq_some (h : variablePlace? kind cs = some (x, p)) :
    ∃ us vs, cs = us ++ x :: vs ∧
      (x.kind = kind ∧ (∀ v ∈ vs, v.kind ≠ kind) ∧ p = us.length + 1 ∨
        (∀ y ∈ cs, y.kind ≠ kind) ∧ x.kind = .member .method ∧
          (∀ u ∈ us, u.kind ≠ .member .method) ∧ p = us.length) := by
  unfold variablePlace? at h
  split at h
  · next d n hlast =>
    cases h
    obtain ⟨us, vs, hcs, hn, hx, hvs⟩ :=
      exists_of_getLast?_zipIdx (q := fun d => d.kind == kind) hlast
    exact ⟨us, vs, hcs, .inl ⟨by simpa using hx, by simpa using hvs, by omega⟩⟩
  · next hnone =>
    obtain ⟨us, vs, hcs, hn, hx, hus⟩ :=
      exists_of_head?_zipIdx (q := fun d => d.kind == .member .method) h
    have hall : ∀ y ∈ cs, y.kind ≠ kind := by
      intro y hy hkind
      obtain ⟨n, hn⟩ := List.mem_iff_getElem?.1 hy
      rw [List.getLast?_eq_none_iff, List.filter_eq_nil_iff] at hnone
      exact hnone (y, n) (List.mk_mem_zipIdx_iff_getElem?.2 hn) (by simpa using hkind)
    exact ⟨us, vs, hcs, .inr ⟨hall, by simpa using hx, by simpa using hus, by omega⟩⟩

theorem variablePlace?_eq_none (h : variablePlace? kind cs = none) :
    ∀ y ∈ cs, y.kind ≠ kind ∧ y.kind ≠ .member .method := by
  unfold variablePlace? at h
  split at h
  · cases h
  · next hnone =>
    intro y hy
    obtain ⟨n, hn⟩ := List.mem_iff_getElem?.1 hy
    have hmem : (y, n) ∈ cs.zipIdx := List.mk_mem_zipIdx_iff_getElem?.2 hn
    rw [List.getLast?_eq_none_iff, List.filter_eq_nil_iff] at hnone
    rw [List.head?_eq_none_iff, List.filter_eq_nil_iff] at h
    exact ⟨by simpa using hnone _ hmem, by simpa using h _ hmem⟩

/-- All the places where a declaration that no directive speaks of is put among the children of a
container. -/
inductive Put (d : Decl) : Forest → Forest → Prop
  | behindKind (us : Forest) (x : Decl) (vs : Forest) (hd : d.kind.isVariable = true)
    (hnew : ∀ y ∈ us ++ x :: vs, y.key ≠ d.key) (hx : x.kind = d.kind)
    (hvs : ∀ v ∈ vs, v.kind ≠ d.kind) : Put d (us ++ x :: vs) (us ++ x :: d :: vs)
  | aheadOfMethods (us : Forest) (x : Decl) (vs : Forest) (hd : d.kind.isVariable = true)
    (hnew : ∀ y ∈ us ++ x :: vs, y.key ≠ d.key) (hkind : ∀ y ∈ us ++ x :: vs, y.kind ≠ d.kind)
    (hx : x.kind = .member .method) (hus : ∀ u ∈ us, u.kind ≠ .member .method) :
    Put d (us ++ x :: vs) (us ++ d :: x :: vs)
  | last (cs : Forest)
    (hd : d.kind.isVariable = true →
      ∀ y ∈ cs, y.key ≠ d.key ∧ y.kind ≠ d.kind ∧ y.kind ≠ .member .method)
    (hmark : d.kind.isVisibility = true → ∀ y ∈ cs, y.kind ≠ d.kind) : Put d cs (cs ++ [d])

/-- `cs'` shows what becomes of the children `cs` when the declarations `ds` come one after the
other: each is put somewhere, or taken in or dropped. -/
inductive Grown : Forest → Forest → Forest → Prop
  | nil (cs : Forest) : Grown [] cs cs
  | kept {d : Decl} {rest cs cs₁ cs' : Forest} (hsame : shapes cs₁ = shapes cs)
    (h : Grown rest cs₁ cs') : Grown (d :: rest) cs cs'
  | put {d : Decl} {rest cs cs₁ cs₂ cs' : Forest} (hput : Put d cs cs₂)
    (hsame : shapes cs₁ = shapes cs₂) (h : Grown rest cs₁ cs') : Grown (d :: rest) cs cs'

theorem shapes_completed (known : Bool) (ds : Forest) (out : Outcome) :
    shapes (completed known ds out) = shapes out.children := by
  cases out with
  | done => rfl
  | into xs x ys fresh =>
    rw [completed, Outcome.children, shapes_append, shapes_append, shapes_cons, shapes_cons,
      Decl.shape_mapChildren]

theorem put_or_kept (hw : Directive.winner? d.annotations = none)
    (huse : d.kind ≠ .leaf .useClause) (cs : Forest) :
    let out := settled true false d cs
    shapes out.children = shapes cs ∨ ∃ cs₁, Put d cs cs₁ ∧ shapes out.children = shapes cs₁ := by
  intro out
  have hcases : Addition d cs out := addition_cases hw cs
  clear_value out
  have hkeys (hnew : cut? d.key cs = none) : ∀ y ∈ cs, y.key ≠ d.key :=
    homonyms_eq_nil.1 (cut?_eq_none.1 hnew)
  cases hcases with
  | dropped => exact .inl rfl
  | absorbed xs x ys hd hx hcut =>
    obtain ⟨rfl, -, -⟩ := cut?_eq_some hcut
    refine .inl ?_
    rw [Outcome.children, shapes_append, shapes_append, shapes_cons, shapes_cons,
      Decl.shape_absorbTrailing]
  | clause hk => exact absurd hk huse
  | amongVariables neighbour p hk hnew hp =>
    have hshape := (d.putAs_withLocation neighbour.location).shape
    obtain ⟨us, vs, rfl, ⟨hx, hvs, rfl⟩ | ⟨hkind, hx, hus, rfl⟩⟩ := variablePlace?_eq_some hp
    · refine .inr ⟨_, .behindKind us neighbour vs hk (hkeys hnew) hx hvs, ?_⟩
      have hsplit : us ++ neighbour :: vs = (us ++ [neighbour]) ++ vs := by simp
      have hlen : us.length + 1 = (us ++ [neighbour]).length := by simp
      rw [Outcome.children, hsplit, hlen, List.take_left, List.drop_left]
      simp [shapes, hshape]
    · refine .inr ⟨_, .aheadOfMethods us neighbour vs hk (hkeys hnew) hkind hx hus, ?_⟩
      rw [Outcome.children, List.take_left, List.drop_left]
      simp [shapes, hshape]
  | last hk hvariable hmark =>
    refine .inr ⟨_, .last cs (fun h y hy => ?_) hmark, ?_⟩
    · obtain ⟨hnew, hp⟩ := hvariable h
      exact ⟨hkeys hnew y hy, variablePlace?_eq_none hp y hy⟩
    · simp [shapes, Outcome.children, d.putAs_hollow.shape]

/-- What declarations without directives make of the children of a container that was there
before. -/
theorem grown_merged (cs : Forest)
    (hds : ∀ d ∈ ds, Directive.winner? d.annotations = none ∧ d.kind ≠ .leaf .useClause) :
    Grown ds cs (merged true false cs ds) := by
  induction ds generalizing cs with
  | nil =>
    rw [merged_nil]
    exact .nil cs
  | cons d rest ih =>
    obtain ⟨⟨hw, huse⟩, hrest⟩ := List.forall_mem_cons.1 hds
    have hshapes := shapes_completed true d.children (settled true false d cs)
    rw [merged_cons]
    rcases put_or_kept hw huse cs with hkept | ⟨cs₁, hput, hsame⟩
    · exact .kept (hshapes.trans hkept) (ih _ hrest)
    · exact .put hput (hshapes.trans hsame) (ih _ hrest)

/-- What the shapes of the children tell, and every single step keeps, a whole run keeps. -/
theorem Grown.keeps (h : Grown ds cs cs') (hshaped : Shaped P)
    (hstep : ∀ d ∈ ds, ∀ cs cs₁, Put d cs cs₁ → P cs → P cs₁) (hP : P cs) : P cs' := by
  induction h with
  | nil => exact hP
  | kept hsame _ ih =>
    exact ih (List.forall_mem_cons.1 hstep).2 (hshaped hsame.symm hP)
  | put hput hsame _ ih =>
    obtain ⟨hd, hrest⟩ := List.forall_mem_cons.1 hstep
    exact ih hrest (hshaped hsame.symm (hd _ _ hput hP))

/-- Between two places of the kind there is nothing of another kind. -/
def Contiguous (kind : Kind) (kinds : List Kind) : Prop :=
  kinds.Triplewise fun a b c => a = kind → c = kind → b = kind

/-- The variables of each kind stand together, their names are all different, and none stands
behind a method. -/
structure VariablesGrouped (cs : Forest) : Prop where
  together : ∀ kind, kind.isVariable = true → Contiguous kind (cs.map Decl.kind)
  distinct : ((cs.filter (·.kind.isVariable)).map Decl.name).Nodup
  ahead : cs.Pairwise fun x y => x.kind = .member .method → y.kind.isVariable = false

theorem map_kind_of_shapes (h : shapes cs' = shapes cs) : cs'.map Decl.kind = cs.map Decl.kind := by
  have hmap := congrArg (List.map (·.2.1)) h
  rwa [shapes, shapes, List.map_map, List.map_map] at hmap

theorem contiguous_middle {us vs : List Kind} {k : Kind} :
    Contiguous kind (us ++ k :: vs) ↔ Contiguous kind (us ++ vs) ∧
      us.Pairwise (fun a b => a = kind → k = kind → b = kind) ∧
      (∀ a ∈ us, ∀ c ∈ vs, a = kind → c = kind → k = kind) ∧
      vs.Pairwise (fun b c => k = kind → c = kind → b = kind) := by
  unfold Contiguous
  simp only [List.triplewise_append, List.triplewise_cons, List.pairwise_cons, List.forall_mem_cons,
    forall_and]
  tauto

theorem Contiguous.double {us vs : List Kind} {k : Kind} (h : Contiguous kind (us ++ k :: vs)) :
    Contiguous kind (us ++ k :: k :: vs) := by
  obtain ⟨-, hbefore, hacross, hbehind⟩ := contiguous_middle.1 h
  refine contiguous_middle.2 ⟨h, hbefore, fun a ha c hc hkind hkind' => ?_,
    List.pairwise_cons.2 ⟨fun _ _ hk _ => hk, hbehind⟩⟩
  rcases List.mem_cons.1 hc with rfl | hc
  · exact hkind'
  · exact hacross a ha c hc hkind hkind'

theorem contiguous_of_not_mem {kinds : List Kind} (h : kind ∉ kinds) : Contiguous kind kinds := by
  induction kinds with
  | nil => exact .nil
  | cons k rest ih =>
    rw [List.mem_cons, not_or] at h
    exact .cons (List.pairwise_of_forall fun _ _ hk => absurd hk.symm h.1) (ih h.2)

theorem contiguous_new {us vs : List Kind} (h : kind ∉ us ++ vs) :
    Contiguous kind (us ++ kind :: vs) := by
  have hnone := contiguous_of_not_mem h
  rw [List.mem_append, not_or] at h
  refine contiguous_middle.2 ⟨hnone, ?_, fun a ha _ _ hkind => absurd (hkind ▸ ha) h.1, ?_⟩
  · exact List.pairwise_of_forall_mem_list fun a ha b _ hkind => absurd (hkind ▸ ha) h.1
  · exact List.pairwise_of_forall_mem_list fun b _ c hc _ hkind => absurd (hkind ▸ hc) h.2

theorem Contiguous.insert {us vs : List Kind} {k : Kind} (h : Contiguous kind (us ++ vs))
    (hk : k ≠ kind) (hseam : ∀ a ∈ us, ∀ c ∈ vs, a = kind → c ≠ kind) :
    Contiguous kind (us ++ k :: vs) :=
  contiguous_middle.2 ⟨h, List.pairwise_of_forall fun _ _ _ hkind => absurd hkind hk,
    fun a ha c hc hkind hkind' => absurd hkind' (hseam a ha c hc hkind),
    List.pairwise_of_forall fun _ _ hkind => absurd hkind hk⟩

theorem Put.contiguous (h : Put d cs cs') (hkind : kind.isVariable = true)
    (hcs : Contiguous kind (cs.map Decl.kind)) : Contiguous kind (cs'.map Decl.kind) := by
  cases h with
  | behindKind us x vs hd hnew hx hvs =>
    rw [List.map_append, List.map_cons, hx] at hcs
    rw [List.map_append, List.map_cons, List.map_cons, hx]
    exact hcs.double
  | aheadOfMethods us x vs hd hnew hnone hx hus =>
    rw [List.map_append] at hcs
    rw [List.map_append, List.map_cons]
    by_cases hsame : d.kind = kind
    · subst hsame
      refine contiguous_new fun hmem => ?_
      rw [← List.map_append] at hmem
      obtain ⟨y, hy, hkind⟩ := List.mem_map.1 hmem
      exact hnone y hy hkind
    · refine hcs.insert hsame fun a ha c hc hkind' hc' => ?_
      have hmethod : x.kind ≠ kind := by
        rintro rfl
        rw [hx] at hkind
        cases hkind
      subst hc'
      rcases List.mem_cons.1 hc with hc | hc
      · exact hmethod hc.symm
      · rw [List.map_cons, contiguous_middle] at hcs
        exact hmethod (hcs.2.2.1 a ha _ hc hkind' rfl)
  | last cs hd hmark =>
    rw [List.map_append, List.map_singleton]
    rw [← List.append_nil (cs.map Decl.kind)] at hcs
    by_cases hsame : d.kind = kind
    · subst hsame
      refine contiguous_new fun hmem => ?_
      rw [List.append_nil] at hmem
      obtain ⟨y, hy, hkind'⟩ := List.mem_map.1 hmem
      exact (hd hkind y hy).2.1 hkind'
    · exact hcs.insert hsame fun _ _ _ hc => absurd hc List.not_mem_nil

theorem Put.split (h : Put d cs cs') : ∃ us vs, cs = us ++ vs ∧ cs' = us ++ d :: vs ∧
    (d.kind.isVariable = false → vs = []) := by
  cases h with
  | behindKind us x vs hd => exact ⟨us ++ [x], vs, by simp, by simp, fun h => by simp [hd] at h⟩
  | aheadOfMethods us x vs hd => exact ⟨us, x :: vs, rfl, rfl, fun h => by simp [hd] at h⟩
  | last => exact ⟨cs, [], by simp, rfl, fun _ => rfl⟩

theorem Put.key_new (h : Put d cs cs') (hd : d.kind.isVariable = true) :
    ∀ y ∈ cs, y.key ≠ d.key := by
  cases h with
  | behindKind us x vs hd hnew => exact hnew
  | aheadOfMethods us x vs hd hnew => exact hnew
  | last cs hvariable => exact fun y hy => (hvariable hd y hy).1

theorem isMember_of_isVariable (h : d.kind.isVariable = true) : d.isMember = true := by
  rw [Decl.isMember]
  unfold Kind.isVariable at h
  split at h
  · next hkind => rw [hkind]; rfl
  · next hkind => rw [hkind]; rfl
  · next hkind => rw [hkind]; rfl
  · cases h

theorem Put.distinct (h : Put d cs cs')
    (hcs : ((cs.filter (·.kind.isVariable)).map Decl.name).Nodup) :
    ((cs'.filter (·.kind.isVariable)).map Decl.name).Nodup := by
  have hnew := h.key_new
  obtain ⟨us, vs, rfl, rfl, -⟩ := h.split
  have hmiddle : (us ++ d :: vs).Perm (d :: (us ++ vs)) := List.perm_middle
  have hperm := (hmiddle.filter (·.kind.isVariable)).map Decl.name
  rw [hperm.nodup_iff, List.filter_cons]
  split
  · next hd =>
    rw [List.map_cons, List.nodup_cons]
    refine ⟨fun hmem => ?_, hcs⟩
    obtain ⟨y, hy, hname⟩ := List.mem_map.1 hmem
    obtain ⟨hy, hvariable⟩ := List.mem_filter.1 hy
    refine hnew hd y hy ?_
    rw [Decl.key, Decl.key, hname, isMember_of_isVariable hvariable, isMember_of_isVariable hd]
  · exact hcs

theorem pairwise_middle_iff {α : Type} {r : α → α → Prop} {us vs : List α} {a : α} :
    (us ++ a :: vs).Pairwise r ↔
      (us ++ vs).Pairwise r ∧ (∀ u ∈ us, r u a) ∧ ∀ v ∈ vs, r a v := by
  simp only [List.pairwise_append, List.pairwise_cons, List.forall_mem_cons, forall_and]
  tauto

theorem Put.ahead (h : Put d cs cs')
    (hcs : cs.Pairwise fun x y => x.kind = .member .method → y.kind.isVariable = false) :
    cs'.Pairwise fun x y => x.kind = .member .method → y.kind.isVariable = false := by
  have hmethod {k : Kind} (hk : k.isVariable = true) : k ≠ .member .method := by
    rintro rfl
    cases hk
  cases h with
  | behindKind us x vs hd hnew hx hvs =>
    have hsplit : us ++ x :: d :: vs = (us ++ [x]) ++ d :: vs := by simp
    rw [hsplit, pairwise_middle_iff]
    refine ⟨by simpa using hcs, fun u hu hu' => ?_, fun _ _ h => absurd h (hmethod hd)⟩
    rcases List.mem_append.1 hu with hu | hu
    · have hfalse := (pairwise_middle_iff.1 hcs).2.1 u hu hu'
      rwa [hx] at hfalse
    · obtain rfl := List.mem_singleton.1 hu
      exact absurd hu' (hx ▸ hmethod hd)
  | aheadOfMethods us x vs hd hnew hkind hx hus =>
    exact pairwise_middle_iff.2
      ⟨hcs, fun u hu h => absurd h (hus u hu), fun _ _ h => absurd h (hmethod hd)⟩
  | last cs hd hmark =>
    refine pairwise_middle_iff.2 ⟨by simpa using hcs, fun u hu h => ?_, List.forall_mem_nil _⟩
    by_contra hvariable
    exact (hd (by simpa using hvariable) u hu).2.2 h

theorem Put.mark (h : Put d cs cs') (hd : d.kind.isVisibility = true) :
    ∀ y ∈ cs, y.kind ≠ d.kind := by
  cases h with
  | behindKind us x vs hvariable => simp [isVisibility_of_isVariable hvariable] at hd
  | aheadOfMethods us x vs hvariable => simp [isVisibility_of_isVariable hvariable] at hd
  | last cs hvariable hmark => exact hmark hd

theorem shaped_shapes (q : List (Nat × Kind × String) → Prop) :
    Shaped fun cs => q (shapes cs) := by
  intro f g hshapes h
  exact (congrArg q hshapes).mp h

theorem shaped_pairwise (r : Nat × Kind × String → Nat × Kind × String → Prop) :
    Shaped fun cs => cs.Pairwise fun x y => r x.shape y.shape := by
  intro f g hshapes h
  have hf : (shapes f).Pairwise r := List.pairwise_map.2 h
  exact List.pairwise_map.1 (hshapes ▸ hf : (shapes g).Pairwise r)

theorem shapes_filter (q : Nat × Kind × String → Bool) (cs : Forest) :
    shapes (cs.filter fun d => q d.shape) = (shapes cs).filter q := by
  rw [shapes, shapes, List.filter_map]
  rfl

theorem shaped_variablesGrouped : Shaped VariablesGrouped := by
  intro f g hshapes h
  have hnames {cs : Forest} : (cs.filter (·.kind.isVariable)).map Decl.name =
      ((shapes cs).filter (·.2.1.isVariable)).map (·.2.2) := by
    rw [← shapes_filter, shapes, List.map_map]
    rfl
  refine ⟨fun kind hkind => ?_, ?_, ?_⟩
  · exact map_kind_of_shapes hshapes ▸ h.together kind hkind
  · exact hnames ▸ hshapes ▸ hnames ▸ h.distinct
  · exact shaped_pairwise (fun s t => s.2.1 = .member .method → t.2.1.isVariable = false)
      hshapes h.ahead

theorem Grown.variablesGrouped (h : Grown ds cs cs') (hcs : VariablesGrouped cs) :
    VariablesGrouped cs' :=
  h.keeps shaped_variablesGrouped (fun _ _ _ _ hput hcs =>
    ⟨fun kind hkind => hput.contiguous hkind (hcs.together kind hkind), hput.distinct hcs.distinct,
      hput.ahead hcs.ahead⟩) hcs

def newOthers (old cs : Forest) : Forest :=
  cs.filter fun d => !d.kind.isVariable && d.id ∉ old.map Decl.id

/-- What becomes of the children `old` when declarations of `layer` are added to them: the old ones
keep their order, what is new and no variable stands behind them all and in the order of the layer,
and no marker comes in whose kind was there. -/
structure Extended (old layer cs : Forest) : Prop where
  kept : (shapes old).Sublist (shapes cs)
  behind : cs.Pairwise fun x y =>
    x.id ∉ old.map Decl.id → x.kind.isVariable = false → y.id ∉ old.map Decl.id
  inOrder : (shapes (newOthers old cs)).Sublist (shapes layer)
  marks : ∀ x ∈ cs, x.id ∉ old.map Decl.id → x.kind.isVisibility = true →
    ∀ y ∈ old, y.kind ≠ x.kind

theorem Put.sublist (h : Put d cs cs') : cs.Sublist cs' := by
  obtain ⟨us, vs, rfl, rfl, -⟩ := h.split
  exact (List.sublist_cons_self d vs).append_left us

theorem Grown.sublist {old : Forest} (h : Grown ds cs cs') (hcs : (shapes old).Sublist (shapes cs)) :
    (shapes old).Sublist (shapes cs') :=
  h.keeps (shaped_shapes fun s => (shapes old).Sublist s)
    (fun _ _ _ _ hput hcs => hcs.trans (hput.sublist.map _)) hcs

theorem Grown.behind {old : Forest} (h : Grown ds cs cs') (hnew : ∀ d ∈ ds, d.id ∉ old.map Decl.id)
    (hcs : cs.Pairwise fun x y =>
      x.id ∉ old.map Decl.id → x.kind.isVariable = false → y.id ∉ old.map Decl.id) :
    cs'.Pairwise fun x y =>
      x.id ∉ old.map Decl.id → x.kind.isVariable = false → y.id ∉ old.map Decl.id := by
  refine h.keeps (shaped_pairwise fun s t =>
    s.1 ∉ old.map Decl.id → s.2.1.isVariable = false → t.1 ∉ old.map Decl.id) ?_ hcs
  intro d hd cs cs₁ hput hcs
  obtain ⟨us, vs, rfl, rfl, hlast⟩ := hput.split
  refine pairwise_middle_iff.2 ⟨hcs, fun _ _ _ _ => hnew d hd, fun v hv _ hother => ?_⟩
  rw [hlast hother] at hv
  exact absurd hv List.not_mem_nil

theorem Grown.inOrder {old : Forest} (h : Grown ds cs cs')
    (hnew : ∀ d ∈ ds, d.id ∉ old.map Decl.id) :
    ∃ more, more.Sublist ds ∧
      shapes (newOthers old cs') = shapes (newOthers old cs) ++ shapes more := by
  have hshaped {f g : Forest} (h : shapes f = shapes g) :
      shapes (newOthers old f) = shapes (newOthers old g) := by
    have hfilter (f : Forest) := shapes_filter
      (fun s => !s.2.1.isVariable && s.1 ∉ old.map Decl.id) f
    exact (hfilter f).trans (h ▸ (hfilter g).symm)
  induction h with
  | nil => exact ⟨[], .refl _, (List.append_nil _).symm⟩
  | kept hsame _ ih =>
    obtain ⟨more, hmore, heq⟩ := ih (List.forall_mem_cons.1 hnew).2
    exact ⟨more, hmore.cons _, heq.trans (by rw [hshaped hsame])⟩
  | @put d rest cs cs₁ cs₂ cs' hput hsame _ ih =>
    obtain ⟨hd, hrest⟩ := List.forall_mem_cons.1 hnew
    obtain ⟨more, hmore, heq⟩ := ih hrest
    obtain ⟨us, vs, rfl, rfl, hlast⟩ := hput.split
    cases hvariable : d.kind.isVariable with
    | true =>
      refine ⟨more, hmore.cons _, heq.trans ?_⟩
      rw [hshaped hsame, newOthers, newOthers, List.filter_append, List.filter_append,
        List.filter_cons_of_neg (by simp [hvariable])]
    | false =>
      obtain rfl := hlast hvariable
      refine ⟨d :: more, hmore.cons_cons _, heq.trans ?_⟩
      rw [hshaped hsame, newOthers, newOthers, List.filter_append,
        List.filter_cons_of_pos (by simpa [hvariable] using hd), List.filter_nil, List.append_nil,
        shapes_append, List.append_assoc]
      rfl

theorem Grown.marks {old : Forest} (h : Grown ds old cs') :
    ∀ x ∈ cs', x.id ∉ old.map Decl.id → x.kind.isVisibility = true →
      ∀ y ∈ old, y.kind ≠ x.kind := by
  -- The kinds that were there stay there, so this is kept together with them.
  let Marked (s : List (Nat × Kind × String)) : Prop :=
    (shapes old).Sublist s ∧ ∀ t ∈ s, t.1 ∉ old.map Decl.id → t.2.1.isVisibility = true →
      ∀ y ∈ old, y.kind ≠ t.2.1
  have hmarked : Marked (shapes cs') := by
    refine h.keeps (shaped_shapes Marked) ?_
      ⟨.refl _, fun t ht hold => ?_⟩
    · rintro d - cs cs₁ hput ⟨hsublist, hmarks⟩
      refine ⟨hsublist.trans (hput.sublist.map _), fun t ht hold hmark y hy => ?_⟩
      have hmem : t = d.shape ∨ t ∈ shapes cs := by
        obtain ⟨us, vs, rfl, rfl, -⟩ := hput.split
        simp only [shapes_append, shapes_cons, List.mem_append, List.mem_cons] at ht ⊢
        tauto
      rcases hmem with rfl | hmem
      · obtain ⟨x, hx, hshape⟩ := List.mem_map.1 (hsublist.mem (List.mem_map_of_mem hy))
        exact Decl.kind_of_shape hshape ▸ hput.mark hmark x hx
      · exact hmarks t hmem hold hmark y hy
    · obtain ⟨x, hx, rfl⟩ := List.mem_map.1 ht
      exact absurd (List.mem_map_of_mem hx) hold
  exact fun x hx hold hmark => hmarked.2 x.shape (List.mem_map_of_mem hx) hold hmark

theorem Grown.extended {layer : Forest} (h : Grown ds cs cs') (hds : ds.Sublist layer)
    (hnew : ∀ d ∈ ds, d.id ∉ cs.map Decl.id) : Extended cs layer cs' where
  kept := h.sublist (.refl _)
  behind := by
    refine h.behind hnew (List.pairwise_of_forall_mem_list fun x hx _ _ hold => ?_)
    exact absurd (List.mem_map_of_mem hx) hold
  inOrder := by
    obtain ⟨more, hmore, heq⟩ := h.inOrder hnew
    have hnone : newOthers cs cs = [] :=
      List.filter_eq_nil_iff.2 fun x hx => by simp [List.mem_map_of_mem (f := Decl.id) hx]
    rw [heq, hnone]
    exact (hmore.trans hds).map _
  marks := h.marks

end Forest

namespace Engine

theorem ne_use_below {file source : String} {layer : Forest}
    (hparse : parse file source = .ok layer) (next : Nat) {path : List String} (hpath : path ≠ []) :
    ∀ d ∈ below path (layer.number next).1, d.kind ≠ .leaf .useClause := by
  have hinner : ∀ d ∈ preorder (layer.number next).1, ∀ x ∈ d.children,
      x.kind ≠ .leaf .useClause :=
    (forall_number_iff fun d => by simp [anonymous_eq_map]).2 fun d hd =>
      ((parsed_of_parse hparse).readable d hd).clauses
  cases path with
  | nil => exact absurd rfl hpath
  | cons => exact forall_below hinner

theorem Coherent.fresh_below {e : Engine} {c : Context} {cs : Forest} (h : e.Coherent)
    (htree : e.tree = c.plug cs) (layer : Forest) (path : List String) :
    ∀ d ∈ below path (layer.number e.next).1, d.id ∉ cs.map Decl.id := by
  intro d hd hmem
  have hid : d.id ∈ ids (layer.number e.next).1 :=
    List.mem_map_of_mem ((below_sublist path _).mem hd)
  have hold : d.id ∈ e.tree.ids := by
    rw [htree, Context.mem_ids_plug]
    exact .inr (((sublist_preorder cs).map Decl.id).mem hmem)
  have hlower : e.next ≤ d.id := (mem_ids_number.1 hid).1
  have hupper : d.id < e.next := h.fresh d.id hold
  omega

/-- A parsed layer without directives keeps the variables of every container grouped that a path
led to before. The old children of the container keep their order; what is new and no variable
follows them in the order of the layer; no marker comes in whose kind was there. -/
theorem mergeLayer_groups (layers : List Forest) {file source : String} {layer : Forest}
    (hparse : parse file source = .ok layer) (hplain : ∀ d ∈ layer.preorder, d.Undirected)
    {path : List String} {id : Nat}
    (ho : (afterLayers layers).index.containerFor? path = some (.container id)) :
    let e := afterLayers layers
    let r := e.mergeLayer layer
    let before := e.tree.childrenOf (.container id)
    let after := r.2.tree.childrenOf (.container id)
    r.1 = none ∧ r.2.index.containerFor? path = some (.container id) ∧
      (VariablesGrouped before → VariablesGrouped after) ∧
      Extended before (layer.number e.next).1.preorder after := by
  have hcoherent := coherent_afterLayers layers
  intro e r before after
  obtain ⟨c, cs, htree, howner, hpath, hclear⟩ :=
    Index.containerFor?_eq_some hcoherent.mirrors hcoherent.nodup ho
  obtain ⟨hfault, hmerged, htree'⟩ := hcoherent.mergeLayer layer
  let numbered := (layer.number e.next).1
  have hw : ∀ d ∈ numbered.preorder, Directive.winner? d.annotations = none :=
    (forall_number_iff fun d => by simp).2 fun d hd => (hplain d hd).winner?
  have hpath₀ : path ≠ [] := by
    rintro rfl
    cases ho
  have huse := ne_use_below hparse e.next hpath₀
  obtain ⟨c', hbelow, hclear', hpath', howner'⟩ := merged_below cs hclear hpath hw
  have hat : e.At c cs := ⟨htree, hcoherent.mirrors, hcoherent.nodup⟩
  have hat' : r.2.At c' (merged true false cs (below path numbered)) :=
    ⟨by rw [htree', htree, hbelow], hmerged.mirrors, hmerged.nodup⟩
  have howner₁ : c'.owner = .container id := (howner' .root).trans howner
  have hbefore : before = cs := by rw [← hat.childrenOf, howner]
  have hafter : after = merged true false cs (below path numbered) := by
    rw [← hat'.childrenOf, howner₁]
  have hgrown : Grown (below path numbered) before after := by
    rw [hbefore, hafter]
    exact grown_merged cs fun d hd => ⟨hw d ((below_sublist path numbered).mem hd), huse d hd⟩
  have hnew : ∀ d ∈ below path numbered, d.id ∉ before.map Decl.id :=
    hbefore ▸ hcoherent.fresh_below htree layer path
  refine ⟨hfault, ?_, hgrown.variablesGrouped, hgrown.extended (below_sublist path numbered) hnew⟩
  have hfound := Index.containerFor?_path hat'.mirrors_plug hat'.nodup_plug hclear'.leads
  rw [hpath', howner₁] at hfound
  exact hfound

/-- Two variables are put ahead of a method and a marker, another method behind them; a second
marker is dropped. -/
theorem mergeLayer_groups_within :
    let source := "class A\n  def n: () -> T\n  @b: T\n  private\n  @@c: T\nend\n"
    let member (kind : MemberKind) (name : String) : Decl := .member kind { name } none
    let base : Decl := .container .classDecl { name := "A" }
      [member .instanceVariable "@a", member .method "m", member .privateMark "private"] []
    let e := afterLayers [[base]]
    let before := e.tree.childrenOf (.container 1)
    e.index.containerFor? ["A"] = some (.container 1) ∧ VariablesGrouped before ∧
      ∃ layer, parse "" source = .ok layer ∧ (∀ d ∈ layer.preorder, d.Undirected) ∧
        let r := e.mergeLayer layer
        let after := r.2.tree.childrenOf (.container 1)
        after.map Decl.name = ["@a", "@b", "@@c", "m", "private", "n"] ∧
          r.1 = none ∧ r.2.index.containerFor? ["A"] = some (.container 1) ∧
          (VariablesGrouped before → VariablesGrouped after) ∧
          Extended before (layer.number e.next).1.preorder after := by
  intro source member base e before
  have hcoherent : e.Coherent := coherent_afterLayers [[base]]
  let way : Context := [⟨[], .classDecl, { id := 1, name := "A" }, [], []⟩]
  let old : Forest := [.member .instanceVariable { id := 2, name := "@a" } none,
    .member .method { id := 3, name := "m" } none,
    .member .privateMark { id := 4, name := "private" } none]
  have htree : e.tree = way.plug old := by
    refine ((coherent_afterLayers []).mergeLayer [base]).2.2.trans ?_
    rw [afterLayers, List.foldl_nil, ofForest_nil]
    simp only [base, member, number, merged_cons, merged_nil]
    cbv
  have hat : e.At way old := ⟨htree, hcoherent.mirrors, hcoherent.nodup⟩
  have hfound : e.index.containerFor? ["A"] = some (.container 1) :=
    Index.containerFor?_path hat.mirrors_plug hat.nodup_plug (c := way) rfl
  have hbefore : before = old := hat.childrenOf
  have hgrouped : VariablesGrouped before := by
    rw [hbefore]
    refine ⟨fun kind _ => List.triplewise_triple.2 ?_, by simp [old, Decl.kind, Kind.isVariable],
      by simp [old, Decl.kind, Kind.isVariable]⟩
    rintro rfl hmark
    cases hmark
  let method : Decl := .member .method
    { name := "n", text := ["def n: () -> T"], location := some ⟨2, 2⟩ } none
  let own : Decl := .member .instanceVariable
    { name := "@b", text := ["@b: T"], location := some ⟨3, 3⟩ } none
  let mark : Decl := .member .privateMark
    { name := "private", text := ["private"], location := some ⟨4, 4⟩ } none
  let shared : Decl := .member .classVariable
    { name := "@@c", text := ["@@c: T"], location := some ⟨5, 5⟩ } none
  let container : Decl := .container .classDecl
    { name := "A", text := ["class A"], location := some ⟨1, 6⟩ } [method, own, mark, shared] []
  have hparse : parse "" source = .ok [container] := by
    simp only [source]
    cbv
  have hplain : ∀ d ∈ preorder [container], d.Undirected := by
    intro d hd
    simp only [preorder, container, method, own, mark, shared, List.mem_cons, List.append_nil,
      List.not_mem_nil, or_false] at hd
    rcases hd with rfl | rfl | rfl | rfl | rfl <;> exact List.forall_mem_nil _
  have hnames : ((e.mergeLayer [container]).2.tree.childrenOf (.container 1)).map Decl.name =
      ["@a", "@b", "@@c", "m", "private", "n"] := by
    rw [(hcoherent.mergeLayer [container]).2.2, htree]
    generalize e.next = next
    simp only [way, old, container, method, own, mark, shared, number, Context.plug_cons,
      Context.plug_nil, Shell.plug, merged_cons, merged_nil]
    cbv
  exact ⟨hfound, hgrouped, _, hparse, hplain, hnames,
    mergeLayer_groups [[base]] hparse hplain hfound⟩

end Engine
end SignatureLayers
