import Mathlib.Data.List.Lex
import Mathlib.Data.List.Sort
import SignatureLayers.Proofs.Files
import SignatureLayers.Store.Walk

namespace SignatureLayers

namespace FileTree

/-- No two entries of a directory have one name, none has the character that ends a path in its name,
and it is so in all directories below. -/
inductive Proper : FileTree → Prop
  | leaf {t : FileTree} (h : t.rights? = none) : Proper t
  | directory {es : List (String × FileTree)} {rights : Rights} (nodup : (es.map Prod.fst).Nodup)
    (named : ∀ e ∈ es, '\x00' ∉ e.1.toList) (inner : ∀ e ∈ es, Proper e.2) :
    Proper (.directory es rights)

abbrev Visit := List String × Except StoreFault Path

def visit (accepts : String → Bool) (rights : Rights) (path : Path) (name : String)
    (below : Option (List Visit)) : List Visit :=
  match look rights path name below.isSome with
  | .error e => [([name], .error e)]
  | .ok true => (below.getD []).map fun v => (name :: v.1, v.2)
  | .ok false => if accepts (Path.suffix name) then [([name], .ok path)] else []

def visitsIn (rights : Rights) (parts : List (String × List Visit)) : List Visit :=
  if rights.read then inOrder parts else [([], .error .denied)]

def visits (accepts : String → Bool) (dir : Path) (rights : Rights) :
    List (String × FileTree) → List (String × List Visit)
  | [] => []
  | (name, .file _ _) :: rest | (name, .special _ _) :: rest =>
    (name, visit accepts rights (dir.child name) name none) :: visits accepts dir rights rest
  | (name, .directory es inner) :: rest =>
    (name, visit accepts rights (dir.child name) name
      (some (visitsIn inner (visits accepts (dir.child name) inner es)))) ::
      visits accepts dir rights rest

def visited (accepts : String → Bool) (dir : Path) (rights : Rights)
    (es : List (String × FileTree)) : List Visit :=
  visitsIn rights (visits accepts dir rights es)

/-- Names that lead to a file of an accepted suffix, which may be a special file. -/
def Accepted (accepts : String → Bool) (t : FileTree) (names : List String) : Prop :=
  (∃ n, t.at? names = some n ∧ n.rights? = none) ∧
    ∃ name ∈ names.getLast?, accepts (Path.suffix name) = true

/-- Names that lead to what the system refuses to a walk of the directory `dir`: to a directory that
can not be listed, to an entry of one that can not be entered, or to an entry with a name or a path
that is too long. -/
inductive Refused : Path → FileTree → List String → Prop
  | unlisted {dir : Path} {es : List (String × FileTree)} {rights : Rights}
    (h : rights.read = false) : Refused dir (.directory es rights) []
  | closed {dir : Path} {es : List (String × FileTree)} {rights : Rights} {name : String}
    {n : FileTree} (hentry : es.lookup name = some n) (h : rights.enter = false) :
    Refused dir (.directory es rights) [name]
  | tooLong {dir : Path} {es : List (String × FileTree)} {rights : Rights} {name : String}
    {n : FileTree} (hentry : es.lookup name = some n)
    (h : (dir.child name).fault? = some .tooLong ∨ isTooLong name = true) :
    Refused dir (.directory es rights) [name]
  | inner {dir : Path} {es : List (String × FileTree)} {rights : Rights} {name : String}
    {n : FileTree} {names : List String} (hentry : es.lookup name = some n)
    (h : Refused (dir.child name) n names) : Refused dir (.directory es rights) (name :: names)

variable {accepts : String → Bool} {dir path : Path} {es : List (String × FileTree)}
  {rights : Rights} {name : String} {names : List String} {t n : FileTree} {v : Visit}
  {vs : List Visit} {x : Except StoreFault Path} {b : Bool}

section InOrder
variable {α β : Type} {parts : List (String × List α)}

theorem mem_inOrder {x : α} : x ∈ inOrder parts ↔ ∃ part ∈ parts, x ∈ part.2 := by
  simp [inOrder, List.mem_flatMap, (List.mergeSort_perm parts _).mem_iff]

theorem map_inOrder (f : α → β) (parts : List (String × List α)) :
    (inOrder parts).map f = inOrder (parts.map fun part => (part.1, part.2.map f)) := by
  have hsort := List.map_mergeSort (r := fun a b => decide (a.1 ≤ b.1))
    (s := fun a b => decide (a.1 ≤ b.1)) (f := fun part => (part.1, part.2.map f)) (l := parts)
    fun a _ b _ => rfl
  rw [inOrder, inOrder, ← hsort, List.map_flatMap, List.flatMap_map]

theorem pairwise_inOrder {R : α → α → Prop} (hnames : (parts.map Prod.fst).Nodup)
    (hparts : ∀ part ∈ parts, part.2.Pairwise R)
    (hacross : ∀ a ∈ parts, ∀ b ∈ parts, a.1 < b.1 → ∀ x ∈ a.2, ∀ y ∈ b.2, R x y) :
    (inOrder parts).Pairwise R := by
  have hperm := List.mergeSort_perm parts fun a b => decide (a.1 ≤ b.1)
  have hsorted : (parts.mergeSort fun a b => a.1 ≤ b.1).Pairwise (·.1 ≤ ·.1) := by
    have htrans (a b c : String × List α) (hab : decide (a.1 ≤ b.1)) (hbc : decide (b.1 ≤ c.1)) :
        decide (a.1 ≤ c.1) := by
      rw [decide_eq_true_eq] at hab hbc ⊢
      exact hab.trans hbc
    have htotal (a b : String × List α) : (decide (a.1 ≤ b.1) || decide (b.1 ≤ a.1)) = true := by
      simpa using le_total a.1 b.1
    simpa using List.pairwise_mergeSort htrans htotal parts
  have hapart : (parts.mergeSort fun a b => a.1 ≤ b.1).Pairwise (·.1 ≠ ·.1) := by
    rw [← List.pairwise_map (R := (· ≠ ·))]
    exact (hperm.map Prod.fst).nodup_iff.2 hnames
  refine List.pairwise_flatMap.2 ⟨fun part hpart => hparts part (hperm.mem_iff.1 hpart), ?_⟩
  refine (hsorted.and hapart).imp_of_mem fun {a b} ha hb hab => ?_
  exact hacross a (hperm.mem_iff.1 ha) b (hperm.mem_iff.1 hb) (lt_of_le_of_ne hab.1 hab.2)

end InOrder

def isShut (rights : Rights) (path : Path) (name : String) : Bool :=
  path.fault? == some .tooLong || !rights.enter || isTooLong name

theorem look_eq (hpath : path.fault? ≠ some .unnameable) (rights : Rights) (name : String)
    (b : Bool) :
    look rights path name b = if isShut rights path name then .error .refused else .ok b := by
  have hfault : path.fault? = none ∨ path.fault? = some .refused := by
    unfold Path.fault? at hpath ⊢
    split <;> [simp_all; split <;> simp]
  rcases hfault with hfault | hfault
  · cases henter : rights.enter <;> cases hlong : isTooLong name <;>
      simp [look, isShut, hfault, henter, hlong]
  · simp [look, isShut, hfault]

def visitsAt (accepts : String → Bool) (dir : Path) (rights : Rights) (name : String) :
    FileTree → List Visit
  | .directory es inner =>
    visit accepts rights (dir.child name) name (some (visited accepts (dir.child name) inner es))
  | _ => visit accepts rights (dir.child name) name none

theorem visits_eq_map (accepts : String → Bool) (dir : Path) (rights : Rights)
    (es : List (String × FileTree)) :
    visits accepts dir rights es = es.map fun e => (e.1, visitsAt accepts dir rights e.1 e.2) := by
  induction es with
  | nil => rw [visits, List.map_nil]
  | cons e es ih =>
    obtain ⟨name, node⟩ := e
    cases node <;> rw [visits, ih] <;> rfl

theorem mem_visited : v ∈ visited accepts dir rights es ↔
    (rights.read = false ∧ v = ([], .error .refused)) ∨
      rights.read = true ∧ ∃ name n, (name, n) ∈ es ∧ v ∈ visitsAt accepts dir rights name n := by
  rw [visited, visitsIn]
  cases rights.read with
  | false => simp
  | true => simp [mem_inOrder, visits_eq_map]

theorem mem_visitsAt (hpath : (dir.child name).fault? ≠ some .unnameable) :
    v ∈ visitsAt accepts dir rights name n ↔
      (isShut rights (dir.child name) name = true ∧ v = ([name], .error .refused)) ∨
      isShut rights (dir.child name) name = false ∧
        ((n.rights? = none ∧ accepts (Path.suffix name) = true ∧
            v = ([name], .ok (dir.child name))) ∨
          ∃ es inner u, n = .directory es inner ∧ u ∈ visited accepts (dir.child name) inner es ∧
            v = (name :: u.1, u.2)) := by
  cases hshut : isShut rights (dir.child name) name with
  | true => cases n <;> simp [visitsAt, visit, look_eq hpath, hshut]
  | false =>
    cases n with
    | directory es inner =>
      simp [visitsAt, visit, look_eq hpath, hshut, rights?, eq_comm (a := v)]
    | file | special =>
      by_cases h : accepts (Path.suffix name) = true <;>
        simp [visitsAt, visit, look_eq hpath, hshut, rights?, h]

theorem map_snd_visit (accepts : String → Bool) (rights : Rights) (path : Path) (name : String)
    (below : Option (List Visit)) :
    (visit accepts rights path name below).map Prod.snd =
      entered accepts rights path name (below.map (List.map Prod.snd)) := by
  rw [visit, entered, Option.isSome_map]
  rcases look rights path name below.isSome with e | _ | _
  · rfl
  · dsimp only
    split <;> rfl
  · cases below <;> simp [Function.comp_def]

theorem map_snd_visitsIn (rights : Rights) (parts : List (String × List Visit)) :
    (visitsIn rights parts).map Prod.snd =
      listed rights (parts.map fun part => (part.1, part.2.map Prod.snd)) := by
  rw [visitsIn, listed]
  split
  · rw [map_inOrder]
  · rfl

theorem found_eq (accepts : String → Bool) (dir : Path) (rights : Rights)
    (es : List (String × FileTree)) :
    found accepts dir rights es =
      (visits accepts dir rights es).map fun part => (part.1, part.2.map Prod.snd) := by
  induction dir, rights, es using visits.induct with
  | case1 dir rights => rw [found, visits, List.map_nil]
  | case2 dir rights name bytes inner rest ih | case3 dir rights name given sent rest ih =>
    rw [found, visits, List.map_cons, map_snd_visit, ih, Option.map_none]
  | case4 dir rights name es inner rest hinner ih =>
    rw [found, visits, List.map_cons, map_snd_visit, ih, Option.map_some, map_snd_visitsIn, hinner]

theorem walk_eq (accepts : String → Bool) (dir : Path) (rights : Rights)
    (es : List (String × FileTree)) :
    walk accepts dir rights es = .ofFound ((visited accepts dir rights es).map Prod.snd) := by
  rw [walk, found_eq, visited, map_snd_visitsIn]

theorem fst_of_mem_visitsAt (h : v ∈ visitsAt accepts dir rights name n) :
    ∃ rest, v.1 = name :: rest := by
  have hvisit {below : Option (List Visit)}
      (hv : v ∈ visit accepts rights (dir.child name) name below) : ∃ rest, v.1 = name :: rest := by
    unfold visit at hv
    split at hv
    · exact ⟨[], by rw [List.mem_singleton.1 hv]⟩
    · obtain ⟨u, -, rfl⟩ := List.mem_map.1 hv
      exact ⟨u.1, rfl⟩
    · split at hv
      · exact ⟨[], by rw [List.mem_singleton.1 hv]⟩
      · cases hv
  cases n <;> exact hvisit h

theorem pairwise_visit {below : Option (List Visit)}
    (h : ∀ vs ∈ below, vs.Pairwise (·.1 < ·.1)) :
    (visit accepts rights path name below).Pairwise (·.1 < ·.1) := by
  unfold visit
  split
  · exact List.pairwise_singleton _ _
  · cases below with
    | none => exact .nil
    | some vs => exact List.pairwise_map.2 ((h vs rfl).imp List.cons_lt_cons_self.2)
  · split
    · exact List.pairwise_singleton _ _
    · exact .nil

theorem pairwise_of_visits (hnames : (es.map Prod.fst).Nodup)
    (h : ∀ part ∈ visits accepts dir rights es, part.2.Pairwise (·.1 < ·.1)) :
    (visited accepts dir rights es).Pairwise (·.1 < ·.1) := by
  have hfst : (visits accepts dir rights es).map Prod.fst = es.map Prod.fst := by
    rw [visits_eq_map, List.map_map]
    rfl
  have hhead {part : String × List Visit} (hpart : part ∈ visits accepts dir rights es) {v : Visit}
      (hv : v ∈ part.2) : ∃ rest, v.1 = part.1 :: rest := by
    rw [visits_eq_map] at hpart
    obtain ⟨e, -, rfl⟩ := List.mem_map.1 hpart
    exact fst_of_mem_visitsAt hv
  rw [visited, visitsIn]
  split
  · refine pairwise_inOrder (hfst ▸ hnames) h fun a ha b hb hab x hx y hy => ?_
    obtain ⟨xs, hxs⟩ := hhead ha hx
    obtain ⟨ys, hys⟩ := hhead hb hy
    rw [hxs, hys]
    exact List.cons_lt_cons_iff.2 (.inl hab)
  · exact List.pairwise_singleton _ _

/-- Whatever the order in which directories list their entries, a walk comes to what it finds in
the strict order of the names that lead there. -/
theorem pairwise_visited (ht : Proper t) (hes : t = .directory es rights) :
    (visited accepts dir rights es).Pairwise (·.1 < ·.1) := by
  induction ht generalizing dir es rights with
  | leaf h =>
    rw [hes] at h
    cases h
  | directory nodup _ _ ih =>
    cases hes
    refine pairwise_of_visits nodup fun part hpart => ?_
    rw [visits_eq_map] at hpart
    obtain ⟨⟨name, node⟩, he, rfl⟩ := List.mem_map.1 hpart
    cases node with
    | directory es inner =>
      refine pairwise_visit fun vs hvs => ?_
      cases hvs
      exact ih _ he rfl
    | file | special => exact pairwise_visit fun vs hvs => by cases hvs

theorem Proper.inner (ht : Proper (.directory es rights)) (h : (name, n) ∈ es) : Proper n := by
  cases ht with
  | leaf h => cases h
  | directory _ _ inner => exact inner _ h

theorem Proper.named (ht : Proper (.directory es rights)) (h : (name, n) ∈ es) :
    '\x00' ∉ name.toList := by
  cases ht with
  | leaf h => cases h
  | directory _ named _ => exact named _ h

theorem Proper.perm {es' : List (String × FileTree)} (ht : Proper (.directory es rights))
    (h : es.Perm es') : Proper (.directory es' rights) := by
  cases ht with
  | leaf h => cases h
  | directory nodup named inner =>
    exact .directory ((h.map Prod.fst).nodup_iff.1 nodup) (fun e he => named e (h.mem_iff.2 he))
      fun e he => inner e (h.mem_iff.2 he)

theorem Proper.lookup (ht : Proper (.directory es rights)) (h : (name, n) ∈ es) :
    es.lookup name = some n := by
  cases ht with
  | leaf h => cases h
  | directory nodup _ _ =>
    obtain ⟨xs, ys, rfl⟩ := List.append_of_mem h
    refine List.lookup_eq_some_iff.2 ⟨xs, ys, rfl, fun e he => ?_⟩
    rw [List.map_append, List.map_cons, List.nodup_append] at nodup
    exact bne_iff_ne.2 fun hname =>
      nodup.2.2 e.1 (List.mem_map_of_mem he) name List.mem_cons_self hname.symm

theorem mem_of_lookup (h : es.lookup name = some n) : (name, n) ∈ es := by
  obtain ⟨xs, ys, rfl, -⟩ := List.lookup_eq_some_iff.1 h
  simp

theorem at?_of_lookup (h : es.lookup name = some n) (rest : List String) :
    (directory es rights).at? (name :: rest) = n.at? rest := by
  rw [at?_cons, entries, h, Option.bind_some]

theorem Proper.child (ht : Proper (.directory es rights)) (hdir : dir.fault? ≠ some .unnameable)
    (h : (name, n) ∈ es) : (dir.child name).fault? ≠ some .unnameable :=
  Path.fault?_child_ne_unnameable hdir (ht.named h)

theorem refused_of_isShut (hentry : es.lookup name = some n)
    (h : isShut rights (dir.child name) name = true) :
    Refused dir (.directory es rights) [name] := by
  simp only [isShut, Bool.or_eq_true, beq_iff_eq, Bool.not_eq_true'] at h
  rcases h with (h | h) | h
  · exact .tooLong hentry (.inl h)
  · exact .closed hentry h
  · exact .tooLong hentry (.inr h)

/-- A walk comes to nothing but refusals and accepted files. -/
theorem sound_visited (ht : Proper (.directory es rights)) (hdir : dir.fault? ≠ some .unnameable)
    (h : (names, x) ∈ visited accepts dir rights es) :
    (x = .error .refused ∧ Refused dir (.directory es rights) names) ∨
      x = .ok (dir.below names) ∧ Accepted accepts (.directory es rights) names := by
  induction names generalizing dir rights es with
  | nil =>
    rcases mem_visited.1 h with ⟨hread, heq⟩ | ⟨-, name, n, -, hv⟩
    · cases heq
      exact .inl ⟨rfl, .unlisted hread⟩
    · obtain ⟨rest, hrest⟩ := fst_of_mem_visitsAt hv
      cases hrest
  | cons first rest ih =>
    rcases mem_visited.1 h with ⟨-, heq⟩ | ⟨-, name, n, he, hv⟩
    · cases heq
    have hlookup := ht.lookup he
    have hpath := ht.child hdir he
    rcases (mem_visitsAt hpath).1 hv with ⟨hshut, heq⟩ |
      ⟨-, ⟨hleaf, haccepts, heq⟩ | ⟨below, inner, u, rfl, hu, heq⟩⟩
    · cases heq
      exact .inl ⟨rfl, refused_of_isShut hlookup hshut⟩
    · cases heq
      refine .inr ⟨rfl, ⟨n, ?_, hleaf⟩, first, rfl, haccepts⟩
      rw [at?_of_lookup hlookup, at?_nil]
    · cases heq
      rcases ih (ht.inner he) hpath hu with
        ⟨hx, hrefused⟩ | ⟨hx, ⟨n, hat, hleaf⟩, last, hlast, haccepts⟩
      · exact .inl ⟨hx, .inner hlookup hrefused⟩
      · refine .inr ⟨by rw [Path.below_cons]; exact hx, ⟨n, ?_, hleaf⟩, last, ?_, haccepts⟩
        · rw [at?_of_lookup hlookup, hat]
        · rw [List.getLast?_cons, Option.mem_def.1 hlast]
          rfl

theorem visited_inner {inner : Rights} {below : List (String × FileTree)}
    (ht : Proper (.directory es rights)) (hdir : dir.fault? ≠ some .unnameable)
    (hread : rights.read = true) (he : (name, .directory below inner) ∈ es)
    (hshut : isShut rights (dir.child name) name = false)
    (hv : v ∈ visited accepts (dir.child name) inner below) :
    (name :: v.1, v.2) ∈ visited accepts dir rights es :=
  mem_visited.2 (.inr ⟨hread, name, _, he, (mem_visitsAt (ht.child hdir he)).2
    (.inr ⟨hshut, .inr ⟨below, inner, v, rfl, hv, rfl⟩⟩)⟩)

theorem visited_shut (ht : Proper (.directory es rights)) (hdir : dir.fault? ≠ some .unnameable)
    (hread : rights.read = true) (he : (name, n) ∈ es)
    (hshut : isShut rights (dir.child name) name = true) :
    ([name], .error .refused) ∈ visited accepts dir rights es :=
  mem_visited.2 (.inr ⟨hread, name, n, he, (mem_visitsAt (ht.child hdir he)).2 (.inl ⟨hshut, rfl⟩)⟩)

theorem Refused.directory (h : Refused dir t names) : ∃ es rights, t = .directory es rights := by
  cases h <;> exact ⟨_, _, rfl⟩

/-- What is refused ends a walk, unless something on the way there does. -/
theorem Refused.visited (h : Refused dir t names) (ht : Proper t)
    (hdir : dir.fault? ≠ some .unnameable) (hes : t = .directory es rights) :
    ∃ before, before <+: names ∧ (before, .error .refused) ∈ visited accepts dir rights es := by
  cases hread : rights.read with
  | false => exact ⟨[], List.nil_prefix, mem_visited.2 (.inl ⟨hread, rfl⟩)⟩
  | true =>
    induction h generalizing es rights with
    | unlisted h =>
      cases hes
      rw [hread] at h
      cases h
    | closed hentry h =>
      cases hes
      exact ⟨_, List.prefix_rfl, visited_shut ht hdir hread (mem_of_lookup hentry)
        (by simp [isShut, h])⟩
    | tooLong hentry h =>
      cases hes
      refine ⟨_, List.prefix_rfl, visited_shut ht hdir hread (mem_of_lookup hentry) ?_⟩
      rcases h with h | h <;> simp [isShut, h]
    | @inner dir es rights name n names hentry h ih =>
      cases hes
      have he := mem_of_lookup hentry
      obtain ⟨below, inner, rfl⟩ := h.directory
      cases hshut : isShut rights (dir.child name) name with
      | true =>
        exact ⟨[name], List.cons_prefix_cons.2 ⟨rfl, List.nil_prefix⟩,
          visited_shut ht hdir hread he hshut⟩
      | false =>
        obtain ⟨before, hbefore, hv⟩ : ∃ before, before <+: names ∧
            (before, .error .refused) ∈ visited accepts (dir.child name) inner below := by
          cases hinner : inner.read with
          | false => exact ⟨[], List.nil_prefix, mem_visited.2 (.inl ⟨hinner, rfl⟩)⟩
          | true => exact ih (ht.inner he) (ht.child hdir he) rfl hinner
        exact ⟨name :: before, List.cons_prefix_cons.2 ⟨rfl, hbefore⟩,
          visited_inner ht hdir hread he hshut hv⟩

theorem Accepted.visited_or (ht : Proper (.directory es rights))
    (hdir : dir.fault? ≠ some .unnameable) (h : Accepted accepts (.directory es rights) names) :
    (∃ before, before <+: names ∧ (before, .error .refused) ∈ visited accepts dir rights es) ∨
      (names, .ok (dir.below names)) ∈ visited accepts dir rights es := by
  induction names generalizing dir rights es with
  | nil =>
    obtain ⟨-, last, hlast, -⟩ := h
    cases hlast
  | cons name rest ih =>
    obtain ⟨⟨m, hat, hleaf⟩, last, hlast, haccepts⟩ := h
    obtain ⟨n, hentry, hrest⟩ := Option.bind_eq_some_iff.1 (at?_cons _ name rest ▸ hat)
    have he : (name, n) ∈ es := mem_of_lookup hentry
    cases hread : rights.read with
    | false => exact .inl ⟨[], List.nil_prefix, mem_visited.2 (.inl ⟨hread, rfl⟩)⟩
    | true =>
      cases hshut : isShut rights (dir.child name) name with
      | true =>
        exact .inl ⟨[name], List.cons_prefix_cons.2 ⟨rfl, List.nil_prefix⟩,
          visited_shut ht hdir hread he hshut⟩
      | false =>
        cases rest with
        | nil =>
          cases hlast
          rw [at?_nil] at hrest
          cases hrest
          exact .inr (mem_visited.2 (.inr ⟨hread, name, _, he, (mem_visitsAt (ht.child hdir he)).2
            (.inr ⟨hshut, .inl ⟨hleaf, haccepts, rfl⟩⟩)⟩))
        | cons next more =>
          obtain ⟨below, inner, -, rfl, -⟩ := exists_of_at?_cons hrest
          rw [List.getLast?_cons_cons] at hlast
          rcases ih (ht.inner he) (ht.child hdir he) ⟨⟨m, hrest, hleaf⟩, last, hlast, haccepts⟩ with
            ⟨before, hbefore, hv⟩ | hv
          · exact .inl ⟨name :: before, List.cons_prefix_cons.2 ⟨rfl, hbefore⟩,
              visited_inner ht hdir hread he hshut hv⟩
          · rw [Path.below_cons]
            exact .inr (visited_inner ht hdir hread he hshut hv)

theorem ofFound_split (vs : List Visit) : ∃ (taken : List (List String × Path)) (rest : List Visit),
    vs = taken.map (fun t => (t.1, .ok t.2)) ++ rest ∧
      (Walk.ofFound (vs.map Prod.snd)).files = taken.map Prod.snd ∧
      ((rest = [] ∧ (Walk.ofFound (vs.map Prod.snd)).fault = none) ∨
        ∃ names e later, rest = (names, .error e) :: later ∧
          (Walk.ofFound (vs.map Prod.snd)).fault = some e) := by
  induction vs with
  | nil => exact ⟨[], [], rfl, rfl, .inl ⟨rfl, rfl⟩⟩
  | cons v vs ih =>
    obtain ⟨names, x⟩ := v
    cases x with
    | error e => exact ⟨[], (names, .error e) :: vs, rfl, rfl, .inr ⟨names, e, vs, rfl, rfl⟩⟩
    | ok p =>
      obtain ⟨taken, rest, hsplit, hfiles, hfault⟩ := ih
      exact ⟨(names, p) :: taken, rest, congrArg _ hsplit, congrArg _ hfiles, hfault⟩

end FileTree

open FileTree

/-- A walk of the directory `t` at `dir` lists the accepted files whose names `found` come before all
that lead to a refusal, in their order, and ends with a fault just when there is a refusal. -/
structure Walk.Lists (w : Walk) (accepts : String → Bool) (dir : Path) (t : FileTree)
    (found : List (List String)) : Prop where
  files : w.files = found.map dir.below
  increasing : found.Pairwise (· < ·)
  exact : ∀ names, names ∈ found ↔
    Accepted accepts t names ∧ ∀ refused, Refused dir t refused → names < refused
  fault : (w.fault = none ∧ ∀ names, ¬ Refused dir t names) ∨
    w.fault = some .refused ∧ ∃ names, Refused dir t names

namespace FileTree
variable {accepts : String → Bool} {dir : Path} {es : List (String × FileTree)} {rights : Rights}
  {t t' t'' : FileTree} {names : List String} {w w' : Walk} {found found' : List (List String)}

theorem le_of_begins {before : List String} (h : before <+: names) : before ≤ names := by
  obtain ⟨rest, rfl⟩ := h
  have hle : ¬ before ++ rest < before := List.le_append_left
  exact not_lt.1 hle

theorem Accepted.visited (ht : Proper (.directory es rights)) (hdir : dir.fault? ≠ some .unnameable)
    (h : Accepted accepts (.directory es rights) names)
    (hfront : ∀ refused, Refused dir (.directory es rights) refused → names < refused) :
    (names, .ok (dir.below names)) ∈ visited accepts dir rights es := by
  rcases h.visited_or ht hdir with ⟨before, hbefore, hv⟩ | hv
  · rcases sound_visited ht hdir hv with ⟨-, hrefused⟩ | ⟨hok, -⟩
    · exact absurd (hfront before hrefused) (not_lt.2 (le_of_begins hbefore))
    · cases hok
  · exact hv

section Split
variable {taken : List (List String × Path)} {rest later : List Visit} {e : StoreFault}

theorem accepted_of_taken (ht : Proper (.directory es rights))
    (hdir : dir.fault? ≠ some .unnameable)
    (hsplit : visited accepts dir rights es = taken.map (fun t => (t.1, .ok t.2)) ++ rest) :
    ∀ t ∈ taken, t.2 = dir.below t.1 ∧ Accepted accepts (.directory es rights) t.1 := by
  intro t htaken
  have hv : (t.1, .ok t.2) ∈ visited accepts dir rights es := by
    rw [hsplit]
    exact List.mem_append_left _ (List.mem_map.2 ⟨t, htaken, rfl⟩)
  rcases sound_visited ht hdir hv with ⟨he, -⟩ | ⟨hok, haccepted⟩
  · cases he
  · exact ⟨Except.ok.inj hok, haccepted⟩

theorem behind_of_refused (ht : Proper (.directory es rights))
    (hdir : dir.fault? ≠ some .unnameable)
    (hsplit : visited accepts dir rights es = taken.map (fun t => (t.1, .ok t.2)) ++ rest)
    (h : Refused dir (.directory es rights) names) : ∃ v ∈ rest, v.1 ≤ names := by
  obtain ⟨before, hbefore, hv⟩ : ∃ before, before <+: names ∧
      (before, .error .refused) ∈ visited accepts dir rights es := h.visited ht hdir rfl
  rw [hsplit, List.mem_append, List.mem_map] at hv
  rcases hv with ⟨t, -, heq⟩ | hv
  · cases heq
  · exact ⟨_, hv, le_of_begins hbefore⟩

/-- What ends the walk is a refusal, and nothing later is in front of it. -/
theorem refused_of_first (ht : Proper (.directory es rights))
    (hdir : dir.fault? ≠ some .unnameable)
    (hsplit : visited accepts dir rights es =
      taken.map (fun t => (t.1, .ok t.2)) ++ (names, .error e) :: later) :
    e = .refused ∧ Refused dir (.directory es rights) names ∧
      ∀ v ∈ (names, .error e) :: later, names ≤ v.1 := by
  have hvisited : (visited accepts dir rights es).Pairwise (·.1 < ·.1) := pairwise_visited ht rfl
  have hv : (names, .error e) ∈ visited accepts dir rights es := by simp [hsplit]
  rcases sound_visited ht hdir hv with ⟨he, hrefused⟩ | ⟨hok, -⟩
  · have hlater := (List.pairwise_append.1 (hsplit ▸ hvisited)).2.1
    exact ⟨Except.error.inj he, hrefused, List.forall_mem_cons.2 ⟨le_refl _, fun v hv =>
      (List.rel_of_pairwise_cons hlater hv).le⟩⟩
  · cases hok

end Split

/-- The files that a walk takes are those in front of all refusals, in their order. -/
theorem exists_lists (accepts : String → Bool) (ht : Proper (.directory es rights))
    (hdir : dir.fault? ≠ some .unnameable) :
    ∃ found, (walk accepts dir rights es).Lists accepts dir (.directory es rights) found := by
  obtain ⟨taken, rest, hsplit, hfiles, hend⟩ := ofFound_split (visited accepts dir rights es)
  rw [← walk_eq] at hfiles hend
  have hvisited : (visited accepts dir rights es).Pairwise (·.1 < ·.1) := pairwise_visited ht rfl
  obtain ⟨hsorted, -, hacross⟩ := List.pairwise_append.1 (hsplit ▸ hvisited)
  have htaken := accepted_of_taken ht hdir hsplit
  refine ⟨taken.map Prod.fst, ?_, ?_, fun names => ⟨fun h => ?_, fun ⟨haccepted, hfront⟩ => ?_⟩, ?_⟩
  · rw [hfiles, List.map_map]
    exact List.map_congr_left fun t ht => (htaken t ht).1
  · rw [List.pairwise_map] at hsorted ⊢
    exact hsorted
  · obtain ⟨t, hmem, rfl⟩ := List.mem_map.1 h
    refine ⟨(htaken t hmem).2, fun refused hrefused => ?_⟩
    obtain ⟨v, hv, hle⟩ := behind_of_refused ht hdir hsplit hrefused
    exact (hacross (t.1, .ok t.2) (List.mem_map.2 ⟨t, hmem, rfl⟩) v hv).trans_le hle
  · have hv := haccepted.visited ht hdir hfront
    rw [hsplit, List.mem_append, List.mem_map] at hv
    rcases hv with ⟨t, hmem, heq⟩ | hv
    · exact List.mem_map.2 ⟨t, hmem, congrArg Prod.fst heq⟩
    · rcases hend with ⟨rfl, -⟩ | ⟨first, e, later, rfl, -⟩
      · cases hv
      · obtain ⟨-, hrefused, hleast⟩ := refused_of_first ht hdir hsplit
        exact absurd (hfront first hrefused) (not_lt.2 (hleast _ hv))
  · rcases hend with ⟨rfl, hfault⟩ | ⟨first, e, later, rfl, hfault⟩
    · refine .inl ⟨hfault, fun refused hrefused => ?_⟩
      obtain ⟨v, hv, -⟩ := behind_of_refused ht hdir hsplit hrefused
      cases hv
    · obtain ⟨rfl, hrefused, -⟩ := refused_of_first ht hdir hsplit
      exact .inr ⟨hfault, first, hrefused⟩

/-- Names lead to directories with the same rights, and to no directories, in the same places. -/
def SameEntries (t t' : FileTree) : Prop :=
  ∀ names, (t.at? names).map rights? = (t'.at? names).map rights?

theorem SameEntries.refl (t : FileTree) : SameEntries t t := fun _ => rfl

theorem SameEntries.symm (h : SameEntries t t') : SameEntries t' t := fun names => (h names).symm

theorem SameEntries.trans (h : SameEntries t t') (h' : SameEntries t' t'') : SameEntries t t'' :=
  fun names => (h names).trans (h' names)

/-- The order in which a directory lists its entries makes no difference. -/
theorem SameEntries.of_perm {es' : List (String × FileTree)} (ht : Proper (.directory es rights))
    (h : es.Perm es') : SameEntries (.directory es rights) (.directory es' rights) := by
  have hlookup (name : String) : es.lookup name = es'.lookup name := Option.ext fun n =>
    ⟨fun hn => (ht.perm h).lookup (h.mem_iff.1 (mem_of_lookup hn)),
      fun hn => ht.lookup (h.mem_iff.2 (mem_of_lookup hn))⟩
  rintro (_ | ⟨name, rest⟩)
  · rw [at?_nil, at?_nil, Option.map_some, Option.map_some, rights?, rights?]
  · rw [at?_cons, at?_cons, entries, entries, hlookup]

theorem SameEntries.cons {es' : List (String × FileTree)} {n n' : FileTree} {name : String}
    (hn : SameEntries n n') (h : SameEntries (.directory es rights) (.directory es' rights)) :
    SameEntries (.directory ((name, n) :: es) rights) (.directory ((name, n') :: es') rights) := by
  rintro (_ | ⟨first, rest⟩)
  · rw [at?_nil, at?_nil, Option.map_some, Option.map_some, rights?, rights?]
  · rw [at?_cons, at?_cons, entries, entries, List.lookup_cons, List.lookup_cons]
    cases first == name with
    | true => exact hn rest
    | false =>
      have hrest := h (first :: rest)
      rwa [at?_cons, at?_cons] at hrest

theorem SameEntries.sameRights (h : SameEntries t t') : t.rights? = t'.rights? := by
  have hroot := h []
  rwa [at?_nil, at?_nil, Option.map_some, Option.map_some, Option.some.injEq] at hroot

theorem SameEntries.entry {name : String} {n : FileTree} (h : SameEntries t t')
    (hn : t.entries.lookup name = some n) :
    ∃ n', t'.entries.lookup name = some n' ∧ SameEntries n n' := by
  have hnames (rest : List String) :
      (n.at? rest).map rights? = (t'.at? (name :: rest)).map rights? := by
    rw [← h (name :: rest), at?_cons, hn, Option.bind_some]
  cases hn' : t'.entries.lookup name with
  | none => simpa [at?_cons, hn'] using hnames []
  | some n' =>
    refine ⟨n', rfl, fun rest => ?_⟩
    rw [hnames, at?_cons, hn', Option.bind_some]

theorem SameEntries.accepted (h : SameEntries t t') (ha : Accepted accepts t names) :
    Accepted accepts t' names := by
  obtain ⟨⟨n, hat, hleaf⟩, hlast⟩ := ha
  have hsame := h names
  rw [hat, Option.map_some, hleaf, eq_comm, Option.map_eq_some_iff] at hsame
  exact ⟨hsame, hlast⟩

theorem SameEntries.refused (h : SameEntries t t') (hr : Refused dir t names) :
    Refused dir t' names := by
  induction hr generalizing t' with
  | unlisted hread =>
    obtain ⟨es', rfl⟩ := rights?_eq_some.1 h.sameRights.symm
    exact .unlisted hread
  | closed hentry henter =>
    obtain ⟨es', rfl⟩ := rights?_eq_some.1 h.sameRights.symm
    obtain ⟨n', hentry', -⟩ := h.entry hentry
    exact .closed hentry' henter
  | tooLong hentry hlong =>
    obtain ⟨es', rfl⟩ := rights?_eq_some.1 h.sameRights.symm
    obtain ⟨n', hentry', -⟩ := h.entry hentry
    exact .tooLong hentry' hlong
  | inner hentry hn ih =>
    obtain ⟨es', rfl⟩ := rights?_eq_some.1 h.sameRights.symm
    obtain ⟨n', hentry', hsame⟩ := h.entry hentry
    exact .inner hentry' (ih hsame)

/-- What a walk lists depends on the names of the files and on the refusals alone. -/
theorem lists_unique (h : SameEntries t t') (hw : w.Lists accepts dir t found)
    (hw' : w'.Lists accepts dir t' found') : w = w' := by
  have hrefused (names : List String) : Refused dir t names ↔ Refused dir t' names :=
    ⟨h.refused, h.symm.refused⟩
  have hfound : found = found' := by
    refine List.Pairwise.eq_of_mem_iff hw.increasing hw'.increasing fun names => ?_
    rw [hw.exact, hw'.exact]
    simp only [hrefused]
    exact and_congr_left fun _ => ⟨h.accepted, h.symm.accepted⟩
  have hfault : w.fault = w'.fault := by
    rcases hw.fault with ⟨hnone, hopen⟩ | ⟨hsome, names, hnames⟩ <;>
      rcases hw'.fault with ⟨hnone', hopen'⟩ | ⟨hsome', names', hnames'⟩
    · rw [hnone, hnone']
    · exact absurd ((hrefused names').2 hnames') (hopen names')
    · exact absurd ((hrefused names).1 hnames) (hopen' names)
    · rw [hsome, hsome']
  obtain ⟨files, fault⟩ := w
  obtain ⟨files', fault'⟩ := w'
  have hfiles : files = files' := by
    rw [show files = _ from hw.files, show files' = _ from hw'.files, hfound]
  rw [hfiles, show fault = fault' from hfault]

end FileTree

def Store.around (t : FileTree) : Store := ⟨.directory [("d", t)], ⟨"/", []⟩⟩

/-- A path to the directory `d` that goes into it and out of it again `k` times before. -/
def Path.rounds (k : Nat) : Path := ⟨"", (List.replicate k ["d", ".."]).flatten ++ ["d"]⟩

/-- With 818 rounds the path of the directory has 4091 bytes, and that of a file in it 4097. -/
theorem Path.fault?_rounds :
    (rounds 818).fault? = none ∧ ((rounds 818).child "f.rbs").fault? = some .tooLong := by
  constructor
  · rw [rounds, fault?_relative (List.append_ne_nil_of_right_ne_nil _ (List.cons_ne_nil _ _)),
      List.map_append, List.map_flatten, List.map_replicate]
    decide +kernel
  · rw [rounds, child,
      fault?_relative (List.append_ne_nil_of_right_ne_nil _ (List.cons_ne_nil _ _)), List.map_append,
      List.map_append, List.map_flatten, List.map_replicate]
    decide +kernel

theorem Spot.follow_round {a : Spot} {es below : List (String × FileTree)} {name : String}
    (hnode : a.node = .directory es) (hdots : name ≠ "..") (hshort : isTooLong name = false)
    (hnext : es.lookup name = some (.directory below)) (rest : List String) :
    a.follow true (name :: ".." :: rest) = a.follow true rest := by
  have hdown : a.step true name = .ok (a.below name (.directory below)) :=
    step_eq_ok.2 ⟨es, {}, hnode, rfl, .inr ⟨hdots, hshort, _, hnext, rfl⟩⟩
  have hup : (a.below name (.directory below)).step true ".." = .ok a :=
    step_eq_ok.2 ⟨below, {}, rfl, rfl, .inl ⟨rfl, rfl⟩⟩
  rw [follow_cons, hdown]
  show (a.below name (.directory below)).follow true (".." :: rest) = _
  rw [follow_cons, hup]
  rfl

theorem FileTree.locate_rounds {es below : List (String × FileTree)} {name : String}
    (hdots : name ≠ "..") (hshort : isTooLong name = false)
    (hnext : es.lookup name = some (.directory below)) (k : Nat) (rest : List String) :
    (directory es).locate [] ((List.replicate k [name, ".."]).flatten ++ rest) =
      (directory es).locate [] rest := by
  induction k with
  | zero => rfl
  | succ k ih =>
    rw [List.replicate_succ, List.flatten_cons, List.append_assoc]
    exact (congrArg _ (Spot.follow_round rfl hdots hshort hnext _)).trans ih

namespace Store
variable {s s' : Store} {p : Path} {es es' : List (String × FileTree)} {rights : Rights}

theorem signatureFiles_of_directory (accepts : String → Bool)
    (hdir : s.lookup p = .ok (some (.directory es rights))) :
    s.signatureFiles accepts p = walk accepts p rights es := by rw [signatureFiles, hdir]

theorem fault?_of_lookup {n : FileTree} (h : s.lookup p = .ok (some n)) : p.fault? = none := by
  unfold lookup at h
  split at h
  · next hlocate =>
    obtain ⟨_, hallow, -⟩ := ok_of_bind hlocate
    unfold allow at hallow
    split at hallow
    · cases hallow
    · assumption
  · cases h
  · cases h

theorem locate_entry {name : String} {n : FileTree} (h : es.lookup name = some n)
    (hdots : name ≠ "..") (hshort : isTooLong name = false) :
    (FileTree.directory es).locate [] [name] = .ok ([name], n) :=
  locate_concat hdots hshort (show (directory es).locate [] [] = .ok ([], .directory es) from rfl)
    rfl h

theorem lookup_entry {name : String} {n : FileTree} (h : es.lookup name = some n)
    (hopen : Path.fault? ⟨"", [name]⟩ = none) (hdots : name ≠ "..")
    (hshort : isTooLong name = false) :
    Store.lookup ⟨.directory es, ⟨"/", []⟩⟩ ⟨"", [name]⟩ = .ok (some n) := by
  have hplace : Store.locate ⟨.directory es, ⟨"/", []⟩⟩ ⟨"", [name]⟩ = .ok ([name], n) := by
    rw [Store.locate, Store.allow, hopen]
    exact locate_entry h hdots hshort
  rw [Store.lookup, hplace]

theorem lookup_around (t : FileTree) : (around t).lookup ⟨"", ["d"]⟩ = .ok (some t) :=
  lookup_entry rfl (by rw [Path.fault?_relative (List.cons_ne_nil _ _)]; decide +kernel) (by decide)
    (by decide +kernel)

theorem read_around {name : String} {n : FileTree} (h : es.lookup name = some n)
    (hopen : Path.fault? ⟨"", ["d", name]⟩ = none) (hdots : name ≠ "..")
    (hshort : isTooLong name = false) :
    (around (.directory es)).read ⟨"", ["d", name]⟩ = n.content := by
  have hplace : (around (.directory es)).locate ⟨"", ["d", name]⟩ = .ok (["d", name], n) := by
    rw [Store.locate, Store.allow, hopen]
    exact locate_concat hdots hshort (locate_entry rfl (by decide) (by decide +kernel)) rfl h
  rw [Store.read, hplace]
  rfl

theorem lookup_rounds (es : List (String × FileTree)) {k : Nat}
    (h : (Path.rounds k).fault? = none) :
    (around (.directory es)).lookup (.rounds k) = .ok (some (.directory es)) := by
  have hplace : (around (.directory es)).locate (.rounds k) = .ok (["d"], .directory es) := by
    rw [Store.locate, Store.allow, h]
    exact (locate_rounds (by decide) (by decide) rfl k ["d"]).trans rfl
  rw [Store.lookup, hplace]

/-- The walk of a directory comes to the files at any depth below it whose suffix is one of the
given ones, special files among them, each once and in the strict order of the names that lead to
them, up to the first place that the system refuses. The order in which directories list their
entries makes no difference. -/
theorem signatureFiles_ordered (suffixes : List String)
    (hdir : s.lookup p = .ok (some (.directory es rights))) (hes : Proper (.directory es rights)) :
    (∃ found,
      (s.signatureFiles (· ∈ suffixes) p).Lists (· ∈ suffixes) p (.directory es rights) found) ∧
      ∀ (s' : Store) (t' : FileTree), s'.lookup p = .ok (some t') → Proper t' →
        SameEntries (.directory es rights) t' →
          s'.signatureFiles (· ∈ suffixes) p = s.signatureFiles (· ∈ suffixes) p := by
  have hp : p.fault? ≠ some .unnameable := by simp [fault?_of_lookup hdir]
  obtain ⟨found, hfound⟩ := exists_lists (· ∈ suffixes) hes hp
  refine ⟨⟨found, ?_⟩, fun s' t' hdir' hes' hsame => ?_⟩
  · rwa [signatureFiles_of_directory _ hdir]
  · obtain ⟨es', rfl⟩ := rights?_eq_some.1 hsame.sameRights.symm
    obtain ⟨found', hfound'⟩ := exists_lists (· ∈ suffixes) hes' hp
    rw [signatureFiles_of_directory _ hdir, signatureFiles_of_directory _ hdir']
    exact (lists_unique hsame hfound hfound').symm

/-- The names in a directory come before those that only begin alike, so that the order is not that
of the written paths; a listing the other way round makes no difference. The pipe is taken for a
file, and the last directory can not be listed. -/
theorem signatureFiles_ordered_beside :
    let file : FileTree := .file "A: T\n".toUTF8
    let pipe : FileTree := .special (.ok "B: T\n".toUTF8) (.error .refused)
    let shut : FileTree := .directory [("e.rbs", file)] { read := false }
    let es : List (String × FileTree) :=
      [("a.rbs", file), ("a", .directory [("z.rbs", pipe), ("b.txt", file)]), ("q", shut)]
    let es' : List (String × FileTree) :=
      [("q", shut), ("a", .directory [("b.txt", file), ("z.rbs", pipe)]), ("a.rbs", file)]
    let s : Store := { tree := .directory [("sig", .directory es)], cwd := ⟨"/", []⟩ }
    let s' : Store := { tree := .directory [("sig", .directory es')], cwd := ⟨"/", []⟩ }
    let p : Path := ⟨"", ["sig"]⟩
    let w := s.signatureFiles (· ∈ [".rbs"]) p
    s.lookup p = .ok (some (.directory es)) ∧ Proper (.directory es) ∧
      w = ⟨[p.below ["a", "z.rbs"], p.below ["a.rbs"]], some .refused⟩ ∧
      (∃ found, w.Lists (· ∈ [".rbs"]) p (.directory es) found) ∧
      s'.lookup p = .ok (some (.directory es')) ∧ Proper (.directory es') ∧
      SameEntries (.directory es) (.directory es') ∧
      s'.signatureFiles (· ∈ [".rbs"]) p = w := by
  intro file pipe shut es es' s s' p w
  have hsig : Path.fault? ⟨"", ["sig"]⟩ = none := by
    rw [Path.fault?_relative (List.cons_ne_nil _ _)]
    decide +kernel
  have hdir : s.lookup p = .ok (some (.directory es)) :=
    lookup_entry rfl hsig (by decide) (by decide +kernel)
  have hdir' : s'.lookup p = .ok (some (.directory es')) :=
    lookup_entry rfl hsig (by decide) (by decide +kernel)
  have hopen : ∀ names ∈ [["a.rbs"], ["a"], ["q"], ["a", "z.rbs"], ["a", "b.txt"]],
      (Path.fault? ⟨"", "sig" :: names⟩) = none := fun names h => by
    rw [Path.fault?_relative (List.cons_ne_nil _ _)]
    revert names
    decide +kernel
  have hshort : ∀ name ∈ ["a.rbs", "a", "q", "z.rbs", "b.txt"], isTooLong name = false := by
    decide +kernel
  have hsuffix : ∀ name ∈ ["a.rbs", "z.rbs"], Path.suffix name = ".rbs" := by decide +kernel
  have hother : Path.suffix "b.txt" ≠ ".rbs" := by decide +kernel
  have hw : w = ⟨[p.below ["a", "z.rbs"], p.below ["a.rbs"]], some .refused⟩ := by
    simp only [List.forall_mem_cons] at hopen hshort hsuffix
    rw [show w = _ from signatureFiles_of_directory _ hdir]
    simp [walk, found, entered, look, listed, inOrder, Walk.ofFound, List.mergeSort, es, shut, p,
      file, pipe, Path.child, Path.below, hopen, hshort, hsuffix, hother]
  have hfile : Proper file := .leaf rfl
  have hshut : Proper shut :=
    .directory (by decide) (by decide) (List.forall_mem_singleton.2 hfile)
  have hinner : Proper (.directory [("z.rbs", pipe), ("b.txt", file)]) :=
    .directory (by decide) (by decide)
      (List.forall_mem_cons.2 ⟨.leaf rfl, List.forall_mem_singleton.2 hfile⟩)
  have hes : Proper (.directory es) := .directory (by decide) (by decide)
    (List.forall_mem_cons.2
      ⟨hfile, List.forall_mem_cons.2 ⟨hinner, List.forall_mem_singleton.2 hshut⟩⟩)
  let swapped := [("a", directory [("b.txt", file), ("z.rbs", pipe)]), ("a.rbs", file), ("q", shut)]
  have hswapped : Proper (.directory swapped) := .directory (by decide) (by decide)
    (List.forall_mem_cons.2 ⟨hinner.perm (.swap _ _ _),
      List.forall_mem_cons.2 ⟨hfile, List.forall_mem_singleton.2 hshut⟩⟩)
  have hsame : SameEntries (.directory es) (.directory swapped) :=
    (SameEntries.of_perm hes (.swap _ _ _)).trans
      (.cons (.of_perm hinner (.swap _ _ _)) (.refl _))
  have hmoved : swapped.Perm es' := List.perm_append_singleton ("q", shut) (swapped.take 2)
  have hes' : Proper (.directory es') := hswapped.perm hmoved
  have hsame' : SameEntries (.directory es) (.directory es') :=
    hsame.trans (.of_perm hswapped hmoved)
  obtain ⟨hlists, hany⟩ := signatureFiles_ordered [".rbs"] hdir hes
  exact ⟨hdir, hes, hw, hlists, hdir', hes', hsame', hany s' _ hdir' hes' hsame'⟩

/-- A walk that comes to the regular files of an accepted suffix, each once and in order, and to
nothing else. -/
def ListsRegular (t : FileTree) (p : Path) : Prop :=
  (around t).lookup p = .ok (some t) → Proper t → ∃ found : List (List String),
    ((around t).signatureFiles (· ∈ [".rbs"]) p).files = found.map p.below ∧
      found.Pairwise (· < ·) ∧
      ∀ names, names ∈ found ↔ (∃ bytes rights, t.at? names = some (.file bytes rights)) ∧
        ∃ name ∈ names.getLast?, Path.suffix name ∈ [".rbs"]

theorem ListsRegular.accepted_iff (h : ListsRegular (.directory es) p)
    (hes : Proper (.directory es))
    (hdir : (around (.directory es)).lookup p = .ok (some (.directory es))) (names : List String) :
    ((∃ bytes rights, (directory es).at? names = some (.file bytes rights)) ∧
        ∃ name ∈ names.getLast?, Path.suffix name ∈ [".rbs"]) ↔
      Accepted (· ∈ [".rbs"]) (.directory es) names ∧
        ∀ refused, Refused p (.directory es) refused → names < refused := by
  obtain ⟨found, hfiles, -, hexact⟩ := h hdir hes
  have hp : p.fault? ≠ some .unnameable := by simp [fault?_of_lookup hdir]
  obtain ⟨found', hlists⟩ := exists_lists (· ∈ [".rbs"]) hes hp
  rw [← signatureFiles_of_directory _ hdir] at hlists
  rw [← hexact, ← hlists.exact, List.map_injective_iff.2 (Path.below_injective p)
    (hfiles.symm.trans hlists.files)]

theorem proper_alone {n : FileTree} (h : n.rights? = none) :
    Proper (.directory [("f.rbs", n)]) := by
  have hname : '\x00' ∉ "f.rbs".toList := by decide
  exact .directory (List.nodup_singleton _) (List.forall_mem_singleton.2 hname)
    (List.forall_mem_singleton.2 (.leaf h))

theorem not_refused_alone {n : FileTree} (h : n.rights? = none) (refused : List String) :
    ¬ Refused ⟨"", ["d"]⟩ (.directory [("f.rbs", n)]) refused := by
  have hopen : Path.fault? ⟨"", ["d", "f.rbs"]⟩ = none := by
    rw [Path.fault?_relative (List.cons_ne_nil _ _)]
    decide +kernel
  have hshort : isTooLong "f.rbs" = false := by decide +kernel
  intro hrefused
  cases hrefused with
  | unlisted hread => cases hread
  | closed _ henter => cases henter
  | tooLong hentry hlong =>
    cases List.mem_singleton.1 (mem_of_lookup hentry)
    simp [Path.child, hopen, hshort] at hlong
  | inner hentry hinner =>
    cases List.mem_singleton.1 (mem_of_lookup hentry)
    cases hinner <;> cases h

/-- The files of a walk need not be the regular files of an accepted suffix: a pipe is among them,
nothing behind a directory that can not be listed is, and nothing with a path that is too long. -/
theorem signatureFiles_irregular :
    let file : FileTree := .file "A: T\n".toUTF8
    let pipe : FileTree := .special (.ok "A: T\n".toUTF8) (.error .refused)
    ¬ ListsRegular (.directory [("f.rbs", pipe)]) ⟨"", ["d"]⟩ ∧
      ¬ ListsRegular (.directory [("e", .directory [] { read := false }), ("f.rbs", file)])
        ⟨"", ["d"]⟩ ∧
      ¬ ListsRegular (.directory [("f.rbs", file)]) (.rounds 818) := by
  intro file pipe
  have hsuffix : Path.suffix "f.rbs" ∈ [".rbs"] := by decide +kernel
  refine ⟨fun h => ?_, fun h => ?_, fun h => ?_⟩
  · have haccepted : Accepted (· ∈ [".rbs"]) (.directory [("f.rbs", pipe)]) ["f.rbs"] :=
      ⟨⟨_, rfl, rfl⟩, "f.rbs", rfl, by simpa using hsuffix⟩
    obtain ⟨⟨bytes, rights, hpipe⟩, -⟩ :=
      (h.accepted_iff (proper_alone rfl) (lookup_around _) ["f.rbs"]).2
        ⟨haccepted, fun refused hrefused => absurd hrefused (not_refused_alone rfl refused)⟩
    cases show some (FileTree.special _ _) = some (.file bytes rights) from hpipe
  · have hes : Proper (.directory [("e", .directory [] { read := false }), ("f.rbs", file)]) :=
      .directory (by decide) (by decide) (List.forall_mem_cons.2
        ⟨.directory (by decide) (by decide) (List.forall_mem_nil _),
          List.forall_mem_singleton.2 (.leaf rfl)⟩)
    have hfront := ((h.accepted_iff hes (lookup_around _) ["f.rbs"]).1
      ⟨⟨_, _, rfl⟩, "f.rbs", rfl, hsuffix⟩).2
    exact absurd (hfront ["e"] (.inner rfl (.unlisted rfl))) (by decide)
  · have hdir := lookup_rounds [("f.rbs", file)] Path.fault?_rounds.1
    have hfront := ((h.accepted_iff (proper_alone rfl) hdir ["f.rbs"]).1
      ⟨⟨_, _, rfl⟩, "f.rbs", rfl, hsuffix⟩).2
    exact lt_irrefl _ (hfront ["f.rbs"] (.tooLong rfl (.inl Path.fault?_rounds.2)))

end Store
end SignatureLayers
