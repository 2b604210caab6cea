import Mathlib.Data.List.Basic
import SignatureLayers.Proofs.Mirror
import SignatureLayers.Proofs.Paths
import SignatureLayers.Store.Tree

namespace SignatureLayers

theorem ok_of_bind {ε α β : Type} {m : Except ε α} {f : α → Except ε β} {b : β}
    (h : m >>= f = .ok b) : ∃ a, m = .ok a ∧ f a = .ok b := by
  cases m with
  | error => cases h
  | ok a => exact ⟨a, rfl, h⟩

theorem ok_of_map {ε α β : Type} {m : Except ε α} {f : α → β} {b : β} (h : m.map f = .ok b) :
    ∃ a, m = .ok a ∧ f a = b := by
  cases m with
  | error => cases h
  | ok a => exact ⟨a, rfl, Except.ok.inj h⟩

theorem exists_map_eq_ok {ε α β : Type} {m : Except ε α} (h : ∃ a, m = .ok a) (f : α → β) :
    ∃ b, m.map f = .ok b := by
  obtain ⟨a, rfl⟩ := h
  exact ⟨f a, rfl⟩

theorem exists_mapM_eq_ok {ε α β : Type} {f : α → Except ε β} {xs : List α}
    (h : ∀ x ∈ xs, ∃ y, f x = .ok y) : ∃ ys, xs.mapM f = .ok ys := by
  induction xs with
  | nil => exact ⟨[], rfl⟩
  | cons x xs ih =>
    obtain ⟨⟨y, hy⟩, hxs⟩ := List.forall_mem_cons.1 h
    obtain ⟨ys, hys⟩ := ih hxs
    exact ⟨y :: ys, by rw [List.mapM_cons, hy, hys]; rfl⟩

namespace FileTree

def at? : FileTree → List String → Option FileTree
  | t, [] => some t
  | t, name :: rest => (t.entries.lookup name).bind (at? · rest)

/-- Wherever `t` leads, `t'` leads to a node of the same kind, with the same rights if it is a
directory. -/
def Grows (t t' : FileTree) : Prop :=
  ∀ p n, t.at? p = some n → ∃ n', t'.at? p = some n' ∧ n'.rights? = n.rights?

variable {t t' n n' : FileTree} {p q rest parts base place : List String} {name : String}
  {es : List (String × FileTree)} {rights : Rights}

@[simp] theorem at?_nil (t : FileTree) : t.at? [] = some t := by rw [at?]

theorem at?_cons (t : FileTree) (name : String) (rest : List String) :
    t.at? (name :: rest) = (t.entries.lookup name).bind (at? · rest) := by rw [at?]

theorem at?_append (t : FileTree) (p q : List String) :
    t.at? (p ++ q) = (t.at? p).bind (at? · q) := by
  induction p generalizing t with
  | nil => simp
  | cons name p ih =>
    rw [List.cons_append, at?_cons, at?_cons, Option.bind_assoc]
    exact congrArg _ (funext fun next => ih next)

theorem at?_concat (h : t.at? p = some n) (name : String) :
    t.at? (p ++ [name]) = n.entries.lookup name := by
  rw [at?_append, h, Option.bind_some, at?_cons]
  cases n.entries.lookup name <;> simp

theorem rights?_eq_some : n.rights? = some rights ↔ ∃ es, n = .directory es rights := by
  cases n <;> simp [rights?]

theorem directory_of_lookup (h : t.entries.lookup name = some n) :
    ∃ es rights, t = .directory es rights ∧ es.lookup name = some n := by
  cases t with
  | directory es rights => exact ⟨es, rights, rfl, h⟩
  | file | special => cases h

end FileTree

namespace Spot

/-- The spots of a tree: its root, and what an entry of a directory at a spot leads to. -/
inductive In (t : FileTree) : Spot → Prop
  | root : In t { node := t }
  | entry {a : Spot} {name : String} {n : FileTree} (h : In t a)
    (hnext : a.node.entries.lookup name = some n) : In t (a.below name n)

variable {t t' : FileTree} {a a' b : Spot} {asks : Bool} {name : String} {parts xs ys : List String}

theorem In.at?_eq (h : In t a) : t.at? a.names.reverse = some a.node := by
  induction h with
  | root => exact FileTree.at?_nil t
  | @entry a name n h hnext ih =>
    show t.at? (name :: a.names).reverse = some n
    rw [List.reverse_cons, FileTree.at?_concat ih, hnext]

theorem In.above (h : In t a) : In t a.above ∧ a.above.names = a.names.tail := by
  cases h with
  | root => exact ⟨.root, rfl⟩
  | entry h => exact ⟨h, rfl⟩

theorem step_eq_ok : a.step asks name = .ok b ↔
    ∃ es rights, a.node = .directory es rights ∧ (asks && !rights.enter) = false ∧
      ((name = ".." ∧ b = a.above) ∨
        name ≠ ".." ∧ isTooLong name = false ∧
          ∃ n, es.lookup name = some n ∧ b = a.below name n) := by
  unfold step
  constructor
  · intro h
    split at h
    · next es rights hnode =>
      refine ⟨es, rights, hnode, ?_⟩
      split at h
      · cases h
      · next hpass =>
        refine ⟨by simpa using hpass, ?_⟩
        split at h
        · next hdots =>
          cases h
          exact .inl ⟨hdots, rfl⟩
        · next hdots =>
          split at h
          · cases h
          · next hlong =>
            split at h
            · cases h
            · next n hnext =>
              cases h
              exact .inr ⟨hdots, by simpa using hlong, n, hnext, rfl⟩
    · cases h
  · rintro ⟨es, rights, hnode, hpass, ⟨rfl, rfl⟩ | ⟨hdots, hlong, n, hnext, rfl⟩⟩
    · simp only [hnode, hpass, Bool.false_eq_true, ↓reduceIte]
    · simp only [hnode, hpass, hdots, hlong, hnext, Bool.false_eq_true, ↓reduceIte]

theorem In.step (h : In t a) (hstep : a.step asks name = .ok b) :
    In t b ∧ b.names = if name = ".." then a.names.tail else name :: a.names := by
  obtain ⟨es, rights, hnode, -, ⟨rfl, rfl⟩ | ⟨hdots, -, n, hnext, rfl⟩⟩ := step_eq_ok.1 hstep
  · rw [if_pos rfl]
    exact h.above
  · rw [if_neg hdots]
    refine ⟨h.entry ?_, rfl⟩
    rw [hnode]
    exact hnext

theorem follow_cons (asks : Bool) (a : Spot) (name : String) (rest : List String) :
    a.follow asks (name :: rest) = a.step asks name >>= fun b => b.follow asks rest := by
  rw [follow, List.foldlM_cons]
  rfl

theorem follow_append (asks : Bool) (a : Spot) (xs ys : List String) :
    a.follow asks (xs ++ ys) = a.follow asks xs >>= fun b => b.follow asks ys := by
  rw [follow, List.foldlM_append]
  rfl

/-- A path leads to what remains of it when its double dots are cancelled. -/
theorem In.follow (h : In t a) (hfollow : a.follow asks parts = .ok b) :
    In t b ∧ b.names.reverse = Path.cancel a.names parts := by
  induction parts generalizing a with
  | nil =>
    cases hfollow
    exact ⟨h, by rw [Path.cancel]⟩
  | cons name rest ih =>
    rw [follow_cons] at hfollow
    obtain ⟨next, hstep, hrest⟩ := ok_of_bind hfollow
    obtain ⟨hnext, hnames⟩ := h.step hstep
    rw [Path.cancel_cons, ← hnames]
    exact ih hnext hrest

theorem In.step_grown (hg : FileTree.Grows t t') (h : In t a) (h' : In t' a')
    (hnames : a'.names = a.names) (hstep : a.step asks name = .ok b) :
    ∃ b', a'.step asks name = .ok b' ∧ In t' b' ∧ b'.names = b.names := by
  obtain ⟨es, rights, hnode, hpass, hnext⟩ := step_eq_ok.1 hstep
  obtain ⟨node', hat', hrights⟩ := hg _ _ h.at?_eq
  rw [← hnames, h'.at?_eq] at hat'
  cases hat'
  rw [hnode] at hrights
  obtain ⟨es', hnode'⟩ := FileTree.rights?_eq_some.1 hrights
  rcases hnext with ⟨rfl, rfl⟩ | ⟨hdots, hlong, n, hnext, rfl⟩
  · refine ⟨a'.above, step_eq_ok.2 ⟨es', rights, hnode', hpass, .inl ⟨rfl, rfl⟩⟩, h'.above.1, ?_⟩
    rw [h'.above.2, h.above.2, hnames]
  · obtain ⟨n', hn', -⟩ := hg (a.names.reverse ++ [name]) n
      (by rw [FileTree.at?_concat h.at?_eq, hnode]; exact hnext)
    rw [← hnames, FileTree.at?_concat h'.at?_eq] at hn'
    refine ⟨a'.below name n', step_eq_ok.2 ⟨es', rights, hnode', hpass,
      .inr ⟨hdots, hlong, n', by rwa [hnode'] at hn', rfl⟩⟩, h'.entry hn', ?_⟩
    show name :: a'.names = name :: a.names
    rw [hnames]

theorem In.follow_grown (hg : FileTree.Grows t t') (h : In t a) (h' : In t' a')
    (hnames : a'.names = a.names) (hfollow : a.follow asks parts = .ok b) :
    ∃ b', a'.follow asks parts = .ok b' ∧ In t' b' ∧ b'.names = b.names := by
  induction parts generalizing a a' with
  | nil =>
    cases hfollow
    exact ⟨a', rfl, h', hnames⟩
  | cons name rest ih =>
    rw [follow_cons] at hfollow
    obtain ⟨next, hstep, hrest⟩ := ok_of_bind hfollow
    obtain ⟨next', hstep', hnext', hnames'⟩ := h.step_grown hg h' hnames hstep
    rw [follow_cons, hstep']
    exact ih (h.step hstep).1 hnext' hnames' hrest

end Spot

namespace FileTree
variable {t t' n n' : FileTree} {p q rest parts base place above : List String} {name : String}
  {es : List (String × FileTree)} {rights : Rights} {a : Spot} {d : Holder}
  {x : List String × FileTree}

theorem Grows.spot (hg : Grows t t') (h : t.spot base parts = .ok a) :
    ∃ a', t'.spot base parts = .ok a' ∧ Spot.In t' a' ∧ a'.names = a.names := by
  obtain ⟨start, hbase, hparts⟩ := ok_of_bind h
  obtain ⟨start', hbase', hstart', hnames⟩ := Spot.In.root.follow_grown hg .root rfl hbase
  rw [FileTree.spot, hbase']
  exact (Spot.In.root.follow hbase).1.follow_grown hg hstart' hnames hparts

theorem spot_concat (hdots : name ≠ "..") (hlong : isTooLong name = false)
    (h : t.spot base parts = .ok a) (hnode : a.node = .directory es rights)
    (henter : rights.enter = true) (hnext : es.lookup name = some n) :
    t.spot base (parts ++ [name]) = .ok (a.below name n) := by
  obtain ⟨start, hbase, hparts⟩ := ok_of_bind h
  have hstep : a.step true name = .ok (a.below name n) :=
    Spot.step_eq_ok.2 ⟨es, rights, hnode, by simp [henter], .inr ⟨hdots, hlong, n, hnext, rfl⟩⟩
  rw [spot, hbase]
  show start.follow true (parts ++ [name]) = _
  rw [Spot.follow_append, hparts]
  show a.follow true [name] = _
  rw [Spot.follow_cons, hstep]
  rfl

theorem locate_concat (hdots : name ≠ "..") (hlong : isTooLong name = false)
    (h : t.locate base parts = .ok (place, .directory es rights)) (henter : rights.enter = true)
    (hnext : es.lookup name = some n) :
    t.locate base (parts ++ [name]) = .ok (place ++ [name], n) := by
  obtain ⟨a, ha, heq⟩ := ok_of_map h
  obtain ⟨hplace, hnode⟩ := Prod.mk.inj heq
  rw [locate, spot_concat hdots hlong ha hnode henter hnext]
  show Except.ok ((name :: a.names).reverse, n) = _
  rw [List.reverse_cons, hplace]

theorem exists_of_at?_cons {first : String} {rest : List String}
    (h : t.at? (first :: rest) = some n) : ∃ es rights next, t = .directory es rights ∧
      es.lookup first = some next ∧ next.at? rest = some n := by
  obtain ⟨next, hnext, hrest⟩ := Option.bind_eq_some_iff.1 (at?_cons t first rest ▸ h)
  obtain ⟨es, rights, rfl, hnext⟩ := directory_of_lookup hnext
  exact ⟨es, rights, next, rfl, hnext, hrest⟩

end FileTree

namespace Store
variable {s s' : Store} {p q : Path} {bytes bytes' : ByteArray} {x : List String × FileTree}
  {place : List String} {n : FileTree}

end Store
end SignatureLayers
