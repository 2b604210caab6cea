import Mathlib.Data.List.Basic
import Mathlib.Data.List.Nodup
import SignatureLayers.Decl.Forest

namespace SignatureLayers

theorem Decl.children_eq_nil {d : Decl} (h : d.isContainer = false) : d.children = [] := by
  cases d with
  | container => cases h
  | leaf | member => rfl

theorem Decl.key_of_isContainer {d : Decl} (h : d.isContainer = true) :
    d.key = ⟨d.name, false⟩ := by
  cases d with
  | container => rfl
  | leaf | member => cases h

namespace Forest

/-- Induction over a forest: a declaration with its children, and the declarations behind it. -/
@[elab_as_elim]
theorem induct {motive : Forest → Prop} (nil : motive [])
    (cons : ∀ d rest, motive d.children → motive rest → motive (d :: rest)) (f : Forest) :
    motive f := by
  induction f using preorder.induct with
  | case1 => exact nil
  | case2 k h cs t rest inner tail => exact cons (.container k h cs t) rest inner tail
  | case3 d rest hd tail =>
    have hc : d.children = [] := by
      cases d with
      | container k h cs t => exact absurd rfl (hd k h cs t)
      | leaf | member => rfl
    exact cons d rest (hc ▸ nil) tail

@[simp] theorem preorder_nil : preorder [] = [] := by rw [preorder]

theorem preorder_cons (d : Decl) (rest : Forest) :
    preorder (d :: rest) = d :: (preorder d.children ++ preorder rest) := by
  cases d <;> simp [preorder, Decl.children]

theorem preorder_append (xs ys : Forest) : preorder (xs ++ ys) = preorder xs ++ preorder ys := by
  induction xs with
  | nil => simp
  | cons d xs ih => simp [preorder_cons, ih]

theorem mem_preorder_of_mem {f : Forest} {d e : Decl} (hd : d ∈ f)
    (he : e ∈ d :: preorder d.children) : e ∈ preorder f := by
  obtain ⟨xs, ys, rfl⟩ := List.append_of_mem hd
  rw [preorder_append, preorder_cons]
  exact List.mem_append_right _ (List.mem_append_left (preorder ys) he)

@[simp] theorem ids_nil : ids [] = [] := by simp [ids]

theorem ids_cons (d : Decl) (rest : Forest) :
    ids (d :: rest) = d.id :: (ids d.children ++ ids rest) := by
  simp [ids, preorder_cons]

theorem ids_append (xs ys : Forest) : ids (xs ++ ys) = ids xs ++ ids ys := by
  simp [ids, preorder_append]

theorem ids_middle (xs ys : Forest) (d : Decl) :
    (ids (xs ++ d :: ys)).Perm (ids [d] ++ ids (xs ++ ys)) := by
  rw [← List.singleton_append, ids_append, ids_append, ids_append]
  exact List.perm_append_comm_assoc _ _ _

theorem mem_ids_middle {xs ys : Forest} {d : Decl} {id : Nat} :
    id ∈ ids (xs ++ d :: ys) ↔ id = d.id ∨ id ∈ ids d.children ∨ id ∈ ids (xs ++ ys) := by
  rw [(ids_middle xs ys d).mem_iff]
  simp [ids_cons]

theorem nodup_ids_middle {xs ys : Forest} {d : Decl} : (ids (xs ++ d :: ys)).Nodup ↔
    d.id ∉ ids d.children ∧ d.id ∉ ids (xs ++ ys) ∧ (ids d.children).Nodup ∧
      (ids (xs ++ ys)).Nodup ∧ (ids d.children).Disjoint (ids (xs ++ ys)) := by
  rw [(ids_middle xs ys d).nodup_iff, ids_cons, ids_nil, List.append_nil, List.cons_append,
    List.nodup_cons, List.nodup_append', List.mem_append, not_or]
  tauto

theorem ids_sublist {xs ys : Forest} (h : xs.Sublist ys) : (ids xs).Sublist (ids ys) := by
  induction h with
  | slnil => exact .refl _
  | cons d _ ih =>
    rw [ids_cons]
    exact (ih.trans (List.sublist_append_right _ _)).cons _
  | cons_cons d _ ih =>
    rw [ids_cons, ids_cons]
    exact (ih.append_left _).cons_cons _

theorem node?_cons (id : Nat) (d : Decl) (rest : Forest) :
    node? id (d :: rest) =
      if d.id = id then some d else (node? id d.children).or (node? id rest) := by
  cases d with
  | container =>
    rw [node?]
    rfl
  | leaf | member => simp only [node?, Decl.children, Option.none_or]

theorem update_cons (id : Nat) (f : Decl → Decl) (d : Decl) (rest : Forest) :
    update id f (d :: rest) =
      (if d.id = id then f d else d.mapChildren (update id f)) :: update id f rest := by
  cases d with
  | container =>
    rw [update]
    rfl
  | leaf | member => simp only [update, Decl.mapChildren]

theorem node?_append (id : Nat) (xs ys : Forest) :
    node? id (xs ++ ys) = (node? id xs).or (node? id ys) := by
  induction xs with
  | nil => simp [node?]
  | cons d xs ih =>
    simp only [List.cons_append, node?_cons, ih]
    split <;> simp [Option.or_assoc]

theorem update_append (id : Nat) (f : Decl → Decl) (xs ys : Forest) :
    update id f (xs ++ ys) = update id f xs ++ update id f ys := by
  induction xs with
  | nil => simp [update]
  | cons d xs ih => simp [update_cons, ih]

theorem node?_eq_none {id : Nat} {f : Forest} (h : id ∉ ids f) : node? id f = none := by
  induction f using induct with
  | nil => rw [node?]
  | cons d rest inner tail =>
    simp only [ids_cons, List.mem_cons, List.mem_append, not_or] at h
    rw [node?_cons, if_neg (Ne.symm h.1), inner h.2.1, tail h.2.2]
    rfl

theorem update_eq_self {id : Nat} {f : Forest} (g : Decl → Decl) (h : id ∉ ids f) :
    update id g f = f := by
  induction f using induct with
  | nil => rw [update]
  | cons d rest inner tail =>
    simp only [ids_cons, List.mem_cons, List.mem_append, not_or] at h
    rw [update_cons, if_neg (Ne.symm h.1), tail h.2.2]
    cases d <;> simp_all [Decl.mapChildren, Decl.children]

/-- The first of some siblings with an identity is found before anything below it. -/
theorem node?_middle {xs ys : Forest} {d : Decl} (h : d.id ∉ ids xs) :
    node? d.id (xs ++ d :: ys) = some d := by
  rw [node?_append, node?_eq_none h, node?_cons, if_pos rfl]
  rfl

theorem update_middle {xs ys : Forest} {d : Decl} (g : Decl → Decl) (hx : d.id ∉ ids xs)
    (hy : d.id ∉ ids ys) : update d.id g (xs ++ d :: ys) = xs ++ g d :: ys := by
  rw [update_append, update_eq_self g hx, update_cons, if_pos rfl, update_eq_self g hy]

end Forest

/-- A container on the way to an owner, with the siblings on both sides of it. -/
structure Shell where
  before : Forest
  kind : ContainerKind
  header : Header
  trailing : List String
  after : Forest

/-- The way from the root to an owner, outermost container first. -/
abbrev Context := List Shell

namespace Shell

def plug (l : Shell) (cs : Forest) : Forest :=
  l.before ++ .container l.kind l.header cs l.trailing :: l.after

def ids (l : Shell) : List Nat := Forest.ids l.before ++ l.header.id :: Forest.ids l.after

theorem ids_plug_perm (l : Shell) (cs : Forest) :
    (Forest.ids (l.plug cs)).Perm (l.ids ++ Forest.ids cs) := by
  simp only [plug, ids, Forest.ids_append, Forest.ids_cons, Decl.children, Decl.id, Decl.header,
    List.append_assoc, List.cons_append]
  apply List.Perm.append_left
  apply List.Perm.cons
  exact List.perm_append_comm

end Shell

namespace Context

def plug : Context → Forest → Forest
  | [], cs => cs
  | l :: c, cs => l.plug (plug c cs)

def ids (c : Context) : List Nat := c.flatMap Shell.ids

def path (c : Context) : List String := c.map (·.header.name)

def ownerFrom (o : Owner) : Context → Owner
  | [] => o
  | l :: c => ownerFrom (.container l.header.id) c

def owner (c : Context) : Owner := ownerFrom .root c

@[simp] theorem plug_nil (cs : Forest) : plug [] cs = cs := rfl

@[simp] theorem plug_cons (l : Shell) (c : Context) (cs : Forest) :
    plug (l :: c) cs = l.plug (plug c cs) := rfl

theorem plug_append (c c' : Context) (cs : Forest) : plug (c ++ c') cs = plug c (plug c' cs) := by
  induction c with
  | nil => rfl
  | cons l c ih => simp [ih]

@[simp] theorem owner_nil : owner [] = .root := rfl

theorem ownerFrom_concat (o : Owner) (c : Context) (l : Shell) :
    ownerFrom o (c ++ [l]) = .container l.header.id := by
  induction c generalizing o with
  | nil => rfl
  | cons l' c ih => exact ih _

@[simp] theorem owner_concat (c : Context) (l : Shell) :
    owner (c ++ [l]) = .container l.header.id := ownerFrom_concat _ c l

@[simp] theorem path_append (c c' : Context) : path (c ++ c') = path c ++ path c' := by simp [path]

@[simp] theorem ids_append (c c' : Context) : ids (c ++ c') = ids c ++ ids c' := by simp [ids]

@[simp] theorem ids_singleton (l : Shell) : ids [l] = l.ids := by simp [ids]

theorem ids_plug_perm (c : Context) (cs : Forest) :
    (Forest.ids (plug c cs)).Perm (ids c ++ Forest.ids cs) := by
  induction c with
  | nil => exact .refl _
  | cons l c ih =>
    simp only [plug_cons, ids, List.flatMap_cons, List.append_assoc]
    exact (l.ids_plug_perm _).trans (ih.append_left _)

theorem nodup_plug {c : Context} {cs : Forest} :
    (Forest.ids (plug c cs)).Nodup ↔ (ids c ++ Forest.ids cs).Nodup :=
  (ids_plug_perm c cs).nodup_iff

theorem nodup_children {c : Context} {cs : Forest} (h : (Forest.ids (plug c cs)).Nodup) :
    (Forest.ids cs).Nodup :=
  (List.nodup_append.1 (nodup_plug.1 h)).2.1

theorem mem_ids_plug {c : Context} {cs : Forest} {id : Nat} :
    id ∈ Forest.ids (plug c cs) ↔ id ∈ ids c ∨ id ∈ Forest.ids cs := by
  rw [(ids_plug_perm c cs).mem_iff, List.mem_append]

theorem not_mem_of_nodup {c : Context} {cs : Forest} {id : Nat}
    (h : (Forest.ids (plug c cs)).Nodup) (hid : id ∈ Forest.ids cs) : id ∉ ids c :=
  fun hc => (List.nodup_append.1 (nodup_plug.1 h)).2.2 id hc id hid rfl

theorem node?_plug {c : Context} {id : Nat} (cs : Forest) (h : id ∉ ids c) :
    Forest.node? id (plug c cs) = Forest.node? id cs := by
  induction c with
  | nil => rfl
  | cons l c ih =>
    simp only [ids, List.flatMap_cons, List.mem_append, Shell.ids, List.mem_cons, not_or] at h
    obtain ⟨⟨hb, hi, ha⟩, hc⟩ := h
    have hid : ¬ (Decl.container l.kind l.header (plug c cs) l.trailing).id = id := Ne.symm hi
    rw [plug_cons, Shell.plug, Forest.node?_append, Forest.node?_eq_none hb, Forest.node?_cons,
      if_neg hid, Forest.node?_eq_none ha, Option.none_or, Option.or_none]
    exact ih hc

theorem update_plug {c : Context} {id : Nat} (f : Decl → Decl) (cs : Forest) (h : id ∉ ids c) :
    Forest.update id f (plug c cs) = plug c (Forest.update id f cs) := by
  induction c with
  | nil => rfl
  | cons l c ih =>
    simp only [ids, List.flatMap_cons, List.mem_append, Shell.ids, List.mem_cons, not_or] at h
    obtain ⟨⟨hb, hi, ha⟩, hc⟩ := h
    have hid : ¬ (Decl.container l.kind l.header (plug c cs) l.trailing).id = id := Ne.symm hi
    rw [plug_cons, Shell.plug, Forest.update_append, Forest.update_eq_self f hb,
      Forest.update_cons, if_neg hid, Forest.update_eq_self f ha, Decl.mapChildren, ih hc]
    rfl

theorem not_mem_ids_last {c : Context} {l : Shell} {cs : Forest}
    (h : (Forest.ids (plug (c ++ [l]) cs)).Nodup) :
    l.header.id ∉ ids c ∧ l.header.id ∉ Forest.ids l.before ∧ l.header.id ∉ Forest.ids l.after := by
  have hn := (List.nodup_append.1 (nodup_plug.1 h)).1
  rw [ids_append, ids_singleton, List.nodup_append] at hn
  obtain ⟨-, hl, hd⟩ := hn
  rw [Shell.ids, List.nodup_middle, List.nodup_cons, List.mem_append, not_or] at hl
  exact ⟨fun hc => hd _ hc _ (by simp [Shell.ids]) rfl, hl.1⟩

theorem childrenOf_plug {c : Context} {cs : Forest} (h : (Forest.ids (plug c cs)).Nodup) :
    (plug c cs).childrenOf (owner c) = cs := by
  rcases List.eq_nil_or_concat' c with rfl | ⟨c, l, rfl⟩
  · rfl
  · obtain ⟨hc, hb, -⟩ := not_mem_ids_last h
    have hfound : Forest.node? l.header.id (l.plug cs) =
        some (.container l.kind l.header cs l.trailing) :=
      Forest.node?_middle (d := .container l.kind l.header cs l.trailing) hb
    rw [owner_concat, plug_append, Forest.childrenOf, Forest.childrenOf?, node?_plug _ hc,
      plug_cons, plug_nil, hfound]
    rfl

theorem updateChildren_plug {c : Context} {cs : Forest} (g : Forest → Forest)
    (h : (Forest.ids (plug c cs)).Nodup) :
    (plug c cs).updateChildren (owner c) g = plug c (g cs) := by
  rcases List.eq_nil_or_concat' c with rfl | ⟨c, l, rfl⟩
  · rfl
  · obtain ⟨hc, hb, ha⟩ := not_mem_ids_last h
    rw [owner_concat, plug_append, plug_append, Forest.updateChildren, update_plug _ _ hc]
    congr 1
    exact Forest.update_middle (d := .container l.kind l.header cs l.trailing) _ hb ha

theorem node?_child {c : Context} {xs ys : Forest} {d : Decl}
    (h : (Forest.ids (plug c (xs ++ d :: ys))).Nodup) :
    Forest.node? d.id (plug c (xs ++ d :: ys)) = some d := by
  have hd : d.id ∈ Forest.ids (xs ++ d :: ys) := by simp [Forest.ids_append, Forest.ids_cons]
  have hn := nodup_children h
  rw [Forest.ids_append, Forest.ids_cons, List.nodup_append] at hn
  rw [node?_plug _ (not_mem_of_nodup h hd)]
  exact Forest.node?_middle fun hx => hn.2.2 _ hx _ (by simp) rfl

theorem update_child {c : Context} {xs ys : Forest} {d : Decl} (f : Decl → Decl)
    (h : (Forest.ids (plug c (xs ++ d :: ys))).Nodup) :
    Forest.update d.id f (plug c (xs ++ d :: ys)) = plug c (xs ++ f d :: ys) := by
  have hd : d.id ∈ Forest.ids (xs ++ d :: ys) := by simp [Forest.ids_append, Forest.ids_cons]
  have hn := nodup_children h
  rw [Forest.ids_append, Forest.ids_cons, List.nodup_append, List.nodup_cons] at hn
  rw [update_plug _ _ (not_mem_of_nodup h hd)]
  congr 1
  exact Forest.update_middle f (fun hx => hn.2.2 _ hx _ (by simp) rfl)
    fun hy => hn.2.1.1 (List.mem_append_right _ hy)

end Context
end SignatureLayers
