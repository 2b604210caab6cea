import Mathlib.Data.List.Basic
import SignatureLayers.Merge.Layer
import SignatureLayers.Proofs.Reports

namespace SignatureLayers

open Forest

namespace Engine

/-- The children of the owner at the end of `c` are `cs`, the index mirrors the tree, and no two
declarations have one identity. -/
structure At (e : Engine) (c : Context) (cs : Forest) : Prop where
  tree : e.tree = c.plug cs
  mirrors : e.index.Mirrors e.tree
  nodup : e.tree.ids.Nodup

namespace At
variable {e : Engine} {c : Context} {cs : Forest}

theorem mirrors_plug (h : e.At c cs) : e.index.Mirrors (c.plug cs) := h.tree ▸ h.mirrors

theorem nodup_plug (h : e.At c cs) : (Forest.ids (c.plug cs)).Nodup := h.tree ▸ h.nodup

theorem nodup_children (h : e.At c cs) : (Forest.ids cs).Nodup :=
  Context.nodup_children h.nodup_plug

theorem view_owner (h : e.At c cs) : e.index.view c.owner = some (c.path, first? cs) :=
  h.mirrors_plug.view_owner h.nodup_plug

theorem childrenOf (h : e.At c cs) : e.tree.childrenOf c.owner = cs := by
  rw [h.tree, Context.childrenOf_plug h.nodup_plug]

theorem updateChildren (h : e.At c cs) (g : Forest → Forest) :
    e.tree.updateChildren c.owner g = c.plug (g cs) := by
  rw [h.tree, Context.updateChildren_plug g h.nodup_plug]

theorem node? {xs ys : Forest} {d : Decl} (h : e.At c (xs ++ d :: ys)) :
    e.tree.node? d.id = some d := by
  rw [h.tree, Context.node?_child h.nodup_plug]

theorem update {xs ys : Forest} {d : Decl} (h : e.At c (xs ++ d :: ys)) (f : Decl → Decl) :
    e.tree.update d.id f = c.plug (xs ++ f d :: ys) := by
  rw [h.tree, Context.update_child f h.nodup_plug]

end At
end Engine

namespace Merge
variable {α β : Type} {e : Engine} {c : Context} {cs : Forest} {d : Decl}

/-- A step succeeds with `a` and makes `cs` of the children of the owner at the end of `c`. -/
def Reaches (m : Merge α) (e : Engine) (c : Context) (a : α) (cs : Forest) : Prop :=
  ∃ e', m e = .ok a e' ∧ e'.At c cs ∧ e'.next = e.next ∧ e'.syncStandIns = e.syncStandIns

theorem bind_apply {m : Merge α} {f : α → Merge β} {a : α} {e' : Engine} (h : m e = .ok a e') :
    (m >>= f) e = f a e' := by
  show EStateM.bind m f e = _
  rw [EStateM.bind, h]

theorem Reaches.bind {m : Merge α} {f : α → Merge β} {a : α} {b : β} {cs' : Forest}
    (h : Reaches m e c a cs)
    (hf : ∀ e', e'.At c cs → e'.syncStandIns = e.syncStandIns → Reaches (f a) e' c b cs') :
    Reaches (m >>= f) e c b cs' := by
  obtain ⟨e₁, hm, hat, hnext, hsync⟩ := h
  obtain ⟨e₂, hm', hat', hnext', hsync'⟩ := hf e₁ hat hsync
  exact ⟨e₂, (bind_apply hm).trans hm', hat', hnext'.trans hnext, hsync'.trans hsync⟩

theorem Reaches.congr {m m' : Merge α} {a : α} (h : m e = m' e) (hm : Reaches m' e c a cs) :
    Reaches m e c a cs := by
  unfold Reaches
  rw [h]
  exact hm

theorem reaches_pure (a : α) (h : e.At c cs) : Reaches (pure a) e c a cs := ⟨e, rfl, h, rfl, rfl⟩

theorem reaches_notify (notices : List Notice) (h : e.At c cs) :
    Reaches (notify notices) e c () cs :=
  ⟨{ e with log := e.log ++ notices }, rfl, ⟨h.tree, h.mirrors, h.nodup⟩, rfl, rfl⟩

theorem bind_lift_ok {x : Except EditFault α} {a : α} (h : x = .ok a) (f : α → Merge β) :
    lift x >>= f = f a := by
  subst h
  rfl

theorem get_bind (f : Engine → Merge β) : (get >>= f) e = f e e := rfl

theorem childrenOf_apply {o : Owner} (h : e.tree.childrenOf o = cs) :
    childrenOf o e = .ok cs e := by
  subst h
  rfl

theorem childrenOf_bind (h : e.At c cs) (f : Forest → Merge β) :
    (childrenOf c.owner >>= f) e = f cs e := bind_apply (childrenOf_apply h.childrenOf)

theorem qualifiedName_bind (h : e.At c cs) (f : QualifiedName → Merge β) :
    (qualifiedName c.owner d >>= f) e = f ⟨c.path, d.key⟩ e := by
  have hpath : e.index.qualifiedName c.owner d = .ok ⟨c.path, d.key⟩ := by
    rw [Index.qualifiedName, Index.pathOf_eq_view, h.view_owner]
    rfl
  have hname : qualifiedName c.owner d e = .ok ⟨c.path, d.key⟩ e := by
    rw [qualifiedName, get_bind, hpath]
    rfl
  exact bind_apply hname

theorem locationOf_bind {xs ys : Forest} (h : e.At c (xs ++ d :: ys))
    (f : Option Location → Merge β) : (locationOf d.ref >>= f) e = f d.location e := by
  show f ((e.tree.node? d.id).bind Decl.location) e = _
  rw [h.node?]
  rfl

theorem findIdx?_id {xs ys : Forest} (h : (Forest.ids (xs ++ d :: ys)).Nodup) :
    (xs ++ d :: ys).findIdx? (·.id == d.id) = some xs.length := by
  have hx : ∀ x ∈ xs, x.id ≠ d.id := by
    intro x hx hid
    rw [Forest.ids_append, Forest.ids_cons, List.nodup_append] at h
    obtain ⟨us, vs, rfl⟩ := List.append_of_mem hx
    exact h.2.2 x.id (by simp [ids_append, ids_cons]) d.id (by simp) hid
  rw [List.findIdx?_append, List.findIdx?_eq_none_iff.2 (by simpa using hx), List.findIdx?_cons]
  simp

theorem length_eq_of_id {as bs us vs : Forest} {a b : Decl} (hn : (Forest.ids (as ++ a :: bs)).Nodup)
    (h : as ++ a :: bs = us ++ b :: vs) (hid : a.id = b.id) : as.length = us.length := by
  have hpos := findIdx?_id hn
  rw [hid, h, findIdx?_id (h ▸ hn)] at hpos
  exact (Option.some.inj hpos).symm

theorem positionOf_bind {xs ys : Forest} (h : e.At c (xs ++ d :: ys)) (f : Nat → Merge β) :
    (positionOf ⟨d.ref, c.owner⟩ >>= f) e = f xs.length e := by
  have hp : Entry.position? ⟨d.ref, c.owner⟩ e.tree = some xs.length := by
    rw [Entry.position?, h.childrenOf]
    exact findIdx?_id (Index.nodup_child h.nodup_plug)
  have hpos : positionOf ⟨d.ref, c.owner⟩ e = .ok xs.length e := by
    rw [positionOf, get_bind, hp]
    rfl
  exact bind_apply hpos

def withChildren (e : Engine) (o : Owner) (cs : Forest) : Engine :=
  { e with tree := e.tree.updateChildren o fun _ => cs }

theorem withChildren_at (h : e.At c cs) (cs' : Forest) :
    withChildren e c.owner cs' = { e with tree := c.plug cs' } := by
  rw [withChildren, h.updateChildren]

theorem reportInserted_apply {i : Index} {notices : List Notice}
    (hc : e.tree.childrenOf c.owner = cs)
    (hi : e.index.inserted c.owner cs d = .ok (i, notices)) :
    reportInserted c.owner d e = .ok () { e with index := i, log := e.log ++ notices } := by
  rw [reportInserted, get_bind, bind_apply (childrenOf_apply hc), hi]
  rfl

theorem reportRemoved_apply {i : Index}
    (hc : e.tree.childrenOf c.owner = cs)
    (hi : e.index.removed c.owner cs d = .ok i) :
    reportRemoved c.owner d e = .ok () { e with index := i } := by
  rw [reportRemoved, get_bind, bind_apply (childrenOf_apply hc), hi]
  rfl

theorem reportMoved_apply {i : Index} {key : Key}
    (hc : e.tree.childrenOf c.owner = cs)
    (hi : e.index.moved c.owner cs key = .ok i) :
    reportMoved c.owner key e = .ok () { e with index := i } := by
  rw [reportMoved, get_bind, bind_apply (childrenOf_apply hc), hi]
  rfl

theorem nodup_with {xs ys : Forest} (hd : d.children = [])
    (hnew : d.id ∉ Forest.ids (c.plug (xs ++ ys))) (h : (Forest.ids (c.plug (xs ++ ys))).Nodup) :
    (Forest.ids (c.plug (xs ++ d :: ys))).Nodup := by
  have hids : (Forest.ids (xs ++ d :: ys)).Perm (d.id :: Forest.ids (xs ++ ys)) := by
    simpa [ids_cons, hd] using Forest.ids_middle xs ys d
  rw [Context.mem_ids_plug, ← List.mem_append] at hnew
  rw [Context.nodup_plug, (hids.append_left c.ids).nodup_iff, List.nodup_middle, List.nodup_cons]
  exact ⟨hnew, Context.nodup_plug.1 h⟩

theorem reaches_insertAt {p : Nat} (h : e.At c cs)
    (hn : (Forest.ids (c.plug (cs.take p ++ d :: cs.drop p))).Nodup) :
    Reaches (insertAt c.owner p d) e c () (cs.take p ++ d :: cs.drop p) := by
  have hcs : cs.take p ++ cs.drop p = cs := List.take_append_drop p cs
  obtain ⟨i, notices, hok, hi⟩ := Index.inserted_mirrors
    (hcs.symm ▸ h.mirrors_plug) (hcs.symm ▸ h.nodup_plug) hn
  have hstep : insertAt c.owner p d e =
      reportInserted c.owner d { e with tree := c.plug (cs.take p ++ d :: cs.drop p) } := by
    rw [← withChildren_at h]
    show reportInserted c.owner d
      (withChildren e c.owner ((e.tree.childrenOf c.owner).place p d)) = _
    rw [h.childrenOf, place]
  have hchildren := Context.childrenOf_plug hn
  exact ⟨_, hstep.trans (reportInserted_apply hchildren hok), ⟨rfl, hi, hn⟩, rfl, rfl⟩

theorem getElem?_middle (xs ys : Forest) (d : Decl) : (xs ++ d :: ys)[xs.length]? = some d := by
  simp

theorem eraseIdx_middle (xs ys : Forest) (d : Decl) :
    (xs ++ d :: ys).eraseIdx xs.length = xs ++ ys := by
  rw [List.eraseIdx_append_of_length_le (Nat.le_refl _), Nat.sub_self, List.eraseIdx_zero,
    List.tail_cons]

theorem nodup_without {xs ys : Forest} (h : (Forest.ids (c.plug (xs ++ d :: ys))).Nodup) :
    (Forest.ids (c.plug (xs ++ ys))).Nodup := by
  rw [Context.nodup_plug, ((Forest.ids_middle xs ys d).append_left c.ids).nodup_iff] at h
  exact Context.nodup_plug.2 (h.sublist ((List.sublist_append_right _ _).append_left _))

theorem reaches_removeAt {xs ys : Forest} (h : e.At c (xs ++ d :: ys)) :
    Reaches (removeAt c.owner xs.length) e c () (xs ++ ys) := by
  have hn := nodup_without h.nodup_plug
  obtain ⟨i, hok, hi⟩ := Index.removed_mirrors h.mirrors_plug h.nodup_plug hn
  have hchildren : (c.plug (xs ++ ys)).childrenOf c.owner = xs ++ ys := Context.childrenOf_plug hn
  have hstep : removeAt c.owner xs.length e = reportRemoved c.owner d
      { e with tree := c.plug (xs ++ ys), removed := d :: e.removed } := by
    unfold removeAt
    rw [childrenOf_bind h, getElem?_middle, eraseIdx_middle]
    show reportRemoved c.owner d
      { withChildren e c.owner (xs ++ ys) with removed := d :: e.removed } = _
    rw [withChildren_at h]
  exact ⟨_, hstep.trans (reportRemoved_apply hchildren hok), ⟨rfl, hi, hn⟩, rfl, rfl⟩

theorem reaches_replaceAt {xs ys : Forest} {old : Decl} (hkey : old.key = d.key)
    (h : e.At c (xs ++ old :: ys)) (hn : (Forest.ids (c.plug (xs ++ d :: ys))).Nodup) :
    Reaches (replaceAt c.owner xs.length d) e c () (xs ++ d :: ys) := by
  obtain ⟨i₁, i, notices, hok₁, hok, hi⟩ :=
    Index.replaced_mirrors hkey h.mirrors_plug h.nodup_plug hn
  have hchildren : (c.plug (xs ++ d :: ys)).childrenOf c.owner = xs ++ d :: ys :=
    Context.childrenOf_plug hn
  have hstep : replaceAt c.owner xs.length d e =
      (reportRemoved c.owner old >>= fun _ => reportInserted c.owner d)
        { e with tree := c.plug (xs ++ d :: ys), removed := old :: e.removed } := by
    have hset : (xs ++ old :: ys).set xs.length d = xs ++ d :: ys := by simp
    unfold replaceAt
    rw [childrenOf_bind h, getElem?_middle, hset]
    show (reportRemoved c.owner old >>= fun _ => reportInserted c.owner d)
      { withChildren e c.owner (xs ++ d :: ys) with removed := old :: e.removed } = _
    rw [withChildren_at h]
  let e₁ : Engine := { e with tree := c.plug (xs ++ d :: ys), removed := old :: e.removed }
  have hreports := (bind_apply (f := fun _ => reportInserted c.owner d)
    (reportRemoved_apply (e := e₁) hchildren hok₁)).trans
      (reportInserted_apply (e := { e₁ with index := i₁ }) hchildren hok)
  exact ⟨_, hstep.trans hreports, ⟨rfl, hi, hn⟩, rfl, rfl⟩

theorem reaches_change {xs ys : Forest} {f : Decl → Decl} (hf : d.Alike (f d))
    (h : e.At c (xs ++ d :: ys)) : Reaches (change d.ref f) e c () (xs ++ f d :: ys) := by
  have hn : (Forest.ids (c.plug (xs ++ f d :: ys))).Nodup := by
    rw [Context.nodup_plug, hf.ids_middle]
    exact Context.nodup_plug.1 h.nodup_plug
  refine ⟨{ e with tree := c.plug (xs ++ f d :: ys) }, ?_,
    ⟨rfl, Index.changed_mirrors hf h.mirrors_plug h.nodup_plug, hn⟩, rfl, rfl⟩
  rw [← h.update f]
  rfl

end Merge
end SignatureLayers
