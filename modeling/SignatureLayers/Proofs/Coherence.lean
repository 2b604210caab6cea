import Mathlib.Data.List.Basic
import Mathlib.Data.List.Induction
import SignatureLayers.Proofs.Relabelling

namespace SignatureLayers

open Forest

namespace Forest

theorem ids_number (next : Nat) (f : Forest) :
    ids (number next f).1 = List.range' next (size f) := by
  induction f using Forest.induct generalizing next with
  | nil => rw [number, size, ids_nil, List.range'_zero]
  | cons d rest inner tail =>
    cases d with
    | container k h cs t =>
      have hcs : ids (number (next + 1) cs).1 = _ := inner (next + 1)
      rw [number, size, Nat.add_assoc, Nat.add_comm 1, List.range'_succ, ← List.range'_append_1,
        ids_cons, tail, number_snd]
      simp only [Decl.children, hcs]
      rfl
    | leaf | member =>
      simp only [number, size]
      rw [Nat.add_comm 1, List.range'_succ, ids_cons, tail]
      simp [Decl.mapHeader, Decl.id, Decl.header, Decl.children]

theorem nodup_ids_number (next : Nat) (f : Forest) : (ids (number next f).1).Nodup := by
  rw [ids_number]
  exact List.nodup_range'

theorem mem_ids_number {id next : Nat} {f : Forest} :
    id ∈ ids (number next f).1 ↔ next ≤ id ∧ id < next + size f := by
  rw [ids_number, List.mem_range'_1]

theorem movesOnly_number {moved : String → Prop} {next : Nat} {layer : Forest} :
    MovesOnly moved (number next layer).1 ↔ MovesOnly moved layer :=
  forall_number_iff fun d => by simp [Decl.Moves]

end Forest

/-- Two indices answer every question alike, and resolve the same names in the forest `f`. -/
structure Index.SameAnswers (i j : Index) (f : Forest) : Prop where
  pathOf (o : Owner) : i.pathOf o = j.pathOf o
  get? (q : QualifiedName) : i.get? q = j.get? q
  containerFor? (path : List String) : i.containerFor? path = j.containerFor? path
  findSibling (o : Owner) (name : String) : i.findSibling o name = j.findSibling o name
  names : i.names f = j.names f

theorem Index.Mirrors.sameAnswers {i : Index} {f : Forest} (h : i.Mirrors f) (hn : f.ids.Nodup) :
    i.SameAnswers (.ofForest f) f := by
  have hview : i.view = (Index.ofForest f).view := h.view_eq (mirrors_ofForest hn)
  exact ⟨pathOf_congr hview, get?_congr hview, containerFor?_congr hview, findSibling_congr hview,
    names_congr hview f⟩

theorem Index.Mirrors.mem_scopes {i : Index} {f : Forest} (h : i.Mirrors f) (o : Owner) :
    o ∈ i.scopes.map Prod.fst ↔
      o = .root ∨ ∃ d ∈ f.preorder, d.isContainer = true ∧ o = .container d.id := by
  have hlisted : (listed f).scopes.map Prod.fst = .root :: owners f := by
    rw [listed, List.map_cons, map_fst_nested]
  rw [← mem_owners, ← List.mem_cons, ← hlisted, ← view_isSome, ← view_isSome, h o]

namespace Engine
variable {e : Engine}

/-- What holds of an engine between two layers, of which none moves but `moved` containers. -/
structure CoherentFor (moved : String → Prop) (e : Engine) : Prop where
  mirrors : e.index.Mirrors e.tree
  nodup : e.tree.ids.Nodup
  sound : e.tree.Sound moved
  fresh : ∀ id ∈ e.tree.ids, id < e.next
  unsynced : e.syncStandIns = false

abbrev Coherent (e : Engine) : Prop := e.CoherentFor fun _ => True

theorem coherentFor_ofForest {moved : String → Prop} {tree : Forest} (h : tree.Sound moved) :
    (ofForest tree false).CoherentFor moved where
  mirrors := Index.mirrors_ofForest (nodup_ids_number 1 tree)
  nodup := nodup_ids_number 1 tree
  sound := h.number 1
  fresh id hid := by
    have := (mem_ids_number.1 hid).2
    rwa [← number_snd] at this
  unsynced := rfl

/-- The engine on which a layer is merged: the identities of the layer are taken. -/
def started (e : Engine) (layer : Forest) : Engine :=
  { e with next := (layer.number e.next).2 }

theorem CoherentFor.ready {moved : String → Prop} (h : e.CoherentFor moved) (layer : Forest)
    (hlayer : layer.MovesOnly moved) :
    Merge.Ready moved (e.started layer) [] true e.tree (layer.number e.next).1 where
  here := ⟨rfl, h.mirrors, h.nodup⟩
  leads := rfl
  sound _ := h.sound
  moves := movesOnly_number.2 hlayer
  nodup := nodup_ids_number e.next layer
  new id hid hmem := by
    have := h.fresh id hmem
    have := (mem_ids_number.1 hid).1
    omega
  unsynced := h.unsynced

/-- A layer is merged into a coherent engine without a fault. -/
theorem CoherentFor.mergeLayer {moved : String → Prop} (h : e.CoherentFor moved) {layer : Forest}
    (hlayer : layer.MovesOnly moved) :
    (e.mergeLayer layer).1 = none ∧ (e.mergeLayer layer).2.CoherentFor moved ∧
      (e.mergeLayer layer).2.tree = merged true false e.tree (layer.number e.next).1 := by
  have hready := h.ready layer hlayer
  obtain ⟨e', hrun, hat', hnext, hsync⟩ := Merge.reaches_mergeAll false hready
  have hmerged : e.mergeLayer layer = (none, e') := by
    rw [Context.owner_nil, started] at hrun
    simp only [Engine.mergeLayer, hrun]
  have htree : e'.tree = merged true false e.tree (layer.number e.next).1 := hat'.tree
  rw [hmerged]
  refine ⟨rfl, ⟨hat'.mirrors, hat'.nodup, ?_, fun id hid => ?_, hsync.trans h.unsynced⟩, htree⟩
  · rw [htree]
    exact Sound.merged hready.moves h.sound
  · rw [htree] at hid
    show id < e'.next
    have hbound : e'.next = e.next + layer.size := hnext.trans (number_snd e.next layer)
    rcases mem_ids_merged hid with hid | hid
    · have := h.fresh id hid
      omega
    · have := (mem_ids_number.1 hid).2
      omega

theorem Coherent.mergeLayer (h : e.Coherent) (layer : Forest) :
    (e.mergeLayer layer).1 = none ∧ (e.mergeLayer layer).2.Coherent ∧
      (e.mergeLayer layer).2.tree = merged true false e.tree (layer.number e.next).1 :=
  CoherentFor.mergeLayer h fun _ _ _ => trivial

/-- The engine over a tree, after layers that are merged one after the other. -/
def preloaded (tree : Forest) (layers : List Forest) : Engine :=
  layers.foldl (fun e layer => (e.mergeLayer layer).2) (.ofForest tree false)

theorem coherentFor_preloaded {moved : String → Prop} {tree : Forest} {layers : List Forest}
    (htree : tree.Sound moved) (hlayers : ∀ layer ∈ layers, layer.MovesOnly moved) :
    (preloaded tree layers).CoherentFor moved :=
  List.foldlRecOn layers _ (coherentFor_ofForest htree)
    fun _ h layer hlayer => (h.mergeLayer (hlayers layer hlayer)).2.1

/-- The engine after layers that are merged one after the other over an empty tree. -/
def afterLayers (layers : List Forest) : Engine :=
  layers.foldl (fun e layer => (e.mergeLayer layer).2) (.ofForest [] false)

theorem ofForest_nil (syncStandIns : Bool) : ofForest [] syncStandIns = { syncStandIns } := by
  simp only [ofForest, number, Index.duplicates]

theorem coherent_empty : ({} : Engine).Coherent :=
  ofForest_nil false ▸ coherentFor_ofForest .nil

theorem coherent_afterLayers (layers : List Forest) : (afterLayers layers).Coherent := by
  show (preloaded [] layers).Coherent
  exact coherentFor_preloaded .nil fun _ _ _ _ _ => trivial

/-- What layers make of an empty tree, up to identities. -/
theorem anonymous_afterLayers (layers : List Forest) : (afterLayers layers).tree.anonymous =
    layers.foldl (fun cs layer => merged true false cs layer.anonymous) [] := by
  induction layers using List.reverseRecOn with
  | nil => rw [afterLayers, List.foldl_nil, ofForest_nil, List.foldl_nil, anonymous_nil]
  | append_singleton layers layer ih =>
    have htree := ((coherent_afterLayers layers).mergeLayer layer).2.2
    rw [List.foldl_append, ← ih, List.foldl_cons, List.foldl_nil, afterLayers, List.foldl_append]
    exact (congrArg anonymous htree).trans (by rw [anonymous_merged, anonymous_number])

/-- After every layer the index is as if it had been built afresh. -/
theorem mergeLayer_index_fresh (layers : List Forest) (layer : Forest) :
    ((afterLayers layers).mergeLayer layer).1 = none ∧
      let e := ((afterLayers layers).mergeLayer layer).2
      e.tree.ids.Nodup ∧ e.index.SameAnswers (.ofForest e.tree) e.tree ∧
        ∀ o, o ∈ e.index.scopes.map Prod.fst ↔
          o = .root ∨ ∃ d ∈ e.tree.preorder, d.isContainer = true ∧ o = .container d.id := by
  obtain ⟨hfault, hcoherent, -⟩ := (coherent_afterLayers layers).mergeLayer layer
  exact ⟨hfault, hcoherent.nodup, hcoherent.mirrors.sameAnswers hcoherent.nodup,
    hcoherent.mirrors.mem_scopes⟩

end Engine
end SignatureLayers
