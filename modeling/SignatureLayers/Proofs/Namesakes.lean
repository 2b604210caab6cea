import SignatureLayers.Proofs.Clauses
import SignatureLayers.Proofs.Contents
import SignatureLayers.Proofs.MemberNames

namespace SignatureLayers

open Forest

def Key.ofShape (s : Nat × Kind × String) : Key := ⟨s.2.2, s.2.1.isMember⟩

theorem Decl.isContainer_of_isMember {d : Decl} (h : d.isMember = true) :
    d.isContainer = false := by
  cases d with
  | container => cases h
  | leaf | member => rfl

/-- All that the tree of `e` holds is in that of `e'`, but for what has the key. -/
def Engine.Spares (key : Key) (e e' : Engine) : Prop :=
  ∀ s ∈ contents e.tree, s ∈ contents e'.tree ∨ Key.ofShape s = key

namespace Engine.Spares
variable {e e₁ e₂ : Engine} {key : Key} {o : Owner} {new : Forest}

theorem of_tree (h : e₁.tree = e.tree) : e.Spares key e₁ := fun _ hs => .inl (h ▸ hs)

theorem trans (h : e.Spares key e₁) (h' : e₁.Spares key e₂) : e.Spares key e₂ := fun s hs =>
  (h s hs).elim (h' s) .inr

theorem of_exchange (hn : e.tree.ids.Nodup)
    (htree : e₁.tree = e.tree.updateChildren o fun _ => new)
    (hnew : ∀ s ∈ contents (e.tree.childrenOf o), s ∈ contents new ∨ Key.ofShape s = key) :
    e.Spares key e₁ := by
  intro s hs
  rw [htree]
  exact contents_updateChildren_spares hn hnew s hs

end Engine.Spares

namespace Merge
variable {α : Type} {m : Merge α} {o : Owner} {d x : Decl} {e : Engine} {us ys : Forest}
  {key : Key}

theorem Still.spares (h : Still m) (e : Engine) :
    Ends (fun _ => e.Spares key) (e.Spares key) (m e) :=
  (h e).mono (fun _ _ h => .of_tree h.1) fun _ h => .of_tree h.1

theorem mem_contents_middle (hx : x.isContainer = false) (us ys : Forest) :
    ∀ s ∈ contents (us ++ x :: ys), s ∈ contents (us ++ ys) ∨ Key.ofShape s = x.key := by
  intro s hs
  rw [contents_append, contents_cons, Decl.children_eq_nil hx, contents_nil, List.nil_append,
    (List.perm_middle).mem_iff, List.mem_cons, ← contents_append] at hs
  exact hs.symm.imp_right (congrArg Key.ofShape)

/-- The owner has the children `cs`, in a tree without two equal identities. -/
structure Owns (o : Owner) (cs : Forest) (e : Engine) : Prop where
  nodup : e.tree.ids.Nodup
  children : e.tree.childrenOf o = cs

theorem ends_removeAt (h : Owns o (us ++ x :: ys) e) (hx : x.isContainer = false) :
    Ends (fun _ e' => e.Spares x.key e' ∧ Owns o (us ++ ys) e') (e.Spares x.key)
      (removeAt o us.length e) := by
  obtain ⟨hn, hchildren⟩ := h
  let cut : Engine :=
    { e with tree := e.tree.updateChildren o fun _ => us ++ ys, removed := x :: e.removed }
  have hrun : removeAt o us.length e = reportRemoved o x cut := by
    unfold removeAt
    rw [bind_apply (childrenOf_apply hchildren), getElem?_middle, eraseIdx_middle]
    rfl
  have hsub := contents_sublist ((List.sublist_cons_self x ys).append_left us)
  have hspares {e' : Engine} (htree : e'.tree = cut.tree) : e.Spares x.key e' :=
    .of_exchange hn htree (hchildren ▸ mem_contents_middle hx us ys)
  have hcut : (ids cut.tree).Nodup := nodup_updateChildren hn (hchildren ▸ hsub.subperm)
  have howns {e' : Engine} (htree : e'.tree = cut.tree) : Owns o (us ++ ys) e' := by
    refine ⟨htree ▸ hcut, ?_⟩
    rcases absent_or_plug o hn with ⟨hnone, -⟩ | ⟨c, rfl, -, hupdate⟩
    · rw [hnone] at hchildren
      simp at hchildren
    · have hplug : cut.tree = c.plug (us ++ ys) := hupdate fun _ => us ++ ys
      rw [htree, hplug]
      rw [hplug] at hcut
      exact Context.childrenOf_plug hcut
  rw [hrun]
  exact (still_reportRemoved o x cut).mono (fun _ _ h => ⟨hspares h.1, howns h.1⟩)
    fun _ h => hspares h.1

theorem ends_removeAll (hkey : key.member = true) (us ys : Forest) (h : Owns o (us ++ ys) e) :
    Ends (fun _ e' => e.Spares key e' ∧ Owns o (us ++ ys.filter (·.key != key)) e') (e.Spares key)
      ((positionsFrom us.length key ys).reverse.forM (removeAt o) e) := by
  induction ys generalizing us with
  | nil => exact ⟨.of_tree rfl, h⟩
  | cons y ys ih =>
    have hus : us ++ y :: ys = (us ++ [y]) ++ ys := by simp
    have hlater := ih (us ++ [y]) (hus ▸ h)
    rw [List.length_append, List.length_singleton] at hlater
    rw [positionsFrom_cons]
    by_cases hy : y.key = key
    · have hkeep : (y :: ys).filter (·.key != key) = ys.filter (·.key != key) := by simp [hy]
      have hleaf : y.isContainer = false :=
        Decl.isContainer_of_isMember (hkey ▸ congrArg Key.member hy)
      rw [if_pos hy, List.singleton_append, List.reverse_cons, List.forM_eq_forM,
        List.forM_append, hkeep]
      refine hlater.bind fun _ e₁ h₁ => ?_
      have howns : Owns o (us ++ y :: ys.filter (·.key != key)) e₁ := by simpa using h₁.2
      have hlast := ends_removeAt howns hleaf
      rw [hy] at hlast
      rw [List.forM_cons, List.forM_nil]
      exact (hlast.mono (fun _ _ h => ⟨h₁.1.trans h.1, h.2⟩) fun _ h => h₁.1.trans h).bind
        fun _ _ h => h
    · have hkeep : us ++ (y :: ys).filter (·.key != key) =
          (us ++ [y]) ++ ys.filter (·.key != key) := by simp [hy]
      rw [if_neg hy, List.nil_append, hkeep]
      exact hlater

theorem ends_replaceAt (h : Owns o (us ++ x :: ys) e) (hx : x.isContainer = false) (d : Decl) :
    Ends (fun _ => e.Spares x.key) (e.Spares x.key) (replaceAt o us.length d e) := by
  obtain ⟨hn, hchildren⟩ := h
  let set : Engine :=
    { e with tree := e.tree.updateChildren o fun _ => us ++ d :: ys, removed := x :: e.removed }
  have hset : (us ++ x :: ys).set us.length d = us ++ d :: ys := by simp
  have hrun : replaceAt o us.length d e =
      (reportRemoved o x >>= fun _ => reportInserted o d) set := by
    unfold replaceAt
    rw [bind_apply (childrenOf_apply hchildren), getElem?_middle, hset]
    rfl
  have hsub : (us ++ ys).Sublist (us ++ d :: ys) := (List.sublist_cons_self d ys).append_left us
  have hspares : e.Spares x.key set := by
    refine .of_exchange hn rfl fun s hs => ?_
    rw [hchildren] at hs
    exact (mem_contents_middle hx us ys s hs).imp_left ((contents_sublist hsub).subset ·)
  have hreports : Ends (fun _ => set.Spares x.key) (set.Spares x.key)
      ((reportRemoved o x >>= fun _ => reportInserted o d) set) :=
    ((still_reportRemoved o x).bind fun _ => still_reportInserted o d).spares set
  rw [hrun]
  exact hreports.mono (fun _ _ h => hspares.trans h) fun _ h => hspares.trans h

theorem Still.ends_bind {β : Type} {f : α → Merge β} (hm : Still m)
    (hf : ∀ a e', e'.tree = e.tree → Ends (fun _ => e'.Spares key) (e'.Spares key) (f a e')) :
    Ends (fun _ => e.Spares key) (e.Spares key) ((m >>= f) e) :=
  ((hm e).mono (fun _ _ h => h.1) fun _ h => .of_tree h.1).bind fun a e' h =>
    (hf a e' h).mono (fun _ _ h' => (Engine.Spares.of_tree h).trans h')
      fun _ h' => (Engine.Spares.of_tree h).trans h'

theorem ends_delete (hmember : d.isMember = true) (hn : e.tree.ids.Nodup)
    (existing : Option Entry) :
    Ends (fun _ => e.Spares d.key) (e.Spares d.key) (delete o d existing e) := by
  cases existing with
  | none =>
    exact ((still_qualifiedName o d).bind fun _ => (still_notify _).bind fun _ =>
      still_pure none).spares e
  | some entry =>
    have hkey : d.key.member = true := hmember
    have hremoved := ends_removeAll hkey [] (e.tree.childrenOf o) ⟨hn, rfl⟩
    refine Ends.after (childrenOf_apply rfl) ?_
    exact (hremoved.mono (fun _ _ h => h.1) fun _ h => h).bind fun _ _ h => h

theorem ends_override (hmember : d.isMember = true) (hn : e.tree.ids.Nodup)
    (existing : Option Entry) (token : Nat) :
    Ends (fun _ => e.Spares d.key) (e.Spares d.key) (override o d existing token e) := by
  cases existing with
  | none =>
    exact ((still_qualifiedName o d).bind fun _ => (still_notify _).bind fun _ =>
      still_pure none).spares e
  | some entry =>
    refine (still_locationOf entry.node).ends_bind fun location e' htree => ?_
    rw [← htree] at hn
    generalize hcs : e'.tree.childrenOf o = cs
    refine Ends.after (childrenOf_apply hcs) ?_
    have hkey : ((d.dropAnnot token).withLocation location).key = d.key := by cases d <;> rfl
    cases hcut : cut? d.key cs with
    | none =>
      have hnone : positions d.key cs = [] := by
        have hother := homonyms_eq_nil.1 (cut?_eq_none.1 hcut)
        rw [positions, List.map_eq_nil_iff, List.filter_eq_nil_iff]
        exact fun p hp => by simpa using hother p.1 (List.fst_mem_of_mem_zipIdx hp)
      simp only [hkey, hnone]
      exact (still_throw _).spares e'
    | some found =>
      obtain ⟨xs, x, ys⟩ := found
      simp only [hkey, positions_of_cut? hcut]
      obtain ⟨rfl, -, hx⟩ := cut?_eq_some hcut
      have hleaf : x.isContainer = false :=
        Decl.isContainer_of_isMember ((congrArg Key.member hx).trans hmember)
      have hmember' : d.key.member = true := hmember
      have hremoved := ends_removeAll hmember' (xs ++ [x]) ys ⟨hn, by simpa using hcs⟩
      rw [List.length_append, List.length_singleton] at hremoved
      refine hremoved.bind fun _ e₁ h₁ => ?_
      have howns : Owns o (xs ++ x :: ys.filter (·.key != d.key)) e₁ := by simpa using h₁.2
      have hreplaced := ends_replaceAt howns hleaf
        ((d.dropAnnot token).withLocation location).hollow
      rw [hx] at hreplaced
      exact (hreplaced.mono (fun _ _ h => h₁.1.trans h) fun _ h => h₁.1.trans h).bind
        fun _ _ h => h

/-- A member that overrides or deletes takes out nothing but members of its name. -/
theorem ends_settle_removes (fresh : Bool) (hn : e.tree.ids.Nodup) (hd : d.Removes)
    (hmember : d.isMember = true) :
    Ends (fun _ => e.Spares d.key) (e.Spares d.key) (settle o fresh d e) := by
  obtain ⟨token, directive, hw, hdirective⟩ := hd
  refine (still_existing? o d).ends_bind fun existing e' htree => ?_
  rw [← htree] at hn
  rcases hdirective with rfl | rfl <;> simp only [hw]
  · exact ends_override hmember hn existing token
  · exact ends_delete hmember hn existing

def Call.after (call : Call) : Engine :=
  match settle call.owner call.fresh call.decl call.engine with
  | .ok _ e => e
  | .error _ e => e

theorem Call.after_of_ends {P : Engine → Prop} {call : Call}
    (h : Ends (fun _ => P) P (settle call.owner call.fresh call.decl call.engine)) :
    P call.after := by
  unfold Call.after
  split
  · next hrun => exact (hrun ▸ h :)
  · next hrun => exact (hrun ▸ h :)

/-- What is in the tree until the declaration is settled. -/
structure Call.TakesOut (call : Call) (x : Decl) : Prop where
  before : x ∈ call.engine.tree.preorder
  after : x.id ∉ call.after.tree.ids

end Merge

namespace Engine

def Worded (s : Kind × String) : Prop := ∀ k, s.1 = .member k → k.Bears s.2

theorem worded_of_parse {file source : String} {f : Forest} (h : parse file source = .ok f) :
    ∀ d ∈ f.preorder, Worded (d.kind, d.name) := by
  intro d hd k hk
  obtain ⟨head, -, -, -, hhead, -⟩ := ((parsed_of_parse h).readable d hd).legible.wording
  cases d with
  | container | leaf => cases hk
  | member k' header oldName =>
    cases hk
    exact ⟨head, oldName, hhead⟩

/-- After any layers that the parser accepts, a member that overrides or deletes takes out only
members of its own name, and only of its own kind or of one that can share a name with it. Two kinds
can do so exactly when there are lines that declare members of both under one name. -/
theorem taken_shares_name (syncStandIns : Bool) {layers : List Forest} {layer : Forest}
    (hlayers : ∀ f ∈ layers ++ [layer], ∃ file source, parse file source = .ok f)
    {call : Merge.Call}
    (hcall : Merge.Calls .root false (layer.number (afterLayersWith syncStandIns layers).next).1
      ((afterLayersWith syncStandIns layers).started layer) call)
    {k : MemberKind} (hk : call.decl.kind = .member k) (hremoves : call.decl.Removes) :
    (∀ x, call.TakesOut x →
      ∃ k', x.kind = .member k' ∧ x.name = call.decl.name ∧ k'.shareNames k = true) ∧
      ∀ k k' : MemberKind, k.shareNames k' = true ↔ ∃ name, k.Bears name ∧ k'.Bears name := by
  refine ⟨?_, fun k k' => MemberKind.shareNames_iff⟩
  have hworded : ∀ f ∈ layers ++ [layer], ∀ d ∈ f.preorder, Worded (d.kind, d.name) :=
    fun f hf => by
      obtain ⟨file, source, h⟩ := hlayers f hf
      exact worded_of_parse h
  have hholds : (afterLayersWith syncStandIns layers).Holds Worded :=
    List.foldlRecOn layers _ (.empty Worded syncStandIns) fun e he f hf =>
      he.mergeLayer (hworded f (List.mem_append_left _ hf))
  obtain ⟨hengine, hdecl⟩ := hholds.calls (hworded layer (by simp)) hcall
  have hmember : call.decl.isMember = true := by rw [Decl.isMember, hk]; rfl
  have hspares : call.engine.Spares call.decl.key call.after :=
    Merge.Call.after_of_ends
      (Merge.ends_settle_removes call.fresh hengine.nodup hremoves hmember)
  rintro x ⟨hbefore, hafter⟩
  have hshape : x.shape ∈ contents call.engine.tree := List.mem_map_of_mem hbefore
  have hkey : x.key = call.decl.key := (hspares _ hshape).resolve_left fun hmem =>
    hafter (map_fst_contents _ ▸ List.mem_map_of_mem hmem)
  have hname : x.name = call.decl.name := congrArg Key.name hkey
  have hx : x.isMember = true := (congrArg Key.member hkey).trans hmember
  cases hkind : x.kind with
  | container | leaf => simp [Decl.isMember, hkind, Kind.isMember] at hx
  | member k' =>
    have hbears : k'.Bears x.name := hengine.all _ hshape k' hkind
    exact ⟨k', rfl, hname, MemberKind.shareNames_iff.2 ⟨x.name, hbears, hname ▸ hdecl k hk⟩⟩

/-- A reader and a writer of one attribute make way for an accessor. -/
theorem taken_shares_name_attribute :
    ∃ layer, parse "" ("class A\n  attr_reader x: T\n  attr_writer x: T\n" ++
        "  %a\x7bpatch:override\x7d\n  attr_accessor x: T\nend\n") = .ok layer ∧
      ∃ call x, Merge.Calls .root false (layer.number (afterLayersWith true []).next).1
          ((afterLayersWith true []).started layer) call ∧
        call.decl.kind = .member .attrAccessor ∧ call.decl.Removes ∧ call.TakesOut x ∧
        x.kind = .member .attrWriter ∧
        ∃ k', x.kind = .member k' ∧ x.name = call.decl.name ∧
          k'.shareNames .attrAccessor = true := by
  let reader : Decl := .member .attrReader
    { name := "x"
      text := ["attr_reader x: T"]
      location := some ⟨2, 2⟩ } none
  let writer : Decl := .member .attrWriter
    { name := "x"
      text := ["attr_writer x: T"]
      location := some ⟨3, 3⟩ } none
  let accessor : Decl := .member .attrAccessor
    { name := "x"
      text := ["attr_accessor x: T"]
      annotations := [⟨"patch:override", "%a\x7bpatch:override\x7d"⟩]
      location := some ⟨4, 5⟩ } none
  let container : Decl := .container .classDecl
    { name := "A"
      text := ["class A"]
      location := some ⟨1, 6⟩ } [reader, writer, accessor] []
  have hparse : parse "" ("class A\n  attr_reader x: T\n  attr_writer x: T\n" ++
      "  %a\x7bpatch:override\x7d\n  attr_accessor x: T\nend\n") = .ok [container] := by cbv
  have hrun : ∃ call x, Merge.Calls .root false
      (number (afterLayersWith true []).next [container]).1
      ((afterLayersWith true []).started [container]) call ∧
      call.decl.kind = .member .attrAccessor ∧ call.decl.Removes ∧ call.TakesOut x ∧
      x.kind = .member .attrWriter := by
    rw [number_cons]
    apply Exists.intro
    refine ⟨numbered 3 writer, ?run, ?kind, ?removes, ?out, rfl⟩
    case run =>
      apply Merge.Calls.inside
      · conv_lhs => cbv
      rw [children_numbered, Decl.children, number_cons, number_cons, number_cons]
      apply Merge.Calls.behind_leaf rfl
      · conv_lhs => cbv
      apply Merge.Calls.behind_leaf rfl
      · conv_lhs => cbv
      apply Merge.Calls.first
    case kind => rfl
    case removes => exact ⟨0, .override, by decide +kernel, .inl rfl⟩
    case out =>
      constructor
      · cbv
        exact .tail _ (.tail _ (.head _))
      · cbv
        exact (by decide : 3 ∉ [1, 4])
  obtain ⟨call, x, hcall, hkind, hremoves, hout, hx⟩ := hrun
  have hlayers : ∀ f ∈ [] ++ [[container]], ∃ file source, parse file source = .ok f :=
    List.forall_mem_singleton.2 ⟨_, _, hparse⟩
  exact ⟨_, hparse, call, x, hcall, hkind, hremoves, hout, hx,
    (taken_shares_name true hlayers hcall hkind hremoves).1 x hout⟩

/-- A class includes and extends a module, and the deletion of the one takes out the other too. -/
theorem taken_other_kind :
    ∃ layer, parse "" ("class A\n  include M\n  extend M\n" ++
        "  %a\x7bpatch:delete\x7d\n  include M\nend\n") = .ok layer ∧
      ∃ call x, Merge.Calls .root false (layer.number (afterLayersWith false []).next).1
          ((afterLayersWith false []).started layer) call ∧
        call.decl.kind = .member .includeMixin ∧ call.decl.Removes ∧ call.TakesOut x ∧
        x.kind = .member .extendMixin := by
  let included : Decl := .member .includeMixin
    { name := "M"
      text := ["include M"]
      location := some ⟨2, 2⟩ } none
  let extended : Decl := .member .extendMixin
    { name := "M"
      text := ["extend M"]
      location := some ⟨3, 3⟩ } none
  let deletion : Decl := .member .includeMixin
    { name := "M"
      text := ["include M"]
      annotations := [⟨"patch:delete", "%a\x7bpatch:delete\x7d"⟩]
      location := some ⟨4, 5⟩ } none
  let container : Decl := .container .classDecl
    { name := "A"
      text := ["class A"]
      location := some ⟨1, 6⟩ } [included, extended, deletion] []
  refine ⟨[container], by cbv, ?_⟩
  rw [number_cons]
  apply Exists.intro
  refine ⟨numbered 3 extended, ?run, ?kind, ?removes, ?out, rfl⟩
  case run =>
    apply Merge.Calls.inside
    · conv_lhs => cbv
    rw [children_numbered, Decl.children, number_cons, number_cons, number_cons]
    apply Merge.Calls.behind_leaf rfl
    · conv_lhs => cbv
    apply Merge.Calls.behind_leaf rfl
    · conv_lhs => cbv
    apply Merge.Calls.first
  case kind => rfl
  case removes => exact ⟨0, .delete, by decide +kernel, .inr rfl⟩
  case out =>
    constructor
    · cbv
      exact .tail _ (.tail _ (.head _))
    · cbv
      exact (by decide : 3 ∉ [1])

end Engine
end SignatureLayers
