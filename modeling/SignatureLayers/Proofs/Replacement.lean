import SignatureLayers.Proofs.Calls
import SignatureLayers.Proofs.Depth
import SignatureLayers.Proofs.Frame
import SignatureLayers.Proofs.Independence

namespace SignatureLayers

open Forest

theorem Merge.eval_get {α : Type} {m : Merge α} {a : α} {e e' : Engine} (h : m e = .ok a e') :
    (m >>= fun _ => get).run' e = some e' := by
  rw [EStateM.run', EStateM.run, Merge.bind_apply h]
  rfl

theorem QualifiedName.Encloses.key_eq {path : List String} {key key' : Key} {q : QualifiedName}
    (h : Encloses ⟨path, key⟩ q) (h' : Encloses ⟨path, key'⟩ q) : key = key' := by
  have habove {key : Key} (h : path ++ [key.name] <+: path) : False := by
    have := h.length_le
    rw [List.length_append, List.length_singleton] at this
    omega
  rcases h with rfl | ⟨hm, hp⟩ <;> rcases h' with heq | ⟨hm', hp'⟩
  · exact (congrArg QualifiedName.key heq).symm
  · exact (habove hp').elim
  · subst heq
    exact (habove hp).elim
  · have hlength : (path ++ [key.name]).length = (path ++ [key'.name]).length := by
      rw [List.length_append, List.length_append, List.length_singleton, List.length_singleton]
    have hsame : path ++ [key.name] = path ++ [key'.name] :=
      (List.prefix_of_prefix_length_le hp hp' (Nat.le_of_eq hlength)).eq_of_length hlength
    have hname : key.name = key'.name := List.singleton_inj.1 (List.append_cancel_left hsame)
    cases key
    cases key'
    exact congr (congrArg Key.mk hname) (hm.trans hm'.symm)

namespace Forest
variable {o : Owner} {path : List String} {key : Key} {c : Context} {d : Decl} {cs f : Forest}
  {x y : Site}

theorem sibling_of_encloses (hx : x ∈ sitesFrom o path f)
    (h : QualifiedName.Encloses ⟨path, key⟩ x.name) :
    ∃ d ∈ f, d.key = key ∧ x ∈ sitesFrom o path [d] := by
  obtain ⟨d, hd, hsite⟩ := exists_sibling hx
  exact ⟨d, hd, (encloses_of_site hsite).key_eq h, hsite⟩

theorem site_of_plug (o : Owner) (path : List String) (c : Context) (h : d ∈ cs) :
    ∃ o', ⟨o', path ++ c.path, d⟩ ∈ sitesFrom o path (c.plug cs) := by
  induction c generalizing o path with
  | nil =>
    rw [Context.path, List.map_nil, List.append_nil]
    exact ⟨o, site_of_mem o path h⟩
  | cons l c ih =>
    obtain ⟨o', hsite⟩ := ih (.container l.header.id) (path ++ [l.header.name])
    rw [List.append_assoc] at hsite
    exact ⟨o', mem_sitesFrom_middle.2 (.inr (.inl hsite))⟩

end Forest

theorem Site.Brought.siteName {x y : Site} (h : y.Brought x) : x.name = y.name := by
  rw [Site.name, Site.name, h.path, Decl.key, Decl.key, h.name, Decl.isMember, Decl.isMember,
    h.kind]

theorem Context.Clear.concat {c : Context} {l : Shell} (h : c.Clear)
    (hl : ∀ d ∈ l.before, d.key ≠ ⟨l.header.name, false⟩) : Clear (c ++ [l]) :=
  List.forall_mem_append.2 ⟨h, List.forall_mem_singleton.2 hl⟩

namespace Index
variable {i : Index} {c : Context} {cs : Forest} {scope : List String} {q : QualifiedName}
  {entry : Entry} {o : Owner} {key : Key}

theorem descend?_append (i : Index) (o : Owner) (path path' : List String) :
    i.descend? o (path ++ path') = (i.descend? o path).bind fun o => i.descend? o path' := by
  induction path generalizing o with
  | nil => rfl
  | cons name path ih =>
    rw [List.cons_append, descend?, descend?]
    cases i.childAt? o ⟨name, false⟩ with
    | none => rfl
    | some r =>
      dsimp only
      split
      · exact ih _
      · rfl

theorem site_of_get? (h : i.Mirrors (c.plug cs)) (hn : (Forest.ids (c.plug cs)).Nodup)
    (hc : c.Clear) (hq : c.path <+: q.scope) (hget : i.get? q = some entry) :
    ∃ x ∈ sitesFrom c.owner c.path cs, x.name = q ∧ x.decl.ref = entry.node := by
  obtain ⟨scope, hscope⟩ := hq
  obtain ⟨o, ho, hchild⟩ := Option.bind_eq_some_iff.1 hget
  obtain ⟨r, hr, rfl⟩ := Option.map_eq_some_iff.1 hchild
  rw [← hscope, containerFor?, descend?_append, ← containerFor?,
    containerFor?_path h hn hc.leads] at ho
  obtain ⟨c', ds, rfl, rfl, rfl, -⟩ := descend?_eq_some h hn ho
  rw [← Context.plug_append] at h hn
  rw [childAt?_eq_view, h.view_owner hn] at hr
  obtain ⟨us, z, vs, rfl, -, hkey, rfl⟩ := exists_of_first? hr
  have hz : z ∈ us ++ z :: vs := List.mem_append_cons_self
  obtain ⟨o', hsite⟩ := site_of_plug c.owner c.path c' hz
  exact ⟨_, hsite, by rw [Site.name, hscope, hkey], rfl⟩

/-- A name that a sibling's encloses leads to this sibling or below it. -/
theorem site_of_enclosed (h : i.Mirrors (c.plug cs)) (hn : (Forest.ids (c.plug cs)).Nodup)
    (hc : c.Clear) (hq : QualifiedName.Encloses ⟨c.path, key⟩ q) (hget : i.get? q = some entry) :
    ∃ d ∈ cs, d.key = key ∧
      ∃ x ∈ sitesFrom c.owner c.path [d], x.name = q ∧ x.decl.ref = entry.node := by
  have hscope : c.path <+: q.scope := by
    rcases hq with rfl | ⟨-, hp⟩
    · exact List.prefix_rfl
    · exact (List.prefix_append _ _).trans hp
  obtain ⟨x, hx, rfl, href⟩ := site_of_get? h hn hc hscope hget
  obtain ⟨d, hd, hkey, hsite⟩ := sibling_of_encloses hx hq
  exact ⟨d, hd, hkey, x, hsite, rfl, href⟩

end Index

namespace Merge
variable {e : Engine} {c : Context} {cs : Forest} {d : Decl} {known : Bool}

theorem mergeAll_missing (fresh : Bool) (h : e.At c cs) (hl : c.Leads known) (hd : d.Removes)
    (hnone : cut? d.key cs = none) :
    ∃ notices, mergeAll c.owner fresh [d] e = .ok () { e with log := e.log ++ notices } := by
  have hfound : existing? c.owner d e = .ok none e := by
    rw [existing?_apply h hl, resolved?, hnone, ite_self]
    rfl
  obtain ⟨notices, hsettle⟩ : ∃ notices, settle c.owner fresh d e =
      .ok none { e with log := e.log ++ notices } := by
    unfold settle
    rw [bind_apply hfound]
    obtain ⟨token, directive, hw, rfl | rfl⟩ := hd <;> rw [hw]
    · exact ⟨_, qualifiedName_bind h _⟩
    · exact ⟨_, qualifiedName_bind h _⟩
  refine ⟨notices, ?_⟩
  rw [mergeAll_cons, bind_apply hsettle, mergeAll_nil]
  rfl

/-- The children of what stands without any are merged into it as into an empty tree, where the
way to it is clear. -/
theorem reaches_fresh {d' : Decl} {xs ys ds : Forest} (h : e.At c (xs ++ d' :: ys)) (hc : c.Clear)
    (hempty : d'.children = []) (hds : d'.isContainer = false → ds = [])
    (hxs : homonyms d'.key xs = []) (hsync : e.syncStandIns = false) (hn : (Forest.ids ds).Nodup)
    (hnew : ∀ id ∈ Forest.ids ds, id ∉ e.tree.ids) :
    Reaches (mergeInto ds (Outcome.into xs d' ys true).destination?) e c ()
      (completed true ds (.into xs d' ys true)) := by
  cases d' with
  | leaf | member =>
    rw [hds rfl, mergeInto_nil, completed_nil]
    exact reaches_pure () h
  | container k header cs t =>
    obtain rfl : cs = [] := hempty
    let l : Shell := ⟨xs, k, header, t, ys⟩
    have hat : e.At (c ++ [l]) [] := Engine.At.inner.2 h
    have hready : Ready (fun _ => True) e (c ++ [l]) true [] ds :=
      ⟨hat, (hc.concat (homonyms_eq_nil.1 hxs)).leads, fun _ => .nil, fun _ _ _ => trivial, hn,
        fun id hid => hat.tree ▸ hnew id hid, hsync⟩
    have hreach := reaches_mergeAll true hready
    rw [Context.owner_concat] at hreach
    obtain ⟨e', hrun, hat', hnext, hsync'⟩ := hreach
    have hall : xs.all (·.key != ⟨header.name, false⟩) = true := by
      rw [all_key_ne]
      exact List.isEmpty_iff.2 hxs
    have hcompleted : completed true ds (.into xs (.container k header [] t) ys true) =
        l.plug (merged true true [] ds) := by
      rw [completed]
      show xs ++ Decl.container k header (merged (true && xs.all (·.key != ⟨header.name, false⟩))
        true [] ds) t :: ys = _
      rw [hall]
      rfl
    exact ⟨e', hrun, hcompleted ▸ Engine.At.inner.1 hat', hnext, hsync'⟩

/-- An override or a deletion can be merged at the end of every clear way. -/
theorem reaches_removes (fresh : Bool) (h : e.At c cs) (hc : c.Clear)
    (hsync : e.syncStandIns = false) (hd : d.Removes) (hn : (Forest.ids [d]).Nodup)
    (hnew : ∀ id ∈ Forest.ids [d], id ∉ e.tree.ids) :
    Reaches (mergeAll c.owner fresh [d]) e c () (revised cs d) := by
  rw [Forest.ids_cons, Forest.ids_nil, List.append_nil] at hn hnew
  obtain ⟨hself, hn⟩ := List.nodup_cons.1 hn
  obtain ⟨hnew, hbelow⟩ := List.forall_mem_cons.1 hnew
  have hsettle : Yields (settle c.owner fresh d) e c (settled true fresh d cs) :=
    yields_settle h hc.leads (h.tree ▸ hnew) hsync
  have hout := settled_cases true fresh d cs
  rw [← merged_removes fresh cs hd, merged_cons, merged_nil, mergeAll_cons, mergeAll_nil]
  refine hsettle.bind fun e₁ h₁ hsync₁ => ?_
  suffices hinto : Reaches (mergeInto d.children (settled true fresh d cs).destination?) e₁ c ()
      (completed true d.children (settled true fresh d cs)) from
    hinto.bind fun _ h₂ _ => reaches_pure () h₂
  have hnew₁ : ∀ id ∈ Forest.ids d.children, id ∉ e₁.tree.ids := by
    intro id hid hmem
    have hold := hbelow id hid
    rw [h₁.tree, Context.mem_ids_plug] at hmem
    rw [h.tree, Context.mem_ids_plug, not_or] at hold
    rcases hmem with hmem | hmem
    · exact hold.1 hmem
    · rcases hout.mem_ids hmem with hmem | rfl
      · exact hold.2 hmem
      · exact hself hid
  obtain ⟨token, directive, hw, hdirective⟩ := hd
  generalize hsettled : settled true fresh d cs = out at h₁ ⊢
  cases out with
  | done cs' => exact reaches_pure () h₁
  | into xs d' ys fresh' =>
    -- Nothing but an override leads on, and what it puts in has no children yet.
    rcases hdirective with rfl | rfl
    · cases hcut : cut? d.key cs with
      | none => simp [settled, resolved?, hw, hcut] at hsettled
      | some found =>
        obtain ⟨us, x, vs⟩ := found
        simp only [settled, resolved?, hw, hcut, ↓reduceIte, Outcome.into.injEq] at hsettled
        obtain ⟨rfl, rfl, rfl, rfl⟩ := hsettled
        have hput := d.putAs_dropAnnot token x.location
        refine reaches_fresh h₁ hc hput.children (fun hleaf => ?_)
          (hput.key.symm ▸ (cut?_eq_some hcut).2.1) (hsync₁.trans hsync) hn hnew₁
        exact Decl.children_eq_nil (hput.isContainer.symm.trans hleaf)
    · simp [settled, hw] at hsettled

end Merge
namespace Forest
variable {cs xs ys : Forest} {d x : Decl} {token : Nat}

theorem revised_delete (cs : Forest)
    (hw : Directive.winner? d.annotations = some (token, .delete)) :
    revised cs d = cs.filter (·.key != d.key) := by
  have hnone (x : Decl) : revision? d x = none := by simp only [revision?, hw]
  rw [revised, hw]
  cases hcut : cut? d.key cs with
  | none =>
    rw [editKey_of_none _ _ hcut, List.filter_eq_self.2 fun u hu =>
      bne_iff_ne.2 (homonyms_eq_nil.1 (cut?_eq_none.1 hcut) u hu)]
  | some found =>
    obtain ⟨us, x, vs⟩ := found
    rw [editKey_of_cut? _ _ hcut, hnone, filter_of_cut? hcut]
    rfl

theorem revised_override (hw : Directive.winner? d.annotations = some (token, .override))
    (hxs : homonyms d.key xs = []) (hx : x.key = d.key) :
    revised (xs ++ x :: ys) d =
      xs ++ ((d.dropAnnot token).withLocation x.location).mapChildren
        (fun _ => merged true true [] d.children) :: ys.filter (·.key != d.key) := by
  rw [revised, hw, editKey_of_cut? _ _ (cut?_middle hxs hx ys)]
  simp only [revision?, hw]
  cases d <;> rfl

end Forest

namespace Engine
variable {e e' : Engine} {o : Owner} {path : List String} {d : Decl} {token : Nat}
  {directive : Directive}

/-- The engines between the layers that are merged over an empty tree, and those on which the
declarations of such a layer are settled. -/
inductive Reached : Engine → Prop
  | between (layers : List Forest) : Reached (afterLayers layers)
  | within {layers : List Forest} {layer : Forest} {call : Merge.Call}
    (h : Merge.Calls .root false (layer.number (afterLayers layers).next).1
      ((afterLayers layers).started layer) call) : Reached call.engine

theorem Reached.at_root (h : e.Reached) : e.At [] e.tree ∧ e.syncStandIns = false := by
  cases h with
  | between layers =>
    have hcoherent := coherent_afterLayers layers
    exact ⟨⟨rfl, hcoherent.mirrors, hcoherent.nodup⟩, hcoherent.unsynced⟩
  | @within layers layer call h =>
    have hstart := (coherent_afterLayers layers).ready layer fun _ _ _ => trivial
    obtain ⟨c, known, cs, rest, -, hready⟩ := h.ready Context.owner_nil hstart
    exact ⟨⟨rfl, hready.here.mirrors, hready.here.nodup⟩, hready.unsynced⟩

/-- All children of the owner at a path that have the key of `d` are taken out, and the index finds
nothing under their name. -/
structure Deleted (e e' : Engine) (o : Owner) (path : List String) (d : Decl) : Prop where
  tree : e'.tree = e.tree.updateChildren o (·.filter (·.key != d.key))
  index : ∀ q, QualifiedName.Encloses ⟨path, d.key⟩ q → e'.index.get? q = none

/-- Behind the children `before`, `new` stands for the children with the key of `d`, which it is
found by. Under this name the index finds only what `d` holds. -/
structure Replaced (e e' : Engine) (o : Owner) (path : List String) (d new : Decl)
    (before after : Forest) : Prop where
  tree : e'.tree =
    e.tree.updateChildren o fun _ => before ++ new :: after.filter (·.key != d.key)
  found : e'.index.get? ⟨path, d.key⟩ = some ⟨d.ref, o⟩
  below : ∀ q entry, QualifiedName.Encloses ⟨path, d.key⟩ q → e'.index.get? q = some entry →
    ∃ y ∈ sitesFrom o path [d], y.name = q ∧ y.decl.id = entry.node.id

theorem ready_children (hn : (ids [d]).Nodup) :
    Merge.Ready (fun _ => True) {} [] true [] d.children where
  here := ⟨rfl, coherent_empty.mirrors, coherent_empty.nodup⟩
  leads := rfl
  sound _ := .nil
  moves _ _ _ := trivial
  nodup := nodup_children (show (ids ([] ++ d :: [])).Nodup from hn)
  new id _ hmem := by simp at hmem
  unsynced := rfl

theorem replaced_of_at {c : Context} {xs ys : Forest} {x new : Decl}
    (hat : e.At c (xs ++ x :: ys)) (hat' : e'.At c (xs ++ new :: ys.filter (·.key != d.key)))
    (hc : c.Clear) (hxs : ∀ u ∈ xs, u.key ≠ d.key) (href : new.ref = d.ref) (hkey : new.key = d.key)
    (hbrought : ∀ z ∈ sitesFrom (.container d.id) (c.path ++ [d.name]) new.children,
      ∃ y ∈ sitesFrom (.container d.id) (c.path ++ [d.name]) d.children, y.Brought z) :
    Replaced e e' c.owner c.path d new xs ys where
  tree := by rw [hat.updateChildren, hat'.tree]
  found := by
    rw [Index.get?_path hat'.mirrors_plug hat'.nodup_plug hc.leads, resolved?, if_pos rfl,
      cut?_middle (homonyms_eq_nil.2 hxs) hkey, ← href]
    rfl
  below q entry hq hget := by
    obtain ⟨u, hu, hukey, z, hz, rfl, hid⟩ :=
      Index.site_of_enclosed hat'.mirrors_plug hat'.nodup_plug hc hq hget
    have hnew : u = new := by
      rcases List.mem_append.1 hu with hu | hu
      · exact absurd hukey (hxs u hu)
      · rcases List.mem_cons.1 hu with hu | hu
        · exact hu
        · exact absurd hukey (bne_iff_ne.1 (List.mem_filter.1 hu).2)
    have hsame : new.id = d.id := congrArg Ref.id href
    have hname : new.name = d.name := congrArg Key.name hkey
    rw [hnew, sitesFrom_cons, sitesFrom_nil, List.append_nil, hsame, hname, List.mem_cons] at hz
    rcases hz with rfl | hz
    · exact ⟨⟨c.owner, c.path, d⟩, site_of_mem _ _ (List.mem_singleton_self d),
        by rw [Site.name, Site.name, hkey], hsame.symm.trans (congrArg Ref.id hid)⟩
    · obtain ⟨y, hy, hyz⟩ := hbrought z hz
      refine ⟨y, ?_, hyz.siteName.symm, hyz.id.symm.trans (congrArg Ref.id hid)⟩
      rw [sitesFrom_cons, sitesFrom_nil, List.append_nil]
      exact List.mem_cons_of_mem _ hy

theorem deleted_of_at {c : Context} {cs : Forest} (hat : e.At c cs)
    (hat' : e'.At c (cs.filter (·.key != d.key))) (hc : c.Clear) :
    Deleted e e' c.owner c.path d where
  tree := by rw [hat.updateChildren, hat'.tree]
  index q hq := by
    by_contra hsome
    obtain ⟨entry, hget⟩ := Option.ne_none_iff_exists'.1 hsome
    obtain ⟨u, hu, hkey, -⟩ :=
      Index.site_of_enclosed hat'.mirrors_plug hat'.nodup_plug hc hq hget
    exact bne_iff_ne.1 (List.mem_filter.1 hu).2 hkey

theorem brought_apart (hn : (ids [d]).Nodup) (o : Owner) (path : List String) :
    ∀ z ∈ sitesFrom o path (merged true true [] d.children),
      ∃ y ∈ sitesFrom o path d.children, y.Brought z := by
  have hrevision : Forest.Revision (sitesFrom o path d.children) o path []
      (merged true true [] d.children) :=
    revision_merged _ _ _ (by simp) (ready_children hn).nodup (by simp)
  intro z hz
  rcases hrevision.origin z hz with hold | hbrought
  · simp at hold
  · exact hbrought

/-- Wherever a path leads on a reached engine, an override or a deletion leaves all as it is if
nothing there has its key. Else a deletion takes out all that has the key, and an override puts
itself in the place of the first: at the location of this one, without the annotation that decided,
and with the children that its own make of an empty tree. -/
theorem mergeAll_removes (he : e.Reached) (ho : e.index.containerFor? path = some o)
    (hw : Directive.winner? d.annotations = some (token, directive))
    (hdirective : directive = .override ∨ directive = .delete) (hn : (ids [d]).Nodup)
    (hnew : ∀ id ∈ ids [d], id ∉ e.tree.ids) (fresh : Bool) :
    ∃ e', Merge.mergeAll o fresh [d] e = .ok () e' ∧
      e'.index.SameAnswers (.ofForest e'.tree) e'.tree ∧
      let children := e.tree.childrenOf o
      ((∀ x ∈ children, x.key ≠ d.key) → e'.tree = e.tree ∧ e'.index = e.index) ∧
      (directive = .delete → Deleted e e' o path d) ∧
      (directive = .override → ∀ xs x ys, children = xs ++ x :: ys →
        (∀ u ∈ xs, u.key ≠ d.key) → x.key = d.key →
          ∃ apart, Merge.mergeAll .root true d.children {} = .ok () apart ∧
            Replaced e e' o path d
              (((d.dropAnnot token).withLocation x.location).mapChildren fun _ => apart.tree)
              xs ys) := by
  obtain ⟨hroot, hsync⟩ := he.at_root
  obtain ⟨c, cs, htree, rfl, rfl, hc⟩ := Index.containerFor?_eq_some hroot.mirrors hroot.nodup ho
  have hat : e.At c cs := ⟨htree, hroot.mirrors, hroot.nodup⟩
  have hd : d.Removes := ⟨token, directive, hw, hdirective⟩
  obtain ⟨e', hrun, hat', -, -⟩ := Merge.reaches_removes fresh hat hc hsync hd hn hnew
  refine ⟨e', hrun, hat'.mirrors.sameAnswers hat'.nodup, ?_⟩
  intro children
  have hchildren : children = cs := hat.childrenOf
  rw [hchildren]
  refine ⟨fun hnone => ?_, fun hdelete => ?_, fun hoverride xs x ys hcs hxs hx => ?_⟩
  · have hcut : cut? d.key cs = none := cut?_eq_none.2 (homonyms_eq_nil.2 hnone)
    obtain ⟨notices, hmissing⟩ := Merge.mergeAll_missing fresh hat hc.leads hd hcut
    obtain ⟨-, rfl⟩ := EStateM.Result.ok.inj (hmissing.symm.trans hrun)
    exact ⟨rfl, rfl⟩
  · subst hdelete
    rw [revised_delete cs hw] at hat'
    exact deleted_of_at hat hat' hc
  · subst hoverride hcs
    rw [revised_override hw (homonyms_eq_nil.2 hxs) hx] at hat'
    obtain ⟨apart, hapart, hat₀, -, -⟩ := Merge.reaches_mergeAll true (ready_children hn)
    have hinner : apart.tree = merged true true [] d.children := hat₀.tree
    refine ⟨apart, hapart, ?_⟩
    rw [hinner]
    refine replaced_of_at hat hat' hc hxs (by cases d <;> rfl) (by cases d <;> rfl) fun z hz => ?_
    refine brought_apart hn _ _ z ?_
    cases d with
    | container => exact hz
    | leaf | member =>
      have hz : z ∈ sitesFrom _ _ [] := hz
      simp at hz

/-- A class inside another one is replaced by a module. -/
theorem mergeAll_removes_inside :
    let decl (id : Nat) (name : String) (location : Option Location) (children : Forest) : Decl :=
      .container .classDecl { id, name, location } children []
    let base := [decl 0 "A" none
      [decl 0 "B" (some ⟨2, 4⟩) [decl 0 "X" none []], decl 0 "C" none []]]
    let new : Decl := .container .moduleDecl
      { id := 6, name := "B", annotations := [⟨"patch:override", ""⟩] } [decl 7 "D" none []] []
    let e := afterLayers [base]
    e.Reached ∧ e.index.containerFor? ["A"] = some (.container 1) ∧
      Directive.winner? new.annotations = some (0, .override) ∧
      (ids [new]).Nodup ∧ (∀ id ∈ ids [new], id ∉ e.tree.ids) ∧
      ∃ e', Merge.mergeAll (.container 1) false [new] e = .ok () e' ∧
        e'.tree.preorder.map (fun d => (d.id, d.name, d.location)) =
          [(1, "A", none), (6, "B", some ⟨2, 4⟩), (7, "D", none), (4, "C", none)] ∧
        e'.index.SameAnswers (.ofForest e'.tree) e'.tree ∧
        ∃ apart, Merge.mergeAll .root true new.children {} = .ok () apart ∧
          Replaced e e' (.container 1) ["A"] new
            (((new.dropAnnot 0).withLocation (some ⟨2, 4⟩)).mapChildren fun _ => apart.tree) []
            [decl 4 "C" none []] := by
  intro decl base new e
  have he : e.Reached := .between [base]
  have hfound : e.index.containerFor? ["A"] = some (.container 1) := by
    simp only [e, base, decl]
    cbv
  have hw : Directive.winner? new.annotations = some (0, .override) := by decide +kernel
  have hids : ids [new] = [6, 7] := by cbv
  have hold : e.tree.ids = [1, 2, 3, 4] := by
    simp only [e, base, decl]
    cbv
  have hn : (ids [new]).Nodup := by
    rw [hids]
    decide
  have hnew : ∀ id ∈ ids [new], id ∉ e.tree.ids := by
    rw [hids, hold]
    decide
  have hchildren : e.tree.childrenOf (.container 1) =
      [] ++ decl 2 "B" (some ⟨2, 4⟩) [decl 3 "X" none []] :: [decl 4 "C" none []] := by
    simp only [e, base, decl]
    cbv
  obtain ⟨e', hrun, hanswers, -, -, hreplaced⟩ :=
    mergeAll_removes he hfound hw (.inl rfl) hn hnew false
  have hrows : ((Merge.mergeAll (.container 1) false [new] >>= fun _ => get).run' e).map
      (·.tree.preorder.map fun d => (d.id, d.name, d.location)) =
        some [(1, "A", none), (6, "B", some ⟨2, 4⟩), (7, "D", none), (4, "C", none)] := by
    simp only [new, e, base, decl]
    cbv
  rw [Merge.eval_get hrun] at hrows
  have hrows := Option.some.inj hrows
  exact ⟨he, hfound, hw, hn, hnew, e', hrun, hrows, hanswers,
    hreplaced rfl _ _ _ hchildren (List.forall_mem_nil _) rfl⟩

end Engine
end SignatureLayers
