import Mathlib.Data.List.Basic
import SignatureLayers.Proofs.Reports
import SignatureLayers.Proofs.Revision
import SignatureLayers.Proofs.Siblings

namespace SignatureLayers

open Forest
open Merge (absorbTrailing)

/-- What the path of a context finds: the owner at its end when it is `known`, and nothing when a
declaration that owns nothing stands before a container of the same name. -/
def Context.Leads : Context → Bool → Prop
  | [], known => known = true
  | l :: c, known =>
    match first? l.before ⟨l.header.name, false⟩ with
    | none => Leads c known
    | some r => r.container = false ∧ known = false

namespace Context

theorem Leads.concat {c : Context} {known : Bool} {l : Shell} (h : Leads c known)
    (hl : known = true → ∀ r ∈ first? l.before ⟨l.header.name, false⟩, r.container = false) :
    Leads (c ++ [l]) (known && (first? l.before ⟨l.header.name, false⟩).isNone) := by
  induction c with
  | nil =>
    cases h
    cases hf : first? l.before ⟨l.header.name, false⟩ with
    | none => simp [Leads, hf]
    | some r => simp [Leads, hf, hl rfl r hf]
  | cons l' c ih =>
    rw [List.cons_append, Leads]
    rw [Leads] at h
    cases hf : first? l'.before ⟨l'.header.name, false⟩ with
    | none =>
      rw [hf] at h
      exact ih h
    | some r =>
      rw [hf] at h
      simp [h.1, h.2]

/-- Every container on the way is the first declaration of its name. -/
def Clear (c : Context) : Prop := ∀ l ∈ c, ∀ d ∈ l.before, d.key ≠ ⟨l.header.name, false⟩

instance (c : Context) : Decidable c.Clear :=
  inferInstanceAs (Decidable (∀ l ∈ c, ∀ d ∈ l.before, d.key ≠ ⟨l.header.name, false⟩))

theorem clear_cons {l : Shell} {c : Context} :
    Clear (l :: c) ↔ first? l.before ⟨l.header.name, false⟩ = none ∧ Clear c := by
  rw [first?_eq_none_iff]
  exact List.forall_mem_cons

theorem Leads.eq_clear {c : Context} {known : Bool} (h : c.Leads known) :
    known = decide c.Clear := by
  induction c with
  | nil =>
    cases h
    simp [Clear]
  | cons l c ih =>
    rw [Leads] at h
    cases hf : first? l.before ⟨l.header.name, false⟩ with
    | none =>
      rw [hf] at h
      simp [clear_cons, hf, ih h]
    | some r =>
      rw [hf] at h
      simp [clear_cons, hf, h.2]

end Context

namespace Index
variable {i : Index} {known : Bool}

theorem descend?_path {c c' : Context} {cs : Forest} (h : i.Mirrors (Context.plug (c ++ c') cs))
    (hn : (Forest.ids (Context.plug (c ++ c') cs)).Nodup) (hl : Context.Leads c' known) :
    i.descend? c.owner c'.path = if known then some (Context.owner (c ++ c')) else none := by
  induction c' generalizing c with
  | nil =>
    cases hl
    simp [Context.path, descend?]
  | cons l c' ih =>
    have hplug : Context.plug (c ++ l :: c') cs = c.plug (l.plug (Context.plug c' cs)) := by
      rw [Context.plug_append, Context.plug_cons]
    have hchild : i.childAt? c.owner ⟨l.header.name, false⟩ =
        (first? l.before ⟨l.header.name, false⟩).or (some ⟨l.header.id, true⟩) := by
      rw [childAt?_eq_view, Mirrors.view_owner (hplug ▸ h) (hplug ▸ hn)]
      show first? (l.plug _) _ = _
      have hkey : (Decl.container l.kind l.header (Context.plug c' cs) l.trailing).key =
          ⟨l.header.name, false⟩ := rfl
      rw [Shell.plug, first?_append, first?_cons, if_pos hkey]
      rfl
    rw [Context.Leads] at hl
    rw [Context.path, List.map_cons, descend?, hchild]
    cases hf : first? l.before ⟨l.header.name, false⟩ with
    | none =>
      rw [hf] at hl
      have hnext : c ++ l :: c' = (c ++ [l]) ++ c' := by simp
      rw [hnext] at h hn ⊢
      have := ih h hn hl
      rwa [Context.owner_concat] at this
    | some r =>
      rw [hf] at hl
      simp [hl.1, hl.2]

theorem containerFor?_path {c : Context} {cs : Forest} (h : i.Mirrors (c.plug cs))
    (hn : (Forest.ids (c.plug cs)).Nodup) (hl : c.Leads known) :
    i.containerFor? c.path = if known then some c.owner else none :=
  descend?_path (c := []) h hn hl

/-- What a declaration to be merged finds by its name: the first sibling with its key, if the
owner is known. -/
theorem get?_path {c : Context} {cs : Forest} (h : i.Mirrors (c.plug cs))
    (hn : (Forest.ids (c.plug cs)).Nodup) (hl : c.Leads known) (key : Key) :
    i.get? ⟨c.path, key⟩ =
      (resolved? known key cs).map fun (_, x, _) => ⟨x.ref, c.owner⟩ := by
  rw [get?, containerFor?_path h hn hl]
  cases known with
  | false => rfl
  | true =>
    simp only [resolved?, ↓reduceIte, Option.bind_some, childAt?_eq_view, h.view_owner hn,
      ← map_cut? key cs, Option.map_map]
    rfl

end Index

namespace Forest

/-- A forest in which no container of a `moved` name waits behind another one, unless a declaration
that owns nothing stands between them. Nothing is said of what stands behind the first of a name. -/
inductive Sound (moved : String → Prop) : Forest → Prop
  | intro {cs : Forest}
    (apart : ∀ key x y rest, moved key.name → homonyms key cs = x :: y :: rest →
      x.isContainer = true → y.isContainer = false)
    (inner : ∀ key x rest, homonyms key cs = x :: rest → Sound moved x.children) : Sound moved cs

namespace Sound
variable {moved : String → Prop} {cs xs ys : Forest} {x d : Decl}

theorem nil : Sound moved [] :=
  .intro (fun _ _ _ _ _ h => by cases h) fun _ _ _ h => by cases h

theorem children_of_not_container (h : d.isContainer = false) : Sound moved d.children :=
  Decl.children_eq_nil h ▸ nil

/-- What is asked of the siblings of one name, of which only the first two matter. -/
def Fair (moved : String → Prop) (name : String) : Forest → Prop
  | [] => True
  | [x] => Sound moved x.children
  | x :: y :: _ =>
    Sound moved x.children ∧ (moved name → x.isContainer = true → y.isContainer = false)

theorem Fair.first {name : String} {rest : Forest} (h : Fair moved name (x :: rest)) :
    Sound moved x.children := by
  cases rest with
  | nil => exact h
  | cons => exact h.1

theorem sound_iff : Sound moved cs ↔ ∀ key, Fair moved key.name (homonyms key cs) := by
  constructor
  · rintro ⟨apart, inner⟩ key
    match hk : homonyms key cs with
    | [] => trivial
    | [x] => exact inner key x [] hk
    | x :: y :: rest => exact ⟨inner key x _ hk, fun hm hx => apart key x y rest hm hk hx⟩
  · intro h
    refine .intro (fun key x y rest hm hk hx => ?_) fun key x rest hk => ?_
    · have hfair := h key
      rw [hk] at hfair
      exact hfair.2 hm hx
    · have hfair := h key
      rw [hk] at hfair
      exact hfair.first

theorem children_first (h : Sound moved (xs ++ x :: ys)) (hx : homonyms x.key xs = []) :
    Sound moved x.children := by
  cases h with
  | intro _ inner =>
    exact inner x.key x (homonyms x.key ys) (by simp [homonyms_append, homonyms_cons, hx])

theorem of_homonyms (h : ∀ key, homonyms key ys = [] ∨ homonyms key ys = homonyms key xs)
    (hs : Sound moved xs) : Sound moved ys := by
  refine sound_iff.2 fun key => ?_
  rcases h key with hnone | hsame
  · rw [hnone]
    trivial
  · rw [hsame]
    exact sound_iff.1 hs key

theorem filter_ne (h : Sound moved cs) (key : Key) : Sound moved (cs.filter (·.key != key)) := by
  apply h.of_homonyms
  intro k
  rw [homonyms_filter_ne]
  split
  · exact .inl rfl
  · exact .inr rfl

theorem Fair.insert {name : String} (h : Fair moved name (xs ++ ys))
    (hd : Sound moved d.children)
    (hnew : d.isContainer = true → ∀ x ∈ (xs ++ ys).head?, x.isContainer = false) :
    Fair moved name (xs ++ d :: ys) := by
  -- The new sibling stands first, second, or behind two others of its name.
  match xs with
  | [] =>
    cases ys with
    | nil => exact hd
    | cons y ys => exact ⟨hd, fun _ hc => hnew hc y rfl⟩
  | [z] =>
    refine ⟨h.first, fun _ hz => ?_⟩
    by_contra hcon
    rw [hnew (by simpa using hcon) z rfl] at hz
    cases hz
  | z :: w :: more => exact h

/-- A sibling may be put anywhere, when it is sound below and no container comes to stand beside
the first container of its name. -/
theorem insert (h : Sound moved (xs ++ ys)) (hd : Sound moved d.children)
    (hnew : d.isContainer = true → ∀ x ∈ (homonyms d.key (xs ++ ys)).head?, x.isContainer = false) :
    Sound moved (xs ++ d :: ys) := by
  refine sound_iff.2 fun key => ?_
  have hfair := sound_iff.1 h key
  rw [homonyms_append] at hfair
  rw [homonyms_append, homonyms_cons]
  split
  · next hkey =>
    subst hkey
    rw [homonyms_append] at hnew
    exact hfair.insert hd hnew
  · exact hfair

theorem Fair.remove {name : String} {rest : Forest} (h : Fair moved name (x :: rest))
    (hc : x.isContainer = true) (hname : moved name) :
    Fair moved name rest ∧ ∀ y ∈ rest.head?, y.isContainer = false := by
  match rest with
  | [] => exact ⟨trivial, fun y hy => by cases hy⟩
  | [y] =>
    have hy := h.2 hname hc
    refine ⟨children_of_not_container hy, fun z hz => ?_⟩
    cases hz
    exact hy
  | y :: z :: more =>
    have hy := h.2 hname hc
    refine ⟨⟨children_of_not_container hy, fun _ hcontainer => ?_⟩, fun z hz => ?_⟩
    · rw [hy] at hcontainer
      cases hcontainer
    · cases hz
      exact hy

/-- Without its first container the siblings of a name begin with one that owns nothing. -/
theorem remove (h : Sound moved (xs ++ x :: ys)) (hx : homonyms x.key xs = [])
    (hc : x.isContainer = true) (hname : moved x.name) :
    Sound moved (xs ++ ys) ∧ ∀ y ∈ (homonyms x.key (xs ++ ys)).head?, y.isContainer = false := by
  have hfair (key : Key) := sound_iff.1 h key
  simp only [homonyms_append, homonyms_cons] at hfair
  have hhere := hfair x.key
  rw [hx, List.nil_append, if_pos rfl] at hhere
  obtain ⟨hrest, hhead⟩ := hhere.remove hc hname
  refine ⟨sound_iff.2 fun key => ?_, ?_⟩
  · rw [homonyms_append]
    by_cases hkey : x.key = key
    · subst hkey
      rwa [hx, List.nil_append]
    · simpa [hkey] using hfair key
  · rwa [homonyms_append, hx, List.nil_append]

theorem Fair.change {x' : Decl} {name : String} (h : Fair moved name (xs ++ x :: ys))
    (hc : x'.isContainer = x.isContainer) (hx : xs = [] → Sound moved x'.children) :
    Fair moved name (xs ++ x' :: ys) := by
  match xs with
  | [] =>
    cases ys with
    | nil => exact hx rfl
    | cons y ys => exact ⟨hx rfl, hc ▸ h.2⟩
  | [z] => exact ⟨h.1, hc ▸ h.2⟩
  | z :: w :: more => exact h

theorem change {x' : Decl} (h : Sound moved (xs ++ x :: ys)) (hkey : x'.key = x.key)
    (hc : x'.isContainer = x.isContainer) (hx : homonyms x.key xs = [] → Sound moved x'.children) :
    Sound moved (xs ++ x' :: ys) := by
  refine sound_iff.2 fun key => ?_
  have hfair := sound_iff.1 h key
  rw [homonyms_append, homonyms_cons] at hfair ⊢
  rw [hkey]
  split at hfair
  · next heq =>
    subst heq
    rw [if_pos rfl]
    exact hfair.change hc hx
  · next hne =>
    rwa [if_neg hne]

end Sound

theorem Placement.split {cs xs ys : Forest} {d d' : Decl} (h : Placement d cs xs d' ys) :
    cs = xs ++ ys := by
  cases h with
  | last => simp
  | afterUses | amongVariables => exact (List.take_append_drop ..).symm
  | after token anchor us t vs hw hcut =>
    simp [anchorCut?_eq_some hcut]
  | before token anchor us t vs hw hcut =>
    simp [anchorCut?_eq_some hcut]

theorem Placement.putAs {cs xs ys : Forest} {d d' : Decl} (h : Placement d cs xs d' ys) :
    d.PutAs d' := by
  cases h with
  | last | afterUses => exact d.putAs_hollow
  | amongVariables => exact d.putAs_withLocation _
  | after | before => exact d.putAs_dropAnnot _ _

end Forest

namespace Decl.PutAs
variable {d d' : Decl}

theorem ref (h : d.PutAs d') : d'.ref = d.ref := by
  obtain ⟨_, _, -, rfl⟩ := h
  cases d <;> rfl

theorem key (h : d.PutAs d') : d'.key = d.key := by
  obtain ⟨_, _, -, rfl⟩ := h
  cases d <;> rfl

theorem kind (h : d.PutAs d') : d'.kind = d.kind := by
  obtain ⟨_, _, -, rfl⟩ := h
  cases d <;> rfl

theorem children (h : d.PutAs d') : d'.children = [] := by
  obtain ⟨_, _, -, rfl⟩ := h
  cases d <;> rfl

theorem id (h : d.PutAs d') : d'.id = d.id := congrArg Ref.id h.ref

theorem isContainer (h : d.PutAs d') : d'.isContainer = d.isContainer :=
  congrArg Ref.container h.ref

end Decl.PutAs

theorem Decl.alike_absorbTrailing (more : List String) (x : Decl) :
    x.Alike (absorbTrailing more x) := by
  cases x <;> exact ⟨rfl, rfl, rfl⟩

theorem Decl.alike_withLocation (location : Option Location) (x : Decl) :
    x.Alike (x.withLocation location) := by
  cases x <;> exact ⟨rfl, rfl, rfl⟩

namespace Forest

theorem Settlement.forall {known : Bool} {d : Decl} {cs : Forest} {out : Outcome}
    {p : Decl → Prop} (h : Settlement known d cs out) (hcs : ∀ e ∈ cs, p e)
    (hput : ∀ d', d.PutAs d' → p d') (hlocation : ∀ x location, p x → p (x.withLocation location))
    (habsorb : ∀ x, p x → p (absorbTrailing d.trailing x)) : ∀ e ∈ out.children, p e := by
  cases h with
  | kept => exact hcs
  | removed token hw => exact fun e he => hcs e (List.mem_of_mem_filter he)
  | replaced token xs x ys hw hcut =>
    rw [(cut?_eq_some hcut).1, List.forall_mem_append, List.forall_mem_cons] at hcs
    refine List.forall_mem_append.2 ⟨hcs.1, List.forall_mem_cons.2 ⟨?_, fun e he => ?_⟩⟩
    · exact hput _ (d.putAs_dropAnnot token x.location)
    · exact hcs.2.2 e (List.mem_of_mem_filter he)
  | absorbed xs x ys hknown hcut =>
    rw [(cut?_eq_some hcut).1, List.forall_mem_append, List.forall_mem_cons] at hcs
    exact List.forall_mem_append.2 ⟨hcs.1, List.forall_mem_cons.2 ⟨habsorb x hcs.2.1, hcs.2.2⟩⟩
  | moved token side anchor xs x ys us vs t hw hknown hcut hd hx hrest =>
    rw [(cut?_eq_some hcut).1, List.forall_mem_append, List.forall_mem_cons] at hcs
    have hothers : ∀ e ∈ us ++ vs, p e := by
      rw [hrest]
      exact List.forall_mem_append.2 ⟨hcs.1, hcs.2.2⟩
    rw [List.forall_mem_append] at hothers
    refine List.forall_mem_append.2 ⟨hothers.1, List.forall_mem_cons.2 ⟨?_, hothers.2⟩⟩
    exact habsorb _ (hlocation x _ hcs.2.1)
  | inserted xs d' ys hput' =>
    rw [hput'.split, List.forall_mem_append] at hcs
    exact List.forall_mem_append.2 ⟨hcs.1, List.forall_mem_cons.2 ⟨hput _ hput'.putAs, hcs.2⟩⟩

/-- Siblings of known owners stay sound when a declaration is settled among them. -/
theorem Settlement.sound {moved : String → Prop} {cs : Forest} {d : Decl} {out : Outcome}
    (h : Settlement true d cs out) (hd : d.Moves → moved d.name) (hs : Sound moved cs) :
    Sound moved out.children := by
  cases h with
  | kept => exact hs
  | removed => exact hs.filter_ne d.key
  | replaced token xs x ys hw hcut =>
    have hput := d.putAs_dropAnnot token x.location
    have hfilter := filter_of_cut? hcut
    have hrest := hs.filter_ne d.key
    rw [hfilter] at hrest
    apply hrest.insert (hput.children ▸ Sound.nil)
    intro _ y hy
    rw [hput.key, ← hfilter, homonyms_filter_ne, if_pos rfl] at hy
    cases hy
  | absorbed xs x ys hknown hcut hcd hx =>
    obtain ⟨rfl, hxs, hkey⟩ := cut?_eq_some hcut
    have hsame := x.alike_absorbTrailing d.trailing
    exact hs.change hsame.key hsame.isContainer fun h => hsame.children ▸ hs.children_first h
  | moved token side anchor xs x ys us vs t hw hknown hcut hcd hx hrest =>
    obtain ⟨rfl, hxs, hkey⟩ := cut?_eq_some hcut
    have hsame := (x.alike_withLocation t.location).trans (Decl.alike_absorbTrailing d.trailing _)
    have hname : x.name = d.name := congrArg Key.name hkey
    rw [← hkey] at hxs
    obtain ⟨hremoved, hhead⟩ := hs.remove hxs hx (hname ▸ hd ⟨hcd, token, side, anchor, hw⟩)
    rw [← hrest] at hremoved hhead
    exact hremoved.insert (hsame.children ▸ hs.children_first hxs) fun _ => hsame.key ▸ hhead
  | inserted xs d' ys hput hnew =>
    have hcs := hput.split
    subst hcs
    apply hs.insert (hput.putAs.children ▸ Sound.nil)
    intro hcd
    rw [hput.putAs.key]
    exact hnew rfl (hput.putAs.isContainer ▸ hcd)

end Forest
end SignatureLayers
