import Mathlib
import SignatureLayers.Grammar.Nesting
import SignatureLayers.Proofs.Coherence

namespace SignatureLayers

open Forest

namespace Forest
variable {name : String} {cs xs ys rest f : Forest} {d x y : Decl}

def namesakes (name : String) (cs : Forest) : Nat :=
  cs.countP fun d => d.isContainer && d.name == name

/-- No owner has two containers of this name. -/
def Lone (name : String) (f : Forest) : Prop :=
  namesakes name f ≤ 1 ∧ ∀ d ∈ preorder f, namesakes name d.children ≤ 1

theorem apart_of_namesakes (h : namesakes y.name (xs ++ y :: ys) ≤ 1) (hy : y.isContainer = true)
    (hx : x ∈ xs) (hname : x.name = y.name) : x.isContainer = false := by
  by_contra hcontainer
  have hbefore : 0 < namesakes y.name xs :=
    List.countP_pos_iff.2 ⟨x, hx, by simp [hname, hcontainer]⟩
  have hbehind : 0 < namesakes y.name (y :: ys) :=
    List.countP_pos_iff.2 ⟨y, List.mem_cons_self, by simp [hy]⟩
  rw [namesakes, List.countP_append] at h
  unfold namesakes at hbefore hbehind
  omega

theorem Lone.children (h : Lone name f) (hd : d ∈ f) : Lone name d.children :=
  ⟨h.2 d (mem_preorder_of_mem hd List.mem_cons_self),
    fun e he => h.2 e (mem_preorder_of_mem hd (List.mem_cons_of_mem _ he))⟩

theorem Lone.tail (h : Lone name (d :: rest)) : Lone name rest := by
  have hrest : namesakes name rest ≤ namesakes name (d :: rest) :=
    (List.sublist_cons_self d rest).countP_le
  refine ⟨Nat.le_trans hrest h.1, fun e he => h.2 e ?_⟩
  rw [preorder_cons]
  exact List.mem_cons_of_mem _ (List.mem_append_right _ he)

theorem sound_of_lone {moved : String → Prop} (h : ∀ name, moved name → Lone name f) :
    Sound moved f := by
  induction f using Forest.induct with
  | nil => exact .nil
  | cons d rest inner tail =>
    have hinner := inner fun name hm => (h name hm).children List.mem_cons_self
    have htail := tail fun name hm => (h name hm).tail
    refine .intro (fun key x y more hm hk hx => ?_) fun key x more hk => ?_
    · by_contra hy
      have hkey : ∀ z ∈ homonyms key (d :: rest), z.name = key.name := fun z hz =>
        congrArg Key.name (beq_iff_eq.1 (List.mem_filter.1 hz).2)
      rw [hk] at hkey
      have hxname := hkey x (by simp)
      have hyname := hkey y (by simp)
      have hle : namesakes y.name ([x] ++ y :: more) ≤ 1 := by
        rw [hyname, List.singleton_append, ← hk]
        exact Nat.le_trans List.filter_sublist.countP_le (h key.name hm).1
      have := apart_of_namesakes hle (by simpa using hy) List.mem_cons_self
        (hxname.trans hyname.symm)
      rw [hx] at this
      cases this
    · rw [homonyms_cons] at hk
      split at hk
      · cases hk
        exact hinner
      · cases htail with
        | intro _ below => exact below key x more hk

end Forest

namespace Engine

/-- Over any tree the layers are merged without a fault, when no owner in it has two containers of
a name that a layer moves. -/
theorem mergeLayer_preloaded (tree : Forest) (layers : List Forest) (layer : Forest)
    (h : ∀ l ∈ layer :: layers, ∀ d ∈ l.preorder, d.Moves → tree.Lone d.name) :
    ((preloaded tree layers).mergeLayer layer).1 = none := by
  obtain ⟨hlayer, hlayers⟩ := List.forall_mem_cons.1 h
  have hsound : tree.Sound tree.Lone := sound_of_lone fun _ hlone => hlone
  exact ((coherentFor_preloaded hsound hlayers).mergeLayer hlayer).1

/-- Two classes of one name stay where they are while a third one is moved between them. -/
theorem mergeLayer_preloaded_between :
    ∃ tree layer,
      parse "" "class A\nend\nclass A\nend\nclass D\nend\n" = .ok tree ∧
      parse "" "%a\x7bpatch:append_after(A)\x7d\nclass D\n  C: U\nend\n" = .ok layer ∧
      (∀ l ∈ [layer], ∀ d ∈ l.preorder, d.Moves → tree.Lone d.name) ∧ ¬ tree.Lone "A" ∧
      ((preloaded tree []).mergeLayer layer).1 = none := by
  let first : Decl := .container .classDecl
    { name := "A"
      text := ["class A"]
      location := some ⟨1, 2⟩ } [] []
  let second : Decl := .container .classDecl
    { name := "A"
      text := ["class A"]
      location := some ⟨3, 4⟩ } [] []
  let last : Decl := .container .classDecl
    { name := "D"
      text := ["class D"]
      location := some ⟨5, 6⟩ } [] []
  let inner : Decl := .leaf .constant
    { name := "C"
      text := ["C: U"]
      location := some ⟨3, 3⟩ }
  let moving : Decl := .container .classDecl
    { name := "D"
      text := ["class D"]
      annotations := [⟨"patch:append_after(A)", "%a\x7bpatch:append_after(A)\x7d"⟩]
      location := some ⟨1, 4⟩ } [inner] []
  have hlone : ∀ l ∈ [[moving]], ∀ d ∈ preorder l, d.Moves → Lone d.name [first, second, last] := by
    intro l hl d hd hmoves
    obtain rfl : l = [moving] := by simpa using hl
    have hd : d = moving ∨ d = inner := by
      simpa only [preorder, moving, inner, List.mem_cons, List.append_nil, List.not_mem_nil,
        or_false] using hd
    rcases hd with rfl | rfl
    · simp [Lone, namesakes, preorder, first, second, last, moving, Decl.isContainer, Decl.name,
        Decl.header, Decl.children]
    · cases hmoves.1
  refine ⟨[first, second, last], [moving], by cbv, by cbv, hlone, ?_,
    mergeLayer_preloaded [first, second, last] [] [moving] hlone⟩
  simp [Lone, namesakes, preorder, first, second, last, Decl.isContainer, Decl.name, Decl.header]

/-- Where an owner has two containers of the name that a layer moves, the move can bring the second
before the first, and an override inside finds what it does not own. -/
theorem mergeLayer_preloaded_twice :
    ∃ tree layer,
      parse "" "class A\n  B: T\nend\nclass A\n  C: T\nend\nclass D\nend\n" = .ok tree ∧
      parse ""
        "%a\x7bpatch:append_after(D)\x7d\nclass A\n  %a\x7bpatch:override\x7d\n  C: U\nend\n" =
          .ok layer ∧
      ((preloaded tree []).mergeLayer layer).1 = some .outOfRange := by
  let first : Decl := .container .classDecl
    { name := "A"
      text := ["class A"]
      location := some ⟨1, 3⟩ } [.leaf .constant
        { name := "B"
          text := ["B: T"]
          location := some ⟨2, 2⟩ }] []
  let second : Decl := .container .classDecl
    { name := "A"
      text := ["class A"]
      location := some ⟨4, 6⟩ } [.leaf .constant
        { name := "C"
          text := ["C: T"]
          location := some ⟨5, 5⟩ }] []
  let last : Decl := .container .classDecl
    { name := "D"
      text := ["class D"]
      location := some ⟨7, 8⟩ } [] []
  let replacement : Decl := .leaf .constant
    { name := "C"
      text := ["C: U"]
      annotations := [⟨"patch:override", "%a\x7bpatch:override\x7d"⟩]
      location := some ⟨3, 4⟩ }
  let moving : Decl := .container .classDecl
    { name := "A"
      text := ["class A"]
      annotations := [⟨"patch:append_after(D)", "%a\x7bpatch:append_after(D)\x7d"⟩]
      location := some ⟨1, 5⟩ } [replacement] []
  exact ⟨[first, second, last], [moving], by cbv, by cbv, by cbv⟩

end Engine
end SignatureLayers
