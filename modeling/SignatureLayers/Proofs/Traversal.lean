import SignatureLayers.Proofs.Mirror

namespace SignatureLayers

open Forest

/-- With any declarations on the stack, each is visited with all that is nested in it before the
next one of them. -/
theorem Forest.walk_eq_preorder (stack : Forest) : walk stack = preorder stack := by
  induction stack using walk.induct with
  | case1 => rw [walk, preorder_nil]
  | case2 d stack ih => rw [walk, ih, preorder_append, preorder_cons]

theorem Forest.mem_preorder_trans {f : Forest} {d e : Decl} (hd : d ∈ preorder f)
    (he : e ∈ d :: preorder d.children) : e ∈ preorder f := by
  induction f using Forest.induct with
  | nil => simp at hd
  | cons first rest inner tail =>
    rw [preorder_cons, List.mem_cons, List.mem_append] at hd ⊢
    rcases hd with rfl | hd | hd
    · rcases List.mem_cons.1 he with rfl | he
      · exact .inl rfl
      · exact .inr (.inl he)
    · exact .inr (.inl (inner hd))
    · exact .inr (.inr (tail hd))

namespace Index
variable {i : Index} {f : Forest} {d : Decl} {o : Owner}

theorem Mirrors.isSome_scope? (h : i.Mirrors f) (hd : d ∈ f.preorder) (ho : o ∈ owners [d]) :
    (i.scope? o).isSome = true := by
  have howners : o ∈ owners f := by
    obtain ⟨e, he, hcontainer, rfl⟩ := mem_owners.1 ho
    have hinner : e ∈ d :: preorder d.children := by simpa [preorder_cons] using he
    exact mem_owners.2 ⟨e, mem_preorder_trans hd hinner, hcontainer, rfl⟩
  have hlisted : ((listed f).view o).isSome = true := by
    rw [listed, view_isSome, List.map_cons, map_fst_nested]
    exact List.mem_cons_of_mem _ howners
  rwa [← h o, view, Option.isSome_map] at hlisted

/-- Walking a forest comes to each declaration before those nested in it, from the first to the
last. A declaration of a forest that is taken out is forgotten with what is nested in it: of each
container among these the index had a scope and has none any more, and it has the same scope as
before of any other owner. -/
theorem walk_forget_exact :
    (∀ f : Forest, f.walk = f.preorder) ∧
    ∀ (f : Forest) (i : Index) (d : Decl), i.Mirrors f → d ∈ f.preorder → ∀ o,
      (o ∈ owners [d] → (i.scope? o).isSome = true ∧ (i.forget [d]).scope? o = none) ∧
      (o ∉ owners [d] → (i.forget [d]).scope? o = i.scope? o) := by
  refine ⟨walk_eq_preorder, fun f i d hi hd o => ⟨fun ho => ⟨hi.isSome_scope? hd ho, ?_⟩,
    fun ho => ?_⟩⟩
  · rw [scope?_forget, if_pos ho]
  · rw [scope?_forget, if_neg ho]

/-- A class with two others nested in it, one of them empty, is taken out from between a class of
its name and a constant. -/
theorem walk_forget_exact_nested :
    let leaf (id : Nat) (name : String) : Decl := .leaf .constant { id, name }
    let group (id : Nat) (name : String) (children : Forest) : Decl :=
      .container .classDecl { id, name } children []
    let d := group 2 "A" [group 3 "B" [], leaf 4 "C", group 5 "D" [leaf 6 "E"]]
    let f : Forest := [group 1 "A" [], d, leaf 7 "F"]
    let i := ofForest f
    i.Mirrors f ∧ d ∈ f.preorder ∧ f.walk.map Decl.id = [1, 2, 3, 4, 5, 6, 7] ∧
      (i.forget [d]).scopes.map Prod.fst = [.container 1, .root] ∧ f.walk = f.preorder ∧
      ∀ o, (o ∈ owners [d] → (i.scope? o).isSome = true ∧ (i.forget [d]).scope? o = none) ∧
        (o ∉ owners [d] → (i.forget [d]).scope? o = i.scope? o) := by
  intro leaf group d f i
  have hids : f.ids = [1, 2, 3, 4, 5, 6, 7] := by
    simp [f, d, leaf, group, ids_cons, Decl.id, Decl.header, Decl.children]
  have hn : f.ids.Nodup := by
    rw [hids]
    decide
  have hi : i.Mirrors f := mirrors_ofForest hn
  have hd : d ∈ f.preorder := mem_preorder_of_mem (d := d) (by simp [f]) List.mem_cons_self
  have hwalk : f.walk = f.preorder := walk_forget_exact.1 f
  have hleft : (i.forget [d]).scopes.map Prod.fst = [.container 1, .root] := by
    have hforget : i.forget [d] =
        ((i.erase (.container 2)).erase (.container 5)).erase (.container 3) := by
      simp [forget, d, leaf, group, Decl.isContainer, Decl.id, Decl.header, Decl.children]
    rw [hforget]
    simp [i, f, d, leaf, group, ofForest, enter, nested, empty, set, erase]
  exact ⟨hi, hd, hwalk ▸ hids, hleft, hwalk, walk_forget_exact.2 f i d hi hd⟩

end Index
end SignatureLayers
