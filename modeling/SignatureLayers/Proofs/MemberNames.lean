import SignatureLayers.Proofs.Heads

namespace SignatureLayers

open Text

namespace MemberKind

/-- Some line declares a member of this kind and name. -/
def Bears (k : MemberKind) (name : String) : Prop :=
  ∃ line oldName, Head.ofLine? line = some (.member k name oldName)

/-- Methods, aliases and mixins, whose names have no form of their own. -/
def isFree : MemberKind → Bool
  | .method | .methodAlias | .includeMixin | .extendMixin | .prependMixin => true
  | _ => false

def isAttribute : MemberKind → Bool
  | .attrReader | .attrWriter | .attrAccessor => true
  | _ => false

/-- Kinds whose members can have one name. -/
def shareNames (k k' : MemberKind) : Bool :=
  k == k' || k.isFree || k'.isFree ||
    (k.isAttribute && (k'.isAttribute || (Kind.member k').isVisibility)) ||
    ((Kind.member k).isVisibility && k'.isAttribute)

/-- What the names of a kind have in common. -/
def Spells : MemberKind → List Char → Prop
  | .instanceVariable, s => ∃ c w, s = '@' :: c :: w ∧ isWord c = true
  | .classVariable, s => ∃ w, s = '@' :: '@' :: w
  | .classInstanceVariable, s => ∃ w, s = "self.@".toList ++ w
  | .attrReader, s | .attrWriter, s | .attrAccessor, s => '@' ∉ s
  | .publicMark, s => s = "public".toList
  | .privateMark, s => s = "private".toList
  | _, _ => True

end MemberKind

namespace Head
variable {s name : List Char} {k : MemberKind}

theorem sigil_not_word : isWord '@' = false := by decide +kernel

theorem sigilName?_eq_some {lead : String} (h : sigilName? lead s = some name) :
    ∃ c w, name = lead.toList ++ c :: w ∧ isWord c = true := by
  obtain ⟨r, -, hr⟩ := Option.bind_eq_some_iff.1 h
  split at hr
  · cases hr
  · next w hw =>
    split at hr
    · cases hr
      cases hword : r.takeWhile isWord with
      | nil => exact absurd hword (hw ·)
      | cons c w =>
        have hc : c ∈ r.takeWhile isWord := hword ▸ List.mem_cons_self
        exact ⟨c, w, rfl, List.all_eq_true.1 List.all_takeWhile c hc⟩
    · cases hr

theorem not_mem_attributeName? (h : attributeName? s = some name) : '@' ∉ name := by
  have hwords : '@' ∉ s.takeWhile isWord := fun hmem => by
    have hword := List.all_eq_true.1 List.all_takeWhile _ hmem
    rw [sigil_not_word] at hword
    cases hword
  unfold attributeName? at h
  split at h
  · cases h
  · split at h <;> cases h <;> simp [hwords]

theorem declaration?_ne_member {h : Head} (hs : declaration? s = some h) (name : String)
    (oldName : Option String) : h ≠ .member k name oldName := by
  rintro rfl
  simp only [declaration?, Option.orElse_eq_orElse, Option.orElse_eq_or, Option.or_eq_some_iff] at hs
  rcases hs with hs | ⟨-, hs | ⟨-, hs | ⟨-, hs | ⟨-, hs | ⟨-, hs | ⟨-, hs⟩⟩⟩⟩⟩⟩
  · obtain ⟨r, -, hr⟩ := Option.bind_eq_some_iff.1 hs
    split at hr <;> cases hr
  · obtain ⟨_, -, h | h⟩ := scopeHead?_cases hs <;> cases h
  · obtain ⟨_, -, h | h⟩ := scopeHead?_cases hs <;> cases h
  · obtain ⟨r, -, hr⟩ := Option.bind_eq_some_iff.1 hs
    obtain ⟨_, -, h⟩ := Option.map_eq_some_iff.1 hr
    cases h
  · obtain ⟨r, -, hr⟩ := Option.bind_eq_some_iff.1 hs
    obtain ⟨_, -, h⟩ := Option.map_eq_some_iff.1 hr
    cases h
  · obtain ⟨_, -, h⟩ := Option.map_eq_some_iff.1 hs
    cases h
  · obtain ⟨_, -, hr⟩ := Option.bind_eq_some_iff.1 hs
    simp only at hr
    split at hr <;> cases hr

section Parts
variable {kind : MemberKind} {name : String} {oldName : Option String}

theorem kind_of_sigil {lead : String}
    (hs : (sigilName? lead s).map (ofMember kind) = some (.member k name oldName)) :
    kind = k ∧ ∃ c w, name.toList = lead.toList ++ c :: w ∧ isWord c = true := by
  obtain ⟨n, hn, heq⟩ := Option.map_eq_some_iff.1 hs
  cases heq
  rw [String.toList_ofList]
  exact ⟨rfl, sigilName?_eq_some hn⟩

theorem kind_of_mixinHead? (hs : mixinHead? kind s = some (.member k name oldName)) : kind = k := by
  obtain ⟨r, -, hr⟩ := Option.bind_eq_some_iff.1 hs
  split at hr <;> cases hr
  rfl

theorem kind_of_attributeHead? (hs : attributeHead? kind s = some (.member k name oldName)) :
    kind = k ∧ '@' ∉ name.toList := by
  obtain ⟨r, -, hr⟩ := Option.bind_eq_some_iff.1 hs
  obtain ⟨n, hn, heq⟩ := Option.map_eq_some_iff.1 hr
  cases heq
  rw [String.toList_ofList]
  refine ⟨rfl, ?_⟩
  rw [Option.orElse_eq_orElse, Option.orElse_eq_or, Option.or_eq_some_iff] at hn
  rcases hn with howned | ⟨-, hn⟩
  · obtain ⟨t, -, ht⟩ := Option.bind_eq_some_iff.1 howned
    obtain ⟨n, hn, rfl⟩ := Option.map_eq_some_iff.1 ht
    simpa using not_mem_attributeName? hn
  · exact not_mem_attributeName? hn

theorem kind_of_visibilityHead? (hs : visibilityHead? kind s = some (.member k name oldName)) :
    kind = k ∧ name.toList = kind.label.toList := by
  obtain ⟨r, -, hr⟩ := Option.bind_eq_some_iff.1 hs
  split at hr <;> cases hr <;> exact ⟨rfl, String.toList_ofList⟩

end Parts

theorem spells_of_member? {name : String} {oldName : Option String}
    (hs : member? s = some (.member k name oldName)) : k.Spells name.toList := by
  simp only [member?, Option.orElse_eq_orElse, Option.orElse_eq_or, Option.or_eq_some_iff] at hs
  rcases hs with hs | ⟨-, hs | ⟨-, hs | ⟨-, hs | ⟨-, hs | ⟨-, hs | ⟨-, hs | ⟨-, hs | ⟨-, hs | ⟨-, hs |
    ⟨-, hs | ⟨-, hs | ⟨-, hs⟩⟩⟩⟩⟩⟩⟩⟩⟩⟩⟩⟩
  · obtain ⟨r, -, hr⟩ := Option.bind_eq_some_iff.1 hs
    split at hr <;> cases hr
    trivial
  · obtain ⟨r, -, hr⟩ := Option.bind_eq_some_iff.1 hs
    obtain ⟨n, -, heq⟩ := Option.map_eq_some_iff.1 hr
    cases heq
    trivial
  · obtain ⟨rfl, c, w, hname, -⟩ := kind_of_sigil hs
    exact ⟨c :: w, hname⟩
  · obtain ⟨rfl, c, w, hname, -⟩ := kind_of_sigil hs
    exact ⟨c :: w, hname⟩
  · obtain ⟨rfl, c, w, hname, hc⟩ := kind_of_sigil hs
    exact ⟨c, w, hname, hc⟩
  · obtain rfl := kind_of_mixinHead? hs
    trivial
  · obtain rfl := kind_of_mixinHead? hs
    trivial
  · obtain rfl := kind_of_mixinHead? hs
    trivial
  · obtain ⟨rfl, hname⟩ := kind_of_attributeHead? hs
    exact hname
  · obtain ⟨rfl, hname⟩ := kind_of_attributeHead? hs
    exact hname
  · obtain ⟨rfl, hname⟩ := kind_of_attributeHead? hs
    exact hname
  · obtain ⟨rfl, hname⟩ := kind_of_visibilityHead? hs
    exact hname
  · obtain ⟨rfl, hname⟩ := kind_of_visibilityHead? hs
    exact hname

end Head

namespace MemberKind
variable {k k' : MemberKind} {name : String}

theorem Bears.spells (h : k.Bears name) : k.Spells name.toList := by
  obtain ⟨line, oldName, h⟩ := h
  rw [Head.ofLine?, Option.orElse_eq_orElse, Option.orElse_eq_or, Option.or_eq_some_iff] at h
  rcases h with h | ⟨-, h⟩
  · exact absurd rfl (Head.declaration?_ne_member h name oldName)
  · exact Head.spells_of_member? h

theorem Spells.sigil {s : List Char} (h : k.Spells s) (hk : (Kind.member k).isVariable = true) :
    '@' ∈ s := by
  cases k with
  | instanceVariable =>
    obtain ⟨c, w, rfl, -⟩ := h
    exact List.mem_cons_self
  | classVariable =>
    obtain ⟨w, rfl⟩ := h
    exact List.mem_cons_self
  | classInstanceVariable =>
    obtain ⟨w, rfl⟩ := h
    exact List.mem_append_left w (by decide)
  | _ => cases hk

theorem Spells.no_sigil {s : List Char} (h : k.Spells s)
    (hk : (k.isAttribute || (Kind.member k).isVisibility) = true) : '@' ∉ s := by
  cases k with
  | attrReader | attrWriter | attrAccessor => exact h
  | publicMark | privateMark =>
    simp only [Spells] at h
    simp [h]
  | _ => cases hk

theorem Spells.variable_inj {s : List Char} (h : k.Spells s) (h' : k'.Spells s)
    (hk : (Kind.member k).isVariable = true) (hk' : (Kind.member k').isVariable = true) :
    k = k' := by
  have hsigil : isWord '@' = false := Head.sigil_not_word
  cases k <;> cases hk <;> cases k' <;> cases hk' <;> first
    | rfl
    | simp only [Spells] at h h'
      grind

theorem sort_cases (k : MemberKind) : k.isFree = true ∨ (Kind.member k).isVariable = true ∨
    (k.isAttribute || (Kind.member k).isVisibility) = true := by
  cases k <;> decide

theorem shareNames_of_spells {s : List Char} (h : k.Spells s) (h' : k'.Spells s) :
    k.shareNames k' = true := by
  rcases k.sort_cases with hk | hk | hk
  · simp [shareNames, hk]
  · rcases k'.sort_cases with hk' | hk' | hk'
    · simp [shareNames, hk']
    · obtain rfl := h.variable_inj h' hk hk'
      simp [shareNames]
    · exact absurd (h.sigil hk) (h'.no_sigil hk')
  · rcases k'.sort_cases with hk' | hk' | hk'
    · simp [shareNames, hk']
    · exact absurd (h'.sigil hk') (h.no_sigil hk)
    · -- Between attributes and markers nothing but the two markers is told apart.
      cases k <;> cases hk <;> cases k' <;> cases hk' <;> first
        | rfl
        | exact absurd (h.symm.trans h') (by decide)

def sampleName : MemberKind → String
  | .instanceVariable => "@a"
  | .classVariable => "@@a"
  | .classInstanceVariable => "self.@a"
  | .privateMark => "private"
  | _ => "public"

def sampleLine (name : String) : MemberKind → String
  | .method => "def " ++ name ++ ": T"
  | .methodAlias => "alias " ++ name ++ " a"
  | .includeMixin => "include " ++ name
  | .extendMixin => "extend " ++ name
  | .prependMixin => "prepend " ++ name
  | .attrReader => "attr_reader " ++ name
  | .attrWriter => "attr_writer " ++ name
  | .attrAccessor => "attr_accessor " ++ name
  | .publicMark | .privateMark => name
  | _ => name ++ ": T"

theorem bears_sampleName (h : k = k' ∨ k.isFree = true ∨
    (k.isAttribute && (k'.isAttribute || (Kind.member k').isVisibility)) = true) :
    k.Bears k'.sampleName := by
  refine ⟨(sampleLine k'.sampleName k).toList, if k = .methodAlias then some "a" else none, ?_⟩
  rcases h with rfl | h | h
  · cases k <;> decide +kernel
  · have hnames : k'.sampleName ∈ ["@a", "@@a", "self.@a", "private", "public"] := by
      cases k' <;> decide
    generalize k'.sampleName = name at hnames
    simp only [List.mem_cons, List.not_mem_nil, or_false] at hnames
    cases k <;> cases h <;> rcases hnames with rfl | rfl | rfl | rfl | rfl <;> decide +kernel
  · have hnames : k'.sampleName = "private" ∨ k'.sampleName = "public" := by
      cases k' <;> first | exact .inl rfl | exact .inr rfl | simp [isAttribute, Kind.isVisibility] at h
    have hk : k.isAttribute = true := (Bool.and_eq_true_iff.1 h).1
    generalize k'.sampleName = name at hnames
    cases k <;> cases hk <;> rcases hnames with rfl | rfl <;> decide +kernel

/-- Kinds can have one name exactly where the table says so. -/
theorem shareNames_iff : k.shareNames k' = true ↔ ∃ name, k.Bears name ∧ k'.Bears name := by
  refine ⟨fun h => ?_, fun ⟨name, h, h'⟩ => shareNames_of_spells h.spells h'.spells⟩
  simp only [shareNames, Bool.or_eq_true, beq_iff_eq] at h
  rcases h with (((rfl | h) | h) | h) | h
  · exact ⟨k.sampleName, bears_sampleName (.inl rfl), bears_sampleName (.inl rfl)⟩
  · exact ⟨k'.sampleName, bears_sampleName (.inr (.inl h)), bears_sampleName (.inl rfl)⟩
  · exact ⟨k.sampleName, bears_sampleName (.inl rfl), bears_sampleName (.inr (.inl h))⟩
  · exact ⟨k'.sampleName, bears_sampleName (.inr (.inr h)), bears_sampleName (.inl rfl)⟩
  · refine ⟨k.sampleName, bears_sampleName (.inl rfl), bears_sampleName (.inr (.inr ?_))⟩
    obtain ⟨hk, hk'⟩ := Bool.and_eq_true_iff.1 h
    simp [hk, hk']

end MemberKind
end SignatureLayers
