import Mathlib.Data.List.Basic
import SignatureLayers.Grammar.Head
import SignatureLayers.Proofs.Lines

namespace SignatureLayers

open Text

namespace Text

/-- The code points of the blanks beyond the first 128. -/
def lateBlanks : List Nat :=
  [0x85, 0xA0, 0x1680, 0x2000, 0x2001, 0x2002, 0x2003, 0x2004, 0x2005, 0x2006, 0x2007, 0x2008,
    0x2009, 0x200A, 0x2028, 0x2029, 0x202F, 0x205F, 0x3000]

theorem not_letter_of_lateBlank :
    ∀ n ∈ lateBlanks, (letterRanges.any fun r => r.1 ≤ n && n ≤ r.2) = false := by
  simp only [← Array.any_toList]
  decide +kernel

theorem isWord_of_isBlank {c : Char} (h : isBlank c = true) : isWord c = false := by
  have hle (a b : Char) : a ≤ b ↔ a.toNat ≤ b.toNat := UInt32.le_iff_toNat_le
  simp only [isBlank, Bool.or_eq_true, Bool.and_eq_true, decide_eq_true_eq, beq_iff_eq] at h
  unfold isWord
  split
  · next hlt =>
    have hlow : c ≠ '_' := by
      rintro rfl
      revert h
      decide
    have hA : 'A'.toNat = 65 := rfl
    have ha : 'a'.toNat = 97 := rfl
    have h0 : '0'.toNat = 48 := rfl
    simp only [isUpper, isLower, isDigit, hle, hA, ha, h0, Bool.or_eq_false_iff,
      Bool.and_eq_false_iff, decide_eq_false_iff_not, beq_eq_false_iff_ne]
    exact ⟨⟨⟨.inl (by omega), .inl (by omega)⟩, .inl (by omega)⟩, hlow⟩
  · next hlt =>
    apply not_letter_of_lateBlank
    simp only [lateBlanks, List.mem_cons, List.not_mem_nil, or_false]
    omega

theorem isBlank_of_isWord {c : Char} (h : isWord c = true) : isBlank c = false := by
  by_contra hb
  rw [isWord_of_isBlank (by simpa using hb)] at h
  cases h

theorem isWord_of_isLower {c : Char} (h : isLower c = true) : isWord c = true := by
  have hz : c ≤ 'z' := by simp [isLower] at h; exact h.2
  have : c.toNat < 128 := Nat.lt_of_le_of_lt (UInt32.le_iff_toNat_le.1 hz) (by decide)
  simp [isWord, this, h]

theorem isBlank_of_isUpper {c : Char} (h : isUpper c = true) : isBlank c = false :=
  isBlank_of_isWord (isWord_of_isUpper h)

theorem isUpper_of_isBlank {c : Char} (h : isBlank c = true) : isUpper c = false := by
  by_contra hc
  rw [isBlank_of_isUpper (by simpa using hc)] at h
  cases h

def Apart (s : List Char) : Prop := ∃ c ∈ s.head?, isBlank c = true

theorem Apart.exists_cons {s : List Char} (hs : Apart s) :
    ∃ c t, s = c :: t ∧ isBlank c = true := by
  obtain ⟨c, hc, hblank⟩ := hs
  cases s with
  | nil => cases hc
  | cons a t =>
    cases hc
    exact ⟨c, t, rfl, hblank⟩

def Unblank (s : List Char) : Prop := ∀ c ∈ s, isBlank c = false

instance : DecidablePred Unblank := fun s =>
  decidable_of_iff (s.all fun c => !isBlank c) (by simp [Unblank])

theorem unblank_nil : Unblank [] := fun _ hc => by cases hc

theorem unblank_cons {c : Char} {s : List Char} :
    Unblank (c :: s) ↔ isBlank c = false ∧ Unblank s := List.forall_mem_cons

theorem unblank_append {s t : List Char} : Unblank (s ++ t) ↔ Unblank s ∧ Unblank t :=
  List.forall_mem_append

variable {p : Char → Bool} {r v : List Char}

theorem takeWhile_apart (hv : Apart v) (hp : ∀ c, isBlank c = true → p c = false) :
    (r ++ v).takeWhile p = r.takeWhile p := by
  obtain ⟨b, v, rfl, hblank⟩ := hv.exists_cons
  induction r with
  | nil => simp [hp _ hblank]
  | cons c r ih => rw [List.cons_append, List.takeWhile_cons, List.takeWhile_cons, ih]

theorem dropWhile_apart (hv : Apart v) (hp : ∀ c, isBlank c = true → p c = false) :
    (r ++ v).dropWhile p = r.dropWhile p ++ v := by
  obtain ⟨b, v, rfl, hblank⟩ := hv.exists_cons
  induction r with
  | nil => simp [hp _ hblank]
  | cons c r ih =>
    rw [List.cons_append, List.dropWhile_cons, List.dropWhile_cons, ih]
    split <;> rfl

end Text

namespace Head

variable {s r v : List Char}

theorem not_word_of_blank (c : Char) (h : isBlank c = true) : isWord c = false :=
  isWord_of_isBlank h

theorem colons_of_apart (hv : Apart v) (h : s ++ v = ':' :: ':' :: r) :
    ∃ r', s = ':' :: ':' :: r' ∧ r = r' ++ v := by
  obtain ⟨b, v, rfl, hblank⟩ := hv.exists_cons
  match s with
  | [] | [a] =>
    cases h
    cases hblank
  | a :: a' :: s =>
    cases h
    exact ⟨s, rfl, rfl⟩

theorem leadingColons_eq (h : ∀ r, s ≠ ':' :: ':' :: r) : leadingColons s = ([], s) := by
  unfold leadingColons
  split
  · next r => exact absurd rfl (h r)
  · rfl

theorem leadingColons_apart (hv : Apart v) :
    leadingColons (s ++ v) = ((leadingColons s).1, (leadingColons s).2 ++ v) := by
  by_cases h : ∃ r, s = ':' :: ':' :: r
  · obtain ⟨r, rfl⟩ := h
    rfl
  · have hs : ∀ r, s ≠ ':' :: ':' :: r := fun r hr => h ⟨r, hr⟩
    have hsv : ∀ r, s ++ v ≠ ':' :: ':' :: r := fun r hr => by
      obtain ⟨r', hr', -⟩ := colons_of_apart hv hr
      exact hs r' hr'
    rw [leadingColons_eq hs, leadingColons_eq hsv]

theorem laterSegments_eq (h : ∀ c r, s = ':' :: ':' :: c :: r → isUpper c = false) :
    laterSegments s = ([], s) := by
  unfold laterSegments
  split
  · next c r => rw [h c r rfl]; rfl
  · rfl

theorem laterSegments_upper {c : Char} (hc : isUpper c = true) (r : List Char) :
    laterSegments (':' :: ':' :: c :: r) =
      (':' :: ':' :: c :: r.takeWhile isWord ++ (laterSegments (r.dropWhile isWord)).1,
        (laterSegments (r.dropWhile isWord)).2) := by
  rw [laterSegments, if_pos hc]

theorem laterSegments_apart (hv : Apart v) :
    laterSegments (s ++ v) = ((laterSegments s).1, (laterSegments s).2 ++ v) := by
  induction hn : s.length using Nat.strongRecOn generalizing s with
  | _ n ih =>
  -- The induction is on the length: each segment that is cut off shortens the text.
  by_cases h : ∃ c r, s = ':' :: ':' :: c :: r ∧ isUpper c = true
  · obtain ⟨c, r, rfl, hc⟩ := h
    have hlt : (r.dropWhile isWord).length < n := by
      have := (List.dropWhile_sublist isWord (l := r)).length_le
      simp only [List.length_cons] at hn
      omega
    rw [List.cons_append, List.cons_append, List.cons_append, laterSegments_upper hc,
      laterSegments_upper hc, takeWhile_apart hv not_word_of_blank,
      dropWhile_apart hv not_word_of_blank, ih _ hlt rfl]
  · have hs : ∀ c r, s = ':' :: ':' :: c :: r → isUpper c = false := fun c r hr => by
      by_contra hc
      exact h ⟨c, r, hr, by simpa using hc⟩
    have hsv : ∀ c r, s ++ v = ':' :: ':' :: c :: r → isUpper c = false := fun c r hr => by
      obtain ⟨r', hr', hrest⟩ := colons_of_apart hv hr
      cases r' with
      | nil =>
        obtain ⟨b, v, rfl, hblank⟩ := hv.exists_cons
        cases hrest
        exact isUpper_of_isBlank hblank
      | cons d r' =>
        cases hrest
        exact hs c r' hr'
    rw [laterSegments_eq hs, laterSegments_eq hsv]

theorem scopes_eq (h : ∀ c r rest, s = c :: r → isUpper c = true →
    r.dropWhile isWord ≠ ':' :: ':' :: rest) : scopes s = ([], s) := by
  unfold scopes
  split
  · next c r =>
    split
    · next hc =>
      split
      · next rest hrest => exact absurd hrest (h c r rest rfl hc)
      · rfl
    · rfl
  · rfl

theorem scopes_upper {c : Char} {rest : List Char} (hc : isUpper c = true)
    (h : r.dropWhile isWord = ':' :: ':' :: rest) :
    scopes (c :: r) = (c :: r.takeWhile isWord ++ ':' :: ':' :: (scopes rest).1, (scopes rest).2) := by
  rw [scopes, if_pos hc]
  split
  · next rest' h' =>
    rw [h] at h'
    cases h'
    rfl
  · next h' => exact absurd h (h' rest)

theorem scopes_apart (hv : Apart v) : scopes (s ++ v) = ((scopes s).1, (scopes s).2 ++ v) := by
  induction hn : s.length using Nat.strongRecOn generalizing s with
  | _ n ih =>
  by_cases h : ∃ c r rest, s = c :: r ∧ isUpper c = true ∧ r.dropWhile isWord = ':' :: ':' :: rest
  · obtain ⟨c, r, rest, rfl, hc, hrest⟩ := h
    have hlt : rest.length < n := by
      have := (List.dropWhile_sublist isWord (l := r)).length_le
      rw [hrest] at this
      simp only [List.length_cons] at hn this
      omega
    -- The word ends before the blank that `v` begins with.
    have hrest' : (r ++ v).dropWhile isWord = ':' :: ':' :: (rest ++ v) := by
      rw [dropWhile_apart hv not_word_of_blank, hrest]
      rfl
    rw [List.cons_append, scopes_upper hc hrest, scopes_upper hc hrest',
      takeWhile_apart hv not_word_of_blank, ih _ hlt rfl]
  · have hs : ∀ c r rest, s = c :: r → isUpper c = true → r.dropWhile isWord ≠ ':' :: ':' :: rest :=
      fun c r rest hr hc hrest => h ⟨c, r, rest, hr, hc, hrest⟩
    have hsv : ∀ c r rest, s ++ v = c :: r → isUpper c = true →
        r.dropWhile isWord ≠ ':' :: ':' :: rest := fun c r rest hr hc hrest => by
      cases s with
      | nil =>
        obtain ⟨b, v, rfl, hblank⟩ := hv.exists_cons
        cases hr
        rw [isBlank_of_isUpper hc] at hblank
        cases hblank
      | cons d s =>
        have hcons : d :: (s ++ v) = c :: r := hr
        obtain ⟨rfl, rfl⟩ := List.cons.inj hcons
        rw [dropWhile_apart hv not_word_of_blank] at hrest
        obtain ⟨r', hr', -⟩ := colons_of_apart hv hrest
        exact hs d s r' rfl hc hr'
    rw [scopes_eq hs, scopes_eq hsv]

theorem constantName?_apart (hv : Apart v) :
    constantName? (s ++ v) = (constantName? s).map fun (name, rest) => (name, rest ++ v) := by
  unfold constantName?
  rw [leadingColons_apart hv]
  generalize leadingColons s = parts
  obtain ⟨colons, s⟩ := parts
  simp only
  cases s with
  | nil =>
    obtain ⟨b, v, rfl, hblank⟩ := hv.exists_cons
    simp [isUpper_of_isBlank hblank]
  | cons c r =>
    simp only [List.cons_append, takeWhile_apart hv not_word_of_blank,
      dropWhile_apart hv not_word_of_blank, laterSegments_apart hv]
    split <;> rfl

theorem interfaceName?_apart (hv : Apart v) : interfaceName? (s ++ v) = interfaceName? s := by
  unfold interfaceName?
  rw [leadingColons_apart hv]
  simp only [scopes_apart hv]
  generalize (scopes (leadingColons s).2).2 = s
  cases s with
  | nil =>
    obtain ⟨b, v, rfl, hblank⟩ := hv.exists_cons
    have hb : b ≠ '_' := by
      rintro rfl
      cases hblank
    simp [hb]
  | cons c r =>
    simp only [List.cons_append]
    by_cases hc : c = '_'
    · subst hc
      simp only [takeWhile_apart hv not_word_of_blank]
    · simp [hc]

theorem unblank_words (s : List Char) : Unblank (s.takeWhile isWord) :=
  fun _ hc => isBlank_of_isWord (List.all_eq_true.1 List.all_takeWhile _ hc)

theorem unblank_leadingColons (s : List Char) : Unblank (leadingColons s).1 := by
  unfold leadingColons
  split <;> simp [Unblank, isBlank]

theorem unblank_laterSegments (s : List Char) : Unblank (laterSegments s).1 := by
  fun_induction laterSegments s with
  | case1 c r hc more ih =>
    simp only [List.cons_append, unblank_cons, unblank_append]
    exact ⟨rfl, rfl, isBlank_of_isUpper hc, unblank_words r, ih⟩
  | case2 | case3 => exact unblank_nil

theorem unblank_scopes (s : List Char) : Unblank (scopes s).1 := by
  fun_induction scopes s with
  | case1 c r hc rest hrest more ih =>
    simp only [List.cons_append, unblank_cons, unblank_append]
    exact ⟨isBlank_of_isUpper hc, unblank_words r, rfl, rfl, ih⟩
  | case2 | case3 | case4 => exact unblank_nil

theorem unblank_constantName? {name rest : List Char} (h : constantName? s = some (name, rest)) :
    Unblank name := by
  unfold constantName? at h
  have hcolons := unblank_leadingColons s
  generalize leadingColons s = parts at h hcolons
  obtain ⟨colons, s⟩ := parts
  simp only at h
  split at h
  · next c r =>
    split at h
    · next hc =>
      cases h
      simp only [unblank_append, unblank_cons]
      exact ⟨⟨hcolons, isBlank_of_isUpper hc, unblank_words r⟩, unblank_laterSegments _⟩
    · cases h
  · cases h

theorem unblank_interfaceName? {name : List Char} (h : interfaceName? s = some name) :
    Unblank name := by
  unfold interfaceName? at h
  simp only at h
  split at h
  · next r hr =>
    split at h
    · cases h
    · cases h
      simp only [unblank_append, unblank_cons]
      exact ⟨⟨unblank_leadingColons s, unblank_scopes _⟩, rfl, unblank_words r⟩
  · cases h

theorem unblank_aliasName? {name : List Char} (h : aliasName? s = some name) : Unblank name := by
  unfold aliasName? at h
  simp only at h
  split at h
  · next c r hr =>
    split at h
    · next hc =>
      cases h
      simp only [unblank_append, unblank_cons]
      refine ⟨⟨unblank_leadingColons s, unblank_scopes _⟩, ?_, unblank_words r⟩
      rcases Bool.or_eq_true_iff.1 hc with hc | hc
      · exact isBlank_of_isWord (isWord_of_isLower hc)
      · rw [beq_iff_eq.1 hc]
        rfl
    · cases h
  · cases h

theorem unblank_sigilName? {name : List Char} (h : sigilName? "$" s = some name) :
    Unblank name := by
  obtain ⟨r, -, hr⟩ := Option.bind_eq_some_iff.1 h
  split at hr
  · cases hr
  · split at hr
    · cases hr
      exact unblank_cons.2 ⟨rfl, unblank_words r⟩
    · cases hr

theorem member?_eq_some {h : Head} (hs : member? s = some h) :
    ∃ kind name oldName, h = .member kind name oldName := by
  have hmap {kind : MemberKind} {name : Option (List Char)} (hn : name.map (ofMember kind) = some h) :
      ∃ kind name oldName, h = .member kind name oldName := by
    obtain ⟨n, -, rfl⟩ := Option.map_eq_some_iff.1 hn
    exact ⟨_, _, _, rfl⟩
  have hmixin {kind : MemberKind} (hm : mixinHead? kind s = some h) :
      ∃ kind name oldName, h = .member kind name oldName := by
    obtain ⟨r, -, hr⟩ := Option.bind_eq_some_iff.1 hm
    split at hr
    · cases hr
    · cases hr
      exact ⟨_, _, _, rfl⟩
  have hattribute {kind : MemberKind} (ha : attributeHead? kind s = some h) :
      ∃ kind name oldName, h = .member kind name oldName := by
    obtain ⟨r, -, hr⟩ := Option.bind_eq_some_iff.1 ha
    exact hmap hr
  have hvisibility {kind : MemberKind} (hv : visibilityHead? kind s = some h) :
      ∃ kind name oldName, h = .member kind name oldName := by
    obtain ⟨r, -, hr⟩ := Option.bind_eq_some_iff.1 hv
    split at hr
    · cases hr
      exact ⟨_, _, _, rfl⟩
    · cases hr
      exact ⟨_, _, _, rfl⟩
    · cases hr
  simp only [member?, Option.orElse_eq_orElse, Option.orElse_eq_or, Option.or_eq_some_iff] at hs
  rcases hs with h₁ | ⟨-, h₁ | ⟨-, h₁ | ⟨-, h₁ | ⟨-, h₁ | ⟨-, h₁ | ⟨-, h₁ | ⟨-, h₁ | ⟨-, h₁ | ⟨-, h₁ |
    ⟨-, h₁ | ⟨-, h₁ | ⟨-, h₁⟩⟩⟩⟩⟩⟩⟩⟩⟩⟩⟩⟩
  · obtain ⟨r, -, hr⟩ := Option.bind_eq_some_iff.1 h₁
    split at hr
    · cases hr
    · cases hr
    · cases hr
      exact ⟨_, _, _, rfl⟩
  · obtain ⟨r, -, hr⟩ := Option.bind_eq_some_iff.1 h₁
    exact hmap hr
  all_goals first
    | exact hmap h₁
    | exact hmixin h₁
    | exact hattribute h₁
    | exact hvisibility h₁

theorem scopeHead?_cases {kind : ContainerKind} {aliasKind : LeafKind} {h : Head}
    (hs : scopeHead? kind aliasKind s = some h) :
    ∃ name, Unblank name.toList ∧ (h = .container kind name ∨ h = .leaf aliasKind name) := by
  obtain ⟨r, -, hr⟩ := Option.bind_eq_some_iff.1 hs
  obtain ⟨⟨name, rest⟩, hconstant, rfl⟩ := Option.map_eq_some_iff.1 hr
  refine ⟨String.ofList name, ?_, ?_⟩
  · rw [String.toList_ofList]
    exact unblank_constantName? hconstant
  · simp only
    split
    · exact .inr rfl
    · exact .inl rfl

/-- The heads of declarations and members, and what is known of their names. -/
theorem ofLine?_cases {h : Head} (hs : ofLine? s = some h) :
    (h = .useClause ∧ useHead? s = some h) ∨
    (∃ k name, h = .container k name ∧ Unblank name.toList ∧
      (scopeHead? .classDecl .classAlias s = some h ∨
        scopeHead? .moduleDecl .moduleAlias s = some h ∨ interfaceHead? s = some h)) ∨
    (∃ k name, h = .leaf k name ∧ k ≠ .useClause ∧ Unblank name.toList) ∨
    ∃ k name oldName, h = .member k name oldName := by
  simp only [ofLine?, declaration?, Option.orElse_eq_orElse, Option.orElse_eq_or,
    Option.or_eq_some_iff] at hs
  rcases hs with (hs | ⟨-, hs | ⟨-, hs | ⟨-, hs | ⟨-, hs | ⟨-, hs | ⟨-, hs⟩⟩⟩⟩⟩⟩) | ⟨-, hs⟩
  · obtain ⟨r, -, hr⟩ := Option.bind_eq_some_iff.1 hs
    split at hr
    · cases hr
    · cases hr
      exact .inl ⟨rfl, hs⟩
  · obtain ⟨name, hname, rfl | rfl⟩ := scopeHead?_cases hs
    · exact .inr (.inl ⟨_, name, rfl, hname, .inl hs⟩)
    · exact .inr (.inr (.inl ⟨_, name, rfl, by decide, hname⟩))
  · obtain ⟨name, hname, rfl | rfl⟩ := scopeHead?_cases hs
    · exact .inr (.inl ⟨_, name, rfl, hname, .inr (.inl hs)⟩)
    · exact .inr (.inr (.inl ⟨_, name, rfl, by decide, hname⟩))
  · obtain ⟨r, -, hr⟩ := Option.bind_eq_some_iff.1 hs
    obtain ⟨name, hinterface, rfl⟩ := Option.map_eq_some_iff.1 hr
    refine .inr (.inl ⟨_, _, rfl, ?_, .inr (.inr hs)⟩)
    rw [String.toList_ofList]
    exact unblank_interfaceName? hinterface
  · obtain ⟨r, -, hr⟩ := Option.bind_eq_some_iff.1 hs
    obtain ⟨name, halias, rfl⟩ := Option.map_eq_some_iff.1 hr
    refine .inr (.inr (.inl ⟨_, _, rfl, by decide, ?_⟩))
    rw [String.toList_ofList]
    exact unblank_aliasName? halias
  · obtain ⟨name, hsigil, rfl⟩ := Option.map_eq_some_iff.1 hs
    refine .inr (.inr (.inl ⟨_, _, rfl, by decide, ?_⟩))
    rw [String.toList_ofList]
    exact unblank_sigilName? hsigil
  · obtain ⟨⟨name, rest⟩, hconstant, hr⟩ := Option.bind_eq_some_iff.1 hs
    simp only at hr
    split at hr
    · cases hr
      refine .inr (.inr (.inl ⟨_, _, rfl, by decide, ?_⟩))
      rw [String.toList_ofList]
      exact unblank_constantName? hconstant
    · cases hr
  · exact .inr (.inr (.inr (member?_eq_some hs)))

theorem useHead?_of_ofLine? (hs : ofLine? s = some .useClause) : useHead? s = some .useClause := by
  rcases ofLine?_cases hs with ⟨-, h⟩ | ⟨_, _, h, -⟩ | ⟨_, _, h, -⟩ | ⟨_, _, _, h⟩
  · exact h
  all_goals cases h

theorem ne_useClause_of_ofLine? {k : LeafKind} {name : String}
    (hs : ofLine? s = some (.leaf k name)) : k ≠ .useClause := by
  rcases ofLine?_cases hs with ⟨h, -⟩ | ⟨_, _, h, -⟩ | ⟨_, _, h, hk, -⟩ | ⟨_, _, _, h⟩
  · cases h
  · cases h
  · cases h
    exact hk
  · cases h

/-- The name of what is neither a use clause nor a member. -/
def declared? : Head → Option String
  | .container _ name | .leaf _ name => some name
  | .useClause | .member .. => none

theorem unblank_of_ofLine? {h : Head} {name : String} (hs : ofLine? s = some h)
    (hn : h.declared? = some name) : Unblank name.toList := by
  rcases ofLine?_cases hs with ⟨rfl, -⟩ | ⟨_, _, rfl, hu, -⟩ | ⟨_, _, rfl, -, hu⟩ | ⟨_, _, _, rfl⟩
  · cases hn
  · cases hn
    exact hu
  · cases hn
    exact hu
  · cases hn

theorem afterKeyword?_eq_some {keyword : String} :
    afterKeyword? keyword s = some r ↔
      ∃ c rest, s = keyword.toList ++ c :: rest ∧ isBlank c = true ∧ r = trimLeft rest := by
  unfold afterKeyword?
  constructor
  · intro h
    split at h
    · next c rest hafter =>
      split at h
      · next hc =>
        cases h
        exact ⟨c, rest, after?_eq_some_iff.1 hafter, hc, rfl⟩
      · cases h
    · cases h
  · rintro ⟨c, rest, hs, hc, rfl⟩
    rw [after?_eq_some_iff.2 hs]
    simp only [hc, ↓reduceIte]

theorem trimLeft_append (s v : List Char) :
    trimLeft (s ++ v) = if trimLeft s = [] then trimLeft v else trimLeft s ++ v := by
  rw [trimLeft, List.dropWhile_append]
  show (if (trimLeft s).isEmpty then trimLeft v else trimLeft s ++ v) = _
  cases trimLeft s <;> simp

theorem afterKeyword?_cut {keyword : String} (hv : Apart v) (hend : trimLeft v = ['e', 'n', 'd'])
    (hk : Unblank keyword.toList) (h : afterKeyword? keyword (s ++ v) = some r) :
    (∃ r', afterKeyword? keyword s = some r' ∧ r = r' ++ v) ∨ r = ['e', 'n', 'd'] := by
  obtain ⟨c, rest, hs, hc, rfl⟩ := afterKeyword?_eq_some.1 h
  have hhere (hv' : v = c :: rest) : trimLeft rest = ['e', 'n', 'd'] := by
    rw [hv', trimLeft, List.dropWhile_cons, hc] at hend
    exact hend
  rcases List.append_eq_append_iff.1 hs with ⟨a, ha, hv'⟩ | ⟨a, ha, hv'⟩
  · cases a with
    | nil => exact .inr (hhere hv')
    | cons x a =>
      -- The blank that sets the `end` off is no part of the keyword.
      obtain ⟨b, hb, hblank⟩ := hv
      rw [hv'] at hb
      cases hb
      rw [hk x (by simp [ha])] at hblank
      cases hblank
  · cases a with
    | nil => exact .inr (hhere hv'.symm)
    | cons x a =>
      obtain ⟨rfl, rfl⟩ := List.cons.inj hv'
      rw [List.append_eq, trimLeft_append]
      split
      · exact .inr hend
      · exact .inl ⟨_, afterKeyword?_eq_some.2 ⟨c, a, ha, hc, rfl⟩, rfl⟩

theorem scopeHead?_cut {kind k : ContainerKind} {aliasKind : LeafKind} {name : String}
    (hv : Apart v) (hend : trimLeft v = ['e', 'n', 'd']) (hk : Unblank kind.label.toList)
    (h : scopeHead? kind aliasKind (s ++ v) = some (.container k name)) :
    scopeHead? kind aliasKind s = some (.container k name) := by
  unfold scopeHead? at h ⊢
  obtain ⟨r, hr, hname⟩ := Option.bind_eq_some_iff.1 h
  rcases afterKeyword?_cut hv hend hk hr with ⟨r', hr', rfl⟩ | rfl
  · rw [hr', Option.bind_some]
    rw [constantName?_apart hv] at hname
    cases hc : constantName? r' with
    | none => simp [hc] at hname
    | some found =>
      obtain ⟨n, rest⟩ := found
      have hequals : ((trimLeft (rest ++ v)).head? == some '=') =
          ((trimLeft rest).head? == some '=') := by
        rw [trimLeft_append]
        split
        · next hnil =>
          rw [hnil, hend]
          rfl
        · next hne =>
          cases hrest : trimLeft rest with
          | nil => exact absurd hrest hne
          | cons => rfl
      simp only [hc, Option.map_some, hequals] at hname ⊢
      exact hname
  -- An `end` directly behind the keyword is no name.
  · have hnone : constantName? ['e', 'n', 'd'] = none := rfl
    rw [hnone] at hname
    cases hname

theorem interfaceHead?_cut {k : ContainerKind} {name : String} (hv : Apart v)
    (hend : trimLeft v = ['e', 'n', 'd'])
    (h : interfaceHead? (s ++ v) = some (.container k name)) :
    interfaceHead? s = some (.container k name) := by
  unfold interfaceHead? at h ⊢
  obtain ⟨r, hr, hname⟩ := Option.bind_eq_some_iff.1 h
  rcases afterKeyword?_cut hv hend (by decide) hr with ⟨r', hr', rfl⟩ | rfl
  · rw [hr', Option.bind_some]
    rwa [interfaceName?_apart hv] at hname
  · have hnone : interfaceName? ['e', 'n', 'd'] = none := by
      simp [interfaceName?, leadingColons, scopes, isUpper]
    rw [hnone] at hname
    cases hname

theorem ofLine?_container {k : ContainerKind} {name : String} :
    ofLine? s = some (.container k name) ↔
      scopeHead? .classDecl .classAlias s = some (.container k name) ∨
        scopeHead? .moduleDecl .moduleAlias s = some (.container k name) ∨
          interfaceHead? s = some (.container k name) := by
  have hclass {h : Head} (hs : scopeHead? .classDecl .classAlias s = some h) :
      ∃ r, s = 'c' :: r := by
    obtain ⟨r, hr, -⟩ := Option.bind_eq_some_iff.1 hs
    obtain ⟨c, rest, rfl, -⟩ := afterKeyword?_eq_some.1 hr
    exact ⟨_, rfl⟩
  have hmodule {h : Head} (hs : scopeHead? .moduleDecl .moduleAlias s = some h) :
      ∃ r, s = 'm' :: r := by
    obtain ⟨r, hr, -⟩ := Option.bind_eq_some_iff.1 hs
    obtain ⟨c, rest, rfl, -⟩ := afterKeyword?_eq_some.1 hr
    exact ⟨_, rfl⟩
  have hinterface {h : Head} (hs : interfaceHead? s = some h) : ∃ r, s = 'i' :: r := by
    obtain ⟨r, hr, -⟩ := Option.bind_eq_some_iff.1 hs
    obtain ⟨c, rest, rfl, -⟩ := afterKeyword?_eq_some.1 hr
    exact ⟨_, rfl⟩
  constructor
  · intro h
    rcases ofLine?_cases h with ⟨h, -⟩ | ⟨_, _, -, -, h⟩ | ⟨_, _, h, -⟩ | ⟨_, _, _, h⟩
    · cases h
    · exact h
    · cases h
    · cases h
  · rintro (h | h | h)
    · obtain ⟨r, rfl⟩ := hclass h
      have huse : useHead? ('c' :: r) = none := rfl
      simp only [ofLine?, declaration?, huse, h]
      rfl
    · obtain ⟨r, rfl⟩ := hmodule h
      have huse : useHead? ('m' :: r) = none := rfl
      have hscope : scopeHead? .classDecl .classAlias ('m' :: r) = none := rfl
      simp only [ofLine?, declaration?, huse, hscope, h]
      rfl
    · obtain ⟨r, rfl⟩ := hinterface h
      have huse : useHead? ('i' :: r) = none := rfl
      have hscope : scopeHead? .classDecl .classAlias ('i' :: r) = none := rfl
      have hscope' : scopeHead? .moduleDecl .moduleAlias ('i' :: r) = none := rfl
      simp only [ofLine?, declaration?, huse, hscope, hscope', h]
      rfl

/-- A closing `end` is no part of the head of a container. -/
theorem ofLine?_cut {k : ContainerKind} {name : String} (hv : Apart v)
    (hend : trimLeft v = ['e', 'n', 'd']) (h : ofLine? (s ++ v) = some (.container k name)) :
    ofLine? s = some (.container k name) := by
  rw [ofLine?_container] at h ⊢
  rcases h with h | h | h
  · exact .inl (scopeHead?_cut hv hend (by decide) h)
  · exact .inr (.inl (scopeHead?_cut hv hend (by decide) h))
  · exact .inr (.inr (interfaceHead?_cut hv hend h))

end Head
end SignatureLayers
