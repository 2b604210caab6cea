import SignatureLayers.Proofs.InlineEnd

namespace SignatureLayers

open Text

namespace Text

/-- A comment and the blanks that set it off from the line in front of it. -/
structure Comment (v : List Char) : Prop where
  apart : Apart v
  mark : (trimLeft v).head? = some '#'

variable {s v : List Char}

theorem Comment.trimLeft_eq (hv : Comment v) : ∃ w, trimLeft v = '#' :: w := by
  cases h : trimLeft v with
  | nil => simpa [h] using hv.mark
  | cons c w =>
    have hmark := hv.mark
    rw [h] at hmark
    cases hmark
    exact ⟨w, rfl⟩

theorem Comment.head?_trimLeft (hv : Comment v) {x : Char} (hx : x ≠ '#') (s : List Char) :
    (trimLeft (s ++ v)).head? = some x ↔ (trimLeft s).head? = some x := by
  rw [Head.trimLeft_append]
  split
  · next hs => simp [hs, hv.mark, hx.symm]
  · next hs =>
    cases hcons : trimLeft s with
    | nil => exact absurd hcons hs
    | cons => rfl

theorem Comment.after?_append (hv : Comment v) {lead : List Char} (hlead : Unblank lead)
    (s : List Char) : after? lead (s ++ v) = (after? lead s).map (· ++ v) := by
  induction lead generalizing s with
  | nil => rfl
  | cons a lead ih =>
    obtain ⟨ha, hlead⟩ := unblank_cons.1 hlead
    cases s with
    | cons b s =>
      rw [List.cons_append, after?, after?]
      split
      · exact ih hlead s
      · rfl
    | nil =>
      obtain ⟨b, v, rfl, hblank⟩ := hv.apart.exists_cons
      have hab : a ≠ b := fun hab => by
        rw [hab, hblank] at ha
        cases ha
      simp [after?, hab]

theorem Tight.trimLeft_ne_nil {lead rest : List Char} {c : Char} (hs : Tight (lead ++ c :: rest))
    (hc : isBlank c = true) : trimLeft rest ≠ [] := by
  intro hnil
  obtain ⟨b, hb, hblank⟩ := hs.last
  rw [List.getLast?_append_of_ne_nil _ (by simp)] at hb
  have hrest : rest.takeWhile isBlank = rest := by
    conv_rhs => rw [← List.takeWhile_append_dropWhile (p := isBlank) (l := rest)]
    rw [← trimLeft, hnil, List.append_nil]
  have hblanks : ∀ x ∈ c :: rest, isBlank x = true := by
    rw [← hrest]
    exact List.forall_mem_cons.2 ⟨hc, List.all_eq_true.1 List.all_takeWhile⟩
  rw [hblanks b (List.mem_of_getLast? hb)] at hblank
  cases hblank

end Text

namespace Head
variable {s v : List Char} {h : Head}

theorem colonFollows_comment (hv : Comment v) (s : List Char) :
    colonFollows (s ++ v) = colonFollows s := by
  rw [Bool.eq_iff_iff, colonFollows, colonFollows, beq_iff_eq, beq_iff_eq]
  exact hv.head?_trimLeft (by decide) s

theorem singleColonFollows_eq (s : List Char) : singleColonFollows s =
    ((trimLeft s).head? == some ':' && (trimLeft s).tail.head? != some ':') := by
  unfold singleColonFollows
  rcases trimLeft s with _ | ⟨x, _ | ⟨y, t⟩⟩
  · rfl
  · by_cases hx : x = ':' <;> simp [hx]
  · by_cases hx : x = ':' <;> by_cases hy : y = ':' <;> simp [hx, hy]

theorem singleColonFollows_comment (hv : Comment v) (s : List Char) :
    singleColonFollows (s ++ v) = singleColonFollows s := by
  obtain ⟨w, hw⟩ := hv.trimLeft_eq
  rw [singleColonFollows_eq, singleColonFollows_eq, trimLeft_append]
  split
  · next hs => simp [hs, hw]
  · next hs =>
    have hne : (v.head? != some ':') = true := bne_iff_ne.2 fun hcolon => by
      obtain ⟨b, v, rfl, hblank⟩ := hv.apart.exists_cons
      cases hcolon
      cases hblank
    generalize trimLeft s = t at hs
    rcases t with _ | ⟨x, _ | ⟨y, t⟩⟩
    · exact absurd rfl hs
    · show (some x == some ':' && v.head? != some ':') = _
      rw [hne]
      rfl
    · rfl

theorem sigilName?_comment (hv : Comment v) {lead : String} (hlead : Unblank lead.toList)
    (s : List Char) : sigilName? lead (s ++ v) = sigilName? lead s := by
  rw [sigilName?, sigilName?, hv.after?_append hlead, Option.bind_map]
  congr 1
  funext r
  simp only [Function.comp, takeWhile_apart hv.apart not_word_of_blank,
    dropWhile_apart hv.apart not_word_of_blank, colonFollows_comment hv]

theorem aliasName?_apart (hv : Apart v) (s : List Char) : aliasName? (s ++ v) = aliasName? s := by
  unfold aliasName?
  rw [leadingColons_apart hv]
  simp only [scopes_apart hv]
  generalize (scopes (leadingColons s).2).2 = s
  cases s with
  | nil =>
    obtain ⟨b, v, rfl, hblank⟩ := hv.exists_cons
    have hlower : isLower b = false := by
      by_contra hc
      rw [isBlank_of_isWord (isWord_of_isLower (by simpa using hc))] at hblank
      cases hblank
    have hlow : b ≠ '_' := by
      rintro rfl
      cases hblank
    simp [hlower, hlow]
  | cons c r => simp only [List.cons_append, takeWhile_apart hv not_word_of_blank]

theorem bareName?_comment (hv : Comment v) (s : List Char) : bareName? (s ++ v) = bareName? s := by
  have hin (c : Char) (hc : isBlank c = true) : (!(isBlank c || c == ':')) = false := by
    rw [hc]
    rfl
  simp only [bareName?, takeWhile_apart hv.apart hin, dropWhile_apart hv.apart hin,
    colonFollows_comment hv]

theorem attributeName?_apart (hv : Apart v) (s : List Char) :
    attributeName? (s ++ v) = attributeName? s := by
  simp only [attributeName?, takeWhile_apart hv not_word_of_blank,
    dropWhile_apart hv not_word_of_blank]
  generalize s.dropWhile isWord = r
  obtain ⟨b, v, rfl, hblank⟩ := hv.exists_cons
  have hquestion : b ≠ '?' := by
    rintro rfl
    cases hblank
  have hexclamation : b ≠ '!' := by
    rintro rfl
    cases hblank
  cases r with
  | nil => simp [hquestion, hexclamation]
  | cons x r => by_cases hx : x = '?' <;> by_cases hx' : x = '!' <;> simp [hx, hx']

theorem bind_afterKeyword?_comment (hv : Comment v) {keyword : String}
    (hk : Unblank keyword.toList) {q : List Char → Option Head} (hq : ∀ r, q (r ++ v) = q r)
    (hmark : ∀ w, q ('#' :: w) = none) (hnil : q [] = none) (s : List Char) :
    (afterKeyword? keyword (s ++ v)).bind q = (afterKeyword? keyword s).bind q := by
  obtain ⟨w, hw⟩ := hv.trimLeft_eq
  unfold afterKeyword?
  rw [hv.after?_append hk]
  rcases after? keyword.toList s with _ | _ | ⟨c, rest⟩
  · rfl
  · obtain ⟨b, v, rfl, hblank⟩ := hv.apart.exists_cons
    have hleft : trimLeft (b :: v) = trimLeft v := trimLeft_blanks (m := [b]) (by simpa) v
    simp [hblank, ← hleft, hw, hmark]
  · by_cases hc : isBlank c = true
    · simp only [Option.map_some, List.cons_append, hc, if_true, Option.bind_some, trimLeft_append]
      split
      · next hrest => rw [hrest, hw, hmark, hnil]
      · exact hq _
    · simp [hc]

theorem afterKeyword?_eq_none {keyword : String} (h : after? keyword.toList s = none) :
    afterKeyword? keyword s = none := by rw [afterKeyword?, h]

theorem afterKeyword?_comment (hv : Comment v) {keyword : String} (hk : Unblank keyword.toList)
    (hs : Tight s) (hne : s ≠ keyword.toList) :
    afterKeyword? keyword (s ++ v) = (afterKeyword? keyword s).map (· ++ v) := by
  unfold afterKeyword?
  rw [hv.after?_append hk]
  cases hafter : after? keyword.toList s with
  | none => rfl
  | some t =>
    have hsplit := after?_eq_some_iff.1 hafter
    cases t with
    | nil => exact absurd (by simpa using hsplit) hne
    | cons c rest =>
      by_cases hc : isBlank c = true
      · have hrest : trimLeft rest ≠ [] := (hsplit ▸ hs).trimLeft_ne_nil hc
        simp [hc, trimLeft_append, hrest]
      · simp [hc]

theorem scopeHead?_comment (hv : Comment v) {kind : ContainerKind} (aliasKind : LeafKind)
    (hk : Unblank kind.label.toList) (s : List Char) :
    scopeHead? kind aliasKind (s ++ v) = scopeHead? kind aliasKind s := by
  refine bind_afterKeyword?_comment hv hk (fun r => ?_) (fun w => rfl) rfl s
  rw [constantName?_apart hv.apart, Option.map_map]
  congr 1
  funext ⟨name, rest⟩
  have hequals : ((trimLeft (rest ++ v)).head? == some '=') = ((trimLeft rest).head? == some '=') := by
    rw [Bool.eq_iff_iff, beq_iff_eq, beq_iff_eq]
    exact hv.head?_trimLeft (by decide) rest
  simp only [Function.comp, hequals]

theorem interfaceHead?_comment (hv : Comment v) (s : List Char) :
    interfaceHead? (s ++ v) = interfaceHead? s :=
  bind_afterKeyword?_comment hv (by decide) (fun r => by rw [interfaceName?_apart hv.apart])
    (fun w => by simp [interfaceName?, leadingColons, scopes, isUpper])
    (by simp [interfaceName?, leadingColons, scopes]) s

theorem typeHead?_comment (hv : Comment v) (s : List Char) : typeHead? (s ++ v) = typeHead? s :=
  bind_afterKeyword?_comment hv (by decide) (fun r => by rw [aliasName?_apart hv.apart])
    (fun w => by simp [aliasName?, leadingColons, scopes, isUpper, isLower])
    (by simp [aliasName?, leadingColons, scopes]) s

theorem constantHead?_comment (hv : Comment v) (s : List Char) :
    constantHead? (s ++ v) = constantHead? s := by
  rw [constantHead?, constantHead?, constantName?_apart hv.apart, Option.bind_map]
  congr 1
  funext ⟨name, rest⟩
  simp only [Function.comp, singleColonFollows_comment hv]

theorem useHead?_comment (hv : Comment v) (hs : Tight s) (hne : s ≠ "use".toList)
    (h : useHead? s = none) : useHead? (s ++ v) = none := by
  rw [useHead?, afterKeyword?_comment hv (by decide) hs hne]
  cases hr : afterKeyword? "use" s with
  | none => rfl
  | some r =>
    obtain ⟨c, rest, hsplit, hc, rfl⟩ := afterKeyword?_eq_some.1 hr
    have hrest : trimLeft rest ≠ [] := (hsplit ▸ hs).trimLeft_ne_nil hc
    simp [useHead?, hr, hrest] at h

abbrev quoteMark : Char := Char.ofNat 96

theorem count_afterKeyword? {keyword : String} {r : List Char}
    (hk : quoteMark ∉ keyword.toList) (h : afterKeyword? keyword s = some r) :
    r.count quoteMark = s.count quoteMark := by
  obtain ⟨c, rest, rfl, hc, rfl⟩ := afterKeyword?_eq_some.1 h
  have hblank {t : List Char} (ht : ∀ x ∈ t, isBlank x = true) : t.count quoteMark = 0 :=
    List.count_eq_zero.2 fun hmem => by
      have := ht _ hmem
      revert this
      decide
  have hrest : rest.count quoteMark = (trimLeft rest).count quoteMark := by
    conv_lhs => rw [← List.takeWhile_append_dropWhile (p := isBlank) (l := rest), List.count_append,
      hblank (List.all_eq_true.1 List.all_takeWhile), Nat.zero_add]
    rfl
  have hone : [c].count quoteMark = 0 := hblank (by simpa using hc)
  rw [← List.singleton_append, List.count_append, List.count_append, List.count_eq_zero.2 hk, hone,
    hrest, Nat.zero_add, Nat.zero_add]

theorem takeWhile_quote {a : List Char} (ha : quoteMark ∉ a) (t : List Char) :
    (a ++ quoteMark :: t).takeWhile (· ≠ quoteMark) = a := by
  have hne : ∀ c ∈ a, decide (c ≠ quoteMark) = true :=
    fun c hc => decide_eq_true fun h => ha (h ▸ hc)
  rw [List.takeWhile_append_of_pos hne]
  simp

theorem dropWhile_quote {a : List Char} (ha : quoteMark ∉ a) (t : List Char) :
    (a ++ t).dropWhile (· ≠ quoteMark) = t.dropWhile (· ≠ quoteMark) :=
  List.dropWhile_append_of_pos fun _ hc => decide_eq_true fun h => ha (h ▸ hc)

/-- Whether the first back quote of a text would close a method's name. -/
def closesQuote (v : List Char) : Bool := colonFollows ((v.dropWhile (· ≠ quoteMark)).tail)

theorem closesQuote_append {a : List Char} (ha : quoteMark ∉ a) (t : List Char) :
    closesQuote (a ++ t) = closesQuote t := by
  rw [closesQuote, dropWhile_quote ha]
  rfl

theorem closesQuote_of_notMem {a : List Char} (ha : quoteMark ∉ a) : closesQuote a = false := by
  rw [← List.append_nil a, closesQuote_append ha]
  rfl

theorem closesQuote_blanks {b : List Char} (hb : ∀ c ∈ b, isBlank c = true) (s : List Char) :
    closesQuote (s ++ b) = closesQuote s := by
  have hmark : quoteMark ∉ b := fun hmem => by
    have hblank := hb _ hmem
    revert hblank
    decide
  by_cases hs : quoteMark ∈ s
  · obtain ⟨a, t, rfl, ha⟩ := List.eq_append_cons_of_mem hs
    have hend : trimLeft b = [] := trimLeft_eq_nil hb
    have hdrop (u : List Char) : closesQuote (quoteMark :: u) = colonFollows u := by
      simp [closesQuote]
    rw [List.append_assoc, closesQuote_append ha, closesQuote_append ha, List.cons_append, hdrop,
      hdrop, colonFollows, colonFollows, trimLeft_append, hend]
    split
    · next ht => rw [ht]
    · rw [List.head?_append_of_ne_nil _ ‹_›]
  · rw [closesQuote_append hs, closesQuote_of_notMem hs, closesQuote_of_notMem hmark]

theorem quotedName?_of_ne {c : Char} (hc : c ≠ quoteMark) (r : List Char) :
    quotedName? (c :: r) = none := if_neg hc

theorem quotedName?_closed {a : List Char} (ha : quoteMark ∉ a) (t : List Char) :
    quotedName? (quoteMark :: (a ++ quoteMark :: t)) =
      if a ≠ [] ∧ colonFollows t = true then some (quoteMark :: a ++ [quoteMark]) else none := by
  simp only [quotedName?, ↓reduceIte, takeWhile_quote ha, dropWhile_quote ha]
  cases a <;> simp

theorem quotedName?_open {t : List Char} (h : closesQuote t = false) :
    quotedName? (quoteMark :: t) = none := by
  by_cases ht : quoteMark ∈ t
  · obtain ⟨a, t, rfl, ha⟩ := List.eq_append_cons_of_mem ht
    have hcolon : colonFollows t = false := by
      rw [← h, closesQuote_append ha]
      simp [closesQuote]
    rw [quotedName?_closed ha, hcolon]
    simp
  · have hdrop : t.dropWhile (· ≠ quoteMark) = [] := by simpa using dropWhile_quote ht []
    simp only [quotedName?, ↓reduceIte, hdrop]
    split <;> simp_all

/-- A comment does not close the quotation of a name when there is another back quote, or when no
colon follows its own. -/
theorem quotedName?_comment (hv : Comment v) (hq : closesQuote v = true → s.count quoteMark ≠ 1) :
    quotedName? (s ++ v) = quotedName? s := by
  cases s with
  | nil =>
    obtain ⟨b, v, rfl, hblank⟩ := hv.apart.exists_cons
    have hb : b ≠ quoteMark := by
      rintro rfl
      revert hblank
      decide
    exact quotedName?_of_ne hb v
  | cons c r =>
    by_cases hc : c = quoteMark
    · subst hc
      by_cases hr : quoteMark ∈ r
      · obtain ⟨a, t, rfl, ha⟩ := List.eq_append_cons_of_mem hr
        rw [List.cons_append, List.append_assoc, List.cons_append, quotedName?_closed ha,
          quotedName?_closed ha, colonFollows_comment hv]
      · have hopen : closesQuote v = false := Bool.eq_false_iff.2 fun hcloses =>
          hq hcloses (by simp [List.count_eq_zero.2 hr])
        rw [List.cons_append, quotedName?_open ((closesQuote_append hr v).trans hopen),
          quotedName?_open (closesQuote_of_notMem hr)]
    · rw [List.cons_append, quotedName?_of_ne hc, quotedName?_of_ne hc]

theorem receiver?_comment (hv : Comment v) (s : List Char) :
    receiver? (s ++ v) = (receiver? s).map fun (lead, r) => (lead, r ++ v) := by
  unfold receiver?
  rw [hv.after?_append (by decide), hv.after?_append (by decide)]
  cases after? "self.".toList s with
  | some r => rfl
  | none => cases after? "self?.".toList s <;> rfl

theorem methodName?_comment (hv : Comment v) (hq : closesQuote v = true → s.count quoteMark ≠ 1) :
    methodName? (s ++ v) = methodName? s := by
  unfold methodName?
  rw [receiver?_comment hv]
  cases hr : receiver? s with
  | none => simp only [Option.map_none, quotedName?_comment hv hq, bareName?_comment hv]
  | some p =>
    obtain ⟨lead, r⟩ := p
    have hcount : r.count quoteMark = s.count quoteMark := by
      unfold receiver? at hr
      split at hr
      · next r' hr' =>
        cases hr
        rw [after?_eq_some_iff.1 hr', List.count_append]
        exact (Nat.zero_add _).symm
      · obtain ⟨r', hr', heq⟩ := Option.map_eq_some_iff.1 hr
        cases heq
        rw [after?_eq_some_iff.1 hr', List.count_append]
        exact (Nat.zero_add _).symm
    have hq' : closesQuote v = true → r.count quoteMark ≠ 1 := hcount ▸ hq
    simp only [Option.map_some, quotedName?_comment hv hq', bareName?_comment hv]

theorem mixinHead?_comment (hv : Comment v) {kind : MemberKind} (hk : Unblank kind.label.toList)
    (hs : Tight s) (hne : s ≠ kind.label.toList) :
    mixinHead? kind (s ++ v) = mixinHead? kind s := by
  have hin (c : Char) (hc : isBlank c = true) : (!(isBlank c || c == '[')) = false := by
    rw [hc]
    rfl
  rw [mixinHead?, mixinHead?, afterKeyword?_comment hv hk hs hne, Option.bind_map]
  congr 1
  funext r
  simp only [Function.comp, takeWhile_apart hv.apart hin]

theorem visibilityHead?_comment (hv : Comment v) {kind : MemberKind}
    (hk : Unblank kind.label.toList) (s : List Char) :
    visibilityHead? kind (s ++ v) = visibilityHead? kind s := by
  obtain ⟨w, hw⟩ := hv.trimLeft_eq
  rw [visibilityHead?, visibilityHead?, hv.after?_append hk, Option.bind_map]
  congr 1
  funext r
  simp only [Function.comp, trimLeft_append]
  by_cases hr : trimLeft r = []
  · simp [hr, hw]
  · obtain ⟨c, t, hcons⟩ := List.exists_cons_of_ne_nil hr
    by_cases hc : c = '#' <;> simp [hcons, hc]

theorem skipVisibility_cases (s : List Char) : skipVisibility s = s ∨
    ∃ keyword, (keyword = "public" ∨ keyword = "private") ∧
      afterKeyword? keyword s = some (skipVisibility s) := by
  unfold skipVisibility
  cases hpublic : afterKeyword? "public" s with
  | some r => exact .inr ⟨"public", .inl rfl, hpublic⟩
  | none =>
    cases hprivate : afterKeyword? "private" s with
    | some r => exact .inr ⟨"private", .inr rfl, hprivate⟩
    | none => exact .inl rfl

theorem tight_skipVisibility (hs : Tight s) : Tight (skipVisibility s) := by
  rcases skipVisibility_cases s with h | ⟨keyword, -, h⟩
  · exact h.symm ▸ hs
  · obtain ⟨c, rest, hsplit, hc, hr⟩ := afterKeyword?_eq_some.1 h
    rw [hr]
    have hkeyword : s = (keyword.toList ++ [c]) ++ rest := by simpa using hsplit
    exact tight_trimLeft_suffix hs hkeyword ((hsplit ▸ hs).trimLeft_ne_nil hc)

theorem count_skipVisibility (s : List Char) :
    (skipVisibility s).count quoteMark = s.count quoteMark := by
  rcases skipVisibility_cases s with h | ⟨keyword, rfl | rfl, h⟩
  · rw [h]
  · exact count_afterKeyword? (by decide) h
  · exact count_afterKeyword? (by decide) h

/-- The two markers by themselves. -/
def IsMark (s : List Char) : Prop := s = "public".toList ∨ s = "private".toList

theorem skipVisibility_comment (hv : Comment v) (hs : Tight s) (hne : ¬ IsMark s) :
    skipVisibility (s ++ v) = skipVisibility s ++ v := by
  obtain ⟨hpublic, hprivate⟩ := not_or.1 hne
  unfold skipVisibility
  rw [afterKeyword?_comment hv (by decide) hs hpublic,
    afterKeyword?_comment hv (by decide) hs hprivate]
  cases afterKeyword? "public" s with
  | some r => rfl
  | none => cases afterKeyword? "private" s <;> rfl

theorem skipVisibility_mark (hv : Comment v) (hs : IsMark s) :
    ∃ w, skipVisibility (s ++ v) = '#' :: w := by
  obtain ⟨w, hw⟩ := hv.trimLeft_eq
  obtain ⟨b, v, rfl, hblank⟩ := hv.apart.exists_cons
  have hleft : trimLeft v = '#' :: w := hw ▸ (trimLeft_blanks (m := [b]) (by simpa) v).symm
  have hafter (keyword : String) :
      afterKeyword? keyword (keyword.toList ++ b :: v) = some ('#' :: w) :=
    afterKeyword?_eq_some.2 ⟨b, v, rfl, hblank, hleft.symm⟩
  refine ⟨w, ?_⟩
  unfold skipVisibility
  rcases hs with rfl | rfl
  · rw [hafter]
    rfl
  · have hpublic : afterKeyword? "public" ("private".toList ++ b :: v) = none := rfl
    rw [hafter, hpublic]
    rfl

theorem attributeHead?_comment (hv : Comment v) {kind : MemberKind}
    (hk : kind = .attrReader ∨ kind = .attrWriter ∨ kind = .attrAccessor) (hs : Tight s) :
    attributeHead? kind (s ++ v) = attributeHead? kind s := by
  by_cases hmark : IsMark s
  · obtain ⟨w, hw⟩ := skipVisibility_mark hv hmark
    rw [attributeHead?, hw]
    rcases hmark with rfl | rfl <;> rcases hk with rfl | rfl | rfl <;> rfl
  · have hlabel : Unblank kind.label.toList := by rcases hk with rfl | rfl | rfl <;> decide
    rw [attributeHead?, attributeHead?, skipVisibility_comment hv hs hmark]
    have hself : Unblank "self.".toList := by decide
    refine bind_afterKeyword?_comment hv hlabel (fun r => ?_) (fun w => ?_) rfl _
    · simp only [attributeName?_apart hv.apart, hv.after?_append hself, Option.bind_map,
        Function.comp_def]
    · rfl

theorem methodHead?_comment (hv : Comment v) (hs : Tight s)
    (hne : skipVisibility s ≠ "def".toList) (hq : closesQuote v = true → s.count quoteMark ≠ 1) :
    methodHead? (s ++ v) = methodHead? s := by
  by_cases hmark : IsMark s
  · obtain ⟨w, hw⟩ := skipVisibility_mark hv hmark
    rw [methodHead?, hw]
    rcases hmark with rfl | rfl <;> rfl
  · rw [methodHead?, methodHead?, skipVisibility_comment hv hs hmark,
      afterKeyword?_comment hv (by decide) (tight_skipVisibility hs) hne]
    cases hr : afterKeyword? "def" (skipVisibility s) with
    | none => rfl
    | some r =>
      have hcount : r.count quoteMark = s.count quoteMark :=
        (count_afterKeyword? (by decide) hr).trans (count_skipVisibility s)
      simp only [Option.map_some, Option.bind_some, methodName?_comment hv (hcount ▸ hq)]

theorem aliasHead?_comment (hv : Comment v) (hs : Tight s) {head : Head}
    (h : aliasHead? s = some head) : aliasHead? (s ++ v) = some head := by
  have hin (c : Char) (hc : isBlank c = true) : (!isBlank c) = false := by
    rw [hc]
    rfl
  have hne : s ≠ "alias".toList := by
    rintro rfl
    cases h
  rw [aliasHead?, afterKeyword?_comment hv (by decide) hs hne]
  rw [aliasHead?] at h
  obtain ⟨r, hr, hnames⟩ := Option.bind_eq_some_iff.1 h
  have hold : trimLeft (r.dropWhile fun c => !isBlank c) ≠ [] := fun hnil => by
    rw [hnil] at hnames
    split at hnames
    · cases hnames
    · cases hnames
    · next hne hold => exact hold rfl
  simpa only [hr, Option.map_some, Option.bind_some, takeWhile_apart hv.apart hin,
    dropWhile_apart hv.apart hin, trimLeft_append, if_neg hold] using hnames

theorem ofLine?_alias {t : List Char} (h : after? "alias".toList s = some t) :
    ofLine? s = aliasHead? s := by
  obtain rfl := after?_eq_some_iff.1 h
  have hdeclaration : declaration? ("alias".toList ++ t) = none := rfl
  rw [ofLine?, hdeclaration, member?]
  cases aliasHead? ("alias".toList ++ t) <;> rfl

theorem ofLine?_def {t : List Char} (h : after? "def".toList (skipVisibility s) = some t) :
    ofLine? s = methodHead? s := by
  have hskip := after?_eq_some_iff.1 h
  have hattribute {kind : MemberKind}
      (hk : kind = .attrReader ∨ kind = .attrWriter ∨ kind = .attrAccessor) :
      attributeHead? kind s = none := by
    rw [attributeHead?, hskip]
    rcases hk with rfl | rfl | rfl <;> rfl
  have hrest (hdeclaration : declaration? s = none) (halias : aliasHead? s = none)
      (hsigils : sigilName? "self.@" s = none ∧ sigilName? "@@" s = none ∧ sigilName? "@" s = none)
      (hmixins : mixinHead? .includeMixin s = none ∧ mixinHead? .extendMixin s = none ∧
        mixinHead? .prependMixin s = none)
      (hmarks : visibilityHead? .publicMark s = none ∧ visibilityHead? .privateMark s = none) :
      ofLine? s = methodHead? s := by
    simp only [ofLine?, member?, hdeclaration, halias, hsigils, hmixins, hmarks,
      hattribute (.inl rfl), hattribute (.inr (.inl rfl)), hattribute (.inr (.inr rfl))]
    cases methodHead? s <;> rfl
  rcases skipVisibility_cases s with hsame | ⟨keyword, hkeyword, hafter⟩
  · obtain rfl : s = "def".toList ++ t := hsame ▸ hskip
    exact hrest rfl rfl ⟨rfl, rfl, rfl⟩ ⟨rfl, rfl, rfl⟩ ⟨rfl, rfl⟩
  · obtain ⟨c, rest, rfl, hc, hleft⟩ := afterKeyword?_eq_some.1 hafter
    have hmark (kind : MemberKind) (hk : kind.label = keyword) :
        visibilityHead? kind (keyword.toList ++ c :: rest) = none := by
      have hblank : trimLeft (c :: rest) = 'd' :: 'e' :: 'f' :: t :=
        (trimLeft_blanks (m := [c]) (by simpa) rest).trans (hleft.symm.trans hskip)
      rw [visibilityHead?, hk, after?_eq_some_iff.2 rfl]
      simp only [Option.bind_some, hblank]
      rfl
    rcases hkeyword with rfl | rfl
    · exact hrest rfl rfl ⟨rfl, rfl, rfl⟩ ⟨rfl, rfl, rfl⟩ ⟨hmark .publicMark rfl, rfl⟩
    · exact hrest rfl rfl ⟨rfl, rfl, rfl⟩ ⟨rfl, rfl, rfl⟩ ⟨rfl, hmark .privateMark rfl⟩

theorem ne_of_ofLine? {word : List Char} {head : Head} (h : ofLine? s = some head)
    (hword : ofLine? word = none) : s ≠ word := by
  rintro rfl
  rw [hword] at h
  cases h

theorem useHead?_comment_of_ofLine? (hv : Comment v) (hs : Tight s) {head : Head}
    (h : ofLine? s = some head) (huse : head ≠ .useClause) : useHead? (s ++ v) = useHead? s := by
  cases hhead : useHead? s with
  | none => exact useHead?_comment hv hs (ne_of_ofLine? h (by decide +kernel)) hhead
  | some head' =>
    obtain ⟨r, -, hr⟩ := Option.bind_eq_some_iff.1 hhead
    have hfirst : ofLine? s = some head' := by simp [ofLine?, declaration?, hhead]
    split at hr
    · cases hr
    · cases hr
      exact absurd (Option.some.inj (h.symm.trans hfirst)) huse

theorem aliasHead?_comment_of_ofLine? (hv : Comment v) (hs : Tight s) {head : Head}
    (h : ofLine? s = some head) : aliasHead? (s ++ v) = aliasHead? s := by
  cases hhead : aliasHead? s with
  | some head' => exact aliasHead?_comment hv hs hhead
  | none =>
    have hafter : after? "alias".toList s = none := by
      by_contra hne
      obtain ⟨t, ht⟩ := Option.ne_none_iff_exists'.1 hne
      rw [ofLine?_alias ht, hhead] at h
      cases h
    rw [aliasHead?, afterKeyword?_eq_none (by rw [hv.after?_append (by decide), hafter]; rfl)]
    rfl

/-- A method is read the same, unless the comment may close the quotation of its name. -/
theorem methodHead?_comment_of_ofLine? (hv : Comment v) (hs : Tight s) {head : Head}
    (h : ofLine? s = some head)
    (hq : ∀ name oldName, head = .member .method name oldName →
      closesQuote v = true → s.count quoteMark ≠ 1) : methodHead? (s ++ v) = methodHead? s := by
  cases hafter : after? "def".toList (skipVisibility s) with
  | some t =>
    rw [ofLine?_def hafter] at h
    have hne : skipVisibility s ≠ "def".toList := fun heq => by
      rw [methodHead?, heq] at h
      cases h
    obtain ⟨r, -, hr⟩ := Option.bind_eq_some_iff.1 h
    obtain ⟨name, -, rfl⟩ := Option.map_eq_some_iff.1 hr
    exact methodHead?_comment hv hs hne (hq _ _ rfl)
  | none =>
    by_cases hmark : IsMark s
    · obtain ⟨w, hw⟩ := skipVisibility_mark hv hmark
      rw [methodHead?, hw]
      rcases hmark with rfl | rfl <;> rfl
    · rw [methodHead?, methodHead?, afterKeyword?_eq_none hafter,
        skipVisibility_comment hv hs hmark,
        afterKeyword?_eq_none (by rw [hv.after?_append (by decide), hafter]; rfl)]

theorem ofLine?_comment (hv : Comment v) (hs : Tight s) {head : Head}
    (h : ofLine? s = some head) (huse : head ≠ .useClause)
    (hq : ∀ name oldName, head = .member .method name oldName →
      closesQuote v = true → s.count quoteMark ≠ 1) : ofLine? (s ++ v) = some head := by
  have hmixin {kind : MemberKind} (hk : Unblank kind.label.toList)
      (hnone : ofLine? kind.label.toList = none) : mixinHead? kind (s ++ v) = mixinHead? kind s :=
    mixinHead?_comment hv hk hs (ne_of_ofLine? h hnone)
  have hsigil {lead : String} (hlead : Unblank lead.toList) :
      sigilName? lead (s ++ v) = sigilName? lead s := sigilName?_comment hv hlead s
  have hscope {kind : ContainerKind} {aliasKind : LeafKind} (hk : Unblank kind.label.toList) :
      scopeHead? kind aliasKind (s ++ v) = scopeHead? kind aliasKind s :=
    scopeHead?_comment hv aliasKind hk s
  have hattribute {kind : MemberKind}
      (hk : kind = .attrReader ∨ kind = .attrWriter ∨ kind = .attrAccessor) :
      attributeHead? kind (s ++ v) = attributeHead? kind s := attributeHead?_comment hv hk hs
  have hmark {kind : MemberKind} (hk : Unblank kind.label.toList) :
      visibilityHead? kind (s ++ v) = visibilityHead? kind s := visibilityHead?_comment hv hk s
  rw [← h, ofLine?, ofLine?, declaration?, declaration?, member?, member?,
    useHead?_comment_of_ofLine? hv hs h huse,
    hscope (by decide), hscope (by decide), interfaceHead?_comment hv, typeHead?_comment hv,
    globalHead?, globalHead?, hsigil (by decide), constantHead?_comment hv,
    aliasHead?_comment_of_ofLine? hv hs h, methodHead?_comment_of_ofLine? hv hs h hq,
    hsigil (by decide), hsigil (by decide), hsigil (by decide),
    hmixin (by decide) (by decide +kernel), hmixin (by decide) (by decide +kernel),
    hmixin (by decide) (by decide +kernel), hattribute (.inl rfl), hattribute (.inr (.inl rfl)),
    hattribute (.inr (.inr rfl)), hmark (by decide), hmark (by decide)]

end Head

theorem Item.isEnd_comment {v : List Char} (hv : Comment v) (s : List Char) :
    Item.isEnd (s ++ v) = Item.isEnd s := by
  obtain ⟨w, hw⟩ := hv.trimLeft_eq
  rw [Item.isEnd, Item.isEnd, hv.after?_append (by decide)]
  cases after? "end".toList s with
  | none => rfl
  | some r =>
    simp only [Option.map_some, Head.trimLeft_append]
    by_cases hr : trimLeft r = []
    · simp [hr, hw]
    · obtain ⟨c, t, hcons⟩ := List.exists_cons_of_ne_nil hr
      by_cases hc : c = '#' <;> simp [hcons, hc]

namespace Annot
variable {s t v : List Char} {a : Annot}

theorem read?_append (h : read? s = some (a, t)) (v : List Char) :
    read? (s ++ v) = some (a, t ++ v) := by
  obtain ⟨opener, closer, payload, hcloser, hpayload, rfl, rfl⟩ := read?_eq_some_iff.1 h
  exact read?_eq_some_iff.2 ⟨opener, closer, payload, hcloser, hpayload, by simp, rfl⟩

theorem read?_of_head {c : Char} (hc : c ≠ '%') (s : List Char) : read? (c :: s) = none := by
  unfold read?
  split
  · next heq =>
    cases heq
    exact absurd rfl hc
  · rfl

/-- What stands behind the rest of a line is none of its annotations. -/
theorem readAll_append {c : Char} (hrest : (readAll s).2 = c :: t) (hc : c ≠ '%')
    (v : List Char) : readAll (s ++ v) = ((readAll s).1, c :: t ++ v) := by
  induction hn : s.length using Nat.strongRecOn generalizing s with
  | _ n ih =>
  cases hread : read? s with
  | none =>
    rw [readAll_of_none hread] at hrest ⊢
    obtain rfl : s = c :: t := hrest
    exact readAll_of_none (read?_of_head hc _)
  | some r =>
    obtain ⟨a, r⟩ := r
    rw [readAll_of_some hread] at hrest ⊢
    have hne : trimLeft r ≠ [] := fun hnil => by
      rw [hnil, readAll_of_none rfl] at hrest
      cases hrest
    have hlt : (trimLeft r).length < n := hn ▸ length_trimLeft_of_read? hread
    rw [readAll_of_some (read?_append hread v), Head.trimLeft_append, if_neg hne,
      ih _ hlt hrest rfl]

end Annot
end SignatureLayers
