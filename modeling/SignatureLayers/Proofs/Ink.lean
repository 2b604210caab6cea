import Mathlib.Data.List.Permutation
import SignatureLayers.Proofs.Acceptance
import SignatureLayers.Proofs.InlineEnd

namespace SignatureLayers

open Text

namespace Text

/-- The characters of a text that are not white space. -/
def ink (s : List Char) : List Char := s.filter fun c => !isBlank c

@[simp] theorem ink_nil : ink [] = [] := rfl

theorem ink_end : ink "end".toList = "end".toList := rfl

@[simp] theorem ink_append (s t : List Char) : ink (s ++ t) = ink s ++ ink t :=
  List.filter_append s t

theorem ink_blanks {s : List Char} (h : ∀ c ∈ s, isBlank c = true) : ink s = [] := by
  rw [ink, List.filter_eq_nil_iff]
  exact fun c hc => by simp [h c hc]

@[simp] theorem ink_trimLeft (s : List Char) : ink (trimLeft s) = ink s := by
  have hsplit : s = s.takeWhile isBlank ++ trimLeft s := List.takeWhile_append_dropWhile.symm
  have hblank : ink (s.takeWhile isBlank) = [] :=
    ink_blanks fun c hc => List.all_eq_true.1 List.all_takeWhile c hc
  conv_rhs => rw [hsplit, ink_append, hblank, List.nil_append]

@[simp] theorem ink_trimRight (s : List Char) : ink (trimRight s) = ink s := by
  obtain ⟨b, hb, hsplit⟩ := trimRight_split s
  conv_rhs => rw [hsplit, ink_append, ink_blanks hb, List.append_nil]

@[simp] theorem ink_trim (s : List Char) : ink (trim s) = ink s := by
  rw [trim, ink_trimRight, ink_trimLeft]

end Text

namespace Forest

def spelledHeader (h : Header) : List Char :=
  h.annotations.flatMap (·.token.toList) ++ h.text.flatMap String.toList

/-- The annotations and the text of every declaration, those of its children and the ends of
containers, in order of traversal. -/
def spelled : Forest → List Char
  | [] => []
  | .container _ h cs _ :: rest =>
    spelledHeader h ++ spelled cs ++ "end".toList ++ spelled rest
  | d :: rest => spelledHeader d.header ++ spelled rest

end Forest

/-- A piece of a forest or of a source: a comment, the text of a declaration, or an end. -/
inductive Piece
  | remark (text : String)
  | text (lines : List String)
  | close
deriving DecidableEq, Repr

namespace Forest

/-- The comments of a forest between its texts and its ends: those of a declaration stand in front
of its text, the trailing ones of a container in front of its end. -/
def pieces : Forest → List Piece
  | [] => []
  | .container _ h cs trailing :: rest =>
    h.comments.map .remark ++ .text h.text :: pieces cs ++ trailing.map .remark ++
      .close :: pieces rest
  | d :: rest => d.header.comments.map .remark ++ .text d.header.text :: pieces rest

theorem spelled_cons (d : Decl) (rest : Forest) :
    spelled (d :: rest) = spelled [d] ++ spelled rest := by
  cases d <;> simp [spelled]

theorem spelled_append (f g : Forest) :
    spelled (f ++ g) = spelled f ++ spelled g := by
  induction f with
  | nil => simp [spelled]
  | cons d f ih => rw [List.cons_append, spelled_cons, ih, spelled_cons d f, List.append_assoc]

theorem spelled_of_not_container {d : Decl} (h : d.isContainer = false) :
    spelled [d] = spelledHeader d.header := by
  cases d with
  | container => cases h
  | leaf | member => simp [spelled]

theorem pieces_cons (d : Decl) (rest : Forest) :
    pieces (d :: rest) = pieces [d] ++ pieces rest := by
  cases d <;> simp [pieces]

theorem pieces_append (f g : Forest) :
    pieces (f ++ g) = pieces f ++ pieces g := by
  induction f with
  | nil => simp [pieces]
  | cons d f ih =>
    rw [List.cons_append, pieces_cons, ih, pieces_cons d f, List.append_assoc]

theorem pieces_of_not_container {d : Decl} (h : d.isContainer = false) :
    pieces [d] = d.header.comments.map .remark ++ [.text d.header.text] := by
  cases d with
  | container => cases h
  | leaf | member => simp [pieces]

end Forest

namespace Item

/-- A line that continues no statement, without its comment: a comment line has nothing else, and
on the line of an end a comment follows the end. -/
def uncommentedLine (raw : List Char) : List Char :=
  match trim raw with
  | '#' :: _ => []
  | text =>
    let rest := (Annot.readAll text).2
    if isEnd rest then text.take (text.length - rest.length + 3) else text

/-- The lines from number `line` on without comments, after the lines of an unfinished statement. A
line of a statement stays as it is. -/
def uncommentedFrom (line : Nat) (current : Option Statement) :
    List (List Char) → List (List Char)
  | [] => []
  | raw :: rest =>
    match current.filter (·.continues raw) with
    | some s => raw :: uncommentedFrom (line + 1) (some (s.extend line raw)) rest
    | none => uncommentedLine raw :: uncommentedFrom (line + 1) (ofLine line raw).2 rest

def uncommented (source : List Char) : List (List Char) := uncommentedFrom 1 none (lines source)

end Item

namespace Outline

/-- Whether a statement or an end comes next, with no blank line in front of it. -/
def attaches : List (Nat × Item) → Bool
  | [] => false
  | (_, item) :: rest =>
    match item with
    | .blank => false
    | .comment _ | .annotations _ => attaches rest
    | .close | .statement _ => true

/-- A statement's own text; the end on its last line is a piece by itself. -/
def statementPieces (s : Statement) : List Piece :=
  match Head.ofLine? s.head, s.closedTexts? with
  | some (.container _ _), some texts => [.text (texts.map String.ofList), .close]
  | _, _ => [.text (s.texts.map String.ofList)]

/-- The statements and the ends of a source, and of the comments those that attach to them. -/
def pieces : List (Nat × Item) → List Piece
  | [] => []
  | (_, item) :: rest =>
    match item with
    | .comment text =>
      if attaches rest then .remark (String.ofList text) :: pieces rest else pieces rest
    | .statement s => statementPieces s ++ pieces rest
    | .close => .close :: pieces rest
    | .blank | .annotations _ => pieces rest

def inkOf : Item → List Char
  | .annotations as => ink (as.flatMap (·.token.toList))
  | .statement s => ink s.texts.flatten
  | .close => "end".toList
  | .blank | .comment _ => []

@[simp] theorem inkOf_statement (s : Statement) : inkOf (.statement s) = ink s.texts.flatten := rfl

@[simp] theorem inkOf_close : inkOf .close = "end".toList := rfl

theorem ink_relative (margin : Nat) (raw : List Char) :
    ink (Statement.relative margin raw) = ink raw := by
  rw [← ink_trim raw]
  unfold Statement.relative
  split
  · next h => rw [h]
  · rw [ink_append, ink_blanks isBlank_of_mem_spaces, List.nil_append]

/-- The annotations in front of a line are all that stands in front of the rest of it. -/
theorem split_readAll {s : List Char} (hs : Unbroken s) :
    ∃ p, s = p ++ (Annot.readAll s).2 ∧
      ink p = ink ((Annot.readAll s).1.flatMap (·.token.toList)) := by
  induction hn : s.length using Nat.strongRecOn generalizing s with
  | _ n ih =>
  cases hread : Annot.read? s with
  | none =>
    rw [Annot.readAll_of_none hread]
    exact ⟨[], rfl, rfl⟩
  | some r =>
    obtain ⟨a, t⟩ := r
    obtain ⟨-, hsplit⟩ := legible_of_read? hs hread
    obtain ⟨b, hb⟩ := trimLeft_suffix t
    have hut : Unbroken (trimLeft t) := by
      rw [hsplit, hb] at hs
      exact (unbroken_append.1 (unbroken_append.1 hs).2).2
    have hlt : (trimLeft t).length < n := hn ▸ Annot.length_trimLeft_of_read? hread
    obtain ⟨p, hp, hink⟩ := ih _ hlt hut rfl
    have hblank : ink b = [] := by
      have := congrArg ink hb
      rw [ink_append, ink_trimLeft] at this
      exact List.append_left_eq_self.1 this.symm
    rw [Annot.readAll_of_some hread]
    refine ⟨a.token.toList ++ b ++ p, ?_, ?_⟩
    · rw [List.append_assoc, List.append_assoc, ← hp, ← hb]
      exact hsplit
    · simp [hink, hblank]

theorem split_isEnd {s : List Char} (h : Item.isEnd s = true) :
    ∃ r, s = "end".toList ++ r ∧ (trimLeft r = [] ∨ ∃ t, trimLeft r = '#' :: t) := by
  unfold Item.isEnd at h
  cases hafter : after? "end".toList s with
  | none =>
    rw [hafter] at h
    cases h
  | some r =>
    rw [hafter, Option.map_some] at h
    refine ⟨r, after?_eq_some_iff.1 hafter, ?_⟩
    split at h
    · next hr => exact .inl (Option.some.inj hr)
    · next t hr => exact .inr ⟨t, Option.some.inj hr⟩
    · cases h

theorem take_end (p r : List Char) : (p ++ ("end".toList ++ r)).take
    ((p ++ ("end".toList ++ r)).length - ("end".toList ++ r).length + 3) = p ++ "end".toList := by
  have hlength : (p ++ ("end".toList ++ r)).length - ("end".toList ++ r).length + 3 =
      (p ++ "end".toList).length := by simp
  rw [hlength, ← List.append_assoc, List.take_left]

def begun (current : Option Statement) : List Char := current.elim [] fun s => ink s.texts.flatten

theorem ink_ofLine (line : Nat) {raw : List Char} (h : Unbroken raw) :
    ink (Item.uncommentedLine raw) =
      (Item.ofLine line raw).1.flatMap inkOf ++ begun (Item.ofLine line raw).2 := by
  obtain ⟨p, hp, hink⟩ := split_readAll (unbroken_trim h)
  unfold Item.uncommentedLine Item.ofLine
  split
  · next hraw =>
    rw [hraw]
    rfl
  · next text hcomment =>
    split
    · next hraw =>
      rw [hraw]
      simp [inkOf, begun, Item.isEnd]
    · next text' hraw => exact absurd hraw (hcomment text')
    · generalize Annot.readAll (trim raw) = r at hp hink
      obtain ⟨tokens, rest⟩ := r
      have htokens : (if tokens.isEmpty then [] else [Item.annotations tokens]).flatMap inkOf =
          ink p := by
        rw [hink]
        split
        · next hnil => simp [List.isEmpty_iff.1 hnil]
        · simp [inkOf]
      dsimp only at hp ⊢
      generalize (if tokens.isEmpty then [] else [Item.annotations tokens]) = lead at htokens ⊢
      by_cases hend : Item.isEnd rest = true
      · obtain ⟨r, rfl, -⟩ := split_isEnd hend
        rw [if_pos hend, hp, take_end, ink_append, ← htokens, if_pos hend, ink_end]
        simp [begun]
      · rw [if_neg hend, hp, ink_append, ← htokens, if_neg hend]
        by_cases hempty : rest = []
        · simp [hempty, begun]
        · simp [hempty, begun, Statement.begin, Statement.texts]

theorem ink_scan {line : Nat} {current : Option Statement} {ls : List (List Char)}
    (hls : ∀ l ∈ ls, Unbroken l) :
    begun current ++ ink (Item.uncommentedFrom line current ls).flatten =
      (Item.scan line current ls).flatMap (inkOf ·.2) := by
  induction ls generalizing line current with
  | nil => cases current <;> simp [Item.uncommentedFrom, Item.scan, begun, inkOf]
  | cons raw ls ih =>
    obtain ⟨hraw, hls⟩ := List.forall_mem_cons.1 hls
    have hbegin : ink (Item.uncommentedLine raw) ++
        ink (Item.uncommentedFrom (line + 1) (Item.ofLine line raw).2 ls).flatten =
        ((Item.ofLine line raw).1.map (line, ·) ++
          Item.scan (line + 1) (Item.ofLine line raw).2 ls).flatMap (inkOf ·.2) := by
      rw [ink_ofLine line hraw, List.append_assoc, ih hls, List.flatMap_append, List.flatMap_map]
    rw [Item.uncommentedFrom]
    cases current with
    | none =>
      rw [Item.scan]
      simpa [begun] using hbegin
    | some s =>
      by_cases hc : s.continues raw = true
      · have hextend : begun (some (s.extend line raw)) = begun (some s) ++ ink raw := by
          simp [begun, Statement.texts, Statement.extend, ink_relative]
        rw [Item.scan, if_pos hc, ← ih hls, hextend]
        simp [Option.filter, hc]
      · rw [Item.scan, if_neg hc]
        dsimp only
        rw [List.cons_append, List.flatMap_cons, ← hbegin]
        simp [Option.filter, hc, begun, inkOf]

theorem ink_ofSource (source : List Char) :
    ink (Item.uncommented source).flatten = (Item.ofSource source).flatMap (inkOf ·.2) := by
  show begun none ++ ink (Item.uncommentedFrom 1 none (lines source)).flatten =
    (Item.scan 1 none (lines source)).flatMap (inkOf ·.2)
  exact ink_scan fun _ hl => unbroken_of_mem_lines hl

variable {items up : List (Nat × Item)} {f : Forest} {s : Statement} {p : Pending} {d : Decl}
  {frame : Frame}

theorem ink_container (k : ContainerKind) (h : Header) (cs : Forest) (trailing : List String) :
    ink (Forest.spelled [.container k h cs trailing]) =
      ink (Forest.spelledHeader h) ++ ink (Forest.spelled cs) ++ "end".toList := by
  rw [← ink_end, ← ink_append, ← ink_append]
  simp [Forest.spelled]

theorem ink_leads (h : Leads items) :
    items.flatMap (inkOf ·.2) = ink ((tokens items).flatMap (·.token.toList)) := by
  induction items with
  | nil => rfl
  | cons i items ih =>
    obtain ⟨hi, hitems⟩ := List.forall_mem_cons.1 h
    rw [List.flatMap_cons, ih hitems]
    cases hitem : i.2 with
    | blank | comment | annotations => simp [tokens, hitem, inkOf, Item.tokens]
    | close | statement =>
      rw [hitem] at hi
      cases hi

theorem spelledHeader_header (p : Pending) (name : String) (texts : List (List Char))
    (start stop : Nat) : Forest.spelledHeader (p.header name texts start stop) =
      p.annotations.flatMap (·.token.toList) ++ texts.flatten := by
  simp [Forest.spelledHeader, Pending.header, List.flatMap_map, String.toList_ofList]

theorem ink_closedTexts {texts : List (List Char)} (h : s.closedTexts? = some texts) :
    ink texts.flatten ++ "end".toList = ink s.texts.flatten := by
  obtain ⟨t, ht, rfl⟩ := Option.map_eq_some_iff.1 h
  obtain ⟨lead, c, hc, hlast, rfl⟩ := beforeEnd?_eq_some.1 ht
  have hink : ink s.lastText = ink (lead ++ [c]) ++ "end".toList := by
    have hcut : lead ++ [c, 'e', 'n', 'd'] = (lead ++ [c]) ++ "end".toList := by simp
    rw [← ink_trimRight, hlast, hcut, ink_append, ink_end]
  have hsplit : s.texts.dropLast ++ [s.lastText] = s.texts :=
    List.dropLast_append_getLast? _ List.getLast?_cons
  conv_rhs => rw [← hsplit]
  simp [hink]

theorem ink_declared (h : s.declared? p = some d) :
    ink (Forest.spelled [d]) =
      ink (p.annotations.flatMap (·.token.toList)) ++ ink s.texts.flatten := by
  rcases declared_cases h with ⟨name, -, hd, hheader⟩ | ⟨kind, name, texts, -, htexts, rfl⟩
  · rw [Forest.spelled_of_not_container hd, hheader, spelledHeader_header, ink_append]
  · rw [ink_container, spelledHeader_header, ← ink_closedTexts htexts]
    simp [Forest.spelled]

theorem Forms.ink (h : Forms items f) :
    Text.ink (Forest.spelled f) = items.flatMap (inkOf ·.2) := by
  induction h with
  | nil => simp [Forest.spelled]
  | declare line _ leads declared ih =>
    rw [Forest.spelled_append, ink_append, ih, ink_declared declared, List.flatMap_append,
      List.flatMap_append, ink_leads leads]
    simp [pending]
  | enclose line stop _ leads opened _ trails free ih ihinner =>
    obtain ⟨⟨kind, name⟩, -, rfl⟩ := Option.map_eq_some_iff.1 opened
    have hheader (h : Header) (l : Option Location) :
        Forest.spelledHeader { h with location := l } = Forest.spelledHeader h := rfl
    rw [Forest.spelled_append, ink_append, ih, Frame.close, ink_container, hheader,
      spelledHeader_header]
    simp only [List.flatMap_append, List.flatMap_cons, ink_leads leads, ink_leads trails, free]
    simp [ihinner, pending]

theorem pieces_unattached (leads : Leads up) (rest : List (Nat × Item))
    (h : attaches rest = false) :
    attaches (up ++ rest) = false ∧ pieces (up ++ rest) = pieces rest := by
  induction up with
  | nil => exact ⟨h, rfl⟩
  | cons i up ih =>
    obtain ⟨line, item⟩ := i
    obtain ⟨hi, hup⟩ := List.forall_mem_cons.1 leads
    obtain ⟨hattaches, hpieces⟩ := ih hup
    cases item with
    | blank | comment | annotations => simp [attaches, pieces, hattaches, hpieces]
    | close | statement => cases hi

theorem pieces_attached {rest : List (Nat × Item)} (leads : Leads up) (h : attaches rest = true) :
    pieces (up ++ rest) = (pending up).comments.map .remark ++ pieces rest := by
  induction up using List.reverseRecOn generalizing rest with
  | nil => simp
  | append_singleton up i ih =>
    obtain ⟨line, item⟩ := i
    obtain ⟨hup, hi⟩ := List.forall_mem_append.1 leads
    rw [List.append_assoc, List.singleton_append]
    cases item with
    | blank =>
      rw [(pieces_unattached hup _ rfl).2]
      simp [pieces, Pending.dropComments]
    | comment text =>
      rw [ih hup (by simpa [attaches] using h)]
      simp [pieces, h, Pending.addComment]
    | annotations as =>
      rw [ih hup (by simpa [attaches] using h)]
      simp [pieces, Pending.addAnnotations]
    | close | statement => cases hi _ (List.mem_singleton.2 rfl)

theorem pieces_declared (h : s.declared? p = some d) :
    Forest.pieces [d] = p.comments.map .remark ++ statementPieces s := by
  unfold statementPieces
  rcases declared_cases h with ⟨name, hhead, hd, hheader⟩ | ⟨kind, name, texts, hhead, htexts, rfl⟩
  · rw [Forest.pieces_of_not_container hd, hheader]
    split
    · next hh _ => exact absurd hh (hhead _ _)
    · rfl
  · simp [hhead, htexts, Forest.pieces, Pending.header]

theorem pieces_opened (h : s.opened? p = some frame) :
    statementPieces s = [.text frame.header.text] ∧ frame.header.comments = p.comments := by
  obtain ⟨⟨kind, name⟩, hopener, rfl⟩ := Option.map_eq_some_iff.1 h
  refine ⟨?_, rfl⟩
  unfold Statement.opener? at hopener
  unfold statementPieces
  split at hopener
  · next hh hclosed => simp [hh, hclosed, Pending.header]
  · cases hopener

theorem Forms.pieces (h : Forms items f) (rest : List (Nat × Item)) :
    Outline.pieces (items ++ rest) = Forest.pieces f ++ Outline.pieces rest := by
  induction h generalizing rest with
  | nil => simp [Forest.pieces]
  | @declare items up f line s d _ leads declared ih =>
    rw [List.append_assoc, List.append_assoc, ih, pieces_attached leads rfl, Forest.pieces_append,
      pieces_declared declared]
    simp [Outline.pieces, pending]
  | @enclose items up inner tail f g line stop s frame _ leads opened _ trails _ ih ihinner =>
    obtain ⟨htext, hcomments⟩ := pieces_opened opened
    have hinner : Outline.pieces (inner ++ (tail ++ (stop, .close) :: rest)) =
        Forest.pieces g ++
          ((pending tail).comments.map .remark ++ .close :: Outline.pieces rest) := by
      rw [ihinner, pieces_attached trails rfl]
      rfl
    have hsplit : items ++ up ++ (line, .statement s) :: inner ++ tail ++ [(stop, .close)] ++ rest =
        items ++ (up ++ (line, .statement s) :: (inner ++ (tail ++ (stop, .close) :: rest))) := by
      simp
    rw [hsplit, ih, pieces_attached leads rfl, Forest.pieces_append]
    simp [Outline.pieces, htext, hinner, Frame.close, Forest.pieces, hcomments]

end Outline

/-- Without white space, the forest of an accepted source says what the source says without its
comments. -/
theorem ink_of_parse {file source : String} {f : Forest} (h : parse file source = .ok f) :
    ink (Forest.spelled f) = ink (Item.uncommented source.toList).flatten := by
  obtain ⟨hgrammatical, hwhole⟩ := Outline.outline_of_parse h
  rw [Outline.ink_ofSource, ← Outline.body_append_lead (Item.ofSource source.toList),
    List.flatMap_append, Outline.Forms.ink hwhole, Outline.ink_leads (Outline.leads_lead _),
    hgrammatical.last]
  simp

/-- The comments of the forest are those of the source that attach to what follows them. -/
theorem pieces_of_parse {file source : String} {f : Forest} (h : parse file source = .ok f) :
    Forest.pieces f = Outline.pieces (Item.ofSource source.toList) := by
  obtain ⟨-, hwhole⟩ := Outline.outline_of_parse h
  have hlead := Outline.leads_lead (Item.ofSource source.toList)
  have hlost := (Outline.pieces_unattached hlead [] rfl).2
  rw [List.append_nil] at hlost
  conv_rhs => rw [← Outline.body_append_lead (Item.ofSource source.toList),
    Outline.Forms.pieces hwhole, hlost]
  exact (List.append_nil _).symm

/-- Parsing loses no text: without white space, the forest of an accepted source says what the
source says without its comments. And of the comments outside statements just those are kept that
a statement or an end follows with no blank line between, each once, in order, and in front of what
follows it. -/
theorem parse_keeps_text {file source : String} {f : Forest} (h : parse file source = .ok f) :
    ink (Forest.spelled f) = ink (Item.uncommented source.toList).flatten ∧
      Forest.pieces f = Outline.pieces (Item.ofSource source.toList) :=
  ⟨ink_of_parse h, pieces_of_parse h⟩

theorem parse_keeps_text_commented :
    ∃ f, parse "" "# a\n\n# b\n%a\x7bx\x7d\nclass A\n # c\nend # d\n" = .ok f ∧
      ink (Forest.spelled f) = "%a\x7bx\x7dclassAend".toList ∧
        Forest.pieces f = [.remark "# b", .text ["class A"], .remark "# c", .close] := by
  let container : Decl := .container .classDecl
    { name := "A"
      text := ["class A"]
      annotations := [⟨"x", "%a\x7bx\x7d"⟩]
      comments := ["# b"]
      location := some ⟨3, 7⟩ } [] ["# c"]
  have hparse : parse "" "# a\n\n# b\n%a\x7bx\x7d\nclass A\n # c\nend # d\n" =
      .ok [container] := by
    cbv
  obtain ⟨hink, hpieces⟩ := parse_keeps_text hparse
  refine ⟨[container], hparse, ?_, ?_⟩
  · rw [hink]
    cbv
  · rw [hpieces]
    cbv

end SignatureLayers
