import SignatureLayers.Decl.Basic
import SignatureLayers.Text.Blank

namespace SignatureLayers

open Text

/-- A statement: its first line, and the lines that continue it with their indentation relative
to the first. `depth` counts the brackets that are open after the last one. -/
structure Statement where
  head : List Char
  more : List (List Char)
  start : Nat
  stop : Nat
  margin : Nat
  depth : Int
deriving DecidableEq, Repr

inductive Item
  | blank
  | comment (text : List Char)
  | annotations (tokens : List Annot)
  | close
  | statement (s : Statement)
deriving DecidableEq, Repr

def bracketDepth (s : List Char) : Int :=
  s.foldl (fun depth c =>
    if c == '(' || c == '[' || c == '\x7b' then depth + 1
    else if c == ')' || c == ']' || c == '\x7d' then depth - 1
    else depth) 0

namespace Annot

def closer? : Char → Option Char
  | '\x7b' => some '\x7d'
  | '(' => some ')'
  | '[' => some ']'
  | '<' => some '>'
  | '|' => some '|'
  | _ => none

/-- Reads an annotation: the first closing delimiter ends it. -/
def read? (s : List Char) : Option (Annot × List Char) :=
  match s with
  | '%' :: 'a' :: opener :: rest =>
    (closer? opener).bind fun closer =>
      match rest.dropWhile (· ≠ closer) with
      | [] => none
      | _ :: after =>
        let payload := rest.takeWhile (· ≠ closer)
        some (⟨String.ofList payload, String.ofList ('%' :: 'a' :: opener :: payload ++ [closer])⟩,
          after)
  | _ => none

theorem length_of_read? {s rest : List Char} {a : Annot} (h : read? s = some (a, rest)) :
    rest.length < s.length := by
  unfold read? at h
  split at h
  · rename_i opener body
    obtain ⟨closer, -, h⟩ := Option.bind_eq_some_iff.1 h
    split at h
    · cases h
    · rename_i tail htail
      have := (List.dropWhile_sublist (fun c => decide (c ≠ closer)) (l := body)).length_le
      rw [htail] at this
      cases h
      simp only [List.length_cons] at this ⊢
      omega
  · cases h

/-- The annotations that a line begins with, and what follows them. -/
def readAll (s : List Char) : List Annot × List Char :=
  match _h : read? s with
  | none => ([], s)
  | some (a, rest) =>
    let more := readAll (trimLeft rest)
    (a :: more.1, more.2)
termination_by s.length
decreasing_by
  have := length_of_read? _h
  have := (List.dropWhile_sublist isBlank (l := rest)).length_le
  simp only [trimLeft]
  omega

end Annot

namespace Statement

def texts (s : Statement) : List (List Char) := s.head :: s.more

def lastText (s : Statement) : List Char := s.more.getLast?.getD s.head

def begin (line : Nat) (raw head : List Char) : Statement :=
  ⟨head, [], line, line, indentation raw, bracketDepth head⟩

/-- Whether the next line belongs to the statement: a bracket is open, or the line begins with a
bar, or the line before it ends with a comma. -/
def continues (s : Statement) (raw : List Char) : Bool :=
  0 < s.depth || (trim raw).head? == some '|' || s.lastText.getLast? == some ','

def relative (margin : Nat) (raw : List Char) : List Char :=
  match trim raw with
  | [] => []
  | text => List.replicate (indentation raw - margin) ' ' ++ text

def extend (s : Statement) (line : Nat) (raw : List Char) : Statement :=
  { s with
    more := s.more ++ [relative s.margin raw]
    stop := line
    depth := s.depth + bracketDepth (trim raw) }

end Statement

namespace Item

/-- Whether a line closes a container; a comment may follow. -/
def isEnd (s : List Char) : Bool :=
  match (after? "end".toList s).map trimLeft with
  | some [] | some ('#' :: _) => true
  | _ => false

/-- What a line holds that continues no statement: its items but for a statement, and the
statement that it begins. -/
def ofLine (line : Nat) (raw : List Char) : List Item × Option Statement :=
  match trim raw with
  | [] => ([.blank], none)
  | '#' :: text => ([.comment ('#' :: text)], none)
  | text =>
    let (tokens, rest) := Annot.readAll text
    let lead := if tokens.isEmpty then [] else [.annotations tokens]
    if rest.isEmpty then (lead, none)
    else if isEnd rest then (lead ++ [.close], none)
    else (lead, some (.begin line raw rest))

/-- The items of the lines from number `line` on, after the lines of an unfinished statement. -/
def scan (line : Nat) (current : Option Statement) : List (List Char) → List (Nat × Item)
  | [] => match current with
    | none => []
    | some s => [(s.start, .statement s)]
  | raw :: rest =>
    match current with
    | none =>
      let (items, next) := ofLine line raw
      items.map (line, ·) ++ scan (line + 1) next rest
    | some s =>
      if s.continues raw then scan (line + 1) (some (s.extend line raw)) rest
      else
        let (items, next) := ofLine line raw
        (s.start, .statement s) :: items.map (line, ·) ++ scan (line + 1) next rest

/-- The items of a source, each with the number of its first line. -/
def ofSource (source : List Char) : List (Nat × Item) := scan 1 none (lines source)

end Item
end SignatureLayers
