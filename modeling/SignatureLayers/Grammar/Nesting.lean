import SignatureLayers.Decl.Forest
import SignatureLayers.Grammar.Fault
import SignatureLayers.Grammar.Head
import SignatureLayers.Grammar.Item

namespace SignatureLayers

open Text

/-- What waits for the next declaration, with the first line of each. -/
structure Pending where
  annotations : List Annot := []
  annotationLine : Option Nat := none
  comments : List String := []
  commentLine : Option Nat := none
deriving DecidableEq, Repr

/-- A container whose end has not been read yet. -/
structure Frame where
  kind : ContainerKind
  header : Header
  start : Nat
  children : Forest
deriving Repr

structure Nesting where
  roots : Forest := []
  stack : List Frame := []
  pending : Pending := {}
deriving Repr

namespace Pending

/-- A blank line parts the comments above it from what follows. -/
def dropComments (p : Pending) : Pending := { p with comments := [], commentLine := none }

def addComment (p : Pending) (line : Nat) (text : String) : Pending :=
  { p with comments := p.comments ++ [text], commentLine := p.commentLine <|> some line }

def addAnnotations (p : Pending) (line : Nat) (tokens : List Annot) : Pending :=
  { p with
    annotations := p.annotations ++ tokens
    annotationLine := p.annotationLine <|> some line }

def firstLine (p : Pending) (start : Nat) : Nat :=
  min (p.commentLine.getD start) (min (p.annotationLine.getD start) start)

def header (p : Pending) (name : String) (text : List (List Char)) (start stop : Nat) : Header where
  name := name
  text := text.map String.ofList
  annotations := p.annotations
  comments := p.comments
  location := some ⟨p.firstLine start, stop⟩

end Pending

namespace Frame

def close (f : Frame) (stop : Nat) (trailing : List String) : Decl :=
  .container f.kind { f.header with location := some ⟨f.start, stop⟩ } f.children trailing

end Frame

/-- The part of a line in front of a closing `end` on it, which a blank sets off. -/
def beforeEnd? (s : List Char) : Option (List Char) :=
  match (trimRight s).reverse with
  | 'd' :: 'n' :: 'e' :: c :: rest =>
    if isBlank c then some (trimRight (c :: rest).reverse) else none
  | _ => none

def Statement.closedTexts? (s : Statement) : Option (List (List Char)) :=
  (beforeEnd? s.lastText).map fun last => s.texts.dropLast ++ [last]

/-- A clause is named by the whole of its text, so that its name is no declaration's. -/
def Statement.clauseName (s : Statement) : String :=
  String.ofList ([' '].intercalate (words ([' '].intercalate s.texts)))

namespace Nesting

def add (n : Nesting) (d : Decl) : Nesting :=
  match n.stack with
  | [] => { n with roots := n.roots ++ [d], pending := {} }
  | f :: rest => { n with stack := { f with children := f.children ++ [d] } :: rest, pending := {} }

/-- Whether a use clause may stand here: outside containers, and after none but its like. -/
def admitsUse (n : Nesting) : Bool :=
  n.stack.isEmpty && n.roots.all (·.kind == .leaf .useClause)

def declare (n : Nesting) (s : Statement) : Head → Except SourceFault Nesting
  | .useClause =>
    if n.admitsUse then
      .ok (n.add (.leaf .useClause (n.pending.header s.clauseName s.texts s.start s.stop)))
    else .error .lateUse
  | .leaf kind name => .ok (n.add (.leaf kind (n.pending.header name s.texts s.start s.stop)))
  | .member kind name oldName =>
    if n.stack.isEmpty then .error (.memberOutside kind name)
    else .ok (n.add (.member kind (n.pending.header name s.texts s.start s.stop) oldName))
  | .container kind name =>
    match s.closedTexts? with
    | some texts => .ok (n.add (.container kind (n.pending.header name texts s.start s.stop) [] []))
    | none =>
      let frame : Frame :=
        ⟨kind, n.pending.header name s.texts s.start s.stop, n.pending.firstLine s.start, []⟩
      .ok { n with stack := frame :: n.stack, pending := {} }

/-- Takes an item that begins on line `line`; a refusal comes with the line to blame. -/
def step (n : Nesting) (line : Nat) : Item → Except (SourceFault × Nat) Nesting
  | .blank => .ok { n with pending := n.pending.dropComments }
  | .comment text => .ok { n with pending := n.pending.addComment line (String.ofList text) }
  | .annotations tokens => .ok { n with pending := n.pending.addAnnotations line tokens }
  | .close =>
    match n.stack with
    | [] => .error (.unexpectedEnd, line)
    | f :: rest =>
      if n.pending.annotations.isEmpty then
        .ok (add { n with stack := rest } (f.close line n.pending.comments))
      else .error (.danglingAnnot, n.pending.annotationLine.getD line)
  | .statement s =>
    if 0 < s.depth then .error (.unbalanced, line)
    else match Head.ofLine? s.head with
      | none => .error (.unexpectedToken (String.ofList s.head), line)
      | some head => (n.declare s head).mapError (·, line)

def finish (n : Nesting) (last : Nat) : Except (SourceFault × Nat) Forest :=
  match n.stack with
  | f :: _ => .error (.missingEnd f.header.name, last)
  | [] =>
    if n.pending.annotations.isEmpty then .ok n.roots
    else .error (.danglingAnnot, n.pending.annotationLine.getD last)

def run (n : Nesting) : List (Nat × Item) → Except (SourceFault × Nat) Nesting
  | [] => .ok n
  | (line, item) :: rest =>
    match n.step line item with
    | .ok n => n.run rest
    | .error e => .error e

end Nesting

/-- The forest that a source declares. -/
def parse (file source : String) : Except SourceError Forest :=
  let source := source.toList
  match Nesting.run {} (Item.ofSource source) with
  | .error (fault, line) => .error ⟨fault, file, line⟩
  | .ok n =>
    match n.finish (max 1 (lines source).length) with
    | .error (fault, line) => .error ⟨fault, file, line⟩
    | .ok forest => .ok forest

end SignatureLayers
