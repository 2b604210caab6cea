import SignatureLayers.Decl.Basic
import SignatureLayers.Text.Blank

namespace SignatureLayers

inductive Side
  | before | after
deriving DecidableEq, Repr

/-- What a directive asks for. Placement names the sibling to stand beside. -/
inductive Directive
  | override
  | delete
  | placed (side : Side) (anchor : String)
deriving DecidableEq, Repr

namespace Directive

def label : Directive → String
  | .override => "override"
  | .delete => "delete"
  | .placed .after _ => "append_after"
  | .placed .before _ => "prepend_before"

def anchor? : Directive → Option String
  | .placed _ a => some a
  | _ => none

/-- The lower rank wins. -/
def rank : Directive → Nat
  | .override => 0
  | .delete => 1
  | .placed .after _ => 2
  | .placed .before _ => 3

def isAnchorChar (c : Char) : Bool := !(c == '(' || c == ')' || Text.isBlank c)

/-- Reads an anchor between parentheses; only blanks may stand around it and after it. -/
def readAnchor? (s : List Char) : Option String :=
  match s with
  | '(' :: s =>
    let s := Text.trimLeft s
    let anchor := s.takeWhile isAnchorChar
    match anchor, Text.trimLeft (s.dropWhile isAnchorChar) with
    | _ :: _, ')' :: s => if s.all Text.isBlank then some (String.ofList anchor) else none
    | _, _ => none
  | _ => none

/-- The directive that a payload states: a placement has an anchor, the others have none. -/
def ofPayload? (payload : String) : Option Directive :=
  (Text.after? "patch:".toList (Text.trimLeft payload.toList)).bind fun s =>
    match Text.after? "override".toList s with
    | some s => if s.all Text.isBlank then some .override else none
    | none => match Text.after? "delete".toList s with
      | some s => if s.all Text.isBlank then some .delete else none
      | none => match Text.after? "append_after".toList s with
        | some s => (readAnchor? s).map (.placed .after)
        | none => (Text.after? "prepend_before".toList s).bind fun s =>
            (readAnchor? s).map (.placed .before)

/-- The directive that decides, with its position: the first of lowest rank. -/
def choose (best : Option (Nat × Directive)) (position : Nat) :
    List Annot → Option (Nat × Directive)
  | [] => best
  | a :: rest =>
    let best := match ofPayload? a.payload, best with
      | none, best => best
      | some d, none => some (position, d)
      | some d, some b => if d.rank < b.2.rank then some (position, d) else some b
    choose best (position + 1) rest

/-- The directive that applies to a declaration with these annotations, and where it stands
among them. -/
def winner? (annotations : List Annot) : Option (Nat × Directive) := choose none 0 annotations

end Directive

def Decl.dropAnnot (d : Decl) (position : Nat) : Decl :=
  d.mapHeader fun h => { h with annotations := h.annotations.eraseIdx position }

end SignatureLayers
