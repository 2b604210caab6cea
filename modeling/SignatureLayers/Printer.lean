import SignatureLayers.Decl.Forest

namespace SignatureLayers.Printer

def spaces (n : Nat) : String := String.ofList (List.replicate n ' ')

/-- Whether a blank line stood between two siblings; those without a location stand close. -/
def parted (before after : Decl) : Bool :=
  match before.location, after.location with
  | some a, some b => 1 < b.start - a.stop
  | _, _ => false

def gap (before : Option Decl) (d : Decl) : List String :=
  match before with
  | some b => if parted b d then [""] else []
  | none => []

def headerLines (margin : String) (h : Header) : List String :=
  h.comments.map (margin ++ ·) ++ h.annotations.map (margin ++ ·.token) ++
    h.text.map fun line => if line.isEmpty then "" else margin ++ line

def linesAt (width depth : Nat) (before : Option Decl) : Forest → List String
  | [] => []
  | .container k h cs t :: rest =>
    let d := .container k h cs t
    gap before d ++ headerLines (spaces (width * depth)) h ++ linesAt width (depth + 1) none cs ++
      t.map (spaces (width * (depth + 1)) ++ ·) ++ [spaces (width * depth) ++ "end"] ++
      linesAt width depth (some d) rest
  | d :: rest =>
    gap before d ++ headerLines (spaces (width * depth)) d.header ++
      linesAt width depth (some d) rest

inductive Fault
  /-- The number of columns has more than 64 bits. -/
  | tooLarge
  | noRoom
deriving DecidableEq, Repr

def mostRoom : Nat := 100000000000

def columns (n : Int) : Except Fault Nat :=
  if n < -9223372036854775808 || 9223372036854775807 < n then .error .tooLarge
  else if mostRoom < n.toNat then .error .noRoom
  else .ok n.toNat

/-- The text of a forest, indented by `width` columns a level. -/
def print (width : Nat) (f : Forest) : String :=
  String.join ((linesAt width 0 none f).map (· ++ "\n"))

end SignatureLayers.Printer
