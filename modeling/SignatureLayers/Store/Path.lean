

namespace SignatureLayers

/-- Empty segments and single dots are no part of a path; double dots stay as they are. The anchor
is empty for a relative path, else one slash or exactly two. -/
structure Path where
  anchor : String
  parts : List String
deriving DecidableEq, Repr, Inhabited

namespace Path

def ofText (s : String) : Path where
  anchor := if s.startsWith "///" then "/" else if s.startsWith "//" then "//"
    else if s.startsWith "/" then "/" else ""
  parts := (s.splitOn "/").filter fun p => !(p.isEmpty || p == ".")

def text (p : Path) : String :=
  if p.anchor.isEmpty && p.parts.isEmpty then "."
  else p.anchor ++ String.intercalate "/" p.parts

def isAbsolute (p : Path) : Bool := !p.anchor.isEmpty

def join (p q : Path) : Path :=
  if q.isAbsolute then q else { p with parts := p.parts ++ q.parts }

def child (p : Path) (name : String) : Path := { p with parts := p.parts ++ [name] }

def parent (p : Path) : Path := { p with parts := p.parts.dropLast }

/-- Lets double dots cancel the segment in front of them; `done` is read from its end. -/
def cancel (done : List String) : List String → List String
  | [] => done.reverse
  | ".." :: rest => cancel done.tail rest
  | name :: rest => cancel (name :: done) rest

/-- The one path from the root to where `p` leads from the directory `cwd`. -/
def resolve (cwd p : Path) : Path :=
  let whole := cwd.join p
  ⟨if whole.isAbsolute then "/" else "", cancel [] whole.parts⟩

/-- What a file name ends in, from its last dot on; a dot at either end of the name counts for
nothing. -/
def suffix (name : String) : String :=
  let back := name.toList.reverse
  match back.takeWhile (· ≠ '.'), back.dropWhile (· ≠ '.') with
  | [], _ => ""
  | _, [] | _, [_] => ""
  | tail, _ => String.ofList ('.' :: tail.reverse)

end Path
end SignatureLayers
