import SignatureLayers.Decl.Basic

namespace SignatureLayers

abbrev Forest := List Decl

namespace Forest

/-- Every declaration of a forest, each before its children and these from left to right. -/
def preorder : Forest → List Decl
  | [] => []
  | .container k h cs t :: rest => .container k h cs t :: (preorder cs ++ preorder rest)
  | d :: rest => d :: preorder rest

def size : Forest → Nat
  | [] => 0
  | .container _ _ cs _ :: rest => 1 + size cs + size rest
  | _ :: rest => 1 + size rest

theorem size_append (xs ys : Forest) : size (xs ++ ys) = size xs + size ys := by
  induction xs with
  | nil => simp [size]
  | cons d xs ih => cases d <;> simp [size, ih] <;> omega

theorem size_reverse (f : Forest) : size f.reverse = size f := by
  induction f with
  | nil => rfl
  | cons d f ih =>
    rw [List.reverse_cons, size_append, ih, Nat.add_comm, ← size_append, List.singleton_append]

theorem size_inner_lt (k : ContainerKind) (h : Header) (cs : Forest) (t : List String)
    (rest : Forest) : size cs < size (.container k h cs t :: rest) := by
  simp only [size]
  omega

theorem size_tail_lt (d : Decl) (rest : Forest) : size rest < size (d :: rest) := by
  cases d <;> simp only [size] <;> omega

theorem size_children_lt (d : Decl) (rest : Forest) :
    size (d.children ++ rest) < size (d :: rest) := by
  cases d <;> simp [Decl.children, size, size_append]

/-- The same order from a stack of the declarations still to be visited. -/
def walk : Forest → List Decl
  | [] => []
  | d :: rest => d :: walk (d.children ++ rest)
termination_by stack => size stack
decreasing_by exact size_children_lt d rest

def ids (f : Forest) : List Nat := (preorder f).map Decl.id

def node? (id : Nat) : Forest → Option Decl
  | [] => none
  | .container k h cs t :: rest =>
    if h.id = id then some (.container k h cs t) else (node? id cs).or (node? id rest)
  | d :: rest => if d.id = id then some d else node? id rest

/-- Applies `f` to the declarations with an identity, the outermost where they are nested. -/
def update (id : Nat) (f : Decl → Decl) : Forest → Forest
  | [] => []
  | .container k h cs t :: rest =>
    (if h.id = id then f (.container k h cs t) else .container k h (update id f cs) t) ::
      update id f rest
  | d :: rest => (if d.id = id then f d else d) :: update id f rest

/-- Gives the declarations of a forest the identities from `next` on, in order of traversal, and
returns the first one that is still free. -/
def number (next : Nat) : Forest → Forest × Nat
  | [] => ([], next)
  | .container k h cs t :: rest =>
    let inner := number (next + 1) cs
    let tail := number inner.2 rest
    (.container k { h with id := next } inner.1 t :: tail.1, tail.2)
  | d :: rest =>
    let tail := number (next + 1) rest
    (d.mapHeader (fun h => { h with id := next }) :: tail.1, tail.2)

theorem number_snd (next : Nat) (f : Forest) : (number next f).2 = next + size f := by
  fun_induction number next f <;> simp_all +zetaDelta [size] <;> omega

def positions (key : Key) (f : Forest) : List Nat :=
  (f.zipIdx.filter (·.1.key == key)).map (·.2)

/-- Puts a declaration at a position, or last when there is no such position. -/
def place (position : Nat) (d : Decl) (f : Forest) : Forest :=
  f.take position ++ d :: f.drop position

/-- Where the declaration taken from `source` comes to stand beside the one at `target`. -/
def destination (source target : Nat) (after : Bool) : Nat :=
  let target := if target > source then target - 1 else target
  if after then target + 1 else target

/-- Moves the declaration at `source` next to the one at `target`. -/
def moveBeside? (source target : Nat) (after : Bool) (f : Forest) : Option Forest :=
  f[source]?.map fun d => place (destination source target after) d (f.eraseIdx source)

end Forest

/-- What owns declarations: the forest as a whole, or the container with an identity. -/
inductive Owner
  | root
  | container (id : Nat)
deriving DecidableEq, Repr, Inhabited

namespace Forest

def childrenOf? (f : Forest) : Owner → Option Forest
  | .root => some f
  | .container id => (f.node? id).map Decl.children

def childrenOf (f : Forest) (o : Owner) : Forest := (f.childrenOf? o).getD []

def updateChildren (o : Owner) (g : Forest → Forest) (f : Forest) : Forest :=
  match o with
  | .root => g f
  | .container id => f.update id (·.mapChildren g)

end Forest
end SignatureLayers
