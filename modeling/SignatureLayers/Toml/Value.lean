import SignatureLayers.Number.Rounding

namespace SignatureLayers.Toml

structure Date where
  year : Nat
  month : Nat
  day : Nat
deriving DecidableEq, Repr, Inhabited

structure Clock where
  hour : Nat
  minute : Nat
  second : Nat
  microsecond : Nat
deriving DecidableEq, Repr, Inhabited

/-- Dates, times of day, and both together with or without an offset in minutes. -/
inductive Moment
  | date (d : Date)
  | clock (c : Clock)
  | both (d : Date) (c : Clock) (offset : Option Int)
deriving DecidableEq, Repr, Inhabited

inductive Value
  | string (s : String)
  | integer (n : Int)
  | float (x : Float)
  | boolean (b : Bool)
  | moment (m : Moment)
  | array (items : List Value)
  | table (entries : List (String × Value))
deriving Inhabited

abbrev Table := List (String × Value)

def mostDigits : Nat := 4300

namespace Value

mutual

def isWritable : Value → Bool
  | .integer n => n.natAbs < Number.powerOfTen mostDigits
  | .array items => areWritable items
  | .table entries => areEntriesWritable entries
  | _ => true

def areWritable : List Value → Bool
  | [] => true
  | v :: rest => v.isWritable && areWritable rest

def areEntriesWritable : List (String × Value) → Bool
  | [] => true
  | (_, v) :: rest => v.isWritable && areEntriesWritable rest

end

/-- Whether a value counts as true: zero and what is empty do not. -/
def isTrue : Value → Bool
  | .string s => !s.isEmpty
  | .integer n => n != 0
  | .float x => !(x == 0)
  | .boolean b => b
  | .moment _ => true
  | .array items => !items.isEmpty
  | .table entries => !entries.isEmpty

end Value

namespace Table

def set (key : String) (v : Value) : Table → Table
  | [] => [(key, v)]
  | (k, old) :: rest => if k = key then (k, v) :: rest else (k, old) :: set key v rest

/-- Changes the table that a path leads to, and makes the tables on the way. A path passes through
the last element of an array of tables where `lists` allows it. -/
def within (lists : Bool) (f : Table → Option Table) : List String → Table → Option Table
  | [], t => f t
  | k :: path, t =>
    match t.lookup k with
    | none => (within lists f path []).map fun inner => t ++ [(k, .table inner)]
    | some (.table inner) => (within lists f path inner).map fun inner => set k (.table inner) t
    | some (.array items) =>
      match lists, items.getLast? with
      | true, some (.table inner) =>
        (within lists f path inner).map fun inner =>
          set k (.array (items.dropLast ++ [.table inner])) t
      | _, _ => none
    | some _ => none

def add? (key : String) (v : Value) (t : Table) : Option Table :=
  if (t.lookup key).isSome then none else some (t ++ [(key, v)])

end Table
end SignatureLayers.Toml
