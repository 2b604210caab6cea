

namespace SignatureLayers.Number

/-- The whole number nearest to `n / d`; of two that are as near, the even one. -/
def roundDiv (n d : Nat) : Nat :=
  let q := n / d
  let r := n % d
  if 2 * r < d then q else if d < 2 * r then q + 1 else q + q % 2

def powerOfTwo (n : Nat) : Nat := Nat.pow 2 n

def powerOfTen (n : Nat) : Nat := Nat.pow 10 n

def digitCount (n : Nat) : Nat := if n = 0 then 0 else (Nat.toDigits 10 n).length

def keepBits (width n : Nat) : Nat :=
  let dropped := powerOfTwo (n.log2 + 1 - width)
  roundDiv n dropped * dropped

/-- The first `width` digits of a number in base ten, rounded, and the power of ten of the first. -/
def leadingDigits (width n : Nat) : List Char × Nat :=
  let length := digitCount n
  if n = 0 then (List.replicate width '0', 0)
  else if length ≤ width then
    (Nat.toDigits 10 n ++ List.replicate (width - length) '0', length - 1)
  else
    let kept := Nat.toDigits 10 (roundDiv n (powerOfTen (length - width)))
    (kept.take width, length - 1 + (kept.length - width))

end SignatureLayers.Number
