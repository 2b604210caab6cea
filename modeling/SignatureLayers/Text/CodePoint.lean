

namespace SignatureLayers.Text

abbrev CodePoint := Fin 0x110000

namespace CodePoint

theorem toNat_lt (c : Char) : c.toNat < 0x110000 := by
  have h := c.valid
  simp only [UInt32.isValidChar, Nat.isValidChar] at h
  simp only [Char.toNat]
  omega

def ofChar (c : Char) : CodePoint := ⟨c.toNat, toNat_lt c⟩

/-- The character that a code point stands for, if it stands for one. -/
def char? (p : CodePoint) : Option Char :=
  if p.val.isValidChar then some (Char.ofNat p.val) else none

def ofString (s : String) : List CodePoint := s.toList.map ofChar

def toString? (ps : List CodePoint) : Option String := (ps.mapM char?).map String.ofList

end CodePoint
end SignatureLayers.Text
