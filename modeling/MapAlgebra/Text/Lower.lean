/-! Lower case, for comparing texts with plain words. -/

namespace MapAlgebra.Text

/-- A character in lower case, as far as that is a plain letter. Besides the plain capitals
these are the dotted capital I and the sign of the kelvin.
-/
def lowerChar (c : Char) : Char :=
  if c.toNat = 0x130 then 'i'
  else if c.toNat = 0x212A then 'k'
  else c.toLower

/-- A text in lower case; capitals whose small letter is not a plain one stay. -/
def lower (s : String) : String :=
  s.map lowerChar

end MapAlgebra.Text
