/-!
# Hexadecimal digits
-/

namespace CallBinding

/-- The lower-case hexadecimal digits in order. -/
def hexDigits : List Char :=
  ['0', '1', '2', '3', '4', '5', '6', '7', '8', '9', 'a', 'b', 'c', 'd', 'e', 'f']

/-- The lower-case digit of a value below sixteen. -/
def hexDigit (value : Fin 16) : Char :=
  hexDigits.get (value.cast rfl)

/-- The value of a hexadecimal digit of either case. -/
def hexValue? (c : Char) : Option (Fin 16) :=
  (hexDigits.finIdxOf? c.toLower).map fun index => index.cast rfl

/-- Reading a written digit gives its value. -/
theorem hexValue?_hexDigit (value : Fin 16) : hexValue? (hexDigit value) = some value := by
  revert value
  decide

end CallBinding
