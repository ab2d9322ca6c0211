/-!
# UTF-16 escapes

Text in which some characters are written as UTF-16 code units.  A character
beyond the basic plane takes a high and a low surrogate, in this order; a
surrogate that stands alone denotes no character.
-/

namespace CallBinding

/-- A character, or a code unit that is one or belongs to one. -/
inductive TextUnit where
  | plain (c : Char)
  | unit16 (code : Nat)
  deriving DecidableEq, Repr

def isHighSurrogate (code : Nat) : Bool :=
  0xD800 ≤ code && code < 0xDC00

def isLowSurrogate (code : Nat) : Bool :=
  0xDC00 ≤ code && code < 0xE000

/-- The character of a surrogate pair. -/
def pairedChar (high low : Nat) : Char :=
  Char.ofNat (0x10000 + (high - 0xD800) * 0x400 + (low - 0xDC00))

/-- The characters of a text, unless a surrogate in it stands alone. -/
def joinUnits? : List TextUnit → Option (List Char)
  | [] => some []
  | .plain c :: rest => (joinUnits? rest).map (c :: ·)
  | .unit16 high :: .unit16 low :: rest =>
      if isHighSurrogate high then
        if isLowSurrogate low then (joinUnits? rest).map (pairedChar high low :: ·) else none
      else if isLowSurrogate high then
        none
      else
        (joinUnits? (.unit16 low :: rest)).map (Char.ofNat high :: ·)
  | .unit16 code :: rest =>
      if isHighSurrogate code || isLowSurrogate code then
        none
      else
        (joinUnits? rest).map (Char.ofNat code :: ·)

end CallBinding
