/-!
# Decimal numerals

Natural numbers written with ASCII digits.  `decimal n` is the shortest
numeral of `n`; the readers accept any non-empty run of digits, leading zeros
included, so reading undoes writing but not the other way round.
-/

namespace CallBinding

/-- The shortest decimal numeral of a number. -/
def decimal (n : Nat) : String :=
  String.ofList (Nat.toDigits 10 n)

/-- Reads a non-empty text of ASCII digits and nothing else. -/
def readDigits? (text : List Char) : Option Nat :=
  if text ≠ [] ∧ text.all Char.isDigit then some (Nat.ofDigitChars 10 text 0) else none

/-- Reads a numeral below a limit: at most one leading plus sign, then digits. -/
def readNumeral? (limit : Nat) (text : List Char) : Option Nat :=
  let digits :=
    match text with
    | '+' :: rest => rest
    | _ => text
  (readDigits? digits).filter (· < limit)

/-- Reading the numeral of a number gives the number back. -/
theorem readDigits?_decimal (n : Nat) : readDigits? (decimal n).toList = some n := by
  have hall : (Nat.toDigits 10 n).all Char.isDigit = true :=
    List.all_eq_true.mpr fun c hc => Nat.isDigit_of_mem_toDigits (by decide) (by decide) hc
  simp [readDigits?, decimal, hall, Nat.ofDigitChars_toDigits]

end CallBinding
