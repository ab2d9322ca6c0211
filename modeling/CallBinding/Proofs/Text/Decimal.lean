import CallBinding.Proofs.Text.Blank
import CallBinding.Text.Decimal

/-!
# The grammar of numerals

A numeral is at most one plus sign with digits behind it.  The readers accept
numerals and nothing else, and the limit is on the number and not on the length
of its numeral: any number of zeros may stand in front.
-/

namespace CallBinding

variable {text digits : List Char} {value limit : Nat}

/-- A run of at least one ASCII digit. -/
structure IsDigitRun (digits : List Char) : Prop where
  nonempty : digits ≠ []
  isDigit : ∀ c ∈ digits, c.isDigit = true

/-- The texts that stand for a number. -/
inductive IsNumeral : List Char → Nat → Prop
  | bare {digits : List Char} :
      IsDigitRun digits → IsNumeral digits (Nat.ofDigitChars 10 digits 0)
  | signed {digits : List Char} :
      IsDigitRun digits → IsNumeral ('+' :: digits) (Nat.ofDigitChars 10 digits 0)

theorem isDigitRun_toDigits (n : Nat) : IsDigitRun (Nat.toDigits 10 n) :=
  ⟨Nat.toDigits_ne_nil, fun _ hc => Nat.isDigit_of_mem_toDigits (by decide) (by decide) hc⟩

theorem isNumeral_decimal (n : Nat) : IsNumeral (decimal n).toList n := by
  rw [decimal, String.toList_ofList]
  have hnumeral := IsNumeral.bare (isDigitRun_toDigits n)
  rwa [Nat.ofDigitChars_ten_toDigits] at hnumeral

/-- The shortest numeral of a positive number begins with another digit than zero. -/
theorem head?_toDigits_ne_zero {n : Nat} (hn : 0 < n) : (Nat.toDigits 10 n).head? ≠ some '0' := by
  induction n using Nat.strongRecOn with
  | ind n ih =>
      by_cases hlt : n < 10
      · have hdigit : ∀ digit < 10, 0 < digit → Nat.digitChar digit ≠ '0' := by decide
        rw [Nat.toDigits_of_lt_base hlt, List.head?_cons, Ne, Option.some.injEq]
        exact hdigit n hlt hn
      · rw [Nat.toDigits_of_base_le (by decide) (by omega),
          List.head?_append_of_ne_nil _ Nat.toDigits_ne_nil]
        exact ih (n / 10) (by omega) (by omega)

theorem readDigits?_eq_some_iff :
    readDigits? digits = some value ↔
      IsDigitRun digits ∧ Nat.ofDigitChars 10 digits 0 = value := by
  unfold readDigits?
  split
  next h => simp [IsDigitRun.mk h.1 (List.all_eq_true.mp h.2)]
  next h =>
    simp only [reduceCtorEq, false_iff, not_and]
    exact fun hrun => absurd ⟨hrun.nonempty, List.all_eq_true.mpr hrun.isDigit⟩ h

theorem readNumeral?_plus (limit : Nat) (digits : List Char) :
    readNumeral? limit ('+' :: digits) = (readDigits? digits).filter (· < limit) := rfl

theorem readNumeral?_of_isDigitRun (limit : Nat) (hrun : IsDigitRun digits) :
    readNumeral? limit digits = (readDigits? digits).filter (· < limit) := by
  unfold readNumeral?
  split
  next rest => exact absurd (hrun.isDigit '+' List.mem_cons_self) (by decide)
  next => rfl

/-- What is read below a limit is the number of a numeral. -/
theorem readNumeral?_eq_some_iff :
    readNumeral? limit text = some value ↔ IsNumeral text value ∧ value < limit := by
  constructor
  · intro hread
    unfold readNumeral? at hread
    rw [Option.filter_eq_some_iff, decide_eq_true_eq, readDigits?_eq_some_iff] at hread
    obtain ⟨⟨hrun, rfl⟩, hlimit⟩ := hread
    refine ⟨?_, hlimit⟩
    split at hrun
    next => exact .signed hrun
    next => exact .bare hrun
  · rintro ⟨hnumeral, hlimit⟩
    cases hnumeral with
    | bare hrun =>
        rw [readNumeral?_of_isDigitRun limit hrun, Option.filter_eq_some_iff,
          readDigits?_eq_some_iff]
        exact ⟨⟨hrun, rfl⟩, decide_eq_true hlimit⟩
    | signed hrun =>
        rw [readNumeral?_plus, Option.filter_eq_some_iff, readDigits?_eq_some_iff]
        exact ⟨⟨hrun, rfl⟩, decide_eq_true hlimit⟩

/-- No blank belongs to a numeral, so trimming stops at its ends. -/
theorem IsNumeral.isBare (h : IsNumeral text value) : IsBare text := by
  refine .of_forall fun c hc => ?_
  cases h with
  | bare hrun => exact isBlank_of_isDigit (hrun.isDigit c hc)
  | signed hrun =>
      obtain rfl | hc := List.mem_cons.mp hc
      · decide
      · exact isBlank_of_isDigit (hrun.isDigit c hc)

end CallBinding
