import CallBinding.Name

/-!
# Names and families

A name is valid exactly if it has a family, and two names are of one family
exactly if they share a base.
-/

namespace CallBinding
namespace Name

variable {name other : String}

theorem base?_eq_none_iff : base? name = none ↔ isPlaceholder name = true := by
  unfold base?
  split
  next h => simp [h]
  next h => simp [h]

theorem base?_ne_none_iff : base? name ≠ none ↔ isValid name = true := by
  rw [Ne, base?_eq_none_iff, isValid, Bool.not_eq_true, Bool.not_eq_eq_eq_not, Bool.not_true]

theorem sameFamily_eq_true_iff :
    sameFamily name other = true ↔
      ∃ base, base? name = some base ∧ base? other = some base := by
  unfold sameFamily
  split
  next x y hx hy => simp [hx, hy, eq_comm]
  next h =>
    simp only [Bool.false_eq_true, false_iff, not_exists, not_and]
    exact fun base hname hother => h base base hname hother

end Name
end CallBinding
