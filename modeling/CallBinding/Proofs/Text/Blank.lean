import CallBinding.Text.Blank
import Mathlib.Data.List.DropRight

/-!
# Blanks around a text

Trimming takes a longest run of blanks off each end and nothing else.  So what is
left of a text is known from any way to write it as a core between blanks.
-/

namespace CallBinding

variable {p : Char → Bool} {text core run before after : List Char}

/-! ## What is dropped at the end -/

theorem dropEndWhile_eq_rdropWhile (p : Char → Bool) (text : List Char) :
    dropEndWhile p text = text.rdropWhile p := rfl

/-- A text is what is kept of it, and a run of dropped characters. -/
theorem exists_dropEndWhile_append (p : Char → Bool) (text : List Char) :
    ∃ run, text = dropEndWhile p text ++ run ∧ ∀ c ∈ run, p c = true :=
  ⟨text.rtakeWhile p, List.rdropWhile_append_rtakeWhile.symm, fun _ => List.mem_rtakeWhile_imp⟩

/-- A run of characters that satisfy the test is dropped with those in front of it. -/
theorem dropEndWhile_append (hrun : ∀ c ∈ run, p c = true) :
    dropEndWhile p (text ++ run) = dropEndWhile p text := by
  rw [dropEndWhile, List.reverse_append, List.dropWhile_append_of_pos, dropEndWhile]
  exact fun c hc => hrun c (List.mem_reverse.mp hc)

theorem dropEndWhile_eq_self (hlast : ∀ c ∈ text.getLast?, p c = false) :
    dropEndWhile p text = text := by
  rw [dropEndWhile_eq_rdropWhile, List.rdropWhile_eq_self_iff]
  intro hne
  rw [hlast _ (List.getLast?_eq_some_getLast hne)]
  exact Bool.false_ne_true

theorem getLast?_dropEndWhile (p : Char → Bool) (text : List Char) :
    ∀ c ∈ (dropEndWhile p text).getLast?, p c = false := by
  intro c hc
  obtain ⟨hne, rfl⟩ := List.mem_getLast?_eq_getLast hc
  exact Bool.eq_false_iff.mpr (List.rdropWhile_last_not p text hne)

/-! ## Trimming -/

/-- The number of a digit lies between those of two blanks. -/
theorem isBlank_of_isDigit {c : Char} (hdigit : c.isDigit = true) : isBlank c = false := by
  have hrange : 48 ≤ c.toNat ∧ c.toNat ≤ 57 := by
    simpa [Char.isDigit, UInt32.le_iff_toNat_le] using hdigit
  simp only [isBlank, blankRanges, List.any_eq_false, List.forall_mem_cons, List.not_mem_nil,
    false_implies, implies_true, Bool.and_eq_true, decide_eq_true_eq, and_true]
  omega

/-- A text is some core with blanks before and behind it. -/
def IsPadded (core text : List Char) : Prop :=
  ∃ before after, text = before ++ core ++ after ∧
    (∀ c ∈ before, isBlank c = true) ∧ ∀ c ∈ after, isBlank c = true

/-- A core neither begins nor ends with a blank. -/
structure IsBare (core : List Char) : Prop where
  head : ∀ c ∈ core.head?, isBlank c = false
  last : ∀ c ∈ core.getLast?, isBlank c = false

theorem IsBare.of_forall (h : ∀ c ∈ core, isBlank c = false) : IsBare core :=
  ⟨fun c hc => h c (List.mem_of_mem_head? hc), fun c hc => h c (List.mem_of_mem_getLast? hc)⟩

theorem isPadded_trimBlanks (text : List Char) : IsPadded (trimBlanks text) text := by
  obtain ⟨after, hafter, hblank⟩ := exists_dropEndWhile_append isBlank (text.dropWhile isBlank)
  refine ⟨text.takeWhile isBlank, after, ?_, fun _ => List.mem_takeWhile_imp, hblank⟩
  rw [List.append_assoc, trimBlanks, ← hafter, List.takeWhile_append_dropWhile]

/-- A bare core is found by trimming wherever it stands between blanks. -/
theorem IsPadded.trimBlanks_eq (h : IsPadded core text) (hbare : IsBare core) :
    trimBlanks text = core := by
  obtain ⟨before, after, rfl, hbefore, hafter⟩ := h
  rw [trimBlanks, List.append_assoc, List.dropWhile_append_of_pos hbefore]
  cases core with
  | nil =>
      rw [List.nil_append, List.dropWhile_eq_nil_iff.mpr hafter, dropEndWhile_nil]
  | cons c rest =>
      rw [List.cons_append, List.dropWhile_cons_of_neg (by simp [hbare.head c rfl]),
        ← List.cons_append, dropEndWhile_append hafter, dropEndWhile_eq_self hbare.last]

end CallBinding
