import CallBinding.Proofs.Name
import CallBinding.Proofs.Text.Blank

/-!
# Variants of a name

A valid name is a number, which is its own base, or a stem with a number behind
it, and then the stem is its base.  So two names are of one family exactly if
they are equal or variants of one stem.  The digits at the end of a name never
make it a placeholder, but without them it can be one.
-/

namespace CallBinding
namespace Name

/-- A run of ASCII digits, which may be empty. -/
def IsNumber (text : String) : Prop :=
  ∀ c ∈ text.toList, c.isDigit = true

/-- A stem is a text that does not end in a digit, and not the empty one. -/
structure IsStem (stem : String) : Prop where
  nonempty : stem ≠ ""
  last : ∀ c ∈ stem.toList.getLast?, c.isDigit = false

/-- Two names are variants if they differ only in the numbers behind a stem. -/
def AreVariants (name other : String) : Prop :=
  ∃ stem number otherNumber, IsStem stem ∧ IsNumber number ∧ IsNumber otherNumber ∧
    name = stem ++ number ∧ other = stem ++ otherNumber

/-- What the base of a name's family tells about the name. -/
structure HasBase (name base : String) : Prop where
  eq_base : base? name = some base
  nonempty : base ≠ ""
  beginning : base.toList <+: name.toList
  /-- A numbered variant is longer than its base. -/
  numbered : isNumberedVariant name = true ↔ base ≠ name
  /-- Without its number a valid name can be a placeholder, which has no base. -/
  again : base? base = if isPlaceholder base = true then none else some base
  /-- One more number stays in the family. -/
  extended : ∀ number, ¬IsNumber name → IsNumber number →
    isValid (name ++ number) = true ∧ base? (name ++ number) = some base

variable {name other base stem number : String}

/-! ## Placeholders -/

theorem of_mem_placeholder {core : String} (hcore : core ∈ "" :: placeholders) {c : Char}
    (hc : c ∈ core.toList) : isBlank c = false ∧ c.isDigit = false := by
  have hall : (("" :: placeholders).all fun core =>
      core.toList.all fun c => !isBlank c && !c.isDigit) = true := by decide
  have hchar := List.all_eq_true.mp (List.all_eq_true.mp hall core hcore) c hc
  simpa using hchar

theorem isPlaceholder_iff :
    isPlaceholder name = true ↔
      ∃ core ∈ "" :: placeholders, IsPadded core.toList name.toList := by
  have hbare (core : String) (hcore : core ∈ "" :: placeholders) : IsBare core.toList :=
    .of_forall fun _ hc => (of_mem_placeholder hcore hc).1
  have hmem : isPlaceholder name = true ↔
      String.ofList (trimBlanks name.toList) ∈ "" :: placeholders := by
    simp [isPlaceholder]
  rw [hmem]
  constructor
  · intro htrimmed
    refine ⟨_, htrimmed, ?_⟩
    rw [String.toList_ofList]
    exact isPadded_trimBlanks name.toList
  · rintro ⟨core, hcore, hpadded⟩
    rwa [hpadded.trimBlanks_eq (hbare core hcore), String.ofList_toList]

theorem isValid_iff : isValid name = true ↔ isPlaceholder name = false := by
  rw [isValid, Bool.not_eq_true']

/-- Neither blanks nor the editor's own names have digits in them. -/
theorem isValid_of_mem_isDigit {c : Char} (hc : c ∈ name.toList) (hdigit : c.isDigit = true) :
    isValid name = true := by
  rw [isValid_iff, Bool.eq_false_iff, Ne, isPlaceholder_iff]
  rintro ⟨core, hcore, before, after, hname, hbefore, hafter⟩
  have hblank : isBlank c ≠ true := by simp [isBlank_of_isDigit hdigit]
  rw [hname, List.mem_append, List.mem_append] at hc
  rcases hc with (hc | hc) | hc
  · exact hblank (hbefore c hc)
  · exact Bool.false_ne_true ((of_mem_placeholder hcore hc).2.symm.trans hdigit)
  · exact hblank (hafter c hc)

theorem ne_empty_of_isValid (hvalid : isValid name = true) : name ≠ "" := by
  rintro rfl
  exact absurd hvalid (by decide)

/-- Behind a valid name any number stands in a valid name. -/
theorem isValid_append (hvalid : isValid name = true) (hnumber : IsNumber number) :
    isValid (name ++ number) = true := by
  cases hdigits : number.toList with
  | nil => rwa [String.toList_eq_nil_iff.mp hdigits, String.append_empty]
  | cons c rest =>
      have hmem : c ∈ number.toList := hdigits ▸ List.mem_cons_self
      refine isValid_of_mem_isDigit ?_ (hnumber c hmem)
      rw [String.toList_append]
      exact List.mem_append_right _ hmem

/-! ## Stems -/

theorem IsNumber.append (hnumber : IsNumber name) (hother : IsNumber other) :
    IsNumber (name ++ other) := by
  intro c hc
  rw [String.toList_append, List.mem_append] at hc
  exact hc.elim (hnumber c) (hother c)

theorem isNumber_empty : IsNumber "" := by
  intro c hc
  cases hc

theorem IsStem.not_isNumber (hstem : IsStem stem) (hnumber : IsNumber stem) : False := by
  have hne : stem.toList ≠ [] := fun h => hstem.nonempty (String.toList_eq_nil_iff.mp h)
  have hlast := hstem.last _ (List.getLast?_eq_some_getLast hne)
  rw [hnumber _ (List.getLast_mem hne)] at hlast
  exact Bool.false_ne_true hlast.symm

/-- Dropping the number behind a stem leaves the stem. -/
theorem dropVariantNumber_append (hstem : IsStem stem) (hnumber : IsNumber number) :
    dropVariantNumber (stem ++ number).toList = stem.toList := by
  rw [dropVariantNumber, String.toList_append, dropEndWhile_append hnumber,
    dropEndWhile_eq_self hstem.last]

theorem dropVariantNumber_eq_nil_iff : dropVariantNumber name.toList = [] ↔ IsNumber name :=
  List.rdropWhile_eq_nil_iff

/-- Any text is a number, or a number behind a stem. -/
theorem isNumber_or_exists_stem (name : String) :
    IsNumber name ∨ ∃ stem number, IsStem stem ∧ IsNumber number ∧ name = stem ++ number := by
  by_cases hnil : dropVariantNumber name.toList = []
  · exact .inl (dropVariantNumber_eq_nil_iff.mp hnil)
  · obtain ⟨run, hrun, hdigits⟩ := exists_dropEndWhile_append Char.isDigit name.toList
    refine .inr ⟨String.ofList (dropVariantNumber name.toList), String.ofList run,
      ⟨?_, ?_⟩, ?_, ?_⟩
    · rwa [Ne, String.ofList_eq_empty_iff]
    · rw [String.toList_ofList]
      exact getLast?_dropEndWhile Char.isDigit name.toList
    · rwa [IsNumber, String.toList_ofList]
    · rw [← String.ofList_append, dropVariantNumber, ← hrun, String.ofList_toList]

/-! ## Bases -/

theorem base?_of_isNumber (hvalid : isValid name = true) (hnumber : IsNumber name) :
    base? name = some name := by
  rw [base?, isValid_iff.mp hvalid, if_neg Bool.false_ne_true]
  exact congrArg some (if_pos (dropVariantNumber_eq_nil_iff.mpr hnumber))

theorem base?_append (hvalid : isValid (stem ++ number) = true) (hstem : IsStem stem)
    (hnumber : IsNumber number) : base? (stem ++ number) = some stem := by
  have hne : stem.toList ≠ [] := fun h => hstem.nonempty (String.toList_eq_nil_iff.mp h)
  rw [base?, isValid_iff.mp hvalid, if_neg Bool.false_ne_true,
    dropVariantNumber_append hstem hnumber]
  exact congrArg some ((if_neg hne).trans String.ofList_toList)

/-- A number is its own base, and the base of any other valid name is its stem. -/
theorem base?_eq_some_iff :
    base? name = some base ↔ isValid name = true ∧
      (IsNumber name ∧ base = name ∨
        IsStem base ∧ ∃ number, IsNumber number ∧ name = base ++ number) := by
  constructor
  · intro hbase
    have hvalid : isValid name = true := base?_ne_none_iff.mp (by simp [hbase])
    refine ⟨hvalid, ?_⟩
    obtain hnumber | ⟨stem, number, hstem, hnumber, rfl⟩ := isNumber_or_exists_stem name
    · rw [base?_of_isNumber hvalid hnumber, Option.some.injEq] at hbase
      exact .inl ⟨hnumber, hbase.symm⟩
    · rw [base?_append hvalid hstem hnumber, Option.some.injEq] at hbase
      exact .inr ⟨hbase ▸ hstem, number, hnumber, hbase ▸ rfl⟩
  · rintro ⟨hvalid, ⟨hnumber, rfl⟩ | ⟨hstem, number, hnumber, rfl⟩⟩
    · exact base?_of_isNumber hvalid hnumber
    · exact base?_append hvalid hstem hnumber

theorem hasBase_of_eq_some (hbase : base? name = some base) : HasBase name base := by
  obtain ⟨hvalid, hcases⟩ := base?_eq_some_iff.mp hbase
  constructor
  case eq_base => exact hbase
  case nonempty =>
    obtain ⟨-, rfl⟩ | ⟨hstem, -⟩ := hcases
    · exact ne_empty_of_isValid hvalid
    · exact hstem.nonempty
  case beginning =>
    obtain ⟨-, rfl⟩ | ⟨-, number, -, rfl⟩ := hcases
    · exact List.prefix_rfl
    · rw [String.toList_append]
      exact List.prefix_append _ _
  case numbered => simp [isNumberedVariant, hbase]
  case again =>
    split
    next hplaceholder => exact base?_eq_none_iff.mpr hplaceholder
    next hplaceholder =>
      have hbaseValid : isValid base = true :=
        isValid_iff.mpr (Bool.eq_false_iff.mpr hplaceholder)
      refine base?_eq_some_iff.mpr ⟨hbaseValid, ?_⟩
      obtain ⟨hnumber, rfl⟩ | ⟨hstem, -⟩ := hcases
      · exact .inl ⟨hnumber, rfl⟩
      · exact .inr ⟨hstem, "", isNumber_empty, String.append_empty.symm⟩
  case extended =>
    intro number hname hnumber
    have hlonger := isValid_append hvalid hnumber
    refine ⟨hlonger, base?_eq_some_iff.mpr ⟨hlonger, .inr ?_⟩⟩
    obtain ⟨hdigits, -⟩ | ⟨hstem, digits, hdigits, rfl⟩ := hcases
    · exact absurd hdigits hname
    · exact ⟨hstem, digits ++ number, hdigits.append hnumber, String.append_assoc⟩

/-! ## Families -/

theorem AreVariants.base?_eq (h : AreVariants name other) (hname : isValid name = true)
    (hother : isValid other = true) : base? name = base? other := by
  obtain ⟨stem, number, otherNumber, hstem, hnumber, hotherNumber, rfl, rfl⟩ := h
  rw [base?_append hname hstem hnumber, base?_append hother hstem hotherNumber]

/-- Names with one base are equal if it is a number, and otherwise variants of their stem. -/
theorem eq_or_areVariants (hname : base? name = some base) (hother : base? other = some base) :
    name = other ∨ AreVariants name other := by
  -- No base is both a number and a stem, so two of the four cases are void.
  obtain ⟨-, ⟨hnumber, rfl⟩ | ⟨hstem, number, hnumber, rfl⟩⟩ := base?_eq_some_iff.mp hname
  · obtain ⟨-, ⟨-, rfl⟩ | ⟨hstem, -⟩⟩ := base?_eq_some_iff.mp hother
    · exact .inl rfl
    · exact (hstem.not_isNumber hnumber).elim
  · obtain ⟨-, ⟨hotherNumber, rfl⟩ | ⟨-, otherNumber, hotherNumber, rfl⟩⟩ :=
      base?_eq_some_iff.mp hother
    · exact (hstem.not_isNumber hotherNumber).elim
    · exact .inr ⟨base, number, otherNumber, hstem, hnumber, hotherNumber, rfl, rfl⟩

/-- Names are valid unless they are placeholders between blanks, valid names are of one family if
they are equal or variants of one stem, and every valid name has a base. -/
theorem families_of_names (name other : String) :
    (isValid name = true ↔ ¬∃ core ∈ "" :: placeholders, IsPadded core.toList name.toList) ∧
    (sameFamily name other = true ↔ isValid name = true ∧ isValid other = true ∧
      (name = other ∨ AreVariants name other)) ∧
    (isValid name = true → ∃ base, HasBase name base) := by
  refine ⟨?_, ?_, fun hvalid => ?_⟩
  · rw [← isPlaceholder_iff, isValid_iff, Bool.eq_false_iff]
  · rw [sameFamily_eq_true_iff]
    constructor
    · rintro ⟨base, hname, hother⟩
      exact ⟨(base?_eq_some_iff.mp hname).1, (base?_eq_some_iff.mp hother).1,
        eq_or_areVariants hname hother⟩
    · rintro ⟨hname, hother, hfamily⟩
      obtain ⟨base, hbase⟩ := Option.ne_none_iff_exists'.mp (base?_ne_none_iff.mpr hname)
      refine ⟨base, hbase, ?_⟩
      obtain rfl | hvariants := hfamily
      · exact hbase
      · exact (hvariants.base?_eq hname hother).symm.trans hbase
  · obtain ⟨base, hbase⟩ := Option.ne_none_iff_exists'.mp (base?_ne_none_iff.mpr hvalid)
    exact ⟨base, hasBase_of_eq_some hbase⟩

/-- Without its number this name is a placeholder. -/
theorem families_of_names_numbered_placeholder :
    isValid "unnamed7" = true ∧ isPlaceholder "unnamed" = true ∧
      AreVariants "unnamed7" "unnamed12" ∧ sameFamily "unnamed7" "unnamed12" = true ∧
      HasBase "unnamed7" "unnamed" := by
  have hvalid : isValid "unnamed7" = true := by decide
  have hstem : IsStem "unnamed" := by
    refine ⟨by decide, fun c hc => ?_⟩
    obtain rfl : 'd' = c := Option.some.inj hc
    decide
  have hvariants : AreVariants "unnamed7" "unnamed12" :=
    ⟨"unnamed", "7", "12", hstem, List.all_eq_true.mp (by decide), List.all_eq_true.mp (by decide),
      by decide, by decide⟩
  obtain ⟨-, hfamily, hbase⟩ := families_of_names "unnamed7" "unnamed12"
  obtain ⟨base, hbase⟩ := hbase hvalid
  obtain rfl : base = "unnamed" :=
    Option.some.inj (hbase.eq_base.symm.trans (by decide : base? "unnamed7" = some "unnamed"))
  exact ⟨hvalid, by decide, hvariants, hfamily.mpr ⟨hvalid, by decide, .inr hvariants⟩, hbase⟩

end Name
end CallBinding
