import CallBinding.Proofs.Family.Survivor

/-!
# Rulings and the survivor

Within a family each rule of the table spares exactly the members of one kind.
Only the survivor is of all three kinds, so it alone is under no ruling.
-/

namespace CallBinding

/-- The rule of a ruling applies. -/
theorem yieldsTo?_of_ruling? {family : List Member} {candidate kept : Member} {rule : Rule}
    (h : ruling? family candidate = some (rule, kept)) :
    rule.yieldsTo? candidate family = some kept := by
  obtain ⟨rule', -, hrule⟩ := List.exists_of_findSome?_eq_some h
  obtain ⟨kept', hkept, heq⟩ := Option.map_eq_some_iff.mp hrule
  obtain ⟨rfl, rfl⟩ := Prod.mk.inj heq
  exact hkept

/-- Whoever yields does so to another member that is present. -/
theorem mem_of_ruling? {family : List Member} {candidate kept : Member} {rule : Rule}
    (h : ruling? family candidate = some (rule, kept)) :
    kept ∈ family ∧ kept.id ≠ candidate.id := by
  have hyields := yieldsTo?_of_ruling? h
  cases rule with
  | exactDuplicate =>
      simp only [Rule.yieldsTo?, Rule.duplicateOf?] at hyields
      split at hyields
      · cases hyields
      · obtain ⟨hrichest, hid⟩ := Option.filter_eq_some_iff.mp hyields
        have hmem := (isRichest_of_richest? hrichest).mem
        exact ⟨(List.mem_filter.mp hmem).1, by simpa using hid⟩
  | numberedVariant =>
      simp only [Rule.yieldsTo?, Rule.baseOf?] at hyields
      split at hyields
      · have hkept := List.find?_some hyields
        simp only [Bool.and_eq_true, decide_eq_true_eq] at hkept
        exact ⟨List.mem_of_find?_eq_some hyields, hkept.1⟩
      · cases hyields
  | richerSibling =>
      simp only [Rule.yieldsTo?, Rule.siblingOf?] at hyields
      split at hyields
      · cases hyields
      · split at hyields
        · cases hyields
        · rcases Option.or_eq_some_iff.mp hyields with hricher | ⟨-, hequal⟩
          · have hmem := List.mem_filter.mp (isRichest_of_richest? hricher).mem
            simp only [Bool.and_eq_true, decide_eq_true_eq] at hmem
            exact ⟨hmem.1, hmem.2.1⟩
          · have hmem := List.mem_of_find?_eq_some hequal
            unfold Rule.standingBefore at hmem
            split at hmem
            · exact ⟨(List.takeWhile_sublist _).subset hmem,
                by simpa using List.mem_takeWhile_imp hmem⟩
            · cases hmem
  | priorSibling => cases hyields

namespace Rule

variable {base : String} {family : List Member} {member : Member}

/-- The first rule spares the richest of all namesakes. -/
theorem duplicateOf?_eq_none_iff (hfamily : IsFamily base family) (hmember : member ∈ family) :
    duplicateOf? member family = none ↔
      IsRichest member (family.filter fun other => other.name = member.name) := by
  have hself : member ∈ family.filter fun other => other.name = member.name :=
    List.mem_filter.mpr ⟨hmember, by simp⟩
  constructor
  · intro h
    obtain ⟨best, hbest⟩ : ∃ best, richest? (family.filter fun other =>
        other.name = member.name) = some best := by
      rw [← Option.ne_none_iff_exists', Ne, richest?_eq_none_iff]
      exact List.ne_nil_of_mem hself
    have hrichest := richest?_eq_some_iff.mp hbest
    simp only [duplicateOf?, hbest] at h
    split at h
    next hlength =>
      have hpos := List.length_pos_of_mem hself
      obtain ⟨only, honly⟩ : ∃ only, (family.filter fun other => other.name = member.name) =
          [only] := List.length_eq_one_iff.mp (by omega)
      rw [honly, List.mem_singleton] at hself
      rw [honly, hself]
      exact ⟨[], [], rfl, by simp, by simp⟩
    next =>
      have hid : best.id = member.id := by simpa [Option.filter] using h
      rwa [hfamily.eq_of_id (List.mem_filter.mp hrichest.mem).1 hmember hid] at hrichest
  · intro h
    simp [duplicateOf?, richest?_eq_some_iff.mpr h, Option.filter]

/-- The second rule spares the members that carry the base name, and all if none does. -/
theorem baseOf?_eq_none_iff (hfamily : IsFamily base family) (hmember : member ∈ family) :
    baseOf? member family = none ↔ member.name = base ∨ ∀ other ∈ family, other.name ≠ base := by
  have hbase := hfamily.base member hmember
  have hnumbered : Name.isNumberedVariant member.name = true ↔ member.name ≠ base := by
    rw [Name.isNumberedVariant, hbase, Option.any_some, decide_eq_true_eq, ne_comm]
  rw [baseOf?]
  split
  next hvariant =>
    have hname := hnumbered.mp hvariant
    rw [List.find?_eq_none]
    constructor
    · intro h
      refine Or.inr fun other hother hotherName => h other hother ?_
      have hid : other.id ≠ member.id := by
        intro hid
        rw [hfamily.eq_of_id hother hmember hid] at hotherName
        exact hname hotherName
      simp [hid, hbase, hotherName]
    · intro h other hother hspec
      simp only [hbase, Option.some.injEq, Bool.and_eq_true, decide_eq_true_eq] at hspec
      exact h.resolve_left hname other hother hspec.2.symm
  next hvariant => simpa using Or.inl (not_not.mp fun hname => hvariant (hnumbered.mpr hname))

/-- The members before a member, as the rules see them. -/
theorem standingBefore_append {before after : List Member} {member : Member}
    (hdistinct : ((before ++ member :: after).map (·.id)).Nodup) :
    standingBefore member.id (before ++ member :: after) = before := by
  have hbefore : ∀ other ∈ before, other.id ≠ member.id := by
    intro other hother hid
    rw [List.map_append, List.nodup_append] at hdistinct
    exact hdistinct.2.2 other.id (List.mem_map_of_mem hother) member.id (by simp) hid
  have hany : (before ++ member :: after).any (fun other => other.id = member.id) = true := by
    simp
  rw [standingBefore, if_pos hany, List.takeWhile_append_of_pos (by simpa using hbefore)]
  simp

/-- The third rule spares all members if one carries the base name, and else the richest. -/
theorem siblingOf?_eq_none_iff (hfamily : IsFamily base family) (hmember : member ∈ family) :
    siblingOf? member family = none ↔
      (∃ other ∈ family, other.name = base) ∨ IsRichest member family := by
  have hbase := hfamily.base member hmember
  by_cases hnamed : ∃ other ∈ family, other.name = base
  · have hany : family.any (fun other => other.name = base) = true := by simpa using hnamed
    simp [siblingOf?, hbase, hany, hnamed]
  · have hany : family.any (fun other => other.name = base) = false := by simpa using hnamed
    simp only [siblingOf?, hbase, hany, Bool.false_eq_true, if_false, hnamed, false_or,
      Option.or_eq_none_iff, richest?_eq_none_iff, List.filter_eq_nil_iff, List.find?_eq_none]
    constructor
    · rintro ⟨hricher, hequal⟩
      have hle : ∀ other ∈ family, other.count ≤ member.count := by
        intro other hother
        by_contra hlt
        have hid : other.id ≠ member.id := by
          intro hid
          rw [hfamily.eq_of_id hother hmember hid] at hlt
          exact hlt (le_refl _)
        exact hricher other hother (by simp [hid, not_le.mp hlt])
      obtain ⟨before, after, rfl⟩ := List.append_of_mem hmember
      rw [standingBefore_append hfamily.distinct] at hequal
      refine ⟨before, after, rfl, fun other hother => ?_, fun other hother => ?_⟩
      · exact (hle other (by simp [hother])).lt_of_ne (by simpa using hequal other hother)
      · exact hle other (by simp [hother])
    · intro hrichest
      have hle := fun other (hother : other ∈ family) => hrichest.count_le hother
      obtain ⟨before, after, rfl, hbefore, -⟩ := hrichest
      rw [standingBefore_append hfamily.distinct]
      refine ⟨fun other hother h => ?_, fun other hother h => ?_⟩
      · simp only [Bool.and_eq_true, decide_eq_true_eq] at h
        exact absurd (hle other hother) (not_le.mpr h.2)
      · exact absurd (by simpa using h) (hbefore other hother).ne

end Rule

/-- Only the survivor of a family is under no ruling. -/
theorem ruling?_eq_none_iff {base : String} {family : List Member} {member : Member}
    (hfamily : IsFamily base family) (hmember : member ∈ family) :
    ruling? family member = none ↔ IsSurvivor base family member := by
  have htable : ruling? family member = none ↔
      Rule.duplicateOf? member family = none ∧ Rule.baseOf? member family = none ∧
        Rule.siblingOf? member family = none := by
    simp [ruling?, Rule.table, Rule.yieldsTo?]
  rw [htable, Rule.duplicateOf?_eq_none_iff hfamily hmember,
    Rule.baseOf?_eq_none_iff hfamily hmember, Rule.siblingOf?_eq_none_iff hfamily hmember]
  constructor
  · rintro ⟨hduplicate, hvariant, hsibling⟩
    by_cases hname : member.name = base
    · rw [IsSurvivor, contenders_eq_named hmember hname]
      rwa [hname] at hduplicate
    · have hnone := hvariant.resolve_left hname
      rw [IsSurvivor, contenders_eq_family hnone]
      refine hsibling.resolve_left ?_
      rintro ⟨other, hother, hotherName⟩
      exact hnone other hother hotherName
  · intro hsurvivor
    rcases hsurvivor.named_or_unnamed with ⟨hname, hrichest⟩ | ⟨hnone, hrichest⟩
    · rw [hname]
      exact ⟨hrichest, Or.inl rfl, Or.inl ⟨member, hmember, hname⟩⟩
    · have hself : member ∈ family.filter fun other => other.name = member.name :=
        List.mem_filter.mpr ⟨hmember, by simp⟩
      exact ⟨hrichest.sublist hfamily.nodup List.filter_sublist hself, Or.inr hnone,
        Or.inr hrichest⟩

section

variable {base : String} {family before after : List Member} {member survivor : Member}

/-- A family without any ruling consists of its survivor. -/
theorem IsSurvivor.eq_singleton (hsurvivor : IsSurvivor base family survivor)
    (hfamily : IsFamily base family) (hnone : ∀ member ∈ family, ruling? family member = none) :
    family = [survivor] := by
  have hall : ∀ member ∈ family, member = survivor := fun member hmember =>
    ((ruling?_eq_none_iff hfamily hmember).mp (hnone member hmember)).unique hsurvivor
  have hnodup := hfamily.nodup
  rw [List.eq_replicate_of_mem hall] at hnodup ⊢
  have hlength : family.length = 1 :=
    le_antisymm (List.nodup_replicate.mp hnodup) (List.length_pos_of_mem hsurvivor.mem)
  rw [hlength]
  rfl

/-- The survivor outlasts the removal of any member on which there is a ruling. -/
theorem IsSurvivor.outlasts (hsurvivor : IsSurvivor base (before ++ member :: after) survivor)
    (hfamily : IsFamily base (before ++ member :: after)) {ruling : Rule × Member}
    (hruling : ruling? (before ++ member :: after) member = some ruling) :
    IsSurvivor base (before ++ after) survivor := by
  have hne : survivor ≠ member := by
    rintro rfl
    rw [(ruling?_eq_none_iff hfamily hsurvivor.mem).mpr hsurvivor] at hruling
    cases hruling
  have hmem : survivor ∈ before ++ after := by simpa [hne] using hsurvivor.mem
  exact hsurvivor.sublist hfamily.nodup (append_sublist_append_cons before member after) hmem

end

end CallBinding
