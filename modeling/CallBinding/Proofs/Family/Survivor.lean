import CallBinding.Family.Plan
import Mathlib.Data.List.Nodup
import Mathlib.Data.List.TakeWhile
import Mathlib.Data.Nat.Basic

/-!
# The survivor of a family

In every family one member is singled out: the first of those with the most
parameters, taken among the members that carry the base name if there are any.
It stays the same while others are removed.
-/

namespace CallBinding

/-- A member has the most parameters of a list, and the members before it have fewer. -/
def IsRichest (member : Member) (members : List Member) : Prop :=
  ∃ before after, members = before ++ member :: after ∧
    (∀ other ∈ before, other.count < member.count) ∧
    ∀ other ∈ after, other.count ≤ member.count

/-- The members among which the survivor of a family is sought. -/
def contenders (base : String) (family : List Member) : List Member :=
  let named := family.filter fun member => member.name = base
  if named.isEmpty then family else named

/-- The member that remains of a family. -/
def IsSurvivor (base : String) (family : List Member) (member : Member) : Prop :=
  IsRichest member (contenders base family)

/-- Members with distinct ids and one base. -/
structure IsFamily (base : String) (family : List Member) : Prop where
  base : ∀ member ∈ family, Name.base? member.name = some base
  distinct : (family.map (·.id)).Nodup

/-- To take one member out leaves the others in their order. -/
theorem append_sublist_append_cons (before : List Member) (member : Member)
    (after : List Member) : (before ++ after).Sublist (before ++ member :: after) :=
  (List.sublist_cons_self member after).append_left before

/-! ## The richest member -/

namespace IsRichest

variable {member other : Member} {members : List Member}

theorem mem (h : IsRichest member members) : member ∈ members := by
  obtain ⟨before, after, rfl, -, -⟩ := h
  simp

theorem count_le (h : IsRichest member members) (hother : other ∈ members) :
    other.count ≤ member.count := by
  obtain ⟨before, after, rfl, hbefore, hafter⟩ := h
  rcases List.mem_append.mp hother with h | h
  · exact (hbefore other h).le
  · rcases List.mem_cons.mp h with rfl | h
    · exact le_refl _
    · exact hafter other h

theorem unique (hmember : IsRichest member members) (hother : IsRichest other members) :
    member = other := by
  have hle := hmember.count_le hother.mem
  have hge := hother.count_le hmember.mem
  obtain ⟨before, after, rfl, hbefore, -⟩ := hmember
  obtain ⟨before', after', heq, hbefore', -⟩ := hother
  rcases List.append_eq_append_iff.mp heq with ⟨middle, rfl, hrest⟩ | ⟨middle, rfl, hrest⟩
  · cases middle with
    | nil => exact (List.cons.inj hrest).1
    | cons first middle =>
        obtain ⟨rfl, -⟩ := List.cons.inj hrest
        have := hbefore' member (by simp)
        omega
  · cases middle with
    | nil => exact (List.cons.inj hrest).1.symm
    | cons first middle =>
        obtain ⟨rfl, -⟩ := List.cons.inj hrest
        have := hbefore other (by simp)
        omega

/-- The richest member stays the richest while others are taken away. -/
theorem sublist {fewer : List Member} (h : IsRichest member members) (hnodup : members.Nodup)
    (hsub : fewer.Sublist members) (hmem : member ∈ fewer) : IsRichest member fewer := by
  obtain ⟨before, after, rfl, hbefore, hafter⟩ := h
  obtain ⟨left, right, rfl, hleft, hright⟩ := List.sublist_append_iff.mp hsub
  have hnotBefore : member ∉ before := fun h => lt_irrefl _ (hbefore member h)
  have hnotAfter : member ∉ after :=
    (List.nodup_cons.mp (List.nodup_append.mp hnodup).2.1).1
  have hmemRight : member ∈ right :=
    (List.mem_append.mp hmem).resolve_left fun h => hnotBefore (hleft.subset h)
  rcases List.sublist_cons_iff.mp hright with hskip | ⟨rest, rfl, hrest⟩
  · exact absurd (hskip.subset hmemRight) hnotAfter
  · exact ⟨left, rest, rfl, fun other h => hbefore other (hleft.subset h),
      fun other h => hafter other (hrest.subset h)⟩

end IsRichest

theorem richest?_eq_none_iff {members : List Member} : richest? members = none ↔ members = [] := by
  cases members with
  | nil => simp [richest?]
  | cons member rest =>
      simp only [richest?]
      split
      · simp
      · split <;> simp

theorem isRichest_of_richest? {members : List Member} {member : Member}
    (h : richest? members = some member) : IsRichest member members := by
  induction members generalizing member with
  | nil => cases h
  | cons first rest ih =>
      simp only [richest?] at h
      split at h
      next hnone =>
        obtain rfl := Option.some.inj h
        rw [richest?_eq_none_iff.mp hnone]
        exact ⟨[], [], rfl, by simp, by simp⟩
      next best hbest =>
        have hrichest := ih hbest
        split at h
        next hlt =>
          obtain rfl := Option.some.inj h
          obtain ⟨before, after, rfl, hbefore, hafter⟩ := hrichest
          refine ⟨first :: before, after, rfl, ?_, hafter⟩
          intro other hother
          rcases List.mem_cons.mp hother with rfl | hother
          · exact hlt
          · exact hbefore other hother
        next hle =>
          obtain rfl := Option.some.inj h
          refine ⟨[], rest, rfl, by simp, fun other hother => ?_⟩
          exact (hrichest.count_le hother).trans (not_lt.mp hle)

theorem richest?_eq_some_iff {members : List Member} {member : Member} :
    richest? members = some member ↔ IsRichest member members := by
  constructor
  · exact isRichest_of_richest?
  · intro h
    cases hfound : richest? members with
    | none =>
        have hmem := h.mem
        rw [richest?_eq_none_iff.mp hfound] at hmem
        cases hmem
    | some found => rw [(isRichest_of_richest? hfound).unique h]

/-! ## Survivors -/

theorem contenders_eq_family {base : String} {family : List Member}
    (h : ∀ member ∈ family, member.name ≠ base) : contenders base family = family := by
  have hnil : family.filter (fun member => member.name = base) = [] := by simpa using h
  simp [contenders, hnil]

theorem contenders_eq_named {base : String} {family : List Member} {member : Member}
    (hmem : member ∈ family) (hname : member.name = base) :
    contenders base family = family.filter fun member => member.name = base := by
  have hne : family.filter (fun member => member.name = base) ≠ [] :=
    List.ne_nil_of_mem (List.mem_filter.mpr ⟨hmem, by simpa using hname⟩)
  simp [contenders, hne]

theorem contenders_sublist (base : String) (family : List Member) :
    (contenders base family).Sublist family := by
  simp only [contenders]
  split
  · exact List.Sublist.refl _
  · exact List.filter_sublist

namespace IsFamily

variable {base : String} {family fewer : List Member} {member other : Member}

theorem nodup (h : IsFamily base family) : family.Nodup :=
  List.Nodup.of_map _ h.distinct

theorem eq_of_id (h : IsFamily base family) (hmember : member ∈ family) (hother : other ∈ family)
    (hid : member.id = other.id) : member = other :=
  List.inj_on_of_nodup_map h.distinct hmember hother hid

theorem sublist (h : IsFamily base family) (hsub : fewer.Sublist family) :
    IsFamily base fewer :=
  ⟨fun member hmember => h.base member (hsub.subset hmember), h.distinct.sublist (hsub.map _)⟩

end IsFamily

namespace IsSurvivor

variable {base : String} {family fewer : List Member} {member other : Member}

theorem mem (h : IsSurvivor base family member) : member ∈ family :=
  (contenders_sublist base family).subset (IsRichest.mem h)

theorem unique (hmember : IsSurvivor base family member)
    (hother : IsSurvivor base family other) : member = other :=
  IsRichest.unique hmember hother

theorem exists_of_mem (base : String) (h : other ∈ family) :
    ∃ member, IsSurvivor base family member := by
  cases hfound : richest? (contenders base family) with
  | some member => exact ⟨member, isRichest_of_richest? hfound⟩
  | none =>
      have hnil := richest?_eq_none_iff.mp hfound
      by_cases hnamed : ∃ member ∈ family, member.name = base
      · obtain ⟨member, hmem, hname⟩ := hnamed
        rw [contenders_eq_named hmem hname] at hnil
        have hmem' : member ∈ family.filter fun member => member.name = base :=
          List.mem_filter.mpr ⟨hmem, by simpa using hname⟩
        rw [hnil] at hmem'
        cases hmem'
      · rw [contenders_eq_family fun member hmem hname => hnamed ⟨member, hmem, hname⟩] at hnil
        rw [hnil] at h
        cases h

/-- A survivor carries the base name, unless no member does. -/
theorem named_or_unnamed (h : IsSurvivor base family member) :
    (member.name = base ∧ IsRichest member (family.filter fun other => other.name = base)) ∨
      ((∀ other ∈ family, other.name ≠ base) ∧ IsRichest member family) := by
  by_cases hnamed : ∃ other ∈ family, other.name = base
  · obtain ⟨other, hother, hname⟩ := hnamed
    rw [IsSurvivor, contenders_eq_named hother hname] at h
    exact Or.inl ⟨by simpa using (List.mem_filter.mp (IsRichest.mem h)).2, h⟩
  · have hnone : ∀ other ∈ family, other.name ≠ base := fun other hother hname =>
      hnamed ⟨other, hother, hname⟩
    rw [IsSurvivor, contenders_eq_family hnone] at h
    exact Or.inr ⟨hnone, h⟩

/-- The survivor of a family survives any of its parts to which it belongs. -/
theorem sublist (h : IsSurvivor base family member) (hnodup : family.Nodup)
    (hsub : fewer.Sublist family) (hmem : member ∈ fewer) : IsSurvivor base fewer member := by
  rcases h.named_or_unnamed with ⟨hname, hrichest⟩ | ⟨hnone, hrichest⟩
  · rw [IsSurvivor, contenders_eq_named hmem hname]
    exact hrichest.sublist (hnodup.filter _) (hsub.filter _)
      (List.mem_filter.mpr ⟨hmem, by simpa using hname⟩)
  · rw [IsSurvivor, contenders_eq_family fun other hother => hnone other (hsub.subset hother)]
    exact hrichest.sublist hnodup hsub hmem

end IsSurvivor

end CallBinding
