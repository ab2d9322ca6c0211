import CallBinding.Proofs.Family.Newcomers

/-!
# Settled families

The plan for a spawned definition runs until there is no ruling on any member of
its family.  Such a family is settled: it has at most one newcomer, and another
plan, for whichever of its members, finds nothing to do there.  Plans for other
families leave it as it is.
-/

namespace CallBinding

/-- There is no ruling on any member, given the definitions that are older than a session. -/
def IsSettled (prior : List BlockId) (family : List Member) : Prop :=
  ∀ member ∈ family, newcomerRuling? prior family member = none

section

variable {prior : List BlockId} {family members : List Member}
variable {member other : Member} {name base : String}

theorem ruling?_of_newcomerRuling? (hnew : member.id ∉ prior)
    (h : newcomerRuling? prior family member = none) : ruling? family member = none := by
  rw [newcomerRuling?, if_neg (by simpa using hnew), Option.or_eq_none_iff] at h
  exact h.2

/-- Only the survivor can be a newcomer in a settled family. -/
theorem IsSettled.eq_of_new (h : IsSettled prior family) (hfamily : IsFamily base family)
    (hmember : member ∈ family) (hother : other ∈ family) (hmemberNew : member.id ∉ prior)
    (hotherNew : other.id ∉ prior) : member = other := by
  have hfirst := ruling?_of_newcomerRuling? hmemberNew (h member hmember)
  have hsecond := ruling?_of_newcomerRuling? hotherNew (h other hother)
  exact ((ruling?_eq_none_iff hfamily hmember).mp hfirst).unique
    ((ruling?_eq_none_iff hfamily hother).mp hsecond)

/-! ## The family of a plan -/

theorem planSpawned_of_isSettled (hbase : Name.base? name = some base)
    (h : IsSettled prior (familyOf base members)) : planSpawned members name prior = [] := by
  obtain ⟨left, hleft⟩ := removes_removals (newcomerRuling? prior) (familyOf base members)
  simpa only [planSpawned, hbase] using hleft.eq_nil h

/-- A plan takes the same members out of a family as out of all members. -/
theorem familyOf_remaining (base : String) (members : List Member) (plan : List Resolution) :
    familyOf base (remaining members plan) = remaining (familyOf base members) plan :=
  List.filter_comm _ _ members

theorem isSettled_remaining_planSpawned (hdistinct : (members.map (·.id)).Nodup)
    (hbase : Name.base? name = some base) :
    IsSettled prior (familyOf base (remaining members (planSpawned members name prior))) := by
  obtain ⟨left, hleft⟩ := removes_removals (newcomerRuling? prior) (familyOf base members)
  have hremaining := hleft.left_eq (isFamily_familyOf hdistinct base).distinct
  rw [familyOf_remaining, planSpawned, hbase]
  exact hremaining ▸ hleft.spent

/-! ## Other families -/

/-- The plan for a spawned definition takes nothing out of other families. -/
theorem familyOf_remaining_planSpawned_of_base_ne (hdistinct : (members.map (·.id)).Nodup)
    (hbase : Name.base? name ≠ some base) :
    familyOf base (remaining members (planSpawned members name prior)) =
      familyOf base members := by
  rw [familyOf_remaining]
  refine List.filter_eq_self.mpr fun member hmember => decide_eq_true fun hremoved => ?_
  obtain ⟨hmem, hmemberBase⟩ := mem_familyOf.mp hmember
  obtain ⟨resolution, hresolution, hid⟩ := List.mem_map.mp hremoved
  unfold planSpawned at hresolution
  split at hresolution
  · cases hresolution
  next planned hplanned =>
    obtain ⟨left, hleft⟩ := removes_removals (newcomerRuling? prior) (familyOf planned members)
    obtain ⟨removed, hremoved, hremovedId⟩ :=
      hleft.removed_mem resolution.removed (List.mem_map_of_mem hresolution)
    obtain ⟨hremovedMem, hremovedBase⟩ := mem_familyOf.mp hremoved
    have hsame : removed = member :=
      List.inj_on_of_nodup_map hdistinct hremovedMem hmem (hremovedId.trans hid)
    rw [← hsame, hremovedBase] at hmemberBase
    exact hbase (hplanned.trans hmemberBase)

end

end CallBinding
