import CallBinding.Proofs.Family.Plan
import Mathlib.Data.List.Perm.Basic

/-!
# Orders of removal

A plan always takes out the first member on which there is a ruling.  Any other
choice comes to the same: as long as a family has other members than its
survivor, there is a ruling on every one of them and none on the survivor.  So
the others can be taken out in each of their orders, and no choice gets stuck.
-/

namespace CallBinding

/-- Members of a family are taken out in an order, each while there is a ruling on it among those
still there.  Unlike the removals of a planner this may stop at any time. -/
inductive Prunes : List Member → List Member → List Member → Prop
  | stop (family : List Member) : Prunes family [] family
  | step {before after order left : List Member} {member : Member} {ruling : Rule × Member} :
      ruling? (before ++ member :: after) member = some ruling →
      Prunes (before ++ after) order left →
      Prunes (before ++ member :: after) (member :: order) left

/-- Some members are left of a family whatever the order in which others are taken out. -/
structure OrderFree (base : String) (family kept : List Member) : Prop where
  length_eq : kept.length = min 1 family.length
  survivor : ∀ member, member ∈ kept ↔ IsSurvivor base family member
  /-- Nobody is taken out twice and nobody is lost. -/
  perm : ∀ order left, Prunes family order left → (order ++ left).Perm family
  ruling : ∀ order left, Prunes family order left →
    ∀ member ∈ left, ruling? left member = none ↔ member ∈ kept
  ends : ∀ order left, Prunes family order left →
    ((∀ member ∈ left, ruling? left member = none) ↔ left = kept)
  orders : ∀ order, Prunes family order kept ↔ (order ++ kept).Perm family

namespace Prunes

variable {base : String} {family order left : List Member} {member survivor : Member}

theorem perm (h : Prunes family order left) : (order ++ left).Perm family := by
  induction h with
  | stop family => exact List.Perm.refl _
  | @step before after order left member ruling _ _ ih =>
      exact (ih.cons member).trans List.perm_middle.symm

theorem sublist (h : Prunes family order left) : left.Sublist family := by
  induction h with
  | stop family => exact List.Sublist.refl _
  | @step before after order left member ruling _ _ ih =>
      exact ih.trans (append_sublist_append_cons before member after)

/-- Nobody ever takes out the survivor, and it remains the survivor. -/
theorem isSurvivor (h : Prunes family order left) (hfamily : IsFamily base family)
    (hsurvivor : IsSurvivor base family survivor) : IsSurvivor base left survivor := by
  induction h with
  | stop family => exact hsurvivor
  | @step before after order left member ruling hruling _ ih =>
      have hrest := hfamily.sublist (append_sublist_append_cons before member after)
      exact ih hrest (hsurvivor.outlasts hfamily hruling)

/-- At any time there is a ruling on everybody but the survivor. -/
theorem eq_none_iff (h : Prunes family order left) (hfamily : IsFamily base family)
    (hsurvivor : IsSurvivor base family survivor) (hmember : member ∈ left) :
    ruling? left member = none ↔ member = survivor := by
  have hleft := h.isSurvivor hfamily hsurvivor
  rw [ruling?_eq_none_iff (hfamily.sublist h.sublist) hmember]
  constructor
  · exact fun hmemberSurvives => hmemberSurvives.unique hleft
  · rintro rfl
    exact hleft

/-- It is over when the survivor is alone. -/
theorem forall_eq_none_iff (h : Prunes family order left) (hfamily : IsFamily base family)
    (hsurvivor : IsSurvivor base family survivor) :
    (∀ member ∈ left, ruling? left member = none) ↔ left = [survivor] := by
  constructor
  · exact (h.isSurvivor hfamily hsurvivor).eq_singleton (hfamily.sublist h.sublist)
  · rintro rfl member hmember
    exact (h.eq_none_iff hfamily hsurvivor hmember).mpr (List.mem_singleton.mp hmember)

/-- The others can be taken out in each of their orders. -/
theorem of_perm (hfamily : IsFamily base family) (hsurvivor : IsSurvivor base family survivor)
    (hperm : (order ++ [survivor]).Perm family) : Prunes family order [survivor] := by
  induction order generalizing family with
  | nil =>
      rw [List.nil_append, List.singleton_perm] at hperm
      exact hperm ▸ .stop _
  | cons first order ih =>
      have hfirst : first ∈ family := hperm.subset List.mem_cons_self
      obtain ⟨before, after, rfl⟩ := List.append_of_mem hfirst
      have hrest : (order ++ [survivor]).Perm (before ++ after) :=
        (hperm.trans List.perm_middle).cons_inv
      have hne : first ≠ survivor := by
        rintro rfl
        have hnodup := List.perm_middle.nodup_iff.mp hfamily.nodup
        exact (List.nodup_cons.mp hnodup).1 (hrest.subset (by simp))
      obtain ⟨ruling, hruling⟩ : ∃ ruling,
          ruling? (before ++ first :: after) first = some ruling := by
        rw [← Option.ne_none_iff_exists']
        intro hnone
        exact hne (((Prunes.stop _).eq_none_iff hfamily hsurvivor hfirst).mp hnone)
      have hfewer := hfamily.sublist (append_sublist_append_cons before first after)
      exact .step hruling (ih hfewer (hsurvivor.outlasts hfamily hruling) hrest)

end Prunes

variable {base : String} {family : List Member}

namespace OrderFree

theorem nil (base : String) : OrderFree base [] [] := by
  have hleft : ∀ {order left : List Member}, Prunes [] order left → left = [] :=
    fun h => List.sublist_nil.mp h.sublist
  constructor
  case length_eq => rfl
  case survivor => exact fun member => iff_of_false (by simp) fun h => by simpa using h.mem
  case perm => exact fun order left h => h.perm
  case ruling =>
    intro order left h member hmember
    simp [hleft h] at hmember
  case ends =>
    intro order left h
    simp [hleft h]
  case orders =>
    intro order
    refine ⟨fun h => h.perm, fun h => ?_⟩
    rw [List.append_nil, List.perm_nil] at h
    exact h ▸ .stop []

theorem singleton (hfamily : IsFamily base family) {survivor : Member}
    (hsurvivor : IsSurvivor base family survivor) : OrderFree base family [survivor] := by
  constructor
  case length_eq =>
    have hpos := List.length_pos_of_mem hsurvivor.mem
    exact (min_eq_left hpos).symm
  case survivor =>
    intro member
    rw [List.mem_singleton]
    exact ⟨fun h => h ▸ hsurvivor, fun h => h.unique hsurvivor⟩
  case perm => exact fun order left h => h.perm
  case ruling =>
    intro order left h member hmember
    rw [List.mem_singleton]
    exact h.eq_none_iff hfamily hsurvivor hmember
  case ends => exact fun order left h => h.forall_eq_none_iff hfamily hsurvivor
  case orders => exact fun order => ⟨fun h => h.perm, fun h => .of_perm hfamily hsurvivor h⟩

end OrderFree

theorem remaining_plan_of_isFamily (hfamily : IsFamily base family) {survivor : Member}
    (hsurvivor : IsSurvivor base family survivor) :
    remaining family (plan family) = [survivor] := by
  have hself : ∀ members : List Member, members.Sublist family → familyOf base members = members :=
    fun members hsub => List.filter_eq_self.mpr fun member hmember =>
      decide_eq_true (hfamily.base member (hsub.subset hmember))
  have hleft := familyOf_remaining_plan hfamily.distinct
    ((hself family (List.Sublist.refl family)).symm ▸ hsurvivor)
  rwa [hself (remaining family (plan family)) List.filter_sublist] at hleft

/-- The order of removals does not matter: whichever member with a ruling on it goes next, the
same one is left at the end as by the plan. -/
theorem orderFree_plan (hfamily : IsFamily base family) :
    OrderFree base family (remaining family (plan family)) := by
  by_cases hempty : family = []
  · rw [hempty]
    exact .nil base
  · obtain ⟨member, hmember⟩ := List.exists_mem_of_ne_nil family hempty
    obtain ⟨survivor, hsurvivor⟩ := IsSurvivor.exists_of_mem base hmember
    rw [remaining_plan_of_isFamily hfamily hsurvivor]
    exact .singleton hfamily hsurvivor

theorem orderFree_plan_of_variants :
    let family : List Member := [⟨⟨0⟩, "f2", 3⟩, ⟨⟨1⟩, "f", 1⟩, ⟨⟨2⟩, "f", 2⟩, ⟨⟨3⟩, "f2", 3⟩,
      ⟨⟨4⟩, "f", 2⟩]
    IsFamily "f" family ∧ (remaining family (plan family)).map (·.id) = [⟨2⟩] ∧
      OrderFree "f" family (remaining family (plan family)) := by
  intro family
  have hfamily : IsFamily "f" family := ⟨by decide, by decide⟩
  exact ⟨hfamily, by decide +kernel, orderFree_plan hfamily⟩

end CallBinding
