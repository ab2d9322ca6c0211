import CallBinding.Proofs.Family.Removal
import Mathlib.Data.List.Induction

/-!
# What plans leave

A plan treats the families of a graph one after another.  Families share no
member, so the removals within one never concern another, and the whole plan
leaves the survivor of every family and every placeholder.
-/

namespace CallBinding

/-! ## Families -/

/-- The families of some members, each under its base. -/
structure Partition (families : List (String × List Member)) (members : List Member) : Prop where
  distinct : (families.map (·.1)).Nodup
  eq_familyOf : ∀ family ∈ families, family.2 = familyOf family.1 members
  mem_iff : ∀ base, base ∈ families.map (·.1) ↔ ∃ member, member ∈ familyOf base members

theorem mem_familyOf {base : String} {members : List Member} {member : Member} :
    member ∈ familyOf base members ↔
      member ∈ members ∧ Name.base? member.name = some base := by
  simp [familyOf]

theorem isFamily_familyOf {members : List Member} (hdistinct : (members.map (·.id)).Nodup)
    (base : String) : IsFamily base (familyOf base members) :=
  ⟨fun _ hmember => (mem_familyOf.mp hmember).2,
    hdistinct.sublist (List.filter_sublist.map _)⟩

theorem map_fst_enroll (base : String) (member : Member)
    (families : List (String × List Member)) :
    (enroll base member families).map (·.1) =
      if base ∈ families.map (·.1) then families.map (·.1) else families.map (·.1) ++ [base] := by
  induction families with
  | nil => rfl
  | cons family rest ih =>
      by_cases h : family.1 = base
      · simp [enroll, h]
      · have h' : ¬base = family.1 := fun e => h e.symm
        simp only [enroll, h, if_false, List.map_cons, ih, List.mem_cons, h', false_or]
        split <;> simp

/-- Enrolling a member extends the family of its base and leaves the others alone. -/
theorem mem_enroll {base : String} {member : Member} {families : List (String × List Member)}
    (hdistinct : (families.map (·.1)).Nodup) {family : String × List Member}
    (h : family ∈ enroll base member families) :
    (family.1 ≠ base ∧ family ∈ families) ∨
      (family.1 = base ∧ ∃ old, family.2 = old ++ [member] ∧
        ((base, old) ∈ families ∨ old = [] ∧ base ∉ families.map (·.1))) := by
  induction families with
  | nil =>
      obtain rfl := List.mem_singleton.mp h
      exact Or.inr ⟨rfl, [], rfl, Or.inr ⟨rfl, by simp⟩⟩
  | cons first rest ih =>
      obtain ⟨hfirst, hrest⟩ := List.nodup_cons.mp hdistinct
      unfold enroll at h
      split at h
      next hbase =>
        rcases List.mem_cons.mp h with rfl | h
        · exact Or.inr ⟨rfl, first.2, rfl, Or.inl (by simp [← hbase])⟩
        · refine Or.inl ⟨fun heq => hfirst ?_, List.mem_cons_of_mem _ h⟩
          exact List.mem_map.mpr ⟨family, h, heq.trans hbase.symm⟩
      next hbase =>
        rcases List.mem_cons.mp h with rfl | h
        · exact Or.inl ⟨hbase, List.mem_cons_self⟩
        · rcases ih hrest h with ⟨hne, hmem⟩ | ⟨heq, old, hold, hmem⟩
          · exact Or.inl ⟨hne, List.mem_cons_of_mem _ hmem⟩
          · refine Or.inr ⟨heq, old, hold, ?_⟩
            rcases hmem with hmem | ⟨hnil, hnotin⟩
            · exact Or.inl (List.mem_cons_of_mem _ hmem)
            · exact Or.inr ⟨hnil, by simp [hnotin, Ne.symm hbase]⟩

theorem familyOf_append_singleton (base : String) (members : List Member) (member : Member) :
    familyOf base (members ++ [member]) =
      if Name.base? member.name = some base then familyOf base members ++ [member]
      else familyOf base members := by
  unfold familyOf
  rw [List.filter_append]
  split <;> simp_all

/-- One more member keeps the partition. -/
theorem Partition.enroll {families : List (String × List Member)} {members : List Member}
    (h : Partition families members) {base : String} {member : Member}
    (hbase : Name.base? member.name = some base) :
    Partition (enroll base member families) (members ++ [member]) := by
  refine ⟨?_, ?_, ?_⟩
  · rw [map_fst_enroll]
    split
    · exact h.distinct
    next hnew =>
      refine List.nodup_append.mpr ⟨h.distinct, by simp, fun old hold other hother heq => hnew ?_⟩
      rwa [← List.mem_singleton.mp hother, ← heq]
  · intro family hfamily
    rw [familyOf_append_singleton, hbase]
    rcases mem_enroll h.distinct hfamily with ⟨hne, hmem⟩ | ⟨rfl, old, hold, hmem⟩
    · rw [if_neg (by simpa using hne.symm)]
      exact h.eq_familyOf family hmem
    · rw [if_pos rfl, hold]
      rcases hmem with hmem | ⟨rfl, hnew⟩
      · have hfamilyOf : old = familyOf family.1 members := h.eq_familyOf _ hmem
        rw [hfamilyOf]
      · have hnone : familyOf family.1 members = [] :=
          List.eq_nil_iff_forall_not_mem.mpr fun other hother =>
            hnew ((h.mem_iff family.1).mpr ⟨other, hother⟩)
        rw [hnone]
  · intro other
    have hmem : other ∈ (CallBinding.enroll base member families).map (·.1) ↔
        other ∈ families.map (·.1) ∨ other = base := by
      rw [map_fst_enroll]
      split
      next hold =>
        constructor
        · exact Or.inl
        · rintro (hother | rfl)
          · exact hother
          · exact hold
      next => simp
    rw [hmem, h.mem_iff, familyOf_append_singleton, hbase]
    by_cases hother : base = other
    · simp only [hother, or_true, if_true, true_iff]
      exact ⟨member, by simp⟩
    · have hne : ¬other = base := fun e => hother e.symm
      simp [hother, hne]

theorem families_append_singleton (members : List Member) (member : Member) :
    families (members ++ [member]) = (Name.base? member.name).elim (families members)
      fun base => enroll base member (families members) := by
  rw [families, List.foldl_append, List.foldl_cons, List.foldl_nil]
  cases Name.base? member.name <;> rfl

theorem partition_families (members : List Member) : Partition (families members) members := by
  induction members using List.reverseRecOn with
  | nil => exact ⟨List.nodup_nil, by simp [families], by simp [families, familyOf]⟩
  | append_singleton members member ih =>
      rw [families_append_singleton]
      cases hbase : Name.base? member.name with
      | some base => exact ih.enroll hbase
      | none =>
          have hsame : ∀ base, familyOf base (members ++ [member]) = familyOf base members := by
            intro base
            rw [familyOf_append_singleton, hbase, if_neg (by simp)]
          refine ⟨ih.distinct, fun family hfamily => ?_, fun base => ?_⟩
          · rw [hsame]
            exact ih.eq_familyOf family hfamily
          · rw [hsame]
            exact ih.mem_iff base

/-! ## The whole plan -/

/-- The removals within the family of a base. -/
def removalsOf (members : List Member) (base : String) : List Resolution :=
  removals ruling? (familyOf base members)

theorem plan_eq (members : List Member) :
    plan members = ((families members).map (·.1)).flatMap (removalsOf members) := by
  rw [plan, List.flatMap_map]
  refine List.flatMap_congr fun family hfamily => ?_
  rw [(partition_families members).eq_familyOf family hfamily, removalsOf]

section

variable {members live : List Member} {base : String}

/-- What is removed from a family belongs to it. -/
theorem mem_of_mem_removalsOf {id : BlockId}
    (h : id ∈ (removalsOf members base).map (·.removed)) :
    ∃ member ∈ familyOf base members, member.id = id := by
  obtain ⟨left, hleft⟩ := removes_removals ruling? (familyOf base members)
  exact hleft.removed_mem id h

theorem feasible_removalsOf (hdistinct : (members.map (·.id)).Nodup) (base : String) :
    Feasible (familyOf base members) (removalsOf members base) := by
  obtain ⟨left, hleft⟩ := removes_removals ruling? (familyOf base members)
  exact hleft.feasible (isFamily_familyOf hdistinct base) fun _ _ _ _ h => mem_of_ruling? h

theorem remaining_removalsOf (hdistinct : (members.map (·.id)).Nodup) {survivor : Member}
    (hsurvivor : IsSurvivor base (familyOf base members) survivor) :
    remaining (familyOf base members) (removalsOf members base) = [survivor] := by
  obtain ⟨left, hleft⟩ := removes_removals ruling? (familyOf base members)
  have hfamily := isFamily_familyOf hdistinct base
  rw [removalsOf, ← hleft.left_eq hfamily.distinct, hleft.eq_survivor hfamily hsurvivor]

/-- The removals of other families leave a member of a family alone. -/
theorem not_mem_removalsOf (hdistinct : (members.map (·.id)).Nodup) {member : Member}
    (hmember : member ∈ members) (hbase : Name.base? member.name ≠ some base) :
    member.id ∉ (removalsOf members base).map (·.removed) := by
  intro h
  obtain ⟨other, hother, hid⟩ := mem_of_mem_removalsOf h
  obtain ⟨hotherMem, hotherBase⟩ := mem_familyOf.mp hother
  have heq : other = member := List.inj_on_of_nodup_map hdistinct hotherMem hmember hid
  exact hbase (heq ▸ hotherBase)

theorem feasible_flatMap (hdistinct : (members.map (·.id)).Nodup) {bases : List String}
    (hbases : bases.Nodup) (hlive : ∀ base ∈ bases, familyOf base members ⊆ live) :
    Feasible live (bases.flatMap (removalsOf members)) := by
  induction bases generalizing live with
  | nil => exact .nil live
  | cons first rest ih =>
      obtain ⟨hfirst, hrest⟩ := List.nodup_cons.mp hbases
      rw [List.flatMap_cons]
      refine ((feasible_removalsOf hdistinct first).mono (hlive first List.mem_cons_self)).append
        (ih hrest fun base hbase member hmember => mem_remaining.mpr ⟨?_, ?_⟩)
      · exact hlive base (List.mem_cons_of_mem _ hbase) hmember
      · obtain ⟨hmem, hmemBase⟩ := mem_familyOf.mp hmember
        refine not_mem_removalsOf hdistinct hmem fun h => hfirst ?_
        have heq : base = first := Option.some.inj (hmemBase.symm.trans h)
        exact heq ▸ hbase

theorem feasible_plan (hdistinct : (members.map (·.id)).Nodup) :
    Feasible members (plan members) := by
  rw [plan_eq]
  exact feasible_flatMap hdistinct (partition_families members).distinct
    fun _ _ _ hmember => (mem_familyOf.mp hmember).1

theorem mem_plan_removed {member : Member} (hdistinct : (members.map (·.id)).Nodup)
    (hmember : member ∈ familyOf base members) :
    member.id ∈ (plan members).map (·.removed) ↔
      member.id ∈ (removalsOf members base).map (·.removed) := by
  obtain ⟨hmem, hbase⟩ := mem_familyOf.mp hmember
  have hbases : base ∈ (families members).map (·.1) :=
    ((partition_families members).mem_iff base).mpr ⟨member, hmember⟩
  rw [plan_eq, List.map_flatMap, List.mem_flatMap]
  constructor
  · rintro ⟨other, -, h⟩
    by_contra hnot
    refine not_mem_removalsOf hdistinct hmem (fun heq => hnot ?_) h
    rwa [Option.some.inj (hbase.symm.trans heq)]
  · exact fun h => ⟨base, hbases, h⟩

/-- A plan leaves the survivor of a family alone. -/
theorem familyOf_remaining_plan (hdistinct : (members.map (·.id)).Nodup) {survivor : Member}
    (hsurvivor : IsSurvivor base (familyOf base members) survivor) :
    familyOf base (remaining members (plan members)) = [survivor] := by
  rw [← remaining_removalsOf hdistinct hsurvivor]
  unfold remaining familyOf
  rw [List.filter_comm]
  refine List.filter_congr fun member hmember => ?_
  rw [decide_eq_decide, not_iff_not]
  exact mem_plan_removed hdistinct hmember

/-- A plan leaves every placeholder. -/
theorem mem_remaining_plan_of_placeholder (hdistinct : (members.map (·.id)).Nodup)
    {member : Member} (hmember : member ∈ members) (hbase : Name.base? member.name = none) :
    member ∈ remaining members (plan members) := by
  refine mem_remaining.mpr ⟨hmember, fun h => ?_⟩
  rw [plan_eq, List.map_flatMap, List.mem_flatMap] at h
  obtain ⟨base, -, h⟩ := h
  exact not_mem_removalsOf hdistinct hmember (by simp [hbase]) h

end

/-! ## Families of one member -/

theorem removalsOf_eq_nil {members : List Member} (hdistinct : (members.map (·.id)).Nodup)
    {base : String} {member : Member} (h : familyOf base members = [member]) :
    removalsOf members base = [] := by
  have hmember : member ∈ familyOf base members := by simp [h]
  obtain ⟨survivor, hsurvivor⟩ := IsSurvivor.exists_of_mem base hmember
  have hremains := remaining_removalsOf hdistinct hsurvivor
  have hlast : survivor ∈ remaining (familyOf base members) (removalsOf members base) := by
    simp [hremains]
  obtain ⟨hmem, hkept⟩ := mem_remaining.mp hlast
  rw [h, List.mem_singleton] at hmem
  refine List.eq_nil_iff_forall_not_mem.mpr fun removal hremoval => hkept ?_
  obtain ⟨removed, hremoved, hid⟩ := mem_of_mem_removalsOf (List.mem_map_of_mem hremoval)
  rw [h, List.mem_singleton] at hremoved
  rw [hmem, ← hremoved, hid]
  exact List.mem_map_of_mem hremoval

/-- There is nothing to plan where no family has two members. -/
theorem plan_eq_nil {members : List Member} (hdistinct : (members.map (·.id)).Nodup)
    (h : ∀ base, ∀ member ∈ familyOf base members, familyOf base members = [member]) :
    plan members = [] := by
  rw [plan_eq, List.flatMap_eq_nil_iff]
  intro base hbase
  obtain ⟨member, hmember⟩ := ((partition_families members).mem_iff base).mp hbase
  exact removalsOf_eq_nil hdistinct (h base member hmember)

end CallBinding
