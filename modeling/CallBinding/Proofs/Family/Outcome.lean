import CallBinding.Proofs.Family.Settled
import CallBinding.Proofs.Family.Succession
import CallBinding.Proofs.Name

/-!
# What plans come to

A plan for all families leaves the placeholders and one member of each family,
which is the heir of all the others.  A plan for a spawned definition treats one
family: it leaves the members older than the session and at most one newcomer,
which outranks them all.  Neither plan leaves anything to a second one.
-/

namespace CallBinding

variable {members : List Member} {base : String}

/-! ## Plans for all families -/

/-- What a plan makes of some members. -/
structure PlanOutcome (members : List Member) (plan : List Resolution) : Prop where
  once : (plan.map (·.removed)).Nodup
  removed : ∀ resolution ∈ plan, ∃ member ∈ members, member.id = resolution.removed ∧
    member.name = resolution.removedName ∧ Name.isValid member.name = true
  /-- What is kept is another member of the family, and no earlier resolution has removed it. -/
  kept : ∀ earlier resolution later, plan = earlier ++ resolution :: later →
    resolution.kept ≠ resolution.removed ∧ ∃ member ∈ remaining members earlier,
      member.id = resolution.kept ∧ member.name = resolution.keptName ∧
        Name.base? member.name = Name.base? resolution.removedName
  remaining_iff : ∀ member ∈ members, member ∈ remaining members plan ↔
    Name.isPlaceholder member.name = true ∨
      ∃ base, Name.base? member.name = some base ∧ IsSurvivor base (familyOf base members) member
  /-- One member remains of every family, and the kept members lead from each one there. -/
  family : ∀ base, ∀ member ∈ familyOf base members,
    ∃ survivor, IsSurvivor base (familyOf base members) survivor ∧
      familyOf base (remaining members plan) = [survivor] ∧
      ∀ last, IsHeir plan member.id last ↔ last = survivor.id
  eq_nil_iff : plan = [] ↔
    members.Pairwise fun member other => Name.sameFamily member.name other.name = false
  again : CallBinding.plan (remaining members plan) = []

/-- Where no two members share a base, a family has one member. -/
theorem familyOf_eq_singleton (h : members.Pairwise fun member other =>
      Name.sameFamily member.name other.name = false)
    {member : Member} (hmember : member ∈ familyOf base members) :
    familyOf base members = [member] := by
  have hbase : ∀ member ∈ familyOf base members, Name.base? member.name = some base :=
    fun _ hmem => (mem_familyOf.mp hmem).2
  have hpairwise : (familyOf base members).Pairwise fun member other =>
      Name.sameFamily member.name other.name = false := h.sublist List.filter_sublist
  match hfamily : familyOf base members with
  | [] => simp [hfamily] at hmember
  | [only] =>
      rw [hfamily, List.mem_singleton] at hmember
      rw [hmember]
  | first :: second :: rest =>
      rw [hfamily] at hbase hpairwise
      have hsame := Name.sameFamily_eq_true_iff.mpr
        ⟨base, hbase first (by simp), hbase second (by simp)⟩
      rw [List.rel_of_pairwise_cons hpairwise List.mem_cons_self] at hsame
      cases hsame

/-- A plan leaves one member of every family. -/
theorem familyOf_remaining_plan_of_mem (hdistinct : (members.map (·.id)).Nodup) {member : Member}
    (hmember : member ∈ familyOf base members) :
    ∃ survivor, IsSurvivor base (familyOf base members) survivor ∧
      familyOf base (remaining members (plan members)) = [survivor] := by
  obtain ⟨survivor, hsurvivor⟩ := IsSurvivor.exists_of_mem base hmember
  exact ⟨survivor, hsurvivor, familyOf_remaining_plan hdistinct hsurvivor⟩

theorem isHeir_plan_iff (hdistinct : (members.map (·.id)).Nodup) {member survivor : Member}
    (hmember : member ∈ familyOf base members)
    (hleft : familyOf base (remaining members (plan members)) = [survivor]) {last : BlockId} :
    IsHeir (plan members) member.id last ↔ last = survivor.id := by
  obtain ⟨hmem, hbase⟩ := mem_familyOf.mp hmember
  have hfeasible := feasible_plan hdistinct
  obtain ⟨heir, hheir, hleads, hheirBase⟩ := hfeasible.exists_heir hdistinct hmem
  have hsurvivor : heir = survivor := by
    have hfamily := mem_familyOf.mpr ⟨hheir, hheirBase.trans hbase⟩
    rwa [hleft, List.mem_singleton] at hfamily
  subst hsurvivor
  constructor
  · exact fun hlast => hlast.unique hfeasible.nodup_removed hleads
  · rintro rfl
    exact hleads

theorem mem_remaining_plan_iff (hdistinct : (members.map (·.id)).Nodup) {member : Member}
    (hmember : member ∈ members) :
    member ∈ remaining members (plan members) ↔ Name.isPlaceholder member.name = true ∨
      ∃ base, Name.base? member.name = some base ∧
        IsSurvivor base (familyOf base members) member := by
  constructor
  · intro hremains
    cases hbase : Name.base? member.name with
    | none => exact .inl (Name.base?_eq_none_iff.mp hbase)
    | some base =>
        obtain ⟨survivor, hsurvivor, hleft⟩ :=
          familyOf_remaining_plan_of_mem hdistinct (mem_familyOf.mpr ⟨hmember, hbase⟩)
        have hfamily := mem_familyOf.mpr ⟨hremains, hbase⟩
        rw [hleft, List.mem_singleton] at hfamily
        exact .inr ⟨base, rfl, hfamily ▸ hsurvivor⟩
  · rintro (hplaceholder | ⟨base, -, hsurvivor⟩)
    · exact mem_remaining_plan_of_placeholder hdistinct hmember
        (Name.base?_eq_none_iff.mpr hplaceholder)
    · have hleft := familyOf_remaining_plan hdistinct hsurvivor
      have hfamily : member ∈ familyOf base (remaining members (plan members)) := by simp [hleft]
      exact (mem_familyOf.mp hfamily).1

theorem plan_eq_nil_iff (hdistinct : (members.map (·.id)).Nodup) : plan members = [] ↔
    members.Pairwise fun member other => Name.sameFamily member.name other.name = false := by
  constructor
  · intro hnil
    refine List.pairwise_iff_forall_sublist.mpr fun {member other} hsub => ?_
    rw [← Bool.not_eq_true]
    intro hsame
    obtain ⟨base, hbase, hotherBase⟩ := Name.sameFamily_eq_true_iff.mp hsame
    have hfamily : [member, other].Sublist (familyOf base members) := by
      have := hsub.filter fun member => Name.base? member.name = some base
      rwa [List.filter_cons_of_pos (by simpa using hbase),
        List.filter_cons_of_pos (by simpa using hotherBase), List.filter_nil] at this
    obtain ⟨survivor, -, hleft⟩ :=
      familyOf_remaining_plan_of_mem hdistinct (hfamily.subset List.mem_cons_self)
    rw [hnil, remaining, List.map_nil, List.filter_eq_self.mpr (by simp)] at hleft
    rw [hleft] at hfamily
    simpa using hfamily.length_le
  · exact fun h => plan_eq_nil hdistinct fun _ _ hmember => familyOf_eq_singleton h hmember

/-- There is nothing to plan for what a plan leaves. -/
theorem plan_remaining_plan (hdistinct : (members.map (·.id)).Nodup) :
    plan (remaining members (plan members)) = [] := by
  refine plan_eq_nil (hdistinct.sublist (List.filter_sublist.map _)) fun base member hmember => ?_
  obtain ⟨hremains, hbase⟩ := mem_familyOf.mp hmember
  obtain ⟨survivor, -, hleft⟩ := familyOf_remaining_plan_of_mem hdistinct
    (mem_familyOf.mpr ⟨(mem_remaining.mp hremains).1, hbase⟩)
  rw [hleft, List.mem_singleton] at hmember
  rw [hleft, hmember]

/-- The result of a plan, for any members that can be told apart. -/
theorem outcome_plan (hdistinct : (members.map (·.id)).Nodup) :
    PlanOutcome members (plan members) where
  once := (feasible_plan hdistinct).nodup_removed
  removed resolution hresolution := by
    obtain ⟨member, hmember, hid, hname, hbase⟩ :=
      (feasible_plan hdistinct).removed_mem resolution hresolution
    exact ⟨member, hmember, hid, hname, Name.base?_ne_none_iff.mp hbase⟩
  kept _ _ _ hplan := (feasible_plan hdistinct).kept_after hplan
  remaining_iff _ hmember := mem_remaining_plan_iff hdistinct hmember
  family base member hmember := by
    obtain ⟨survivor, hsurvivor, hleft⟩ := familyOf_remaining_plan_of_mem hdistinct hmember
    exact ⟨survivor, hsurvivor, hleft, fun _ => isHeir_plan_iff hdistinct hmember hleft⟩
  eq_nil_iff := plan_eq_nil_iff hdistinct
  again := plan_remaining_plan hdistinct

theorem outcome_plan_of_variants :
    let members : List Member := [⟨⟨0⟩, "f2", 3⟩, ⟨⟨1⟩, "f", 1⟩, ⟨⟨2⟩, "unnamed", 0⟩, ⟨⟨3⟩, "f", 1⟩,
      ⟨⟨4⟩, "g7", 0⟩, ⟨⟨5⟩, "g8", 2⟩]
    (members.map (·.id)).Nodup ∧
      (remaining members (plan members)).map (·.id) = [⟨1⟩, ⟨2⟩, ⟨5⟩] ∧
      PlanOutcome members (plan members) := by
  intro members
  have hdistinct : (members.map (·.id)).Nodup := by decide
  exact ⟨hdistinct, by decide +kernel, outcome_plan hdistinct⟩

/-! ## Plans for spawned definitions -/

/-- What a plan for a spawned definition makes of the family of its base, given the definitions
that are older than the session. -/
structure SpawnedOutcome (prior : List BlockId) (name base : String) (members : List Member)
    (plan : List Resolution) : Prop where
  once : (plan.map (·.removed)).Nodup
  removed : ∀ resolution ∈ plan, resolution.removed ∉ prior ∧ ∃ member ∈ familyOf base members,
    member.id = resolution.removed ∧ member.name = resolution.removedName
  /-- What is kept is another member of the family, and no earlier resolution has removed it. -/
  kept : ∀ earlier resolution later, plan = earlier ++ resolution :: later →
    resolution.kept ≠ resolution.removed ∧
      ∃ member ∈ familyOf base (remaining members earlier),
        member.id = resolution.kept ∧ member.name = resolution.keptName
  elders : ∀ elder ∈ members, elder.id ∈ prior → elder ∈ remaining members plan
  /-- There is one newcomer at most. -/
  newcomer : ∀ newcomer ∈ familyOf base (remaining members plan), newcomer.id ∉ prior →
    ∀ other ∈ familyOf base (remaining members plan), other.id ∉ prior → newcomer = other
  richer : ∀ newcomer ∈ familyOf base (remaining members plan), newcomer.id ∉ prior →
    ∀ elder ∈ familyOf base members, elder.id ∈ prior → elder.count < newcomer.count
  named : ∀ newcomer ∈ familyOf base (remaining members plan), newcomer.id ∉ prior →
    ∀ other ∈ familyOf base (remaining members plan), other.name = base → newcomer.name = base
  /-- Without older members one member remains, unless the family had none to begin with. -/
  alone : (∀ member ∈ familyOf base members, member.id ∉ prior) →
    (familyOf base (remaining members plan)).length = min 1 (familyOf base members).length
  again : planSpawned (remaining members plan) name prior = []

namespace IsSettled

variable {prior : List BlockId} {family : List Member} {newcomer elder other : Member}

/-- A newcomer in a settled family outranks its older members. -/
theorem count_lt (h : IsSettled prior family) (hnewcomer : newcomer ∈ family)
    (hnew : newcomer.id ∉ prior) (helder : elder ∈ family) (hprior : elder.id ∈ prior) :
    elder.count < newcomer.count := by
  by_contra hcount
  obtain ⟨kept, -, -, -, hruling⟩ :=
    newcomerRuling?_of_outranked hnew helder hprior (not_lt.mp hcount)
  rw [h newcomer hnewcomer] at hruling
  cases hruling

/-- A newcomer in a settled family carries the base name if any member does. -/
theorem name_eq_base (h : IsSettled prior family) (hfamily : IsFamily base family)
    (hnewcomer : newcomer ∈ family) (hnew : newcomer.id ∉ prior) (hother : other ∈ family)
    (hname : other.name = base) : newcomer.name = base := by
  have hruling := ruling?_of_newcomerRuling? hnew (h newcomer hnewcomer)
  have hsurvivor := (ruling?_eq_none_iff hfamily hnewcomer).mp hruling
  rcases hsurvivor.named_or_unnamed with ⟨hnamed, -⟩ | ⟨hnone, -⟩
  · exact hnamed
  · exact absurd hname (hnone other hother)

/-- A settled family without older members has one member at most. -/
theorem length_le_one (h : IsSettled prior family) (hfamily : IsFamily base family)
    (hnew : ∀ member ∈ family, member.id ∉ prior) : family.length ≤ 1 := by
  match family with
  | [] => exact Nat.zero_le 1
  | [_] => exact le_refl 1
  | first :: second :: rest =>
      have hsame : first = second :=
        h.eq_of_new hfamily (by simp) (by simp) (hnew first (by simp)) (hnew second (by simp))
      have hne : first ≠ second := by
        have := hfamily.nodup
        simp only [List.nodup_cons, List.mem_cons, not_or] at this
        exact this.1.1
      exact absurd hsame hne

end IsSettled

section

variable {prior : List BlockId} {name : String}

theorem mem_remaining_planSpawned_of_mem_prior (name : String) {elder : Member}
    (helder : elder ∈ members) (hprior : elder.id ∈ prior) :
    elder ∈ remaining members (planSpawned members name prior) := by
  refine mem_remaining.mpr ⟨helder, fun hremoved => ?_⟩
  obtain ⟨resolution, hresolution, hid⟩ := List.mem_map.mp hremoved
  exact removed_not_mem_prior members name prior resolution hresolution (hid ▸ hprior)

/-- A plan for a spawned definition leaves one member of a family that has only newcomers. -/
theorem length_remaining_planSpawned (hdistinct : (members.map (·.id)).Nodup)
    (hbase : Name.base? name = some base)
    (hnew : ∀ member ∈ familyOf base members, member.id ∉ prior) :
    (familyOf base (remaining members (planSpawned members name prior))).length =
      min 1 (familyOf base members).length := by
  have hfamily := isFamily_familyOf hdistinct base
  have hfeasible := feasible_planSpawned_familyOf hdistinct hbase prior
  have hsettled : IsSettled prior
      (familyOf base (remaining members (planSpawned members name prior))) :=
    isSettled_remaining_planSpawned hdistinct hbase
  rw [familyOf_remaining] at hsettled ⊢
  have hsub : (remaining (familyOf base members) (planSpawned members name prior)).Sublist
      (familyOf base members) := List.filter_sublist
  have hone := hsettled.length_le_one (hfamily.sublist hsub)
    fun member hmember => hnew member (hsub.subset hmember)
  cases hmembers : familyOf base members with
  | nil => rw [hmembers] at hsub; rw [List.sublist_nil.mp hsub]; rfl
  | cons first rest =>
      have hfirst : first ∈ familyOf base members := by simp [hmembers]
      obtain ⟨heir, hheir, -⟩ := hfeasible.exists_heir hfamily.distinct hfirst
      have hpos := List.length_pos_of_mem hheir
      rw [← hmembers, Nat.min_eq_left (List.length_pos_of_mem hfirst)]
      omega

/-- The result of the plan for a spawned definition, for any members that can be told apart and
any definitions that are older than the session. -/
theorem outcome_planSpawned (hdistinct : (members.map (·.id)).Nodup)
    (hvalid : Name.isValid name = true) (prior : List BlockId) :
    ∃ base, Name.base? name = some base ∧
      SpawnedOutcome prior name base members (planSpawned members name prior) := by
  obtain ⟨base, hbase⟩ := Option.ne_none_iff_exists'.mp (Name.base?_ne_none_iff.mpr hvalid)
  have hfeasible := feasible_planSpawned_familyOf hdistinct hbase prior
  have hsettled : IsSettled prior
      (familyOf base (remaining members (planSpawned members name prior))) :=
    isSettled_remaining_planSpawned hdistinct hbase
  have hleft : IsFamily base (familyOf base (remaining members (planSpawned members name prior))) :=
    isFamily_familyOf (hdistinct.sublist (List.filter_sublist.map _)) base
  refine ⟨base, hbase, ?_⟩
  constructor
  case once => exact hfeasible.nodup_removed
  case removed =>
    intro resolution hresolution
    obtain ⟨member, hmember, hid, hname, -⟩ := hfeasible.removed_mem resolution hresolution
    exact ⟨removed_not_mem_prior members name prior resolution hresolution,
      member, hmember, hid, hname⟩
  case kept =>
    intro earlier resolution later hplan
    obtain ⟨hne, member, hmember, hid, hname, -⟩ := hfeasible.kept_after hplan
    exact ⟨hne, member, by rwa [familyOf_remaining], hid, hname⟩
  case elders =>
    exact fun elder helder hprior => mem_remaining_planSpawned_of_mem_prior name helder hprior
  case newcomer =>
    intro newcomer hnewcomer hnew other hother hotherNew
    exact hsettled.eq_of_new hleft hnewcomer hother hnew hotherNew
  case richer =>
    intro newcomer hnewcomer hnew elder helder hprior
    obtain ⟨hmem, helderBase⟩ := mem_familyOf.mp helder
    have hremains := mem_remaining_planSpawned_of_mem_prior name hmem hprior
    exact hsettled.count_lt hnewcomer hnew (mem_familyOf.mpr ⟨hremains, helderBase⟩) hprior
  case named =>
    intro newcomer hnewcomer hnew other hother hname
    exact hsettled.name_eq_base hleft hnewcomer hnew hother hname
  case alone => exact length_remaining_planSpawned hdistinct hbase
  case again => exact planSpawned_of_isSettled hbase hsettled

theorem outcome_planSpawned_of_richer_newcomer :
    let members : List Member := [⟨⟨0⟩, "f", 1⟩, ⟨⟨1⟩, "f2", 2⟩, ⟨⟨2⟩, "f3", 1⟩, ⟨⟨3⟩, "f", 3⟩]
    let prior : List BlockId := [⟨0⟩, ⟨1⟩]
    (members.map (·.id)).Nodup ∧ Name.isValid "f3" = true ∧
      (remaining members (planSpawned members "f3" prior)).map (·.id) = [⟨0⟩, ⟨1⟩, ⟨3⟩] ∧
      ∃ base, Name.base? "f3" = some base ∧
        SpawnedOutcome prior "f3" base members (planSpawned members "f3" prior) := by
  intro members prior
  have hdistinct : (members.map (·.id)).Nodup := by decide
  have hvalid : Name.isValid "f3" = true := by decide
  exact ⟨hdistinct, hvalid, by decide +kernel, outcome_planSpawned hdistinct hvalid prior⟩

end

end CallBinding
