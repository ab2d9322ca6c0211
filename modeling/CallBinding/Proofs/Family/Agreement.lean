import CallBinding.Proofs.Family.Newcomers
import CallBinding.Proofs.Name

/-!
# Three planners

There is a plan for all families, a plan for the family of one name, and a plan
for the family of a name that spares the members older than a session.  They
agree: the first is made of the second, family by family, and the third is the
second where a family has no older members.  None of this needs ids that tell
the members apart.
-/

namespace CallBinding

/-- The bases of some members, in the order in which they first appear. -/
def bases (members : List Member) : List String :=
  (members.filterMap fun member => Name.base? member.name).eraseDups

/-- A resolution concerns the family of a base. -/
def Resolution.concerns (base : String) (resolution : Resolution) : Bool :=
  Name.base? resolution.removedName = some base

/-- What the planners find for some members, whichever of them is asked. -/
structure PlannersAgree (members : List Member) : Prop where
  bases_named : ∀ base, base ∈ bases members ↔
    ∃ member ∈ members, Name.base? member.name = some base
  /-- The whole plan is made of the plans for its families, each for any name of the family. -/
  whole : ∀ name : String → String, (∀ base ∈ bases members, Name.base? (name base) = some base) →
    plan members = (bases members).flatMap fun base => planFamily members (name base)
  /-- The plan for a family is what the whole plan has about it, in the same order. -/
  part : ∀ name base, Name.base? name = some base →
    planFamily members name = (plan members).filter (·.concerns base)
  /-- The members of other families, and where they stand, do not matter. -/
  independent : ∀ others base, familyOf base others = familyOf base members →
    (plan others).filter (·.concerns base) = (plan members).filter (·.concerns base)
  /-- Without older members in its family, a spawned definition is planned for like any other. -/
  spawned : ∀ name prior, Name.isValid name = true →
    (∀ member ∈ members, Name.sameFamily member.name name = true → member.id ∉ prior) →
    planSpawned members name prior = planFamily members name

/-! ## The families that a plan treats -/

theorem eraseDups_append_singleton (names : List String) (name : String) :
    (names ++ [name]).eraseDups =
      if name ∈ names then names.eraseDups else names.eraseDups ++ [name] := by
  rw [List.eraseDups_append]
  split
  next hold => simp [List.removeAll, hold]
  next hnew => simp [List.removeAll, hnew, List.eraseDups_cons]

theorem map_fst_families (members : List Member) :
    (families members).map (·.1) = bases members := by
  induction members using List.reverseRecOn with
  | nil => rfl
  | append_singleton members member ih =>
      rw [families_append_singleton, bases, List.filterMap_append]
      cases hbase : Name.base? member.name with
      | none => simpa [bases, hbase] using ih
      | some base =>
          have hsingle : [member].filterMap (fun member => Name.base? member.name) = [base] := by
            simp [hbase]
          rw [Option.elim_some, map_fst_enroll, ih, hsingle, eraseDups_append_singleton, bases]
          simp only [List.mem_eraseDups]

theorem mem_bases {members : List Member} {base : String} :
    base ∈ bases members ↔ ∃ member, member ∈ familyOf base members := by
  rw [← map_fst_families]
  exact (partition_families members).mem_iff base

theorem nodup_bases (members : List Member) : (bases members).Nodup := by
  rw [← map_fst_families]
  exact (partition_families members).distinct

theorem plan_eq_flatMap_bases (members : List Member) :
    plan members = (bases members).flatMap (removalsOf members) := by
  rw [plan_eq, map_fst_families]

/-! ## The plan for one family -/

section

variable {members : List Member} {name base other : String}

theorem familyOf_eq_nil (hbase : base ∉ bases members) : familyOf base members = [] :=
  List.eq_nil_iff_forall_not_mem.mpr fun member hmember => hbase (mem_bases.mpr ⟨member, hmember⟩)

theorem removalsOf_eq_nil_of_not_mem_bases (hbase : base ∉ bases members) :
    removalsOf members base = [] := by
  rw [removalsOf, familyOf_eq_nil hbase, removals_of_none rfl]

theorem familyOf_familyOf (base : String) (members : List Member) :
    familyOf base (familyOf base members) = familyOf base members := by
  simp [familyOf]

theorem bases_familyOf (hbase : base ∈ bases members) :
    bases (familyOf base members) = [base] := by
  have hall : ∀ other ∈ bases (familyOf base members), other = base := by
    intro other hother
    obtain ⟨member, hmember⟩ := mem_bases.mp hother
    obtain ⟨hmem, hmemberBase⟩ := mem_familyOf.mp hmember
    exact Option.some.inj (hmemberBase.symm.trans (mem_familyOf.mp hmem).2)
  have hmem : base ∈ bases (familyOf base members) := by
    rwa [mem_bases, familyOf_familyOf, ← mem_bases]
  have hnodup := nodup_bases (familyOf base members)
  rw [List.eq_replicate_of_mem hall] at hnodup ⊢
  rw [le_antisymm (List.nodup_replicate.mp hnodup) (List.length_pos_of_mem hmem)]
  rfl

/-- The plan for a family is the same for each of its names. -/
theorem planFamily_eq (hname : Name.base? name = some base) :
    planFamily members name = removalsOf members base := by
  have hplan : planFamily members name = plan (familyOf base members) := by
    rw [planFamily, hname]
  by_cases hbase : base ∈ bases members
  · rw [hplan, plan_eq_flatMap_bases, bases_familyOf hbase, List.flatMap_singleton, removalsOf,
      removalsOf, familyOf_familyOf]
  · rw [removalsOf_eq_nil_of_not_mem_bases hbase, hplan, familyOf_eq_nil hbase]
    rfl

/-- What is planned for a family concerns that family. -/
theorem filter_concerns_removalsOf (base other : String) (members : List Member) :
    (removalsOf members other).filter (·.concerns base) =
      if other = base then removalsOf members other else [] := by
  obtain ⟨left, hleft⟩ := removes_removals ruling? (familyOf other members)
  have hconcerns : ∀ resolution ∈ removalsOf members other,
      Name.base? resolution.removedName = some other := by
    intro resolution hresolution
    obtain ⟨member, hmember, -, hname⟩ := hleft.exists_removed resolution hresolution
    rw [← hname]
    exact (mem_familyOf.mp hmember).2
  split
  next hsame =>
    refine List.filter_eq_self.mpr fun resolution hresolution => ?_
    rw [Resolution.concerns, hconcerns resolution hresolution, hsame]
    exact decide_eq_true rfl
  next hother =>
    refine List.filter_eq_nil_iff.mpr fun resolution hresolution => ?_
    rw [Resolution.concerns, hconcerns resolution hresolution]
    simpa using hother

theorem filter_concerns_plan (base : String) (members : List Member) :
    (plan members).filter (·.concerns base) = removalsOf members base := by
  have hother : ∀ others : List String, base ∉ others →
      (others.flatMap fun other => (removalsOf members other).filter (·.concerns base)) = [] := by
    intro others hothers
    refine List.flatMap_eq_nil_iff.mpr fun other hmem => ?_
    have hne : other ≠ base := fun h => hothers (h ▸ hmem)
    rw [filter_concerns_removalsOf, if_neg hne]
  rw [plan_eq_flatMap_bases, List.filter_flatMap]
  by_cases hbase : base ∈ bases members
  · have hnodup := nodup_bases members
    obtain ⟨before, after, hsplit⟩ := List.append_of_mem hbase
    rw [hsplit] at hnodup ⊢
    obtain ⟨-, hnodup, hdisjoint⟩ := List.nodup_append.mp hnodup
    have hbefore : base ∉ before := fun h => hdisjoint base h base List.mem_cons_self rfl
    rw [List.flatMap_append, List.flatMap_cons, hother before hbefore,
      hother after (List.nodup_cons.mp hnodup).1, filter_concerns_removalsOf, if_pos rfl,
      List.nil_append, List.append_nil]
  · rw [hother _ hbase, removalsOf_eq_nil_of_not_mem_bases hbase]

end

/-! ## The plan for a spawned definition -/

section

variable {prior : List BlockId} {live : List Member}

theorem removeFirst?_congr {rule? other? : Member → Option (Rule × Member)}
    (h : ∀ member ∈ live, rule? member = other? member) :
    removeFirst? rule? live = removeFirst? other? live := by
  induction live with
  | nil => rfl
  | cons first rest ih =>
      rw [removeFirst?, removeFirst?, h first List.mem_cons_self,
        ih fun member hmember => h member (List.mem_cons_of_mem first hmember)]

/-- Planners whose rulings agree as long as members are only taken out plan the same. -/
theorem removals_congr {rule? other? : List Member → Member → Option (Rule × Member)}
    (h : ∀ family, family.Sublist live → ∀ member ∈ family,
      rule? family member = other? family member) :
    removals rule? live = removals other? live := by
  induction live using removals.induct rule? with
  | case1 live hnone =>
      have hsame := removeFirst?_congr (h live (List.Sublist.refl live))
      rw [removals_of_none hnone, removals_of_none (hsame.symm.trans hnone)]
  | case2 live removal left hsome ih =>
      have hsame := removeFirst?_congr (h live (List.Sublist.refl live))
      rw [removals_of_some hsome, removals_of_some (hsame.symm.trans hsome)]
      obtain ⟨before, member, after, ruling, rfl, rfl, -, -⟩ := removeFirst?_eq_some hsome
      have hsub := append_sublist_append_cons before member after
      rw [ih fun family hfamily => h family (hfamily.trans hsub)]

/-- Among newcomers only the table decides. -/
theorem removals_newcomerRuling? (hnew : ∀ member ∈ live, member.id ∉ prior) :
    removals (newcomerRuling? prior) live = removals ruling? live := by
  refine removals_congr fun family hfamily member hmember => ?_
  refine newcomerRuling?_eq_ruling? (hnew member (hfamily.subset hmember)) fun elder helder h => ?_
  exact absurd h (hnew elder (hfamily.subset helder))

end

/-- The three planners agree on every list of members. -/
theorem plannersAgree (members : List Member) : PlannersAgree members := by
  constructor
  case bases_named =>
    intro base
    simp only [mem_bases, mem_familyOf]
  case whole =>
    intro name hname
    rw [plan_eq_flatMap_bases]
    exact List.flatMap_congr fun base hbase => (planFamily_eq (hname base hbase)).symm
  case part =>
    intro name base hname
    rw [planFamily_eq hname, filter_concerns_plan]
  case independent =>
    intro others base hfamily
    rw [filter_concerns_plan, filter_concerns_plan, removalsOf, removalsOf, hfamily]
  case spawned =>
    intro name prior hvalid hnew
    obtain ⟨base, hname⟩ := Option.ne_none_iff_exists'.mp (Name.base?_ne_none_iff.mpr hvalid)
    have hspawned : planSpawned members name prior =
        removals (newcomerRuling? prior) (familyOf base members) := by rw [planSpawned, hname]
    rw [hspawned, planFamily_eq hname, removalsOf]
    refine removals_newcomerRuling? fun member hmember => ?_
    obtain ⟨hmem, hbase⟩ := mem_familyOf.mp hmember
    exact hnew member hmem (Name.sameFamily_eq_true_iff.mpr ⟨base, hbase, hname⟩)

end CallBinding
