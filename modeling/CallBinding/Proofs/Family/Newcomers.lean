import CallBinding.Proofs.Family.Plan

/-!
# Plans for spawned definitions

The plan for a spawned definition treats one family, by rulings that spare the
members older than a session.  It leaves all of these, but it may lead their
name elsewhere: call sites follow names, and a newcomer may carry an older
member's name and yet yield to a member of another one.  This happens only if
the newcomer has more parameters than every older namesake, and it does happen
then if each newcomer of the family yields to an older member.
-/

namespace CallBinding

/-- Every newcomer of a name has an older namesake with at least as many parameters. -/
def Spared (prior : List BlockId) (members : List Member) (name : String) : Prop :=
  ∀ newcomer ∈ members, newcomer.id ∉ prior → newcomer.name = name →
    ∃ elder ∈ members, elder.id ∈ prior ∧ elder.name = name ∧ newcomer.count ≤ elder.count

/-- Every newcomer has an older member with at least as many parameters. -/
def Outranked (prior : List BlockId) (members : List Member) : Prop :=
  ∀ newcomer ∈ members, newcomer.id ∉ prior →
    ∃ elder ∈ members, elder.id ∈ prior ∧ newcomer.count ≤ elder.count

/-! ## Rulings on newcomers -/

section

variable {prior : List BlockId} {family : List Member} {candidate elder kept : Member}
variable {rule : Rule}

/-- The older members with at least as many parameters as a candidate. -/
def elders (prior : List BlockId) (family : List Member) (candidate : Member) : List Member :=
  family.filter fun member =>
    member.id ≠ candidate.id && prior.contains member.id && candidate.count ≤ member.count

theorem elderOf?_eq (prior : List BlockId) (family : List Member) (candidate : Member) :
    elderOf? prior family candidate =
      (((elders prior family candidate).find? fun member => member.name = candidate.name).or
        ((elders prior family candidate).find? fun member =>
          Name.base? candidate.name = some member.name)).or
        (elders prior family candidate).head? :=
  rfl

theorem mem_elders :
    elder ∈ elders prior family candidate ↔
      elder ∈ family ∧ elder.id ≠ candidate.id ∧ elder.id ∈ prior ∧
        candidate.count ≤ elder.count := by
  simp [elders, and_assoc]

theorem mem_of_elderOf? (h : elderOf? prior family candidate = some elder) :
    elder ∈ elders prior family candidate := by
  rw [elderOf?_eq] at h
  rcases Option.or_eq_some_iff.mp h with hnamed | ⟨-, hhead⟩
  · rcases Option.or_eq_some_iff.mp hnamed with hsame | ⟨-, hbase⟩
    · exact List.mem_of_find?_eq_some hsame
    · exact List.mem_of_find?_eq_some hbase
  · exact List.mem_of_head? hhead

/-- Whoever yields to an older member or by the table does so to another one that is present. -/
theorem mem_of_newcomerRuling? (h : newcomerRuling? prior family candidate = some (rule, kept)) :
    kept ∈ family ∧ kept.id ≠ candidate.id := by
  unfold newcomerRuling? at h
  split at h
  · cases h
  · rcases Option.or_eq_some_iff.mp h with hprior | ⟨-, htable⟩
    · obtain ⟨elder, helder, heq⟩ := Option.map_eq_some_iff.mp hprior
      obtain ⟨-, rfl⟩ := Prod.mk.inj heq
      obtain ⟨hmem, hne, -, -⟩ := mem_elders.mp (mem_of_elderOf? helder)
      exact ⟨hmem, hne⟩
    · exact mem_of_ruling? htable

theorem not_mem_prior_of_newcomerRuling? {ruling : Rule × Member}
    (h : newcomerRuling? prior family candidate = some ruling) : candidate.id ∉ prior := by
  intro hprior
  rw [newcomerRuling?, if_pos (List.contains_iff_mem.mpr hprior)] at h
  cases h

/-- A newcomer that some older member outranks yields to one that does. -/
theorem newcomerRuling?_of_outranked (hnew : candidate.id ∉ prior) (helder : elder ∈ family)
    (hprior : elder.id ∈ prior) (hcount : candidate.count ≤ elder.count) :
    ∃ kept ∈ family, kept.id ∈ prior ∧ candidate.count ≤ kept.count ∧
      newcomerRuling? prior family candidate = some (.priorSibling, kept) := by
  have hne : elder.id ≠ candidate.id := fun h => hnew (h ▸ hprior)
  have hrival := mem_elders.mpr ⟨helder, hne, hprior, hcount⟩
  obtain ⟨kept, hkept⟩ : ∃ kept, elderOf? prior family candidate = some kept := by
    rw [← Option.isSome_iff_exists, elderOf?_eq, Option.isSome_or,
      List.isSome_head?.mpr (List.ne_nil_of_mem hrival), Bool.or_true]
  obtain ⟨hmem, -, hkeptPrior, hkeptCount⟩ := mem_elders.mp (mem_of_elderOf? hkept)
  refine ⟨kept, hmem, hkeptPrior, hkeptCount, ?_⟩
  rw [newcomerRuling?, if_neg (by simpa using hnew), hkept]
  rfl

/-- On a newcomer that outranks all older members only the table decides. -/
theorem newcomerRuling?_eq_ruling? (hnew : candidate.id ∉ prior)
    (hpoorer : ∀ elder ∈ family, elder.id ∈ prior → elder.count < candidate.count) :
    newcomerRuling? prior family candidate = ruling? family candidate := by
  have hnone : elderOf? prior family candidate = none := by
    refine Option.eq_none_iff_forall_ne_some.mpr fun elder helder => ?_
    obtain ⟨hmem, -, hprior, hcount⟩ := mem_elders.mp (mem_of_elderOf? helder)
    exact hcount.not_gt (hpoorer elder hmem hprior)
  rw [newcomerRuling?, if_neg (by simpa using hnew), hnone, Option.map_none, Option.none_or]

/-- A newcomer that an older namesake outranks yields to a namesake. -/
theorem name_of_newcomerRuling? (helder : elder ∈ family) (hprior : elder.id ∈ prior)
    (hname : elder.name = candidate.name) (hcount : candidate.count ≤ elder.count)
    (h : newcomerRuling? prior family candidate = some (rule, kept)) :
    kept.name = candidate.name := by
  have hnew := not_mem_prior_of_newcomerRuling? h
  have hne : elder.id ≠ candidate.id := fun h => hnew (h ▸ hprior)
  have hrival := mem_elders.mpr ⟨helder, hne, hprior, hcount⟩
  obtain ⟨namesake, hnamesake⟩ : ∃ namesake, (elders prior family candidate).find?
      (fun member => member.name = candidate.name) = some namesake := by
    rw [← Option.isSome_iff_exists, List.find?_isSome]
    exact ⟨elder, hrival, by simpa using hname⟩
  have helderOf : elderOf? prior family candidate = some namesake := by
    rw [elderOf?_eq, hnamesake, Option.some_or, Option.some_or]
  rw [newcomerRuling?, if_neg (by simpa using hnew), helderOf] at h
  obtain ⟨-, rfl⟩ := Prod.mk.inj (Option.some.inj h)
  simpa using List.find?_some hnamesake

end

/-! ## Where a plan leads the name of an older member -/

namespace Removes

variable {prior : List BlockId} {live left : List Member} {plan : List Resolution}
variable {name : String}

theorem not_mem_prior (h : Removes (newcomerRuling? prior) live plan left) :
    ∀ resolution ∈ plan, resolution.removed ∉ prior := by
  generalize hrule : newcomerRuling? prior = rule? at h
  induction h with
  | done _ => simp
  | @step before after left member ruling plan hruling _ ih =>
      subst hrule
      intro resolution hresolution
      rcases List.mem_cons.mp hresolution with rfl | hrest
      · exact not_mem_prior_of_newcomerRuling? hruling
      · exact ih resolution hrest

/-- Taking out a newcomer takes out no older member. -/
theorem mem_of_mem_prior {before after : List Member} {member elder : Member}
    (hnew : member.id ∉ prior) (hprior : elder.id ∈ prior) :
    elder ∈ before ++ after ↔ elder ∈ before ++ member :: after := by
  have hne : elder ≠ member := fun h => hnew (h ▸ hprior)
  simp [hne]

theorem spared_of_step {before after : List Member} {member : Member} (hnew : member.id ∉ prior)
    (h : Spared prior (before ++ member :: after) name) : Spared prior (before ++ after) name := by
  intro newcomer hnewcomer hnewcomerNew hname
  have hmem := (append_sublist_append_cons before member after).subset hnewcomer
  obtain ⟨elder, helder, hprior, hspec⟩ := h newcomer hmem hnewcomerNew hname
  exact ⟨elder, (mem_of_mem_prior hnew hprior).mpr helder, hprior, hspec⟩

theorem outranked_of_step {before after : List Member} {member : Member}
    (hnew : member.id ∉ prior) (h : Outranked prior (before ++ member :: after)) :
    Outranked prior (before ++ after) := by
  intro newcomer hnewcomer hnewcomerNew
  have hmem := (append_sublist_append_cons before member after).subset hnewcomer
  obtain ⟨elder, helder, hprior, hcount⟩ := h newcomer hmem hnewcomerNew
  exact ⟨elder, (mem_of_mem_prior hnew hprior).mpr helder, hprior, hcount⟩

/-- A name that is spared leads nowhere. -/
theorem follow_of_spared (h : Removes (newcomerRuling? prior) live plan left)
    (hspared : Spared prior live name) : follow plan name = name := by
  generalize hrule : newcomerRuling? prior = rule? at h
  induction h with
  | done _ => rfl
  | @step before after left member ruling plan hruling _ ih =>
      subst hrule
      have hnew := not_mem_prior_of_newcomerRuling? hruling
      have hrest := ih (spared_of_step hnew hspared)
      rw [follow_cons]
      by_cases hname : name = member.name
      · obtain ⟨elder, helder, hprior, helderName, hcount⟩ :=
          hspared member (by simp) hnew hname.symm
        have hkept : ruling.2.name = member.name :=
          name_of_newcomerRuling? helder hprior (helderName.trans hname) hcount hruling
        rw [show (resolution member ruling).removedName = member.name from rfl, if_pos hname,
          show (resolution member ruling).keptName = ruling.2.name from rfl, hkept, ← hname]
        exact hrest
      · rw [show (resolution member ruling).removedName = member.name from rfl, if_neg hname]
        exact hrest

/-- Some older member of one name outranks every older member of another. -/
def Above (prior : List BlockId) (live : List Member) (name other : String) : Prop :=
  ∃ elder ∈ live, elder.id ∈ prior ∧ elder.name = other ∧
    ∀ rival ∈ live, rival.id ∈ prior → rival.name = name → rival.count < elder.count

theorem above_of_step {before after : List Member} {member : Member} {other : String}
    (hnew : member.id ∉ prior) (h : Above prior (before ++ member :: after) name other) :
    Above prior (before ++ after) name other := by
  obtain ⟨elder, helder, hprior, hname, hrivals⟩ := h
  refine ⟨elder, (mem_of_mem_prior hnew hprior).mpr helder, hprior, hname, ?_⟩
  intro rival hrival hrivalPrior
  exact hrivals rival ((mem_of_mem_prior hnew hrivalPrior).mp hrival) hrivalPrior

theorem Above.ne {other : String} (h : Above prior live name other) : other ≠ name := by
  rintro rfl
  obtain ⟨elder, helder, hprior, hname, hrivals⟩ := h
  exact lt_irrefl _ (hrivals elder helder hprior hname)

/-- Once a plan has led a name to that of a member above it, it does not lead back. -/
theorem follow_above (h : Removes (newcomerRuling? prior) live plan left)
    (houtranked : Outranked prior live) {other : String} (habove : Above prior live name other) :
    follow plan other ≠ name := by
  generalize hrule : newcomerRuling? prior = rule? at h
  induction h generalizing other with
  | done _ => exact habove.ne
  | @step before after left member ruling plan hruling _ ih =>
      subst hrule
      have hnew := not_mem_prior_of_newcomerRuling? hruling
      have hrest := outranked_of_step hnew houtranked
      rw [follow_cons, show (resolution member ruling).removedName = member.name from rfl,
        show (resolution member ruling).keptName = ruling.2.name from rfl]
      split
      next hname =>
        refine ih hrest (above_of_step hnew ?_)
        obtain ⟨elder, helder, hprior, helderName, hrivals⟩ := habove
        by_cases hcount : member.count ≤ elder.count
        · have hkept : ruling.2.name = member.name :=
            name_of_newcomerRuling? helder hprior (helderName.trans hname) hcount hruling
          exact ⟨elder, helder, hprior, by rw [helderName, hkept, hname], hrivals⟩
        · obtain ⟨outranking, houtranking, houtrankingPrior, houtrankingCount⟩ :=
            houtranked member (by simp) hnew
          obtain ⟨kept, hkept, hkeptPrior, hkeptCount, hkeptRuling⟩ :=
            newcomerRuling?_of_outranked hnew houtranking houtrankingPrior houtrankingCount
          obtain rfl := Option.some.inj (hruling.symm.trans hkeptRuling)
          refine ⟨kept, hkept, hkeptPrior, rfl, fun rival hrival hrivalPrior hrivalName => ?_⟩
          have := hrivals rival hrival hrivalPrior hrivalName
          omega
      next => exact ih hrest (above_of_step hnew habove)

/-- If every newcomer yields to an older member, a name that is not spared leads elsewhere. -/
theorem follow_of_not_spared (h : Removes (newcomerRuling? prior) live plan left)
    (houtranked : Outranked prior live) (hspared : ¬Spared prior live name) :
    follow plan name ≠ name := by
  simp only [Spared, not_forall, not_exists, not_and, not_le] at hspared
  obtain ⟨newcomer, hnewcomer, hnewcomerNew, hnewcomerName, hpoorer⟩ := hspared
  generalize hrule : newcomerRuling? prior = rule? at h
  induction h with
  | @done live hnone =>
      subst hrule
      obtain ⟨elder, helder, hprior, hcount⟩ := houtranked newcomer hnewcomer hnewcomerNew
      obtain ⟨kept, -, -, -, hruling⟩ :=
        newcomerRuling?_of_outranked hnewcomerNew helder hprior hcount
      rw [hnone newcomer hnewcomer] at hruling
      cases hruling
  | @step before after left member ruling plan hruling hremoves ih =>
      subst hrule
      have hnew := not_mem_prior_of_newcomerRuling? hruling
      have hrest := outranked_of_step hnew houtranked
      rw [follow_cons, show (resolution member ruling).removedName = member.name from rfl,
        show (resolution member ruling).keptName = ruling.2.name from rfl]
      -- Either the member is richer than every older namesake, and the name leads above it, or
      -- the name stays and the poorer namesakes still have their rich newcomer.
      by_cases hname : name = member.name
      · rw [if_pos hname]
        by_cases hricher : ∀ elder ∈ before ++ member :: after, elder.id ∈ prior →
            elder.name = name → elder.count < member.count
        · obtain ⟨elder, helder, hprior, hcount⟩ := houtranked member (by simp) hnew
          obtain ⟨kept, hkept, hkeptPrior, hkeptCount, hkeptRuling⟩ :=
            newcomerRuling?_of_outranked hnew helder hprior hcount
          obtain rfl := Option.some.inj (hruling.symm.trans hkeptRuling)
          refine follow_above hremoves hrest (above_of_step hnew ⟨kept, hkept, hkeptPrior, rfl, ?_⟩)
          intro rival hrival hrivalPrior hrivalName
          exact (hricher rival hrival hrivalPrior hrivalName).trans_le hkeptCount
        · simp only [not_forall, not_lt] at hricher
          obtain ⟨elder, helder, hprior, helderName, hcount⟩ := hricher
          have hkept : ruling.2.name = member.name :=
            name_of_newcomerRuling? helder hprior (helderName.trans hname) hcount hruling
          have hne : newcomer ≠ member := by
            rintro rfl
            exact absurd (hpoorer elder helder hprior helderName) (not_lt.mpr hcount)
          rw [hkept, ← hname]
          refine ih hrest ?_ ?_
          · simpa [hne] using hnewcomer
          · intro other hother hotherPrior
            exact hpoorer other ((mem_of_mem_prior hnew hotherPrior).mp hother) hotherPrior
      · have hne : newcomer ≠ member := fun h => hname (h ▸ hnewcomerName.symm)
        rw [if_neg hname]
        refine ih hrest ?_ ?_
        · simpa [hne] using hnewcomer
        · intro other hother hotherPrior
          exact hpoorer other ((mem_of_mem_prior hnew hotherPrior).mp hother) hotherPrior

end Removes

/-! ## The plan -/

section

variable {members : List Member} {prior : List BlockId}

theorem feasible_planSpawned_familyOf (hdistinct : (members.map (·.id)).Nodup)
    {name base : String} (hbase : Name.base? name = some base) (prior : List BlockId) :
    Feasible (familyOf base members) (planSpawned members name prior) := by
  obtain ⟨left, hleft⟩ := removes_removals (newcomerRuling? prior) (familyOf base members)
  rw [planSpawned, hbase]
  exact hleft.feasible (isFamily_familyOf hdistinct base) fun _ _ _ _ h => mem_of_newcomerRuling? h

theorem feasible_planSpawned (hdistinct : (members.map (·.id)).Nodup) (name : String)
    (prior : List BlockId) : Feasible members (planSpawned members name prior) := by
  cases hbase : Name.base? name with
  | none =>
      rw [planSpawned, hbase]
      exact .nil members
  | some base =>
      exact (feasible_planSpawned_familyOf hdistinct hbase prior).mono
        fun _ hmember => (mem_familyOf.mp hmember).1

/-- The plan for a spawned definition removes no older one. -/
theorem removed_not_mem_prior (members : List Member) (name : String) (prior : List BlockId) :
    ∀ resolution ∈ planSpawned members name prior, resolution.removed ∉ prior := by
  unfold planSpawned
  split
  · simp
  next base _ =>
    obtain ⟨left, hleft⟩ := removes_removals (newcomerRuling? prior) (familyOf base members)
    exact hleft.not_mem_prior

/-- Whether a name is spared does not depend on the members of other families. -/
theorem spared_familyOf {base other : String} (hbase : Name.base? other = some base) :
    Spared prior (familyOf base members) other ↔ Spared prior members other := by
  constructor
  · intro h newcomer hnewcomer hnew hname
    obtain ⟨elder, helder, hspec⟩ :=
      h newcomer (mem_familyOf.mpr ⟨hnewcomer, hname ▸ hbase⟩) hnew hname
    exact ⟨elder, (mem_familyOf.mp helder).1, hspec⟩
  · intro h newcomer hnewcomer hnew hname
    obtain ⟨elder, helder, hprior, helderName, hcount⟩ :=
      h newcomer (mem_familyOf.mp hnewcomer).1 hnew hname
    exact ⟨elder, mem_familyOf.mpr ⟨helder, helderName ▸ hbase⟩, hprior, helderName, hcount⟩

/-- The plan for a spawned definition leads no name of another family anywhere. -/
theorem follow_planSpawned_of_base_ne {name other : String}
    (hbase : Name.base? other ≠ Name.base? name) :
    follow (planSpawned members name prior) other = other := by
  unfold planSpawned
  split
  · rfl
  next base hname =>
    obtain ⟨left, hleft⟩ := removes_removals (newcomerRuling? prior) (familyOf base members)
    refine hleft.follow_of_spared fun newcomer hnewcomer _ hnewcomerName => ?_
    exact absurd ((hnewcomerName ▸ (mem_familyOf.mp hnewcomer).2).trans hname.symm) hbase

/-- The plan for a spawned definition leads no spared name anywhere. -/
theorem follow_planSpawned_of_spared (name : String) {other : String}
    (hspared : Spared prior members other) :
    follow (planSpawned members name prior) other = other := by
  by_cases hbase : Name.base? other = Name.base? name
  · unfold planSpawned
    split
    · rfl
    next base hname =>
      obtain ⟨left, hleft⟩ := removes_removals (newcomerRuling? prior) (familyOf base members)
      exact hleft.follow_of_spared ((spared_familyOf (hbase.trans hname)).mpr hspared)
  · exact follow_planSpawned_of_base_ne hbase

/-- Where every newcomer of the family yields to an older member, the plan leads a name of the
family elsewhere exactly if it is not spared. -/
theorem follow_planSpawned_eq_self_iff {name other base : String}
    (hbase : Name.base? name = some base) (hother : Name.base? other = some base)
    (houtranked : Outranked prior (familyOf base members)) :
    follow (planSpawned members name prior) other = other ↔ Spared prior members other := by
  constructor
  · intro hfollow
    by_contra hspared
    obtain ⟨left, hleft⟩ := removes_removals (newcomerRuling? prior) (familyOf base members)
    refine hleft.follow_of_not_spared houtranked
      (fun h => hspared ((spared_familyOf hother).mp h)) ?_
    simpa only [planSpawned, hbase] using hfollow
  · exact follow_planSpawned_of_spared name

end

end CallBinding
