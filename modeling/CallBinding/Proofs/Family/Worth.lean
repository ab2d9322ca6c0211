import CallBinding.Proofs.Family.Newcomers
import CallBinding.Proofs.Family.Succession
import CallBinding.Proofs.Name
import Mathlib.Logic.Relation

/-!
# What heirs are worth

Each resolution of a plan for a spawned definition keeps a member of the base
name or one with at least as many parameters.  The heir of a removed definition
is reached by several resolutions, and a newcomer that was kept for its base name
may yield in its turn to an older member.  That is the only way in which an heir
comes to have neither the base name nor as many parameters.
-/

namespace CallBinding

/-- A plan removes one definition in favour of another. -/
def Yields (plan : List Resolution) (removed kept : BlockId) : Prop :=
  ∃ resolution ∈ plan, resolution.removed = removed ∧ resolution.kept = kept

/-- On the way from a removed definition to its heir there is a newcomer of the base name, which
yields to the heir as to an older member. -/
structure Detour (prior : List BlockId) (base : String) (family : List Member)
    (plan : List Resolution) (removed : BlockId) (heir stop : Member) : Prop where
  mem : stop ∈ family
  new : stop.id ∉ prior
  named : stop.name = base
  reached : Relation.ReflTransGen (Yields plan) removed stop.id
  yields : resolution stop (.priorSibling, heir) ∈ plan
  elder : heir.id ∈ prior
  count_le : stop.count ≤ heir.count

/-- What a plan leaves to stand for a member, and what that is worth. -/
structure Legacy (prior : List BlockId) (base : String) (family : List Member)
    (plan : List Resolution) (member heir : Member) : Prop where
  stands : IsHeir plan member.id heir.id
  /-- That the heir is as rich counts only for a member without the base name: whoever yields to
  one of the base name may be richer still. -/
  worth : heir.name = base ∨ (∃ stop, Detour prior base family plan member.id heir stop) ∨
    (member.name ≠ base ∧ member.count ≤ heir.count)
  elder : ∀ elder ∈ family, elder.id ∈ prior → member.count ≤ elder.count →
    member.count ≤ heir.count

/-! ## What a ruling is worth -/

namespace Rule

variable {base : String} {family : List Member} {candidate kept : Member}

theorem namesake_of_duplicateOf? (hcandidate : candidate ∈ family)
    (h : duplicateOf? candidate family = some kept) :
    kept.name = candidate.name ∧ candidate.count ≤ kept.count := by
  simp only [duplicateOf?] at h
  split at h
  · cases h
  · have hrichest := isRichest_of_richest? (Option.filter_eq_some_iff.mp h).1
    refine ⟨by simpa using (List.mem_filter.mp hrichest.mem).2, hrichest.count_le ?_⟩
    exact List.mem_filter.mpr ⟨hcandidate, by simp⟩

theorem name_of_baseOf? (h : baseOf? candidate family = some kept) :
    Name.base? candidate.name = some kept.name := by
  unfold baseOf? at h
  split at h
  · have hkept := List.find?_some h
    simp only [Bool.and_eq_true, decide_eq_true_eq] at hkept
    exact hkept.2
  · cases h

theorem richer_of_siblingOf? (hbase : Name.base? candidate.name = some base)
    (h : siblingOf? candidate family = some kept) :
    (∀ other ∈ family, other.name ≠ base) ∧ candidate.count ≤ kept.count := by
  simp only [siblingOf?, hbase] at h
  split at h
  · cases h
  next hnamed =>
    refine ⟨by simpa using hnamed, ?_⟩
    rcases Option.or_eq_some_iff.mp h with hricher | ⟨-, hequal⟩
    · have hmem := List.mem_filter.mp (isRichest_of_richest? hricher).mem
      simp only [Bool.and_eq_true, decide_eq_true_eq] at hmem
      exact hmem.2.2.le
    · have hcount : kept.count = candidate.count := by simpa using List.find?_some hequal
      exact hcount.ge

end Rule

section

variable {prior : List BlockId} {base : String} {family : List Member}
variable {candidate kept : Member} {rule : Rule}

/-- By the table a member yields to one of the base name, or else to one that is as rich, and then
it does not carry the base name itself. -/
theorem named_or_richer_of_ruling? (hfamily : IsFamily base family)
    (hcandidate : candidate ∈ family) (h : ruling? family candidate = some (rule, kept)) :
    kept.name = base ∨ (candidate.name ≠ base ∧ candidate.count ≤ kept.count) := by
  have hbase := hfamily.base candidate hcandidate
  have hyields := yieldsTo?_of_ruling? h
  cases rule with
  | exactDuplicate =>
      obtain ⟨hname, hcount⟩ := Rule.namesake_of_duplicateOf? hcandidate hyields
      by_cases hnamed : candidate.name = base
      · exact .inl (hname.trans hnamed)
      · exact .inr ⟨hnamed, hcount⟩
  | numberedVariant =>
      exact .inl (Option.some.inj ((Rule.name_of_baseOf? hyields).symm.trans hbase))
  | richerSibling =>
      obtain ⟨hnone, hcount⟩ := Rule.richer_of_siblingOf? hbase hyields
      exact .inr ⟨hnone candidate hcandidate, hcount⟩
  | priorSibling => cases hyields

/-- A newcomer yields to an older member that is as rich, or by the table if there is none. -/
theorem elder_or_table_of_newcomerRuling?
    (h : newcomerRuling? prior family candidate = some (rule, kept)) :
    (rule = .priorSibling ∧ kept.id ∈ prior ∧ candidate.count ≤ kept.count) ∨
      ((∀ elder ∈ family, elder.id ∈ prior → elder.count < candidate.count) ∧
        ruling? family candidate = some (rule, kept)) := by
  by_cases hrival : ∃ elder ∈ family, elder.id ∈ prior ∧ candidate.count ≤ elder.count
  · obtain ⟨elder, helder, hprior, hcount⟩ := hrival
    obtain ⟨kept', -, hkeptPrior, hkeptCount, hruling⟩ := newcomerRuling?_of_outranked
      (not_mem_prior_of_newcomerRuling? h) helder hprior hcount
    obtain ⟨rfl, rfl⟩ := Prod.mk.inj (Option.some.inj (h.symm.trans hruling))
    exact .inl ⟨rfl, hkeptPrior, hkeptCount⟩
  · have hpoorer : ∀ elder ∈ family, elder.id ∈ prior → elder.count < candidate.count := by
      simpa only [not_exists, not_and, not_le] using hrival
    rw [newcomerRuling?_eq_ruling? (not_mem_prior_of_newcomerRuling? h) hpoorer] at h
    exact .inr ⟨hpoorer, h⟩

end

/-! ## From one resolution to the next -/

theorem Yields.cons {first : Resolution} {rest : List Resolution} {removed kept : BlockId}
    (h : Yields rest removed kept) : Yields (first :: rest) removed kept := by
  obtain ⟨resolution, hresolution, hspec⟩ := h
  exact ⟨resolution, List.mem_cons_of_mem first hresolution, hspec⟩

section

variable {prior : List BlockId} {base : String} {before after : List Member}
variable {first member heir kept stop : Member} {ruling : Rule × Member}
variable {rest : List Resolution}

theorem Detour.cons {removed : BlockId}
    (h : Detour prior base (before ++ after) rest removed heir stop) :
    Detour prior base (before ++ first :: after) (resolution first ruling :: rest) removed heir
      stop where
  mem := (append_sublist_append_cons before first after).subset h.mem
  new := h.new
  named := h.named
  reached := Relation.ReflTransGen.mono (fun _ _ h => Yields.cons h) _ _ h.reached
  yields := List.mem_cons_of_mem _ h.yields
  elder := h.elder
  count_le := h.count_le

namespace Legacy

/-- A member that is not removed stands for itself. -/
theorem self {family : List Member} {plan : List Resolution}
    (hstays : member.id ∉ plan.map (·.removed)) : Legacy prior base family plan member member where
  stands := .stays hstays
  worth := by
    by_cases hname : member.name = base
    · exact .inl hname
    · exact .inr (.inr ⟨hname, le_refl _⟩)
  elder _ _ _ _ := le_refl _

/-- The removal of a newcomer changes nothing for the other members. -/
theorem cons_of_ne (h : Legacy prior base (before ++ after) rest member heir)
    (hne : member.id ≠ first.id) (hnew : first.id ∉ prior)
    (hkept : first.id ∉ rest.map (·.kept)) :
    Legacy prior base (before ++ first :: after) (resolution first ruling :: rest) member heir where
  stands := h.stands.cons hne hkept
  worth := h.worth.imp_right (Or.imp_left fun ⟨stop, hstop⟩ => ⟨stop, hstop.cons⟩)
  elder elder helder hprior :=
    h.elder elder ((Removes.mem_of_mem_prior hnew hprior).mpr helder) hprior

/-- A newcomer that yields to an older member leaves its place to that member, for good. -/
theorem of_elder (hnew : first.id ∉ prior) (hprior : kept.id ∈ prior)
    (hcount : first.count ≤ kept.count)
    (hstays : kept.id ∉ rest.map (·.removed)) :
    Legacy prior base (before ++ first :: after) (resolution first (.priorSibling, kept) :: rest)
      first kept where
  stands := by
    have hne : kept.id ≠ first.id := fun h => hnew (h ▸ hprior)
    refine .yields List.mem_cons_self (.stays ?_)
    rw [List.map_cons, List.mem_cons, not_or]
    exact ⟨hne, hstays⟩
  worth := by
    by_cases hname : first.name = base
    · exact .inr (.inl ⟨first, by simp, hnew, hname, .refl, List.mem_cons_self, hprior, hcount⟩)
    · exact .inr (.inr ⟨hname, hcount⟩)
  elder _ _ _ _ := hcount

/-- A newcomer that yields by the table leaves its place to whoever stands for the kept member. -/
theorem of_table {rule : Rule} (h : Legacy prior base (before ++ after) rest kept heir)
    (hkept : first.id ∉ rest.map (·.kept)) (hne : kept.id ≠ first.id)
    (hpoorer : ∀ elder ∈ before ++ first :: after, elder.id ∈ prior → elder.count < first.count)
    (hworth : kept.name = base ∨ (first.name ≠ base ∧ first.count ≤ kept.count)) :
    Legacy prior base (before ++ first :: after) (resolution first (rule, kept) :: rest)
      first heir where
  stands := .yields List.mem_cons_self (h.stands.cons hne hkept)
  worth := by
    rcases h.worth with hname | ⟨stop, hstop⟩ | ⟨hname, hcount⟩
    · exact .inl hname
    · have hyields : Yields (resolution first (rule, kept) :: rest) first.id kept.id :=
        ⟨_, List.mem_cons_self, rfl, rfl⟩
      exact .inr (.inl ⟨stop, { hstop.cons with reached := hstop.cons.reached.head hyields }⟩)
    · obtain ⟨hfirst, hle⟩ := hworth.resolve_left hname
      exact .inr (.inr ⟨hfirst, hle.trans hcount⟩)
  elder elder helder hprior hcount := absurd (hpoorer elder helder hprior) hcount.not_gt

/-- The heir is worth less only at the end of a detour, if no older member is as rich. -/
theorem worth_of_family {family : List Member} {plan : List Resolution}
    (h : Legacy prior base family plan member heir) :
    heir.name = base ∨ member.count ≤ heir.count ∨
      ((∀ elder ∈ family, elder.id ∈ prior → elder.count < member.count) ∧
        ∃ stop, Detour prior base family plan member.id heir stop) := by
  rcases h.worth with hnamed | hdetour | ⟨-, hcount⟩
  · exact .inl hnamed
  · by_cases hcount : member.count ≤ heir.count
    · exact .inr (.inl hcount)
    · refine .inr (.inr ⟨fun elder helder hprior => ?_, hdetour⟩)
      by_contra hle
      exact hcount (h.elder elder helder hprior (not_lt.mp hle))
  · exact .inr (.inl hcount)

end Legacy

end

/-! ## Whole plans -/

namespace Removes

variable {prior : List BlockId} {base : String} {live left : List Member}
variable {plan : List Resolution}

/-- What goes is not kept by the removals that follow. -/
theorem not_mem_kept {before after : List Member} {first : Member}
    (h : Removes (newcomerRuling? prior) (before ++ after) plan left)
    (hfamily : IsFamily base (before ++ first :: after)) : first.id ∉ plan.map (·.kept) := by
  have hrest := hfamily.sublist (append_sublist_append_cons before first after)
  have hfeasible := h.feasible hrest fun _ _ _ _ h => mem_of_newcomerRuling? h
  rw [← filter_id_ne hfamily.distinct] at hfeasible
  exact hfeasible.not_mem_of_filter_ne.2

/-- Every single resolution keeps a member of the base name, or one that is as rich. -/
theorem kept_named_or_richer (h : Removes (newcomerRuling? prior) live plan left)
    (hfamily : IsFamily base live) :
    ∀ step ∈ plan, ∃ removed ∈ live, ∃ kept ∈ live, ∃ rule,
      step = resolution removed (rule, kept) ∧
        (kept.name = base ∨ removed.count ≤ kept.count) := by
  generalize hrule : newcomerRuling? prior = rule? at h
  induction h with
  | done _ => simp
  | @step before after left first ruling plan hruling _ ih =>
      subst hrule
      obtain ⟨rule, kept⟩ := ruling
      have hsub := append_sublist_append_cons before first after
      have hfirst : first ∈ before ++ first :: after := by simp
      intro step hstep
      rcases List.mem_cons.mp hstep with rfl | hlater
      · refine ⟨first, hfirst, kept, (mem_of_newcomerRuling? hruling).1, rule, rfl, ?_⟩
        rcases elder_or_table_of_newcomerRuling? hruling with ⟨-, -, hcount⟩ | ⟨-, htable⟩
        · exact .inr hcount
        · exact (named_or_richer_of_ruling? hfamily hfirst htable).imp_right And.right
      · obtain ⟨removed, hremoved, kept, hkept, hspec⟩ := ih (hfamily.sublist hsub) step hlater
        exact ⟨removed, hsub.subset hremoved, kept, hsub.subset hkept, hspec⟩

/-- Every member of a family has a legacy among the members that are left. -/
theorem exists_legacy (h : Removes (newcomerRuling? prior) live plan left)
    (hfamily : IsFamily base live) {member : Member} (hmember : member ∈ live) :
    ∃ heir ∈ left, Legacy prior base live plan member heir := by
  generalize hrule : newcomerRuling? prior = rule? at h
  induction h generalizing member with
  | done _ => exact ⟨member, hmember, .self (by simp)⟩
  | @step before after left first ruling plan hruling hrest ih =>
      subst hrule
      obtain ⟨rule, kept⟩ := ruling
      have hnew := not_mem_prior_of_newcomerRuling? hruling
      obtain ⟨hkeptMem, hkeptNe⟩ := mem_of_newcomerRuling? hruling
      have hkept := hrest.not_mem_kept hfamily
      have hfewer := hfamily.sublist (append_sublist_append_cons before first after)
      by_cases hne : member.id = first.id
      · obtain rfl := hfamily.eq_of_id hmember (by simp) hne
        have hkeptRest := mem_append_of_id_ne hkeptMem hkeptNe
        -- An older member is never removed.  A member kept by the table may be, so the heir is
        -- then the one that the later removals give to it.
        rcases elder_or_table_of_newcomerRuling? hruling with
          ⟨rfl, hprior, hcount⟩ | ⟨hpoorer, htable⟩
        · have hstays : kept.id ∉ plan.map (·.removed) := by
            intro hremoved
            obtain ⟨resolution, hresolution, hid⟩ := List.mem_map.mp hremoved
            exact hrest.not_mem_prior resolution hresolution (hid ▸ hprior)
          refine ⟨kept, ?_, .of_elder hnew hprior hcount hstays⟩
          rw [hrest.left_eq hfewer.distinct]
          exact mem_remaining.mpr ⟨hkeptRest, hstays⟩
        · obtain ⟨heir, hheir, hlegacy⟩ := ih hfewer hkeptRest
          exact ⟨heir, hheir, hlegacy.of_table hkept hkeptNe hpoorer
            (named_or_richer_of_ruling? hfamily hmember htable)⟩
      · obtain ⟨heir, hheir, hlegacy⟩ := ih hfewer (mem_append_of_id_ne hmember hne)
        exact ⟨heir, hheir, hlegacy.cons_of_ne hne hnew hkept⟩

end Removes

/-- What a plan for a spawned definition gives in return for one that it removes: another one at
once, and an heir in the end. -/
structure Bequest (prior : List BlockId) (base : String) (members : List Member)
    (plan : List Resolution) (removed kept heir : Member) : Prop where
  yields : kept.name = base ∨ removed.count ≤ kept.count
  heir_iff : ∀ last, IsHeir plan removed.id last ↔ last = heir.id
  /-- The heir is worth less only at the end of a detour, and if no older member was as rich. -/
  worth : heir.name = base ∨ removed.count ≤ heir.count ∨
    ((∀ elder ∈ familyOf base members, elder.id ∈ prior → elder.count < removed.count) ∧
      ∃ stop, Detour prior base (familyOf base members) plan removed.id heir stop)

section

variable {members : List Member} {name : String}

/-- What a plan for a spawned definition keeps, and whom it leaves in the end, for each definition
that it removes. -/
theorem bequest_planSpawned (hdistinct : (members.map (·.id)).Nodup)
    (hvalid : Name.isValid name = true) (prior : List BlockId) :
    ∃ base, Name.base? name = some base ∧
      ∀ step ∈ planSpawned members name prior,
        ∃ removed ∈ familyOf base members, ∃ kept ∈ familyOf base members, ∃ rule,
          step = resolution removed (rule, kept) ∧
          ∃ heir ∈ familyOf base (remaining members (planSpawned members name prior)),
            Bequest prior base members (planSpawned members name prior) removed kept heir := by
  obtain ⟨base, hbase⟩ := Option.ne_none_iff_exists'.mp (Name.base?_ne_none_iff.mpr hvalid)
  have hfamily := isFamily_familyOf hdistinct base
  have hfeasible := feasible_planSpawned_familyOf hdistinct hbase prior
  obtain ⟨left, hleft⟩ := removes_removals (newcomerRuling? prior) (familyOf base members)
  have hplan : planSpawned members name prior =
      removals (newcomerRuling? prior) (familyOf base members) := by rw [planSpawned, hbase]
  rw [← hplan] at hleft
  refine ⟨base, hbase, fun step hstep => ?_⟩
  obtain ⟨removed, hremoved, kept, hkept, rule, hresolution, hworth⟩ :=
    hleft.kept_named_or_richer hfamily step hstep
  obtain ⟨heir, hheir, hlegacy⟩ := hleft.exists_legacy hfamily hremoved
  rw [hleft.left_eq hfamily.distinct] at hheir
  refine ⟨removed, hremoved, kept, hkept, rule, hresolution, heir, ?_, hworth,
    fun last => ⟨?_, ?_⟩, ?_⟩
  · rwa [familyOf, remaining, List.filter_comm]
  · exact fun hlast => hlast.unique hfeasible.nodup_removed hlegacy.stands
  · rintro rfl
    exact hlegacy.stands
  · exact hlegacy.worth_of_family

theorem bequest_planSpawned_of_detour :
    let members : List Member := [⟨⟨0⟩, "f3", 1⟩, ⟨⟨1⟩, "f2", 5⟩, ⟨⟨2⟩, "f", 0⟩, ⟨⟨3⟩, "f7", 1⟩]
    let prior : List BlockId := [⟨0⟩]
    let plan := planSpawned members "f" prior
    (members.map (·.id)).Nodup ∧ Name.isValid "f" = true ∧
      plan.map (·.removed) = [⟨1⟩, ⟨2⟩, ⟨3⟩] ∧
      ∃ base, Name.base? "f" = some base ∧
        ∀ step ∈ plan,
          ∃ removed ∈ familyOf base members, ∃ kept ∈ familyOf base members, ∃ rule,
            step = resolution removed (rule, kept) ∧
            ∃ heir ∈ familyOf base (remaining members plan),
              Bequest prior base members plan removed kept heir := by
  intro members prior plan
  have hdistinct : (members.map (·.id)).Nodup := by decide
  have hvalid : Name.isValid "f" = true := by decide
  exact ⟨hdistinct, hvalid, by decide +kernel, bequest_planSpawned hdistinct hvalid prior⟩

/-- A rich newcomer yields to one of the base name, which then yields to a poor older member. -/
theorem poorer_heir_of_detour :
    let members : List Member := [⟨⟨0⟩, "f3", 1⟩, ⟨⟨1⟩, "f2", 5⟩, ⟨⟨2⟩, "f", 0⟩]
    let plan := planSpawned members "f" [⟨0⟩]
    (members.map (·.id)).Nodup ∧ Name.base? "f" = some "f" ∧
      ∃ resolution ∈ plan, ∃ removed ∈ members, removed.id = resolution.removed ∧
        ∃ heir ∈ remaining members plan, IsHeir plan removed.id heir.id ∧
          heir.name ≠ "f" ∧ heir.count < removed.count := by
  intro members plan
  have hplan : plan = [⟨⟨1⟩, "f2", ⟨2⟩, "f", .numberedVariant⟩,
      ⟨⟨2⟩, "f", ⟨0⟩, "f3", .priorSibling⟩] := by decide +kernel
  have hheir : IsHeir plan ⟨1⟩ ⟨0⟩ := by
    rw [hplan]
    exact .yields List.mem_cons_self
      (.yields (List.mem_cons_of_mem _ List.mem_cons_self) (.stays (by decide)))
  refine ⟨by decide, by decide, ⟨⟨1⟩, "f2", ⟨2⟩, "f", .numberedVariant⟩, by simp [hplan],
    ⟨⟨1⟩, "f2", 5⟩, by simp [members], rfl, ⟨⟨0⟩, "f3", 1⟩, ?_, hheir, by decide, by decide⟩
  rw [hplan]
  decide

end

end CallBinding
