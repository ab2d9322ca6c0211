import CallBinding.Proofs.Family.Rulings

/-!
# Removals

A planner takes members out of a list one at a time, each in favour of another
that is still there, until there is no ruling on any that is left.  `Removes`
describes such a process without fixing its order, `Feasible` is what a
program needs to know of the resulting plan in order to carry it out, and
`follow` is where a plan leads a name.
-/

namespace CallBinding

/-- Members are removed, in any order, each by a ruling on it among those still there, until
there is no ruling any more. -/
inductive Removes (rule? : List Member → Member → Option (Rule × Member)) :
    List Member → List Resolution → List Member → Prop
  | done {live : List Member} : (∀ member ∈ live, rule? live member = none) →
      Removes rule? live [] live
  | step {before after left : List Member} {member : Member} {ruling : Rule × Member}
      {plan : List Resolution} :
      rule? (before ++ member :: after) member = some ruling →
      Removes rule? (before ++ after) plan left →
      Removes rule? (before ++ member :: after) (resolution member ruling :: plan) left

/-- The members that a plan leaves. -/
def remaining (members : List Member) (plan : List Resolution) : List Member :=
  members.filter fun member => member.id ∉ plan.map (·.removed)

/-- Every resolution of a plan finds both its members: the one that goes and another of the same
family that takes its place. -/
inductive Feasible : List Member → List Resolution → Prop
  | nil (live : List Member) : Feasible live []
  | cons {live : List Member} {removed kept : Member} {rule : Rule} {plan : List Resolution} :
      removed ∈ live → kept ∈ live → kept.id ≠ removed.id →
      Name.base? removed.name ≠ none → Name.base? kept.name = Name.base? removed.name →
      Feasible (live.filter fun member => member.id ≠ removed.id) plan →
      Feasible live (resolution removed (rule, kept) :: plan)

/-- The name to which a plan leads a name, one resolution after another. -/
def follow (plan : List Resolution) (name : String) : String :=
  plan.foldl (fun name resolution =>
    if name = resolution.removedName then resolution.keptName else name) name

/-! ## Plans and what they leave -/

theorem remaining_cons (members : List Member) (first : Resolution) (rest : List Resolution) :
    remaining members (first :: rest) =
      remaining (members.filter fun member => member.id ≠ first.removed) rest := by
  simp only [remaining, List.filter_filter]
  refine List.filter_congr fun member _ => ?_
  rw [Bool.eq_iff_iff]
  simp only [List.map_cons, List.mem_cons, Bool.and_eq_true, decide_eq_true_eq]
  tauto

theorem mem_remaining {members : List Member} {plan : List Resolution} {member : Member} :
    member ∈ remaining members plan ↔ member ∈ members ∧ member.id ∉ plan.map (·.removed) := by
  simp [remaining]

/-- Taking out one of several members with distinct ids. -/
theorem filter_id_ne {before after : List Member} {member : Member}
    (hdistinct : ((before ++ member :: after).map (·.id)).Nodup) :
    (before ++ member :: after).filter (fun other => other.id ≠ member.id) = before ++ after := by
  have hnotin : member.id ∉ (before ++ after).map (·.id) := by
    rw [List.map_append, List.map_cons, List.nodup_middle] at hdistinct
    rw [List.map_append]
    exact (List.nodup_cons.mp hdistinct).1
  have hself : (before ++ after).filter (fun other => other.id ≠ member.id) = before ++ after := by
    refine List.filter_eq_self.mpr fun other hother => ?_
    simpa using fun h : other.id = member.id => hnotin (h ▸ List.mem_map_of_mem hother)
  rw [List.filter_append] at hself ⊢
  rw [List.filter_cons_of_neg (by simp)]
  exact hself

theorem mem_append_of_id_ne {before after : List Member} {member other : Member}
    (hother : other ∈ before ++ member :: after) (hne : other.id ≠ member.id) :
    other ∈ before ++ after := by
  have : other ≠ member := fun h => hne (congrArg Member.id h)
  simpa [this] using hother

@[simp] theorem follow_nil (name : String) : follow [] name = name := rfl

@[simp] theorem follow_cons (first : Resolution) (rest : List Resolution) (name : String) :
    follow (first :: rest) name =
      follow rest (if name = first.removedName then first.keptName else name) := rfl

/-- A plan that removes no definition of a name leads the name nowhere. -/
theorem follow_eq_self {plan : List Resolution} {name : String}
    (h : ∀ resolution ∈ plan, resolution.removedName ≠ name) : follow plan name = name := by
  induction plan with
  | nil => rfl
  | cons first rest ih =>
      have hfirst : name ≠ first.removedName := (h first List.mem_cons_self).symm
      rw [follow_cons, if_neg hfirst]
      exact ih fun resolution hmem => h resolution (List.mem_cons_of_mem _ hmem)

/-- A plan that stays within families leads a name to one of its own family. -/
theorem base?_follow {plan : List Resolution}
    (h : ∀ resolution ∈ plan,
      Name.base? resolution.keptName = Name.base? resolution.removedName) (name : String) :
    Name.base? (follow plan name) = Name.base? name := by
  induction plan generalizing name with
  | nil => rfl
  | cons first rest ih =>
      rw [follow_cons, ih fun resolution hmem => h resolution (List.mem_cons_of_mem first hmem)]
      split
      next hname => rw [h first List.mem_cons_self, hname]
      next => rfl

namespace Feasible

variable {live more : List Member} {plan : List Resolution}

theorem mono (h : Feasible live plan) (hsub : live ⊆ more) : Feasible more plan := by
  induction h generalizing more with
  | nil => exact .nil more
  | cons hremoved hkept hne hvalid hbase _ ih =>
      refine .cons (hsub hremoved) (hsub hkept) hne hvalid hbase (ih ?_)
      intro member hmember
      obtain ⟨hmem, hid⟩ := List.mem_filter.mp hmember
      exact List.mem_filter.mpr ⟨hsub hmem, hid⟩

theorem append {second : List Resolution} (hfirst : Feasible live plan)
    (hsecond : Feasible (remaining live plan) second) : Feasible live (plan ++ second) := by
  induction hfirst with
  | nil live => exact hsecond.mono (fun _ h => (mem_remaining.mp h).1)
  | cons hremoved hkept hne hvalid hbase _ ih =>
      rw [remaining_cons] at hsecond
      exact .cons hremoved hkept hne hvalid hbase (ih hsecond)

/-- Every definition that a feasible plan removes is there, and has a valid name. -/
theorem removed_mem (h : Feasible live plan) :
    ∀ resolution ∈ plan, ∃ member ∈ live, member.id = resolution.removed ∧
      member.name = resolution.removedName ∧ Name.base? member.name ≠ none := by
  induction h with
  | nil => simp
  | @cons live removed kept rule plan hremoved _ _ hvalid _ _ ih =>
      intro resolution hresolution
      rcases List.mem_cons.mp hresolution with rfl | hrest
      · exact ⟨removed, hremoved, rfl, rfl, hvalid⟩
      · obtain ⟨member, hmember, hspec⟩ := ih resolution hrest
        exact ⟨member, (List.mem_filter.mp hmember).1, hspec⟩

/-- Every definition that a feasible plan keeps is there, with a name of the family. -/
theorem kept_mem (h : Feasible live plan) :
    ∀ resolution ∈ plan, ∃ member ∈ live, member.id = resolution.kept ∧
      member.name = resolution.keptName ∧ Name.base? member.name ≠ none ∧
      Name.base? resolution.keptName = Name.base? resolution.removedName := by
  induction h with
  | nil => simp
  | @cons live removed kept rule plan _ hkept _ hvalid hbase _ ih =>
      intro resolution hresolution
      rcases List.mem_cons.mp hresolution with rfl | hrest
      · exact ⟨kept, hkept, rfl, rfl, fun hnone => hvalid (hbase.symm.trans hnone), hbase⟩
      · obtain ⟨member, hmember, hspec⟩ := ih resolution hrest
        exact ⟨member, (List.mem_filter.mp hmember).1, hspec⟩

/-- A definition that is gone is neither removed nor kept. -/
theorem not_mem_of_filter_ne {id : BlockId}
    (h : Feasible (live.filter fun member => member.id ≠ id) plan) :
    id ∉ plan.map (·.removed) ∧ id ∉ plan.map (·.kept) := by
  constructor
  · intro hmem
    obtain ⟨resolution, hresolution, hid⟩ := List.mem_map.mp hmem
    obtain ⟨member, hmember, hremoved, -⟩ := h.removed_mem resolution hresolution
    have hne : member.id ≠ id := by simpa using (List.mem_filter.mp hmember).2
    exact hne (hremoved.trans hid)
  · intro hmem
    obtain ⟨resolution, hresolution, hid⟩ := List.mem_map.mp hmem
    obtain ⟨member, hmember, hkept, -⟩ := h.kept_mem resolution hresolution
    have hne : member.id ≠ id := by simpa using (List.mem_filter.mp hmember).2
    exact hne (hkept.trans hid)

/-- No definition is removed twice. -/
theorem nodup_removed (h : Feasible live plan) : (plan.map (·.removed)).Nodup := by
  induction h with
  | nil => exact List.nodup_nil
  | cons _ _ _ _ _ hrest ih => exact List.nodup_cons.mpr ⟨hrest.not_mem_of_filter_ne.1, ih⟩

/-- A plan leads the name of a member to the name of a member that it leaves, of the same
family. -/
theorem follow_carried (h : Feasible live plan) (hdistinct : (live.map (·.id)).Nodup)
    {member : Member} (hmember : member ∈ live) :
    ∃ kept ∈ remaining live plan, kept.name = follow plan member.name ∧
      Name.base? kept.name = Name.base? member.name := by
  induction h generalizing member with
  | nil => exact ⟨member, by simpa [remaining] using hmember, rfl, rfl⟩
  | @cons live removed kept rule plan hremoved hkept hne _ hbase _ ih =>
      have hdistinct' : ((live.filter fun member => member.id ≠ removed.id).map (·.id)).Nodup :=
        hdistinct.sublist (List.filter_sublist.map _)
      rw [remaining_cons, follow_cons]
      by_cases hname : member.name = removed.name
      · have hkept' : kept ∈ live.filter fun member => member.id ≠ removed.id :=
          List.mem_filter.mpr ⟨hkept, by simpa using hne⟩
        obtain ⟨last, hlast, hlastName, hlastBase⟩ := ih hdistinct' hkept'
        refine ⟨last, hlast, ?_, ?_⟩
        · rw [hlastName]
          exact congrArg _ (if_pos hname).symm
        · rw [hlastBase, hbase, hname]
      · have hid : member.id ≠ removed.id := fun h =>
          hname (congrArg Member.name (List.inj_on_of_nodup_map hdistinct hmember hremoved h))
        have hmember' : member ∈ live.filter fun member => member.id ≠ removed.id :=
          List.mem_filter.mpr ⟨hmember, by simpa using hid⟩
        obtain ⟨last, hlast, hlastName, hlastBase⟩ := ih hdistinct' hmember'
        refine ⟨last, hlast, ?_, hlastBase⟩
        rw [hlastName]
        exact congrArg _ (if_neg hname).symm

/-- A plan leads a name that no validly named member carries nowhere. -/
theorem follow_eq_self_of_not_carried (h : Feasible live plan) {name : String}
    (hnone : ∀ member ∈ live, Name.base? member.name ≠ none → member.name ≠ name) :
    follow plan name = name := by
  refine follow_eq_self fun resolution hresolution => ?_
  obtain ⟨member, hmember, -, hname, hvalid⟩ := h.removed_mem resolution hresolution
  exact hname ▸ hnone member hmember hvalid

end Feasible

/-! ## The removals of a planner -/

theorem removeFirst?_eq_none {rule? : Member → Option (Rule × Member)} {live : List Member}
    (h : removeFirst? rule? live = none) : ∀ member ∈ live, rule? member = none := by
  induction live with
  | nil => simp
  | cons first rest ih =>
      unfold removeFirst? at h
      split at h
      · cases h
      next hfirst =>
        intro member hmember
        rcases List.mem_cons.mp hmember with rfl | hmember
        · exact hfirst
        · exact ih (Option.map_eq_none_iff.mp h) member hmember

theorem removeFirst?_eq_some {rule? : Member → Option (Rule × Member)}
    {live left : List Member} {removal : Resolution}
    (h : removeFirst? rule? live = some (removal, left)) :
    ∃ before member after ruling, live = before ++ member :: after ∧ left = before ++ after ∧
      rule? member = some ruling ∧ removal = resolution member ruling := by
  induction live generalizing left removal with
  | nil => cases h
  | cons first rest ih =>
      unfold removeFirst? at h
      split at h
      next ruling hruling =>
        obtain ⟨rfl, rfl⟩ := Prod.mk.inj (Option.some.inj h)
        exact ⟨[], first, rest, ruling, rfl, rfl, hruling, rfl⟩
      next =>
        obtain ⟨⟨removal', left'⟩, hrest, heq⟩ := Option.map_eq_some_iff.mp h
        obtain ⟨rfl, rfl⟩ := Prod.mk.inj heq
        obtain ⟨before, member, after, ruling, rfl, rfl, hruling, rfl⟩ := ih hrest
        exact ⟨first :: before, member, after, ruling, rfl, rfl, hruling, rfl⟩

section

variable {rule? : List Member → Member → Option (Rule × Member)}
variable {live left : List Member} {removal : Resolution}

theorem removals_of_none (h : removeFirst? (rule? live) live = none) :
    removals rule? live = [] := by
  rw [removals]
  split
  · rfl
  next hsome => rw [h] at hsome; cases hsome

theorem removals_of_some (h : removeFirst? (rule? live) live = some (removal, left)) :
    removals rule? live = removal :: removals rule? left := by
  rw [removals]
  split
  next hnone => rw [h] at hnone; cases hnone
  next removal' left' hsome =>
    obtain ⟨rfl, rfl⟩ := Prod.mk.inj (Option.some.inj (h.symm.trans hsome))
    rfl

/-- What a planner lists is such a process. -/
theorem removes_removals (rule? : List Member → Member → Option (Rule × Member))
    (live : List Member) : ∃ left, Removes rule? live (removals rule? live) left := by
  induction live using removals.induct rule? with
  | case1 live hnone =>
      rw [removals_of_none hnone]
      exact ⟨live, .done (removeFirst?_eq_none hnone)⟩
  | case2 live removal left hsome ih =>
      obtain ⟨last, hlast⟩ := ih
      obtain ⟨before, member, after, ruling, rfl, rfl, hruling, rfl⟩ := removeFirst?_eq_some hsome
      rw [removals_of_some hsome]
      exact ⟨last, .step hruling hlast⟩

end

namespace Removes

variable {rule? : List Member → Member → Option (Rule × Member)}
variable {live left : List Member} {plan : List Resolution} {base : String}

/-- Removals end when there is no ruling any more. -/
theorem spent (h : Removes rule? live plan left) : ∀ member ∈ left, rule? left member = none := by
  induction h with
  | done hnone => exact hnone
  | step _ _ ih => exact ih

/-- Nothing is removed where there is no ruling. -/
theorem eq_nil (h : Removes rule? live plan left)
    (hnone : ∀ member ∈ live, rule? live member = none) : plan = [] := by
  cases h with
  | done _ => rfl
  | @step before after left member ruling plan hruling _ =>
      rw [hnone member (by simp)] at hruling
      cases hruling

theorem exists_removed (h : Removes rule? live plan left) :
    ∀ resolution ∈ plan, ∃ member ∈ live, member.id = resolution.removed ∧
      member.name = resolution.removedName := by
  induction h with
  | done _ => simp
  | @step before after left member ruling plan _ _ ih =>
      intro resolution hresolution
      rcases List.mem_cons.mp hresolution with rfl | hrest
      · exact ⟨member, by simp, rfl, rfl⟩
      · obtain ⟨other, hother, hspec⟩ := ih resolution hrest
        have hsub := append_sublist_append_cons before member after
        exact ⟨other, hsub.subset hother, hspec⟩

theorem removed_mem (h : Removes rule? live plan left) :
    ∀ id ∈ plan.map (·.removed), ∃ member ∈ live, member.id = id := by
  intro id hid
  obtain ⟨resolution, hresolution, rfl⟩ := List.mem_map.mp hid
  obtain ⟨member, hmember, hspec, -⟩ := h.exists_removed resolution hresolution
  exact ⟨member, hmember, hspec⟩

/-- The members of a family that are there when its removals end. -/
theorem left_eq (h : Removes rule? live plan left) (hdistinct : (live.map (·.id)).Nodup) :
    left = remaining live plan := by
  induction h with
  | done _ => simp [remaining]
  | @step before after left member ruling plan _ _ ih =>
      have hfilter := filter_id_ne hdistinct
      rw [remaining_cons]
      refine (ih ?_).trans (congrArg (remaining · plan) hfilter.symm)
      rw [← hfilter]
      exact hdistinct.sublist (List.filter_sublist.map _)

/-- Removals by rulings in favour of members that are there make a feasible plan. -/
theorem feasible (h : Removes rule? live plan left) (hfamily : IsFamily base live)
    (hsound : ∀ family candidate rule kept, rule? family candidate = some (rule, kept) →
      kept ∈ family ∧ kept.id ≠ candidate.id) : Feasible live plan := by
  induction h with
  | done _ => exact .nil _
  | @step before after left member ruling plan hruling _ ih =>
      obtain ⟨hkept, hne⟩ := hsound _ _ _ _ hruling
      have hmember : member ∈ before ++ member :: after := by simp
      have hbase := hfamily.base member hmember
      have hfilter := filter_id_ne hfamily.distinct
      refine .cons hmember hkept hne (by simp [hbase]) ?_ ?_
      · rw [hfamily.base _ hkept, hbase]
      · rw [hfilter]
        exact ih (hfamily.sublist (append_sublist_append_cons before member after))

/-- In every order, the removals end with the survivor alone. -/
theorem eq_survivor (h : Removes ruling? live plan left) (hfamily : IsFamily base live)
    {survivor : Member} (hsurvivor : IsSurvivor base live survivor) : left = [survivor] := by
  generalize hrule : ruling? = rule? at h
  induction h with
  | @done live hnone =>
      subst hrule
      exact hsurvivor.eq_singleton hfamily hnone
  | @step before after left member ruling plan hruling _ ih =>
      subst hrule
      have hrest := hfamily.sublist (append_sublist_append_cons before member after)
      exact ih hrest (hsurvivor.outlasts hfamily hruling)

end Removes
end CallBinding
