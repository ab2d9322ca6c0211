import CallBinding.Proofs.Reconcile.Apply

/-!
# Stale plans

The graph may change between the planning and the carrying out.  A resolution is
pending as long as the definition is live that it removes, and only the pending
ones are carried out, whatever has become of the definitions that they keep.  A
plan is fresh if each of its pending resolutions finds the one definition, and
the other one or a substitute for it, under the names that it has recorded.
Such a plan leads names as some feasible plan does.
-/

namespace CallBinding

/-- The resolutions that find the definition that they remove. -/
def pending (members : List Member) (plan : List Resolution) : List Resolution :=
  plan.filter fun resolution => resolution.removed ∈ members.map (·.id)

/-- A resolution finds the definition that it removes under its recorded name, and under the other
name the definition that it keeps or one that the plan does not remove. -/
def FindsBoth (members : List Member) (plan : List Resolution) (resolution : Resolution) : Prop :=
  (∃ member ∈ members, member.id = resolution.removed ∧ member.name = resolution.removedName) ∧
    ∃ member ∈ members, member.name = resolution.keptName ∧
      (member.id = resolution.kept ∨ member.id ∉ plan.map (·.removed))

/-- Every pending resolution finds both its definitions. -/
def Fresh (members : List Member) (plan : List Resolution) : Prop :=
  ∀ resolution ∈ pending members plan, FindsBoth members plan resolution

instance (members : List Member) (plan : List Resolution) (resolution : Resolution) :
    Decidable (FindsBoth members plan resolution) :=
  inferInstanceAs (Decidable (_ ∧ _))

instance (members : List Member) (plan : List Resolution) : Decidable (Fresh members plan) :=
  inferInstanceAs (Decidable (∀ resolution ∈ pending members plan, _))

section

variable {members live : List Member} {first : Resolution} {plan rest : List Resolution}

theorem mem_pending {resolution : Resolution} :
    resolution ∈ pending members plan ↔
      resolution ∈ plan ∧ resolution.removed ∈ members.map (·.id) := by
  simp [pending]

theorem pending_cons_of_mem (h : first.removed ∈ members.map (·.id)) :
    pending members (first :: rest) = first :: pending members rest :=
  List.filter_cons_of_pos (by simpa using h)

theorem pending_cons_of_not_mem (h : first.removed ∉ members.map (·.id)) :
    pending members (first :: rest) = pending members rest :=
  List.filter_cons_of_neg (by simpa using h)

/-- The disposal of one definition leaves the resolutions about others pending. -/
theorem pending_filter_ne {id : BlockId} (h : id ∉ rest.map (·.removed)) :
    pending (members.filter fun member => member.id ≠ id) rest = pending members rest := by
  refine List.filter_congr fun resolution hresolution => ?_
  have hne : resolution.removed ≠ id := fun heq => h (heq ▸ List.mem_map_of_mem hresolution)
  rw [decide_eq_decide]
  constructor
  · intro hmem
    obtain ⟨member, hmember, hid⟩ := List.mem_map.mp hmem
    exact List.mem_map.mpr ⟨member, (List.mem_filter.mp hmember).1, hid⟩
  · intro hmem
    obtain ⟨member, hmember, hid⟩ := List.mem_map.mp hmem
    exact List.mem_map.mpr ⟨member, List.mem_filter.mpr ⟨hmember, by simpa [hid] using hne⟩, hid⟩

theorem Fresh.of_cons (h : Fresh members (first :: rest)) : Fresh members rest := by
  intro step hstep
  obtain ⟨hmem, hpending⟩ := mem_pending.mp hstep
  obtain ⟨hgone, stays, hstays, hname, hid⟩ :=
    h step (mem_pending.mpr ⟨List.mem_cons_of_mem first hmem, hpending⟩)
  exact ⟨hgone, stays, hstays, hname,
    hid.imp_right fun hunlisted hlisted => hunlisted (List.mem_cons_of_mem _ hlisted)⟩

/-- After the first resolution of a feasible plan the others find what they have found before. -/
theorem Fresh.later {removed : Member}
    (hfresh : Fresh members (first :: rest)) (hid : first.removed = removed.id)
    (hnotRemoved : removed.id ∉ rest.map (·.removed)) (hnotKept : removed.id ∉ rest.map (·.kept)) :
    Fresh (members.filter fun member => member.id ≠ removed.id) rest := by
  intro step hstep
  rw [pending_filter_ne hnotRemoved] at hstep
  obtain ⟨hmem, hpending⟩ := mem_pending.mp hstep
  obtain ⟨⟨gone, hgone, hgoneId, hgoneName⟩, stays, hstays, hstaysName, hstaysId⟩ :=
    hfresh step (mem_pending.mpr ⟨List.mem_cons_of_mem first hmem, hpending⟩)
  have hgoneNe : gone.id ≠ removed.id := fun heq =>
    hnotRemoved (List.mem_map.mpr ⟨step, hmem, hgoneId.symm.trans heq⟩)
  rw [List.map_cons, List.mem_cons, not_or, hid] at hstaysId
  have hstaysNe : stays.id ≠ removed.id := by
    rcases hstaysId with hkept | ⟨hne, -⟩
    · exact fun heq => hnotKept (List.mem_map.mpr ⟨step, hmem, hkept.symm.trans heq⟩)
    · exact hne
  exact ⟨⟨gone, List.mem_filter.mpr ⟨hgone, by simpa using hgoneNe⟩, hgoneId, hgoneName⟩, stays,
    List.mem_filter.mpr ⟨hstays, by simpa using hstaysNe⟩, hstaysName,
    hstaysId.imp_right And.right⟩

/-- What is pending of a feasible plan removes and renames as some plan does that is feasible now,
if the plan is fresh. -/
theorem Feasible.exists_renewed (h : Feasible live plan) (hfresh : Fresh members plan) :
    ∃ renewed, Feasible members renewed ∧
      renewed.map (·.removed) = (pending members plan).map (·.removed) ∧
      ∀ name, follow renewed name = follow (pending members plan) name := by
  induction h generalizing members with
  | nil => exact ⟨[], .nil members, rfl, fun _ => rfl⟩
  | @cons live removed kept rule plan hremoved hkept hne hvalid hbase hrest ih =>
      obtain ⟨hnotRemoved, hnotKept⟩ := hrest.not_mem_of_filter_ne
      by_cases hpending : removed.id ∈ members.map (·.id)
      · obtain ⟨⟨gone, hgone, hgoneId, hgoneName⟩, stays, hstays, hstaysName, hstaysId⟩ :=
          hfresh _ (mem_pending.mpr ⟨List.mem_cons_self, hpending⟩)
        change gone.id = removed.id at hgoneId
        change gone.name = removed.name at hgoneName
        change stays.name = kept.name at hstaysName
        have hstaysNe : stays.id ≠ gone.id := by
          rw [hgoneId]
          rcases hstaysId with hid | hunlisted
          · rw [hid]
            exact hne
          · exact fun heq => hunlisted (heq ▸ List.mem_cons_self)
        obtain ⟨renewed, hrenewed, hids, hnames⟩ := ih (Fresh.later hfresh rfl hnotRemoved hnotKept)
        rw [pending_filter_ne hnotRemoved] at hids hnames
        rw [pending_cons_of_mem hpending]
        refine ⟨resolution gone (rule, stays) :: renewed, .cons hgone hstays hstaysNe ?_ ?_ ?_, ?_,
          fun name => ?_⟩
        · rw [hgoneName]
          exact hvalid
        · rw [hstaysName, hgoneName]
          exact hbase
        · rw [hgoneId]
          exact hrenewed
        · rw [List.map_cons, List.map_cons, hids]
          exact congrArg (· :: _) hgoneId
        · rw [follow_cons, follow_cons, hnames]
          change follow _ (if name = gone.name then stays.name else name) =
            follow _ (if name = removed.name then kept.name else name)
          rw [hgoneName, hstaysName]
      · rw [pending_cons_of_not_mem hpending]
        exact ih (Fresh.of_cons hfresh)

end

namespace Host

open CallBinding.Graph (Distinct)

variable {host : Host}

/-- What is pending of a plan is carried out, and nothing else. -/
theorem enacts_apply (hfaultless : host.Faultless) (hdistinct : Distinct host.editor.blocks)
    {plan : List Resolution} (hnodup : (plan.map (·.removed)).Nodup) :
    Enacts (pending host.members plan) host (host.apply plan).2 := by
  unfold apply
  generalize ApplyReport.blank = report
  induction plan generalizing host report with
  | nil => exact .refl host
  | cons first rest ih =>
      obtain ⟨hfirst, hrest⟩ := List.nodup_cons.mp hnodup
      rw [resolveAll]
      dsimp only
      by_cases hpending : first.removed ∈ host.members.map (·.id)
      · rw [pending_cons_of_mem hpending]
        obtain ⟨member, hmember, hid⟩ := List.mem_map.mp hpending
        obtain ⟨removed, hremoved, rfl⟩ := mem_members hmember
        have hissues := host.resolve_issues first report
        have henacts := enacts_resolve hfaultless hdistinct hremoved hid.symm report
        have hlater := ih (hissues.faultless hfaultless) (hissues.distinct hdistinct) hrest
          (host.resolve first report).1
        rw [henacts.members_single, pending_filter_ne hfirst] at hlater
        exact henacts.cons hlater
      · rw [pending_cons_of_not_mem hpending, resolve_of_not_mem hpending]
        exact ih hfaultless hdistinct hrest _

/-- What a plan does to a graph that may have changed since the planning. -/
structure AppliesLate (plan : List Resolution) (before after : Host) : Prop where
  /-- The listed definitions are gone, and no others. -/
  definitions : after.definitions =
    before.definitions.filter fun definition => definition.id ∉ plan.map (·.removed)
  /-- A family keeps a member exactly if it has one that is not listed. -/
  families : ∀ base,
    (∃ definition ∈ after.definitions, Name.base? definition.name = some base) ↔
      ∃ definition ∈ before.definitions, Name.base? definition.name = some base ∧
        definition.id ∉ plan.map (·.removed)
  /-- A call site has the name to which the pending resolutions lead its former one, and this name
  is carried exactly if a definition carries it that is not listed. -/
  callSites : ∀ call ∈ before.callSites, ∃ live ∈ after.callSites, live.id = call.id ∧
    live.name = follow (pending before.members plan) call.name ∧
    ((∃ definition ∈ after.definitions, definition.name = live.name) ↔
      ∃ definition ∈ before.definitions, definition.name = live.name ∧
        definition.id ∉ plan.map (·.removed))
  /-- A fresh plan leaves a member in every family that has one. -/
  spares : Fresh before.members plan → ∀ base,
    (∃ definition ∈ before.definitions, Name.base? definition.name = some base) →
      ∃ definition ∈ after.definitions, Name.base? definition.name = some base
  /-- A fresh plan keeps every call site bound. -/
  keeps : Fresh before.members plan → ∀ call ∈ before.callSites,
    (∃ definition ∈ before.definitions, definition.name = call.name) →
      ∃ live ∈ after.callSites, live.id = call.id ∧
        ∃ definition ∈ after.definitions, definition.name = live.name

/-- A fresh plan leads the name of every definition to that of one which it leaves, of the same
family. -/
theorem Enacts.exists_carrying {after : Host} {live : List Member} {plan : List Resolution}
    (h : Enacts (pending host.members plan) host after) (hdistinct : Distinct host.editor.blocks)
    (hplan : Feasible live plan) (hfresh : Fresh host.members plan) {definition : Definition}
    (hdefinition : definition ∈ host.definitions) :
    ∃ kept ∈ after.definitions,
      kept.name = follow (pending host.members plan) definition.name ∧
      Name.base? kept.name = Name.base? definition.name := by
  obtain ⟨renewed, hrenewed, hids, hnames⟩ := hplan.exists_renewed hfresh
  have hmember : definition.asMember ∈ host.members := List.mem_map_of_mem hdefinition
  obtain ⟨member, hmemberKept, hname, hbase⟩ :=
    hrenewed.follow_carried (nodup_members hdistinct) hmember
  have hremaining : remaining host.members renewed = after.members := by
    rw [h.members, remaining, remaining, hids]
  rw [hremaining] at hmemberKept
  obtain ⟨kept, hkept, rfl⟩ := mem_members hmemberKept
  rw [definitions_eq]
  exact ⟨kept, hkept, hname.trans (hnames _), hbase⟩

/-- A plan that was feasible once has these effects at any later time. -/
theorem appliesLate_apply (hfaultless : host.Faultless) (hdistinct : Distinct host.editor.blocks)
    {live : List Member} {plan : List Resolution} (hplan : Feasible live plan) :
    AppliesLate plan host (host.apply plan).2 := by
  have henacts := enacts_apply hfaultless hdistinct hplan.nodup_removed
  have hdefinitions : (host.apply plan).2.definitions =
      host.definitions.filter fun definition => definition.id ∉ plan.map (·.removed) := by
    rw [definitions_eq, definitions_eq, henacts.definitions]
    refine List.filter_congr fun definition hdefinition => ?_
    have hmem := id_mem_members hdefinition
    rw [decide_eq_decide, not_iff_not, List.mem_map, List.mem_map]
    constructor
    · rintro ⟨step, hstep, hid⟩
      exact ⟨step, (mem_pending.mp hstep).1, hid⟩
    · rintro ⟨step, hstep, hid⟩
      exact ⟨step, mem_pending.mpr ⟨hstep, by rwa [hid]⟩, hid⟩
  have hstays (property : Definition → Prop) :
      (∃ definition ∈ (host.apply plan).2.definitions, property definition) ↔
        ∃ definition ∈ host.definitions, property definition ∧
          definition.id ∉ plan.map (·.removed) := by
    simp only [hdefinitions, List.mem_filter, decide_eq_true_eq]
    exact exists_congr fun _ => and_assoc.trans (and_congr_right fun _ => and_comm)
  refine ⟨hdefinitions, fun base => hstays _, fun call hcall => ?callSites,
    fun hfresh base => ?spares, fun hfresh call hcall => ?keeps⟩
  case callSites =>
    obtain ⟨last, hlast, hid, hname⟩ := henacts.exists_callSite hcall
    exact ⟨last, hlast, hid, hname, hstays _⟩
  case spares =>
    rintro ⟨definition, hdefinition, hbase⟩
    obtain ⟨kept, hkept, -, hkeptBase⟩ :=
      henacts.exists_carrying hdistinct hplan hfresh hdefinition
    exact ⟨kept, hkept, hkeptBase.trans hbase⟩
  case keeps =>
    rintro ⟨definition, hdefinition, hname⟩
    obtain ⟨kept, hkept, hkeptName, -⟩ :=
      henacts.exists_carrying hdistinct hplan hfresh hdefinition
    obtain ⟨last, hlast, hid, hlastName⟩ := henacts.exists_callSite hcall
    refine ⟨last, hlast, hid, kept, hkept, ?_⟩
    rw [hkeptName, hlastName, hname]

end Host
end CallBinding
