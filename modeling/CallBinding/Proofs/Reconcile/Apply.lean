import CallBinding.Proofs.Family.Plan
import CallBinding.Proofs.Name
import CallBinding.Proofs.Reconcile.Sync

/-!
# What carrying out a plan does

Whatever the plan and the host's faults, carrying a plan out only issues
commands.  If there are no faults and the plan is feasible, much more is known:
the definitions that the plan lists are gone, every call site calls the name to
which the plan leads its former name, and no call site was unbound on the way.
-/

namespace CallBinding
namespace Host

open CallBinding.Graph (Renames Binds Keeps Carries Distinct)

/-! ## Members -/

section

variable {host : Host}

theorem members_eq (host : Host) :
    host.members = (Graph.definitions host.editor.blocks).map Definition.asMember := by
  rw [members, definitions_eq]

theorem mem_members {member : Member} (h : member ∈ host.members) :
    ∃ definition ∈ Graph.definitions host.editor.blocks, definition.asMember = member := by
  rw [members_eq] at h
  exact List.mem_map.mp h

theorem asMember_mem_members {definition : Definition}
    (h : definition ∈ Graph.definitions host.editor.blocks) :
    definition.asMember ∈ host.members := by
  rw [members_eq]
  exact List.mem_map_of_mem h

theorem id_mem_members {definition : Definition}
    (h : definition ∈ Graph.definitions host.editor.blocks) :
    definition.id ∈ host.members.map (·.id) := by
  rw [members_eq, List.map_map]
  exact List.mem_map_of_mem h

theorem nodup_members (hdistinct : Distinct host.editor.blocks) :
    (host.members.map (·.id)).Nodup := by
  rw [members_eq, List.map_map]
  exact hdistinct.nodup_definitions

end

/-! ## Giving callers another name -/

theorem renameEach_issues (host : Host) (name : String) (calls : List CallSite) (renamed : Nat)
    (hcalls : ∀ call ∈ calls, call.id ∈ (Graph.callSites host.editor.blocks).map (·.id)) :
    Issues (Renames name) host (host.renameEach name calls renamed).2 := by
  induction calls generalizing host renamed with
  | nil => exact .refl host
  | cons call rest ih =>
      obtain ⟨live, hlive, hid⟩ := List.mem_map.mp (hcalls call List.mem_cons_self)
      have hrest := fun other hother => hcalls other (List.mem_cons_of_mem call hother)
      unfold renameEach
      split
      next written hwritten =>
        have hrenames : Renames name host.editor.blocks (.setField call.id nameField name) :=
          hid ▸ .intro hlive
        obtain rfl := setField_ok hwritten
        refine (Issues.single hrenames).trans (ih _ _ fun other hother => ?_)
        have hids := hrenames.ids_replay
        rw [blocks_issue, Command.replayAll_cons, Command.replayAll_nil, hids]
        exact hrest other hother
      next => exact ih host renamed hrest

theorem rebindCallers_issues (host : Host) (resolution : Resolution) :
    Issues (Renames resolution.keptName) host (host.rebindCallers resolution).2 := by
  unfold rebindCallers
  split
  · exact .refl host
  · exact host.renameEach_issues _ _ 0 fun call hcall =>
      List.mem_map_of_mem (mem_of_mem_callersOf hcall)

variable {host after : Host}

theorem Issues.definitions_of_renames {name : String} (h : Issues (Renames name) host after)
    (hdistinct : Distinct host.editor.blocks) :
    Graph.definitions after.editor.blocks = Graph.definitions host.editor.blocks := by
  obtain ⟨commands, htrail, rfl⟩ := h
  exact Graph.definitions_of_renames hdistinct htrail

theorem Issues.keeps_of_renames {name : String} (h : Issues (Renames name) host after)
    (hdistinct : Distinct host.editor.blocks) (hvalid : Name.isValid name = true)
    (hcarries : Carries host.editor.blocks name) : Issues Keeps host after := by
  obtain ⟨commands, htrail, rfl⟩ := h
  exact ⟨commands, Graph.keeps_of_renames hdistinct hvalid hcarries htrail, rfl⟩

theorem callSites_renameEach (hfaultless : host.Faultless) (name : String)
    (calls : List CallSite)
    (hcalls : ∀ call ∈ calls, call.id ∈ (Graph.callSites host.editor.blocks).map (·.id))
    (renamed : Nat) :
    Graph.callSites (host.renameEach name calls renamed).2.editor.blocks =
      (Graph.callSites host.editor.blocks).map fun call =>
        if call.id ∈ calls.map (·.id) then { call with name := name } else call := by
  induction calls generalizing host renamed with
  | nil => simp [renameEach]
  | cons call rest ih =>
      obtain ⟨live, hlive, hid⟩ := List.mem_map.mp (hcalls call List.mem_cons_self)
      obtain ⟨block, hblock, -, rfl⟩ := Graph.mem_callSites.mp hlive
      have hwritten := setField_of_mem hfaultless hblock nameField name
      have hrenames : Renames name host.editor.blocks (.setField call.id nameField name) :=
        hid ▸ .intro hlive
      have hids := hrenames.ids_replay
      change block.id = call.id at hid
      rw [hid] at hwritten
      unfold renameEach
      rw [hwritten]
      dsimp only
      rw [ih (hfaultless.issue _), blocks_issue, Command.replayAll_cons, Command.replayAll_nil,
        Graph.callSites_replay_setField, List.map_map]
      · refine List.map_congr_left fun other _ => ?_
        by_cases hsame : other.id = call.id <;> by_cases hrest : other.id ∈ rest.map (·.id) <;>
          simp_all
      · intro other hother
        rw [blocks_issue, Command.replayAll_cons, Command.replayAll_nil, hids]
        exact hcalls other (List.mem_cons_of_mem call hother)

/-- The callers of the removed definition, and no others, call the kept one afterwards. -/
theorem callSites_rebindCallers (hfaultless : host.Faultless)
    (hdistinct : Distinct host.editor.blocks) (resolution : Resolution) :
    Graph.callSites (host.rebindCallers resolution).2.editor.blocks =
      (Graph.callSites host.editor.blocks).map fun call =>
        if call.name = resolution.removedName then { call with name := resolution.keptName }
        else call := by
  unfold rebindCallers
  split
  next hsame =>
    refine ((List.map_congr_left fun call _ => ?_).trans (List.map_id _)).symm
    split
    next hname =>
      rw [← hsame, ← hname]
      rfl
    next => rfl
  next =>
    rw [callSites_renameEach hfaultless]
    · exact List.map_congr_left fun call hcall => by simp only [mem_callersOf_iff hdistinct hcall]
    · exact fun call hcall => List.mem_map_of_mem (mem_of_mem_callersOf hcall)

/-! ## Any plan -/

/-- No condition on a command. -/
def AnyCommand (_ : List Block) (_ : Command) : Prop :=
  True

theorem Issues.any {condition : List Block → Command → Prop} (h : Issues condition host after) :
    Issues AnyCommand host after :=
  h.mono fun _ _ _ => trivial

theorem dispose_issues (host : Host) (id : BlockId) :
    Issues AnyCommand host (host.dispose id) := by
  rcases host.dispose_cases id with h | h
  · rw [h]
    exact .refl host
  · rw [h]
    exact .single trivial

/-- The host in the middle of a resolution, after the callers of the removed definition were given
another name and it was disposed of. -/
def withdraw (host : Host) (step : Resolution) : Host :=
  (host.rebindCallers step).2.dispose step.removed

theorem withdraw_issues (host : Host) (step : Resolution) :
    Issues AnyCommand host (host.withdraw step) :=
  (host.rebindCallers_issues step).any.trans (dispose_issues _ step.removed)

theorem resolve_issues (host : Host) (resolution : Resolution) (report : ApplyReport) :
    Issues AnyCommand host (host.resolve resolution report).2 := by
  unfold resolve
  split
  · exact .refl host
  · exact (host.withdraw_issues resolution).trans (syncSurvivor_issues _ resolution).any

theorem apply_issues (host : Host) (plan : List Resolution) :
    Issues AnyCommand host (host.apply plan).2 := by
  unfold apply
  generalize ApplyReport.blank = report
  induction plan generalizing host report with
  | nil => exact .refl host
  | cons first rest ih => exact (host.resolve_issues first report).trans (ih _ _)

section

variable {removed : Definition} {step : Resolution}

/-- A resolution of a live definition is carried out. -/
theorem resolve_of_mem (hfaultless : host.Faultless) (hdistinct : Distinct host.editor.blocks)
    (hremoved : removed ∈ Graph.definitions host.editor.blocks) (hid : step.removed = removed.id)
    (report : ApplyReport) :
    (host.resolve step report).2 = ((host.withdraw step).syncSurvivor step).2 := by
  have hfound : host.definition? step.removed = some removed :=
    (definition?_eq_some_iff hfaultless hdistinct).mpr ⟨hremoved, hid.symm⟩
  rw [resolve, hfound, withdraw]

theorem withdraw_of_mem (hdisposes : host.Disposes) (hdistinct : Distinct host.editor.blocks)
    (hremoved : removed ∈ Graph.definitions host.editor.blocks) (hid : step.removed = removed.id) :
    host.withdraw step = (host.rebindCallers step).2.issue [.dispose removed.id] := by
  have hrenames := host.rebindCallers_issues step
  have hlive : removed ∈ Graph.definitions (host.rebindCallers step).2.editor.blocks := by
    rwa [hrenames.definitions_of_renames hdistinct]
  rw [withdraw, hid, dispose_of_mem (hrenames.disposes hdisposes) hlive]

theorem definitions_withdraw (hfaultless : host.Faultless) (hdistinct : Distinct host.editor.blocks)
    (hremoved : removed ∈ Graph.definitions host.editor.blocks) (hid : step.removed = removed.id) :
    Graph.definitions (host.withdraw step).editor.blocks =
      (Graph.definitions host.editor.blocks).filter fun definition =>
        definition.id ≠ removed.id := by
  rw [withdraw_of_mem hfaultless.disposes hdistinct hremoved hid, blocks_issue, Command.replayAll_cons,
    Command.replayAll_nil, Graph.definitions_replay_dispose,
    (host.rebindCallers_issues step).definitions_of_renames hdistinct]

theorem callSites_withdraw (hfaultless : host.Faultless) (hdistinct : Distinct host.editor.blocks)
    (hremoved : removed ∈ Graph.definitions host.editor.blocks) (hid : step.removed = removed.id) :
    Graph.callSites (host.withdraw step).editor.blocks =
      (Graph.callSites host.editor.blocks).map fun call =>
        if call.name = step.removedName then { call with name := step.keptName } else call := by
  have hrenames := host.rebindCallers_issues step
  have hlive : removed ∈ Graph.definitions (host.rebindCallers step).2.editor.blocks := by
    rwa [hrenames.definitions_of_renames hdistinct]
  rw [withdraw_of_mem hfaultless.disposes hdistinct hremoved hid, blocks_issue, Command.replayAll_cons,
    Command.replayAll_nil, Graph.callSites_replay_dispose (hrenames.distinct hdistinct) hlive,
    callSites_rebindCallers hfaultless hdistinct]

end

/-- A resolution of a definition that is gone leaves the host as it is. -/
theorem resolve_of_not_mem {step : Resolution} (hgone : step.removed ∉ host.members.map (·.id))
    (report : ApplyReport) : (host.resolve step report).2 = host := by
  have hnone : host.definition? step.removed = none := by
    refine Option.eq_none_iff_forall_ne_some.mpr fun definition hfound => hgone ?_
    obtain ⟨hlive, hid⟩ := mem_of_definition? hfound
    exact hid ▸ id_mem_members hlive
  rw [resolve, hnone]

/-- What becomes of the definitions and of the names of call sites when resolutions are carried out,
whatever plan they come from. -/
structure Enacts (done : List Resolution) (host after : Host) : Prop where
  definitions : Graph.definitions after.editor.blocks =
    (Graph.definitions host.editor.blocks).filter fun definition =>
      definition.id ∉ done.map (·.removed)
  callSites : (Graph.callSites after.editor.blocks).map (fun call => (call.id, call.name)) =
    (Graph.callSites host.editor.blocks).map fun call => (call.id, follow done call.name)

theorem Enacts.refl (host : Host) : Enacts [] host host :=
  ⟨by simp, rfl⟩

theorem Enacts.members {done : List Resolution} (h : Enacts done host after) :
    after.members = remaining host.members done := by
  rw [members_eq, members_eq, h.definitions, remaining, List.filter_map]
  rfl

theorem Enacts.members_single {step : Resolution} (h : Enacts [step] host after) :
    after.members = host.members.filter fun member => member.id ≠ step.removed := by
  rw [h.members, remaining]
  exact List.filter_congr fun member _ => by simp

/-- A call site is still there, under the name to which the resolutions lead its former one. -/
theorem Enacts.exists_callSite {done : List Resolution} (h : Enacts done host after)
    {call : CallSite} (hcall : call ∈ host.callSites) :
    ∃ live ∈ after.callSites, live.id = call.id ∧ live.name = follow done call.name := by
  rw [callSites_eq] at hcall ⊢
  have hpair : (call.id, follow done call.name) ∈
      (Graph.callSites after.editor.blocks).map fun live => (live.id, live.name) := by
    rw [h.callSites]
    exact List.mem_map_of_mem hcall
  obtain ⟨live, hlive, heq⟩ := List.mem_map.mp hpair
  obtain ⟨hid, hname⟩ := Prod.mk.inj heq
  exact ⟨live, hlive, hid, hname⟩

theorem Enacts.cons {mid : Host} {first : Resolution} {rest : List Resolution}
    (hfirst : Enacts [first] host mid) (hrest : Enacts rest mid after) :
    Enacts (first :: rest) host after := by
  constructor
  · rw [hrest.definitions, hfirst.definitions, List.filter_filter]
    refine List.filter_congr fun definition _ => ?_
    rw [Bool.eq_iff_iff]
    simp only [List.map_cons, List.map_nil, List.mem_cons, List.not_mem_nil, or_false,
      Bool.and_eq_true, decide_eq_true_eq]
    tauto
  · have hnames := congrArg
      (List.map fun pair : BlockId × String => (pair.1, follow rest pair.2)) hfirst.callSites
    simp only [List.map_map] at hnames
    rw [hrest.callSites]
    exact hnames

/-- A resolution of a live definition takes it out of the graph and gives its callers the name of
the kept one, whether this one is live or not. -/
theorem enacts_resolve (hfaultless : host.Faultless) (hdistinct : Distinct host.editor.blocks)
    {removed : Definition} (hremoved : removed ∈ Graph.definitions host.editor.blocks)
    {step : Resolution} (hid : step.removed = removed.id) (report : ApplyReport) :
    Enacts [step] host (host.resolve step report).2 := by
  have hissues := host.withdraw_issues step
  have hbinds := syncSurvivor_issues (host.withdraw step) step
  rw [resolve_of_mem hfaultless hdistinct hremoved hid]
  constructor
  · rw [hbinds.definitions_of_binds (hissues.distinct hdistinct),
      definitions_withdraw hfaultless hdistinct hremoved hid]
    refine List.filter_congr fun definition _ => ?_
    simp [hid]
  · rw [hbinds.callSites_of_binds, callSites_withdraw hfaultless hdistinct hremoved hid,
      List.map_map]
    refine List.map_congr_left fun call _ => ?_
    simp only [Function.comp_apply, follow_cons, follow_nil]
    split <;> rfl

/-! ## Feasible plans -/

/-- What carrying out a feasible plan makes of a host. -/
structure CarriesOut (plan : List Resolution) (host after : Host) : Prop where
  issues : Issues Keeps host after
  definitions : Graph.definitions after.editor.blocks =
    (Graph.definitions host.editor.blocks).filter fun definition =>
      definition.id ∉ plan.map (·.removed)
  callSites : (Graph.callSites after.editor.blocks).map (fun call => (call.id, call.name)) =
    (Graph.callSites host.editor.blocks).map fun call => (call.id, follow plan call.name)

theorem CarriesOut.enacts {plan : List Resolution} (h : CarriesOut plan host after) :
    Enacts plan host after :=
  ⟨h.definitions, h.callSites⟩

/-- The members of a host after a plan was carried out. -/
theorem CarriesOut.members {plan : List Resolution} (h : CarriesOut plan host after) :
    after.members = remaining host.members plan :=
  h.enacts.members

/-- A call site is still there, under the name to which the plan leads its former one. -/
theorem CarriesOut.exists_callSite {plan : List Resolution} (h : CarriesOut plan host after)
    {call : CallSite} (hcall : call ∈ host.callSites) :
    ∃ live ∈ after.callSites, live.id = call.id ∧ live.name = follow plan call.name :=
  h.enacts.exists_callSite hcall

/-- A definition that the plan does not list is still there. -/
theorem CarriesOut.mem_definitions {plan : List Resolution} (h : CarriesOut plan host after)
    {definition : Definition} (hdefinition : definition ∈ host.definitions)
    (hkept : definition.id ∉ plan.map (·.removed)) : definition ∈ after.definitions := by
  rw [definitions_eq] at hdefinition ⊢
  rw [h.definitions]
  exact List.mem_filter.mpr ⟨hdefinition, by simpa using hkept⟩

/-- Whoever called the removed definition calls the kept one before it is disposed of. -/
theorem keeps_dispose_rebound (hfaultless : host.Faultless) (hdistinct : Distinct host.editor.blocks)
    {removed kept : Definition} (hremoved : removed ∈ Graph.definitions host.editor.blocks)
    (hkept : kept ∈ Graph.definitions host.editor.blocks) (hne : kept.id ≠ removed.id)
    (rule : Rule) :
    Keeps (host.rebindCallers (resolution removed.asMember (rule, kept.asMember))).2.editor.blocks
      (.dispose removed.id) := by
  set step := resolution removed.asMember (rule, kept.asMember)
  have hrenames : Issues (Renames kept.name) host (host.rebindCallers step).2 :=
    host.rebindCallers_issues step
  have hdefinitions := hrenames.definitions_of_renames hdistinct
  refine Graph.keeps_dispose (hrenames.distinct hdistinct) (hdefinitions ▸ hremoved)
    fun call hcall _ hname => ?_
  refine ⟨kept, hdefinitions ▸ hkept, hne, ?_⟩
  rw [callSites_rebindCallers hfaultless hdistinct] at hcall
  obtain ⟨former, -, rfl⟩ := List.mem_map.mp hcall
  -- A caller of the removed name is left only where the kept definition has this name, too.
  by_cases hformer : former.name = step.removedName
  · rw [if_pos hformer]
    rfl
  · rw [if_neg hformer] at hname
    exact absurd hname hformer

/-- One step of a plan, after which the definition that it removes is gone, its former callers
call the other one, and every call site is bound that was bound before. -/
theorem carriesOut_resolve (hfaultless : host.Faultless)
    (hdistinct : Distinct host.editor.blocks) {removed kept : Definition}
    (hremoved : removed ∈ Graph.definitions host.editor.blocks)
    (hkept : kept ∈ Graph.definitions host.editor.blocks) (hne : kept.id ≠ removed.id)
    (hvalid : Name.isValid kept.name = true) (rule : Rule) (report : ApplyReport) :
    CarriesOut [resolution removed.asMember (rule, kept.asMember)] host
      (host.resolve (resolution removed.asMember (rule, kept.asMember)) report).2 := by
  have hdisposal := keeps_dispose_rebound hfaultless hdistinct hremoved hkept hne rule
  have henacts := enacts_resolve hfaultless hdistinct hremoved
    (rfl : (resolution removed.asMember (rule, kept.asMember)).removed = removed.id) report
  set step := resolution removed.asMember (rule, kept.asMember)
  rw [resolve_of_mem hfaultless hdistinct hremoved rfl] at henacts ⊢
  have hrenames : Issues (Renames kept.name) host (host.rebindCallers step).2 :=
    host.rebindCallers_issues step
  have hrebound := hrenames.keeps_of_renames hdistinct hvalid ⟨kept, hkept, rfl⟩
  have hdisposed : Issues Keeps (host.rebindCallers step).2 (host.withdraw step) := by
    rw [withdraw_of_mem hfaultless.disposes hdistinct hremoved rfl]
    exact .single hdisposal
  have hwithdrawn := hrebound.trans hdisposed
  have hbinds := syncSurvivor_issues (host.withdraw step) step
  exact ⟨hwithdrawn.trans (hbinds.keeps_of_binds (hwithdrawn.distinct hdistinct)),
    henacts.definitions, henacts.callSites⟩

theorem CarriesOut.cons {mid : Host} {first : Resolution} {rest : List Resolution}
    (hfirst : CarriesOut [first] host mid) (hrest : CarriesOut rest mid after) :
    CarriesOut (first :: rest) host after := by
  have henacts := hfirst.enacts.cons hrest.enacts
  exact ⟨hfirst.issues.trans hrest.issues, henacts.definitions, henacts.callSites⟩

/-- Without faults a feasible plan is carried out. -/
theorem carriesOut_apply (hfaultless : host.Faultless) (hdistinct : Distinct host.editor.blocks)
    {plan : List Resolution} (hplan : Feasible host.members plan) :
    CarriesOut plan host (host.apply plan).2 := by
  unfold apply
  generalize ApplyReport.blank = report
  generalize hlive : host.members = live at hplan
  induction hplan generalizing host report with
  | nil => exact ⟨.refl host, by simp [resolveAll], rfl⟩
  | @cons live _ _ rule plan hremovedMem hkeptMem hne hvalid hbase _ ih =>
      subst hlive
      obtain ⟨removed, hremoved, rfl⟩ := mem_members hremovedMem
      obtain ⟨kept, hkept, rfl⟩ := mem_members hkeptMem
      have hkeptValid : Name.isValid kept.name = true :=
        Name.base?_ne_none_iff.mp fun h => hvalid (hbase ▸ h)
      have hfirst := carriesOut_resolve hfaultless hdistinct hremoved hkept hne hkeptValid rule
        report
      refine hfirst.cons (ih (hfirst.issues.faultless hfaultless)
        (hfirst.issues.distinct hdistinct) _ ?_)
      exact hfirst.enacts.members_single

end Host
end CallBinding
