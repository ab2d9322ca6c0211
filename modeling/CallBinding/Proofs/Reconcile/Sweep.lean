import CallBinding.Proofs.Reconcile.Apply

/-!
# What a sweep does

A sweep carries out the plan for all families and then synchronises every call
site.  On a host without faults it ends in a tidy graph: each family has its
survivor and no other member, each call site that was bound is bound to the
survivor, and its arguments are those of the definition that it names.  So a
sweep that issues no command has found a tidy graph.
-/

namespace CallBinding

namespace Graph

/-- The definitions of the family of a base. -/
def family (base : String) (blocks : List Block) : List Definition :=
  (definitions blocks).filter fun definition => Name.base? definition.name = some base

/-- One definition in each family, and arguments as the definitions have them. -/
structure Tidy (blocks : List Block) : Prop where
  families : ∀ definition ∈ definitions blocks, ∀ base,
    Name.base? definition.name = some base → family base blocks = [definition]
  arguments : ∀ call ∈ callSites blocks, ∀ definition,
    ((definitions blocks).find? fun definition => definition.name = call.name) = some definition →
    definition.parameters.isAligned = true → call.arguments = definition.parameters

theorem mem_family {base : String} {blocks : List Block} {definition : Definition} :
    definition ∈ family base blocks ↔
      definition ∈ definitions blocks ∧ Name.base? definition.name = some base := by
  simp [family]

end Graph

namespace Host

open CallBinding.Graph (Binds Keeps Distinct family Tidy)

variable {host : Host}

theorem familyOf_members (host : Host) (base : String) :
    familyOf base host.members = (family base host.editor.blocks).map Definition.asMember := by
  rw [members_eq, familyOf, family, List.filter_map]
  refine congrArg _ (List.filter_congr fun definition _ => ?_)
  rw [Function.comp_apply]
  rfl

/-- A sweep carries out the plan for all families and then synchronises every call site. -/
theorem sweep_eq (host : Host) :
    host.sweep.2 = ((host.apply (plan host.members)).2.syncNamed
      (host.apply (plan host.members)).2.callSites (host.apply (plan host.members)).1.sync).2 := by
  simp only [sweep]

theorem sweep_issues (host : Host) : Issues AnyCommand host host.sweep.2 := by
  have happly := host.apply_issues (plan host.members)
  rw [sweep_eq]
  exact happly.trans (syncNamed_issues _ _ _).any

/-- As to definitions and names, a sweep is the plan that it carries out. -/
theorem carriesOut_sweep (hfaultless : host.Faultless) (hdistinct : Distinct host.editor.blocks) :
    CarriesOut (plan host.members) host host.sweep.2 := by
  have happly := carriesOut_apply hfaultless hdistinct (feasible_plan (nodup_members hdistinct))
  have hdistinct' := happly.issues.distinct hdistinct
  have hsync : Issues Binds (host.apply (plan host.members)).2 host.sweep.2 := by
    rw [sweep_eq]
    exact syncNamed_issues _ _ _
  refine ⟨happly.issues.trans (hsync.keeps_of_binds hdistinct'), ?_, ?_⟩
  · rw [hsync.definitions_of_binds hdistinct', happly.definitions]
  · rw [hsync.callSites_of_binds, happly.callSites]

/-! ## Families -/

theorem mem_definitions_sweep_of_placeholder (hfaultless : host.Faultless)
    (hdistinct : Distinct host.editor.blocks) {definition : Definition}
    (hmem : definition ∈ Graph.definitions host.editor.blocks)
    (hbase : Name.base? definition.name = none) :
    definition ∈ Graph.definitions host.sweep.2.editor.blocks := by
  have hremains := mem_remaining_plan_of_placeholder (nodup_members hdistinct)
    (asMember_mem_members hmem) hbase
  have hkept : definition.id ∉ (plan host.members).map (·.removed) := (mem_remaining.mp hremains).2
  rw [(carriesOut_sweep hfaultless hdistinct).definitions]
  exact List.mem_filter.mpr ⟨hmem, by simpa using hkept⟩

/-- A sweep leaves the survivor of each family and no other member. -/
theorem family_sweep (hfaultless : host.Faultless) (hdistinct : Distinct host.editor.blocks)
    {base : String} {definition : Definition}
    (hmem : definition ∈ family base host.editor.blocks) :
    ∃ survivor ∈ Graph.definitions host.editor.blocks,
      IsSurvivor base (familyOf base host.members) survivor.asMember ∧
        family base host.sweep.2.editor.blocks = [survivor] := by
  have hsweep := carriesOut_sweep hfaultless hdistinct
  have hmember : definition.asMember ∈ familyOf base host.members := by
    rw [familyOf_members]
    exact List.mem_map_of_mem hmem
  obtain ⟨last, hlast⟩ := IsSurvivor.exists_of_mem base hmember
  have hremains := familyOf_remaining_plan (nodup_members hdistinct) hlast
  rw [← hsweep.members, familyOf_members, List.map_eq_singleton_iff] at hremains
  obtain ⟨survivor, hfamily, rfl⟩ := hremains
  have hsurvivor : survivor ∈ family base host.sweep.2.editor.blocks := by simp [hfamily]
  have hlive := (Graph.mem_family.mp hsurvivor).1
  rw [hsweep.definitions] at hlive
  exact ⟨survivor, (List.mem_filter.mp hlive).1, hlast, hfamily⟩

/-! ## Call sites -/

/-- The call sites that called a definition of a family call its survivor after a sweep. -/
theorem follow_plan_of_carried (hdistinct : Distinct host.editor.blocks) {base : String}
    {definition survivor : Definition}
    (hmem : definition ∈ family base host.editor.blocks)
    (hsurvivor : IsSurvivor base (familyOf base host.members) survivor.asMember) :
    follow (plan host.members) definition.name = survivor.name := by
  obtain ⟨hdefinition, hbase⟩ := Graph.mem_family.mp hmem
  have hnodup := nodup_members hdistinct
  obtain ⟨kept, hkept, hname, hkeptBase⟩ :=
    (feasible_plan hnodup).follow_carried hnodup (asMember_mem_members hdefinition)
  have hlast : kept ∈ familyOf base (remaining host.members (plan host.members)) :=
    mem_familyOf.mpr ⟨hkept, hkeptBase.trans hbase⟩
  rw [familyOf_remaining_plan hnodup hsurvivor, List.mem_singleton] at hlast
  rw [hlast] at hname
  exact hname.symm

/-- A sweep leaves a name alone that no validly named definition carries. -/
theorem follow_plan_of_not_carried (hdistinct : Distinct host.editor.blocks) {name : String}
    (hnone : ∀ definition ∈ Graph.definitions host.editor.blocks,
      Name.base? definition.name ≠ none → definition.name ≠ name) :
    follow (plan host.members) name = name := by
  refine (feasible_plan (nodup_members hdistinct)).follow_eq_self_of_not_carried ?_
  intro member hmember
  obtain ⟨definition, hdefinition, rfl⟩ := mem_members hmember
  exact hnone definition hdefinition

/-- A sweep gives every call site the arguments that are due to it once the plan is carried out. -/
theorem callSites_sweep (hfaultless : host.Faultless) (hdistinct : Distinct host.editor.blocks) :
    Graph.callSites host.sweep.2.editor.blocks =
      (Graph.callSites (host.apply (plan host.members)).2.editor.blocks).map fun call =>
        { call with arguments := host.sweep.2.dueArguments call } := by
  have happly := host.apply_issues (plan host.members)
  set swept := (host.apply (plan host.members)).2 with hswept
  set sync := (host.apply (plan host.members)).1.sync
  have hsweep : host.sweep.2 = (swept.syncNamed swept.callSites sync).2 := host.sweep_eq
  have hissues := swept.syncNamed_issues swept.callSites sync
  have hdue := dueArguments_congr hissues.declarations
    (hissues.definitions_of_binds (happly.distinct hdistinct))
  rw [hsweep, callSites_syncNamed (happly.faultless hfaultless) (happly.distinct hdistinct)]
  · refine List.map_congr_left fun call hcall => ?_
    have hlisted : call.id ∈ swept.callSites.map (·.id) := by
      rw [callSites_eq]
      exact List.mem_map_of_mem hcall
    rw [if_pos hlisted, hdue]
  · intro call hcall
    rw [callSites_eq] at hcall
    exact List.mem_map_of_mem hcall

/-- Every call site has the arguments that are due to it after a sweep. -/
theorem arguments_sweep (hfaultless : host.Faultless) (hdistinct : Distinct host.editor.blocks)
    {call : CallSite} (hcall : call ∈ Graph.callSites host.sweep.2.editor.blocks) :
    call.arguments = host.sweep.2.dueArguments call := by
  rw [callSites_sweep hfaultless hdistinct] at hcall
  obtain ⟨former, -, rfl⟩ := List.mem_map.mp hcall
  rw [dueArguments_dueArguments]

/-! ## Tidy graphs -/

/-- A sweep leaves a tidy graph. -/
theorem tidy_sweep (hfaultless : host.Faultless) (hdistinct : Distinct host.editor.blocks) :
    Tidy host.sweep.2.editor.blocks := by
  constructor
  · intro definition hdefinition base hbase
    have hbefore : definition ∈ Graph.definitions host.editor.blocks := by
      rw [(carriesOut_sweep hfaultless hdistinct).definitions] at hdefinition
      exact (List.mem_filter.mp hdefinition).1
    obtain ⟨survivor, -, -, hfamily⟩ := family_sweep hfaultless hdistinct
      (Graph.mem_family.mpr ⟨hbefore, hbase⟩)
    have hmem := Graph.mem_family.mpr ⟨hdefinition, hbase⟩
    rw [hfamily, List.mem_singleton] at hmem
    rw [hfamily, hmem]
  · intro call hcall definition hfind haligned
    rw [arguments_sweep hfaultless hdistinct hcall, dueArguments, definitionNamed?_eq, hfind]
    have hresolves := resolves_of_isAligned host.sweep.2 haligned
    exact (if_pos hresolves).trans (resolved_of_isAligned _ haligned)

end Host
end CallBinding
