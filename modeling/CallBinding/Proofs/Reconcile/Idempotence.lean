import CallBinding.Proofs.Reconcile.Sweep

/-!
# Sweeping twice

The second of two sweeps is silent: the first one leaves one definition in each
family and every call site with the arguments that are due to it, and a sweep
of such a host issues no command at all.
-/

namespace CallBinding

namespace Host

open CallBinding.Graph (Distinct Tidy)

/-- Nothing is left to reconcile. -/
structure InOrder (host : Host) : Prop where
  tidy : Tidy host.editor.blocks
  arguments : ∀ call ∈ Graph.callSites host.editor.blocks,
    call.arguments = host.dueArguments call

variable {host : Host}

/-- The delivery of events leaves the graph alone. -/
theorem InOrder.delivered (h : host.InOrder) :
    (host.withEditor host.editor.delivered).InOrder :=
  ⟨h.tidy, h.arguments⟩

theorem inOrder_sweep (hfaultless : host.Faultless) (hdistinct : Distinct host.editor.blocks) :
    InOrder host.sweep.2 :=
  ⟨tidy_sweep hfaultless hdistinct, fun _ hcall => arguments_sweep hfaultless hdistinct hcall⟩

theorem plan_members_of_tidy (hdistinct : Distinct host.editor.blocks)
    (h : Tidy host.editor.blocks) : plan host.members = [] := by
  apply plan_eq_nil (nodup_members hdistinct)
  intro base member hmember
  rw [familyOf_members] at hmember ⊢
  obtain ⟨definition, hdefinition, rfl⟩ := List.mem_map.mp hmember
  obtain ⟨hlive, hbase⟩ := Graph.mem_family.mp hdefinition
  rw [h.families definition hlive base hbase, List.map_singleton]

/-- A synchronisation does nothing to a call site that has the arguments that are due to it. -/
theorem sync_eq_self (hfaultless : host.Faultless) (hdistinct : Distinct host.editor.blocks)
    {call : CallSite} (hcall : call ∈ Graph.callSites host.editor.blocks)
    {definition : Definition} (hnamed : host.definitionNamed? call.name = some definition)
    (hdue : call.arguments = host.dueArguments call) :
    (host.sync call.id definition.id).2 = host := by
  have hdefinition := (mem_of_definitionNamed? hnamed).1
  simp only [dueArguments, hnamed, argumentsFrom] at hdue
  simp only [sync, parameters_of_definition hfaultless hdistinct hdefinition,
    parameters_of_callSite hfaultless hdistinct hcall]
  split
  · rfl
  next hlength =>
    have hresolves : host.Resolves definition.parameters := not_not.mp hlength
    rw [if_pos hresolves, resolved] at hdue
    rw [if_pos hdue]

theorem syncNamed_eq_self (hfaultless : host.Faultless) (hdistinct : Distinct host.editor.blocks)
    (hdue : ∀ call ∈ Graph.callSites host.editor.blocks, call.arguments = host.dueArguments call)
    {calls : List CallSite} (hcalls : ∀ call ∈ calls, call ∈ Graph.callSites host.editor.blocks)
    (tally : Tally) : (host.syncNamed calls tally).2 = host := by
  induction calls generalizing tally with
  | nil => rfl
  | cons call rest ih =>
      have hcall := hcalls call List.mem_cons_self
      have hrest := fun other hother => hcalls other (List.mem_cons_of_mem call hother)
      unfold syncNamed
      split
      · exact ih hrest tally
      next definition hnamed =>
        dsimp only
        rw [sync_eq_self hfaultless hdistinct hcall hnamed (hdue call hcall)]
        exact ih hrest _

/-- A sweep does nothing to a host in order. -/
theorem InOrder.sweep_eq_self (h : host.InOrder) (hfaultless : host.Faultless)
    (hdistinct : Distinct host.editor.blocks) : host.sweep.2 = host := by
  have happly : (host.apply (plan host.members)).2 = host := by
    rw [plan_members_of_tidy hdistinct h.tidy]
    rfl
  have hcalls : ∀ call ∈ host.callSites, call ∈ Graph.callSites host.editor.blocks := by
    rw [callSites_eq]
    exact fun _ hcall => hcall
  have hsync := syncNamed_eq_self hfaultless hdistinct h.arguments hcalls
  rw [sweep_eq, happly]
  exact hsync _

end Host
end CallBinding
