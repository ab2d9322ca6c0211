import CallBinding.Proofs.Host.Issues
import CallBinding.Reconcile.Sweep

/-!
# What a synchronisation does

A synchronisation only binds call sites, whatever the host's faults.  Without
faults it is also known exactly which arguments every call site has afterwards:
the labels of its definition with their identities, if all of these are known,
and otherwise the arguments that it had before.
-/

namespace CallBinding
namespace Host

open CallBinding.Graph (Binds Keeps Distinct)

/-- Every label of the parameters has an identity. -/
def Resolves (host : Host) (parameters : Parameters) : Prop :=
  (host.identitiesOf parameters).length = parameters.count

instance (host : Host) (parameters : Parameters) : Decidable (host.Resolves parameters) :=
  inferInstanceAs (Decidable ((host.identitiesOf parameters).length = parameters.count))

/-- The labels of parameters with the identities that the host knows for them. -/
def resolved (host : Host) (parameters : Parameters) : Parameters :=
  ⟨parameters.labels, host.identitiesOf parameters⟩

/-- The arguments of a call site once it is synchronised with a definition. -/
def argumentsFrom (host : Host) (definition : Definition) (current : Parameters) : Parameters :=
  if host.Resolves definition.parameters then host.resolved definition.parameters else current

/-- The arguments of a call site once it is synchronised with the definition that it names. -/
def dueArguments (host : Host) (call : CallSite) : Parameters :=
  match host.definitionNamed? call.name with
  | none => call.arguments
  | some definition => host.argumentsFrom definition call.arguments

theorem resolves_of_isAligned (host : Host) {parameters : Parameters}
    (h : parameters.isAligned = true) : host.Resolves parameters := by
  have hlength : parameters.labels.length = parameters.identities.length := by
    simpa [Parameters.isAligned] using h
  simp [Resolves, identitiesOf, h, Parameters.count, hlength]

/-- Aligned parameters are their own resolution. -/
theorem resolved_of_isAligned (host : Host) {parameters : Parameters}
    (h : parameters.isAligned = true) : host.resolved parameters = parameters := by
  simp [resolved, identitiesOf, h]

theorem isAligned_resolved (host : Host) {parameters : Parameters}
    (h : host.Resolves parameters) : (host.resolved parameters).isAligned = true := by
  have hlength : (host.identitiesOf parameters).length = parameters.labels.length := h
  simp [resolved, Parameters.isAligned, hlength]

/-- Parameters resolve alike on hosts with the same declarations. -/
theorem identitiesOf_congr {host other : Host}
    (h : other.editor.declarations = host.editor.declarations) (parameters : Parameters) :
    other.identitiesOf parameters = host.identitiesOf parameters := by
  have hdeclared : other.declared? = host.declared? := by
    funext name
    rw [declared?, declared?, h]
  rw [identitiesOf, identitiesOf, hdeclared]

theorem resolved_congr {host other : Host}
    (h : other.editor.declarations = host.editor.declarations) (parameters : Parameters) :
    other.resolved parameters = host.resolved parameters := by
  rw [resolved, resolved, identitiesOf_congr h]

theorem resolves_congr {host other : Host}
    (h : other.editor.declarations = host.editor.declarations) {parameters : Parameters} :
    other.Resolves parameters ↔ host.Resolves parameters := by
  rw [Resolves, Resolves, identitiesOf_congr h]

theorem argumentsFrom_congr {host other : Host}
    (h : other.editor.declarations = host.editor.declarations) (definition : Definition)
    (current : Parameters) :
    other.argumentsFrom definition current = host.argumentsFrom definition current := by
  simp only [argumentsFrom, resolves_congr h, resolved_congr h]

theorem dueArguments_congr {host other : Host}
    (hdeclarations : other.editor.declarations = host.editor.declarations)
    (hdefinitions : Graph.definitions other.editor.blocks = Graph.definitions host.editor.blocks)
    (call : CallSite) : other.dueArguments call = host.dueArguments call := by
  simp only [dueArguments, definitionNamed?_eq, hdefinitions, argumentsFrom_congr hdeclarations]

/-- A second synchronisation with the same definition changes nothing. -/
theorem argumentsFrom_argumentsFrom (host : Host) (definition : Definition)
    (current : Parameters) :
    host.argumentsFrom definition (host.argumentsFrom definition current) =
      host.argumentsFrom definition current := by
  unfold argumentsFrom
  split <;> rfl

theorem dueArguments_dueArguments (host : Host) (call : CallSite) :
    host.dueArguments { call with arguments := host.dueArguments call } =
      host.dueArguments call := by
  simp only [dueArguments]
  cases host.definitionNamed? call.name with
  | none => rfl
  | some definition => exact argumentsFrom_argumentsFrom host definition call.arguments

/-! ## Only bindings -/

/-- A synchronisation writes the resolved parameters of a definition to a call site, or nothing. -/
theorem sync_issues (host : Host) (call definition : BlockId) :
    Issues Binds host (host.sync call definition).2 := by
  unfold sync
  cases host.parameters definition with
  | error _ => exact .refl host
  | ok parameters =>
      dsimp only
      split
      · exact .refl host
      next hlength =>
        have haligned := host.isAligned_resolved (not_not.mp hlength)
        cases host.parameters call with
        | error _ => exact .refl host
        | ok current =>
            dsimp only
            split
            · exact .refl host
            · split
              next written hwritten =>
                obtain ⟨rfl, target, htarget, rfl⟩ := setParameters_ok hwritten
                exact .single (.intro htarget haligned)
              next => exact .refl host

theorem syncEach_issues (host : Host) (definition : BlockId) (calls : List CallSite)
    (tally : Tally) : Issues Binds host (host.syncEach definition calls tally).2 := by
  induction calls generalizing host tally with
  | nil => exact .refl host
  | cons call rest ih => exact (host.sync_issues call.id definition).trans (ih _ _)

theorem syncCallers_issues (host : Host) (definition : Definition) :
    Issues Binds host (host.syncCallers definition).2 :=
  host.syncEach_issues definition.id _ .zero

theorem syncSurvivor_issues (host : Host) (resolution : Resolution) :
    Issues Binds host (host.syncSurvivor resolution).2 := by
  unfold syncSurvivor
  split
  · exact .refl host
  · exact host.syncCallers_issues _

theorem syncNamed_issues (host : Host) (calls : List CallSite) (tally : Tally) :
    Issues Binds host (host.syncNamed calls tally).2 := by
  induction calls generalizing host tally with
  | nil => exact .refl host
  | cons call rest ih =>
      unfold syncNamed
      split
      · exact ih host tally
      next definition _ => exact (host.sync_issues call.id definition.id).trans (ih _ _)

theorem Issues.definitions_of_binds {host after : Host} (h : Issues Binds host after)
    (hdistinct : Distinct host.editor.blocks) :
    Graph.definitions after.editor.blocks = Graph.definitions host.editor.blocks := by
  obtain ⟨commands, htrail, rfl⟩ := h
  exact Graph.definitions_of_binds hdistinct htrail

theorem Issues.callSites_of_binds {host after : Host} (h : Issues Binds host after) :
    (Graph.callSites after.editor.blocks).map (fun call => (call.id, call.name)) =
      (Graph.callSites host.editor.blocks).map fun call => (call.id, call.name) := by
  obtain ⟨commands, htrail, rfl⟩ := h
  exact Graph.callSites_of_binds htrail

theorem Issues.keeps_of_binds {host after : Host} (h : Issues Binds host after)
    (hdistinct : Distinct host.editor.blocks) : Issues Keeps host after := by
  obtain ⟨commands, htrail, rfl⟩ := h
  exact ⟨commands, Graph.keeps_of_binds hdistinct htrail, rfl⟩

/-! ## The arguments afterwards -/

variable {host : Host}

theorem callSites_sync (hfaultless : host.Faultless) (hdistinct : Distinct host.editor.blocks)
    {definition : Definition} (hdefinition : definition ∈ Graph.definitions host.editor.blocks)
    {call : CallSite} (hcall : call ∈ Graph.callSites host.editor.blocks) :
    Graph.callSites (host.sync call.id definition.id).2.editor.blocks =
      (Graph.callSites host.editor.blocks).map fun other =>
        if other.id = call.id then
          { other with arguments := host.argumentsFrom definition other.arguments }
        else other := by
  have same (h : host.argumentsFrom definition call.arguments = call.arguments) :
      Graph.callSites host.editor.blocks = (Graph.callSites host.editor.blocks).map fun other =>
        if other.id = call.id then
          { other with arguments := host.argumentsFrom definition other.arguments }
        else other := by
    refine ((List.map_congr_left fun other hother => ?_).trans (List.map_id _)).symm
    split
    next hid =>
      rw [hdistinct.callSite_eq hother hcall hid, h]
      rfl
    next => rfl
  have hparameters := parameters_of_definition hfaultless hdistinct hdefinition
  have hcurrent := parameters_of_callSite hfaultless hdistinct hcall
  simp only [sync, hparameters, hcurrent]
  split
  next hlength => exact same (if_neg hlength)
  next hlength =>
    have hresolves : host.Resolves definition.parameters := not_not.mp hlength
    split
    next heq => exact same ((if_pos hresolves).trans heq.symm)
    next =>
      rw [setParameters_of_mem hfaultless hdistinct hcall]
      refine (Graph.callSites_replay_setParameters _ _ _).trans ?_
      refine List.map_congr_left fun other _ => ?_
      rw [argumentsFrom, if_pos hresolves]
      rfl

/-- After the listed call sites have been synchronised with one definition, the others have kept
their arguments. -/
theorem callSites_syncEach (hfaultless : host.Faultless) (hdistinct : Distinct host.editor.blocks)
    {definition : Definition} (hdefinition : definition ∈ Graph.definitions host.editor.blocks)
    (calls : List CallSite)
    (hcalls : ∀ call ∈ calls, call.id ∈ (Graph.callSites host.editor.blocks).map (·.id))
    (tally : Tally) :
    Graph.callSites (host.syncEach definition.id calls tally).2.editor.blocks =
      (Graph.callSites host.editor.blocks).map fun call =>
        if call.id ∈ calls.map (·.id) then
          { call with arguments := host.argumentsFrom definition call.arguments }
        else call := by
  induction calls generalizing host tally with
  | nil => simp [syncEach]
  | cons call rest ih =>
      obtain ⟨live, hlive, hid⟩ := List.mem_map.mp (hcalls call List.mem_cons_self)
      have hissues := host.sync_issues call.id definition.id
      have hsync := callSites_sync hfaultless hdistinct hdefinition hlive
      rw [hid] at hsync
      have hids : (Graph.callSites (host.sync call.id definition.id).2.editor.blocks).map (·.id) =
          (Graph.callSites host.editor.blocks).map (·.id) := by
        have hnames := congrArg (List.map Prod.fst) hissues.callSites_of_binds
        rwa [List.map_map, List.map_map] at hnames
      have hrest := ih (hissues.faultless hfaultless) (hissues.distinct hdistinct)
        (by rwa [hissues.definitions_of_binds hdistinct])
        (by
          rw [hids]
          exact fun other hother => hcalls other (List.mem_cons_of_mem call hother))
        (tally.record (host.sync call.id definition.id).1)
      simp only [argumentsFrom_congr hissues.declarations] at hrest
      rw [syncEach]
      dsimp only
      rw [hrest, hsync, List.map_map]
      refine List.map_congr_left fun other _ => ?_
      by_cases hsame : other.id = call.id
      · simp [hsame, argumentsFrom_argumentsFrom]
      · simp [hsame]

/-- The callers of a definition, and no others, have the arguments that it gives them afterwards. -/
theorem callSites_syncCallers (hfaultless : host.Faultless)
    (hdistinct : Distinct host.editor.blocks) {definition : Definition}
    (hdefinition : definition ∈ Graph.definitions host.editor.blocks) :
    Graph.callSites (host.syncCallers definition).2.editor.blocks =
      (Graph.callSites host.editor.blocks).map fun call =>
        if call.name = definition.name then
          { call with arguments := host.argumentsFrom definition call.arguments }
        else call := by
  rw [syncCallers, callSites_syncEach hfaultless hdistinct hdefinition]
  · exact List.map_congr_left fun call hcall => by simp only [mem_callersOf_iff hdistinct hcall]
  · exact fun call hcall => List.mem_map_of_mem (mem_of_mem_callersOf hcall)

theorem callSites_sync_named (hfaultless : host.Faultless)
    (hdistinct : Distinct host.editor.blocks) {call : CallSite}
    (hcall : call ∈ Graph.callSites host.editor.blocks) {definition : Definition}
    (hnamed : host.definitionNamed? call.name = some definition) :
    Graph.callSites (host.sync call.id definition.id).2.editor.blocks =
      (Graph.callSites host.editor.blocks).map fun other =>
        if other.id = call.id then { other with arguments := host.dueArguments other }
        else other := by
  rw [callSites_sync hfaultless hdistinct (mem_of_definitionNamed? hnamed).1 hcall]
  refine List.map_congr_left fun other hother => ?_
  split
  next hid =>
    obtain rfl := hdistinct.callSite_eq hother hcall hid
    rw [dueArguments, hnamed]
  next => rfl

/-- After the listed call sites have been synchronised, each of them has the arguments that are
due to it, and the others have kept theirs. -/
theorem callSites_syncNamed (hfaultless : host.Faultless)
    (hdistinct : Distinct host.editor.blocks) (calls : List CallSite)
    (hcalls : ∀ call ∈ calls, (call.id, call.name) ∈
      (Graph.callSites host.editor.blocks).map fun live => (live.id, live.name))
    (tally : Tally) :
    Graph.callSites (host.syncNamed calls tally).2.editor.blocks =
      (Graph.callSites host.editor.blocks).map fun call =>
        if call.id ∈ calls.map (·.id) then { call with arguments := host.dueArguments call }
        else call := by
  induction calls generalizing host tally with
  | nil => simp [syncNamed]
  | cons call rest ih =>
      have hrest : ∀ other ∈ rest, (other.id, other.name) ∈
          (Graph.callSites host.editor.blocks).map fun live => (live.id, live.name) :=
        fun other hother => hcalls other (List.mem_cons_of_mem _ hother)
      obtain ⟨target, htarget, heq⟩ := List.mem_map.mp (hcalls call List.mem_cons_self)
      obtain ⟨hid, hname⟩ := Prod.mk.inj heq
      unfold syncNamed
      split
      next hnone =>
        rw [ih hfaultless hdistinct hrest]
        refine List.map_congr_left fun other hother => ?_
        by_cases hsame : other.id = call.id
        · have hother : other = target :=
            hdistinct.callSite_eq hother htarget (hsame.trans hid.symm)
          have hdue : host.dueArguments other = other.arguments := by
            rw [dueArguments, hother, hname, hnone]
          simp [hdue]
        · simp [hsame]
      next definition hsome =>
        have hissues := host.sync_issues call.id definition.id
        have hdue := dueArguments_congr hissues.declarations (hissues.definitions_of_binds hdistinct)
        have hsync := callSites_sync_named hfaultless hdistinct htarget (hname ▸ hsome)
        rw [hid] at hsync
        dsimp only
        rw [ih (hissues.faultless hfaultless) (hissues.distinct hdistinct)
          (by rwa [hissues.callSites_of_binds]), hsync, List.map_map]
        refine List.map_congr_left fun other _ => ?_
        by_cases hsame : other.id = call.id
        · have hlisted : other.id ∈ (call :: rest).map (·.id) := by simp [hsame]
          simp only [Function.comp_apply]
          rw [if_pos hsame, if_pos hlisted]
          by_cases hagain : other.id ∈ rest.map (·.id)
          · rw [if_pos hagain, hdue, dueArguments_dueArguments]
          · rw [if_neg hagain]
        · simp [hsame, hdue]

end Host
end CallBinding
