import CallBinding.Proofs.Controller.Naming
import CallBinding.Proofs.Controller.Snapshots

/-!
# What a transaction establishes

A call site is bound to a definition that the controller has picked among the
usable ones of a list, or by the call site's own name.  Whoever looks the name
of the call site up later takes the first definition of that name in the whole
graph.  As long as the list is a snapshot, both find the same definition, and
so the call site has the arguments that are due to its name.
-/

namespace CallBinding

open CallBinding.Graph (Renames Distinct)

/-- A call site has a valid name, and one of the given definitions carries it. -/
def CallSite.IsNamedIn (call : CallSite) (definitions : List Definition) : Prop :=
  Name.isValid call.name = true ∧ ∃ definition ∈ definitions, definition.name = call.name

namespace Host

/-- A call site has the name of a live definition, and the arguments that the first definition of
this name gives it, or those that it had before if these are not known in full. -/
structure Established (host : Host) (former live : CallSite) : Prop where
  id : live.id = former.id
  bound : ∃ definition, host.definitionNamed? live.name = some definition ∧
    ((host.Resolves definition.parameters ∧
        live.arguments = host.resolved definition.parameters) ∨
      (¬host.Resolves definition.parameters ∧ live.arguments = former.arguments))

variable {host other named : Host} {former live call : CallSite} {definition : Definition}

theorem Established.of_argumentsFrom (hid : live.id = former.id)
    (hdefinition : host.definitionNamed? live.name = some definition)
    (harguments : live.arguments = host.argumentsFrom definition former.arguments) :
    host.Established former live := by
  refine ⟨hid, definition, hdefinition, ?_⟩
  by_cases hresolves : host.Resolves definition.parameters
  · exact Or.inl ⟨hresolves, harguments.trans (if_pos hresolves)⟩
  · exact Or.inr ⟨hresolves, harguments.trans (if_neg hresolves)⟩

/-- Only the graph and the declared variables matter. -/
theorem Established.congr (h : host.Established former live)
    (hblocks : other.editor.blocks = host.editor.blocks)
    (hdeclarations : other.editor.declarations = host.editor.declarations) :
    other.Established former live := by
  obtain ⟨hid, definition, hdefinition, harguments⟩ := h
  refine ⟨hid, definition, ?_, ?_⟩
  · rwa [definitionNamed?_eq, hblocks, ← definitionNamed?_eq]
  · rwa [Resolves, resolved, identitiesOf_congr hdeclarations]

/-- A call site that has been given the name of a definition is bound once it is synchronised with
the first definition of this name. -/
theorem established_sync (hfaultless : host.Faultless) (hdistinct : Distinct host.editor.blocks)
    {name : String} (hrenames : Issues (Renames name) host named)
    (hcall : { call with name := name } ∈ Graph.callSites named.editor.blocks)
    (hdefinition : host.definitionNamed? name = some definition) :
    ∃ live ∈ Graph.callSites (named.sync call.id definition.id).2.editor.blocks,
      live.name = name ∧ (named.sync call.id definition.id).2.Established call live := by
  have hnamedDistinct := hrenames.distinct hdistinct
  have hsync := named.sync_issues call.id definition.id
  have hnamed : named.definitionNamed? name = some definition := by
    rwa [definitionNamed?_eq, hrenames.definitions_of_renames hdistinct, ← definitionNamed?_eq]
  have hsynced : (named.sync call.id definition.id).2.definitionNamed? name = some definition := by
    rwa [definitionNamed?_eq, hsync.definitions_of_binds hnamedDistinct, ← definitionNamed?_eq]
  have hlive := mem_callSites_sync (hrenames.faultless hfaultless) hnamedDistinct
    (mem_of_definitionNamed? hnamed).1 hcall
  refine ⟨_, hlive, rfl, .of_argumentsFrom rfl hsynced ?_⟩
  exact (argumentsFrom_congr hsync.declarations definition call.arguments).symm

/-! ## The second choice -/

/-- At its second binding a call site keeps a valid name that a definition carries. -/
theorem exists_secondChoice?_of_isNamedIn (h : call.IsNamedIn host.definitions)
    (prior : List BlockId) :
    ∃ definition, host.secondChoice? prior call.name = some definition ∧
      definition.name = call.name := by
  obtain ⟨hvalid, carrier, hcarrier, hname⟩ := h
  have hfound : (host.definitionNamed? call.name).isSome := by
    rw [definitionNamed?, List.find?_isSome]
    exact ⟨carrier, hcarrier, by simpa using hname⟩
  obtain ⟨definition, hdefinition⟩ := Option.isSome_iff_exists.mp hfound
  refine ⟨definition, ?_, (mem_of_definitionNamed? hdefinition).2⟩
  rw [secondChoice?, if_pos hvalid, hdefinition, Option.some_or]

/-- A definition that is chosen at a second binding is the first of its name in the graph. -/
theorem definitionNamed?_of_secondChoice? {prior : List BlockId} {current : String}
    {callId : BlockId} (hsnapshot : host.editor.Snapshot callId prior)
    (hnumbered : host.editor.Numbered)
    (h : host.secondChoice? prior current = some definition) :
    host.definitionNamed? definition.name = some definition := by
  rcases Option.or_eq_some_iff.mp h with hown | ⟨-, hfirst⟩
  · split at hown
    next =>
      obtain ⟨-, rfl⟩ := mem_of_definitionNamed? hown
      exact hown
    next => cases hown
  · refine definitionNamed?_of_usable hsnapshot hnumbered ?_
    obtain ⟨rest, hrest⟩ := List.head?_eq_some_iff.mp hfirst
    rw [hrest, List.find?_cons_of_pos (by simp)]

theorem exists_secondChoice? {prior : List BlockId}
    (h : call.IsNamedIn host.definitions ∨ host.usable prior ≠ []) :
    ∃ definition, host.secondChoice? prior call.name = some definition ∧
      (call.IsNamedIn host.definitions → definition.name = call.name) := by
  by_cases hnamed : call.IsNamedIn host.definitions
  · obtain ⟨definition, hchoice, hname⟩ := exists_secondChoice?_of_isNamedIn hnamed prior
    exact ⟨definition, hchoice, fun _ => hname⟩
  · obtain ⟨first, rest, hcons⟩ := List.exists_cons_of_ne_nil (h.resolve_left hnamed)
    have hchoice : ∃ definition, host.secondChoice? prior call.name = some definition := by
      rw [secondChoice?, hcons, List.head?_cons]
      cases (if Name.isValid call.name then host.definitionNamed? call.name else none) with
      | none => exact ⟨first, rfl⟩
      | some definition => exact ⟨definition, rfl⟩
    obtain ⟨definition, hdefinition⟩ := hchoice
    exact ⟨definition, hdefinition, fun h => absurd h hnamed⟩

end Host

namespace Controller

variable {controller : Controller} {host : Host} {usable : List Definition} {current : String}

/-! ## The first binding -/

/-- A new call site keeps a valid name that a usable definition carries. -/
theorem nameFor_of_isNamedIn {call : CallSite} (h : call.IsNamedIn usable) :
    controller.nameFor usable call.name = call.name := by
  have hplaceholder : Name.isPlaceholder call.name = false := by simpa [Name.isValid] using h.1
  have hknown : (usable.any fun definition => definition.name = call.name) = true := by
    simpa using h.2
  simp [nameFor, hplaceholder, hknown]

/-- If there are usable definitions, a new call site is named like one of them. -/
theorem exists_usable_of_nameFor (controller : Controller) (h : usable ≠ []) (current : String) :
    ∃ definition ∈ usable, definition.name = controller.nameFor usable current := by
  obtain ⟨first, rest, rfl⟩ := List.exists_cons_of_ne_nil h
  unfold nameFor
  dsimp only
  split
  · exact ⟨first, List.mem_cons_self, rfl⟩
  next hkept =>
    have hknown : ∃ definition ∈ first :: rest, definition.name = current := by
      by_contra hunknown
      exact hkept (by simpa using Or.inr hunknown)
    exact hknown

section

variable {call : CallSite} {prior : List BlockId}
variable (hfaultless : host.Faultless) (hnumbered : host.editor.Numbered)
variable (hcall : call ∈ Graph.callSites host.editor.blocks)
variable (hsnapshot : host.editor.Snapshot call.id prior)

include hfaultless hnumbered hcall hsnapshot

theorem established_onCallSiteCreated (controller : Controller) (now : Nat)
    (husable : host.usable prior ≠ []) :
    ∃ live ∈ Graph.callSites
        (controller.onCallSiteCreated now host call.id prior).2.editor.blocks,
      live.name = controller.nameFor (host.usable prior) call.name ∧
        (controller.onCallSiteCreated now host call.id prior).2.Established call live := by
  obtain ⟨named, hrenames, hmem, hnext⟩ :=
    onCallSiteCreated_of_mem hfaultless hnumbered.distinct hcall controller now prior
  obtain ⟨carrier, hcarrier, hname⟩ := controller.exists_usable_of_nameFor husable call.name
  generalize controller.nameFor (host.usable prior) call.name = name at hrenames hmem hnext hname ⊢
  rw [hnext]
  have hfound : ((host.usable prior).find? fun other => other.name = name).isSome := by
    rw [List.find?_isSome]
    exact ⟨carrier, hcarrier, by simpa using hname⟩
  obtain ⟨definition, hdefinition⟩ := Option.isSome_iff_exists.mp hfound
  have hbinding : bindingFor? (host.usable prior) name = some definition.id := by
    rw [bindingFor?, hdefinition, Option.some_or]
    rfl
  have hsuppressed : host.suppress.definitionNamed? name = some definition :=
    Host.definitionNamed?_of_usable hsnapshot hnumbered hdefinition
  have hsilent : host.suppress.Faultless := hfaultless
  obtain ⟨live, hlive, hliveName, hestablished⟩ :=
    Host.established_sync hsilent hnumbered.distinct hrenames hmem hsuppressed
  rw [hbinding]
  exact ⟨live, hlive, hliveName, hestablished.congr rfl rfl⟩

theorem established_onRecheck {session : Session} (hsite : session.callSite = call.id)
    (hprior : session.prior = prior) (hsession : controller.session? session.id = some session)
    {definition : Definition}
    (hchoice : host.secondChoice? prior call.name = some definition) :
    ∃ live ∈ Graph.callSites (controller.onRecheck host session.id).2.editor.blocks,
      live.name = definition.name ∧
        (controller.onRecheck host session.id).2.Established call live := by
  obtain ⟨named, hnamed, hrenames, hmem⟩ :=
    Host.giveName_of_mem hfaultless hcall definition.name
  have hcurrent := Host.nameOf?_of_mem hfaultless hnumbered.distinct hcall
  have hnext : (controller.onRecheck host session.id).2 = (named.sync call.id definition.id).2 := by
    simp only [onRecheck, hsession, hsite, hcurrent, hprior, hchoice, rebind, hnamed]
  rw [hnext]
  exact Host.established_sync hfaultless hnumbered.distinct hrenames hmem
    (Host.definitionNamed?_of_secondChoice? hsnapshot hnumbered hchoice)

end

end Controller
end CallBinding
