import CallBinding.Host.Query
import CallBinding.Proofs.Editor.Progress

/-!
# What a program can do to a host

Everything that a program does to a host amounts to a trail of commands that
the host accepts: faults make a host refuse or ignore commands, but they do not
change what an accepted command does.  Reading by role is the same for an exact
host and for a leaky one.
-/

namespace CallBinding
namespace Host

/-- The host after its editor has carried out commands. -/
def issue (host : Host) (commands : List Command) : Host :=
  host.withEditor (host.editor.issue commands)

/-- The host fails on no block. -/
def Faultless (host : Host) : Prop :=
  ∀ id fault, host.hasFault id fault = false

/-- The host ignores no request to dispose of a block. -/
def Disposes (host : Host) : Prop :=
  ∀ id, host.hasFault id .disposeIgnored = false

theorem Faultless.disposes {host : Host} (h : host.Faultless) : host.Disposes :=
  fun id => h id .disposeIgnored

theorem disposes_faithful (editor : Editor) : (faithful editor).Disposes :=
  fun _ => rfl

/-- Other faults do not make a host ignore disposals. -/
theorem Disposes.setFaults {host : Host} (h : host.Disposes) (id : BlockId) {faults : List Fault}
    (hfaults : .disposeIgnored ∉ faults) : (host.setFaults id faults).Disposes := by
  intro other
  have hother := h other
  simp only [Host.setFaults, hasFault, OrderedMap.get?_insert] at hother ⊢
  split
  · simpa using hfaults
  · exact hother

@[simp] theorem issue_nil (host : Host) : host.issue [] = host := by
  simp [issue, withEditor]

theorem issue_append (host : Host) (first second : List Command) :
    host.issue (first ++ second) = (host.issue first).issue second := by
  simp [issue, withEditor, Editor.issue_append]

@[simp] theorem blocks_issue (host : Host) (commands : List Command) :
    (host.issue commands).editor.blocks = Command.replayAll host.editor.blocks commands := rfl

@[simp] theorem declarations_issue (host : Host) (commands : List Command) :
    (host.issue commands).editor.declarations = host.editor.declarations := rfl

theorem Faultless.issue {host : Host} (h : host.Faultless) (commands : List Command) :
    (host.issue commands).Faultless := h

/-! ## Reading -/

theorem definitions_eq (host : Host) :
    host.definitions = Graph.definitions host.editor.blocks := by
  unfold definitions blocksOfRole Graph.definitions
  rw [List.filterMap_filter]
  refine List.filterMap_congr fun block _ => ?_
  by_cases hrole : block.role = .definition
  · simp [hrole]
  · simp [Graph.toOption_asDefinition, hrole]

theorem callSites_eq (host : Host) : host.callSites = Graph.callSites host.editor.blocks := by
  unfold callSites blocksOfRole Graph.callSites
  rw [List.filterMap_filter]
  refine List.filterMap_congr fun block _ => ?_
  by_cases hrole : block.role = .callSite
  · simp [hrole]
  · simp [Graph.toOption_asCallSite, hrole]

theorem callersOf_eq (host : Host) (name : String) :
    host.callersOf name =
      (Graph.callSites host.editor.blocks).filter fun call => call.name = name := by
  unfold callersOf blocksCalling Graph.callSites
  rw [List.filterMap_filter, List.filter_filterMap]
  refine List.filterMap_congr fun block _ => ?_
  rw [Graph.toOption_asCallSite]
  by_cases hrole : block.role = .callSite <;> by_cases hname : block.name = name <;>
    simp [Block.isCallSite, hrole, hname, Option.filter]

/-- A live call site is among the callers of a name exactly if it calls this name. -/
theorem mem_callersOf_iff {host : Host} (hdistinct : Graph.Distinct host.editor.blocks)
    {call : CallSite} (hcall : call ∈ Graph.callSites host.editor.blocks) {name : String} :
    call.id ∈ (host.callersOf name).map (·.id) ↔ call.name = name := by
  rw [callersOf_eq]
  constructor
  · intro h
    obtain ⟨other, hother, hid⟩ := List.mem_map.mp h
    obtain ⟨hmem, hname⟩ := List.mem_filter.mp hother
    rw [← hdistinct.callSite_eq hmem hcall hid]
    simpa using hname
  · intro hname
    exact List.mem_map_of_mem (List.mem_filter.mpr ⟨hcall, by simpa using hname⟩)

theorem mem_of_mem_callersOf {host : Host} {name : String} {call : CallSite}
    (h : call ∈ host.callersOf name) : call ∈ Graph.callSites host.editor.blocks := by
  rw [callersOf_eq] at h
  exact (List.mem_filter.mp h).1

theorem mem_of_definition? {host : Host} {id : BlockId} {definition : Definition}
    (h : host.definition? id = some definition) :
    definition ∈ Graph.definitions host.editor.blocks ∧ definition.id = id := by
  obtain ⟨block, hblock, hdefinition⟩ := Option.bind_eq_some_iff.mp h
  unfold block? at hblock
  split at hblock
  · cases hblock
  · rw [Graph.toOption_asDefinition] at hdefinition
    split at hdefinition
    next hrole =>
      have hid : block.id = id := by simpa using List.find?_some hblock
      obtain rfl := Option.some.inj hdefinition
      exact ⟨Graph.mem_definitions.mpr ⟨block, List.mem_of_find?_eq_some hblock, hrole, rfl⟩, hid⟩
    next => cases hdefinition

/-- Without faults a definition is read by its id exactly if it is live. -/
theorem definition?_eq_some_iff {host : Host} (hfaultless : host.Faultless)
    (hdistinct : Graph.Distinct host.editor.blocks) {id : BlockId} {definition : Definition} :
    host.definition? id = some definition ↔
      definition ∈ Graph.definitions host.editor.blocks ∧ definition.id = id := by
  constructor
  · exact mem_of_definition?
  · rintro ⟨hmem, rfl⟩
    obtain ⟨block, hblock, hrole, rfl⟩ := Graph.mem_definitions.mp hmem
    have hfind : host.block? block.id = some block := by
      rw [block?, hfaultless, if_neg Bool.false_ne_true]
      exact hdistinct.find?_eq_some_iff.mpr ⟨hblock, rfl⟩
    simp [definition?, hfind, Graph.toOption_asDefinition, hrole]

theorem definitionNamed?_eq (host : Host) (name : String) :
    host.definitionNamed? name =
      (Graph.definitions host.editor.blocks).find? fun definition => definition.name = name := by
  rw [definitionNamed?, definitions_eq]

theorem mem_of_definitionNamed? {host : Host} {name : String} {definition : Definition}
    (h : host.definitionNamed? name = some definition) :
    definition ∈ Graph.definitions host.editor.blocks ∧ definition.name = name := by
  rw [definitionNamed?_eq] at h
  exact ⟨List.mem_of_find?_eq_some h, by simpa using List.find?_some h⟩

/-! ## Commands -/

theorem setField_ok {host written : Host} {id : BlockId} {key value : String}
    (h : host.setField id key value = .ok written) :
    written = host.issue [.setField id key value] := by
  unfold setField at h
  split at h
  · cases h
  · rw [Editor.setField_eq] at h
    split at h
    · exact (Except.ok.inj h).symm
    · cases h

/-- Only fields of live blocks can be set. -/
theorem exists_of_setField_ok {host written : Host} {id : BlockId} {key value : String}
    (h : host.setField id key value = .ok written) : ∃ block ∈ host.editor.blocks, block.id = id := by
  unfold setField at h
  split at h
  · cases h
  · rw [Editor.setField_eq] at h
    split at h
    next hcontains => exact Editor.contains_eq_true_iff.mp hcontains
    next => cases h

theorem setField_of_mem {host : Host} (hfaultless : host.Faultless) {block : Block}
    (hblock : block ∈ host.editor.blocks) (key value : String) :
    host.setField block.id key value = .ok (host.issue [.setField block.id key value]) := by
  have hcontains : host.editor.contains block.id = true :=
    Editor.contains_eq_true_iff.mpr ⟨block, hblock, rfl⟩
  rw [setField, hfaultless, if_neg Bool.false_ne_true, Editor.setField_eq, if_pos hcontains]
  rfl

theorem setParameters_ok {host written : Host} {id : BlockId} {parameters : Parameters}
    (h : host.setParameters id parameters = .ok written) :
    written = host.issue [.setParameters id parameters] ∧
      ∃ call ∈ Graph.callSites host.editor.blocks, call.id = id := by
  unfold setParameters at h
  split at h
  · cases h
  · split at h
    · cases h
    · rw [Editor.setParameters_eq] at h
      split at h
      · cases h
      next block hblock =>
        split at h
        next hrole =>
          refine ⟨(Except.ok.inj h).symm, ⟨block.id, block.name, block.parameters⟩, ?_, ?_⟩
          · exact Graph.mem_callSites.mpr
              ⟨block, List.mem_of_find?_eq_some hblock, hrole, rfl⟩
          · simpa using List.find?_some hblock
        next => cases h

theorem setParameters_of_mem {host : Host} (hfaultless : host.Faultless)
    (hdistinct : Graph.Distinct host.editor.blocks) {call : CallSite}
    (hcall : call ∈ Graph.callSites host.editor.blocks) (parameters : Parameters) :
    host.setParameters call.id parameters =
      .ok (host.issue [.setParameters call.id parameters]) := by
  obtain ⟨block, hblock, hrole, rfl⟩ := Graph.mem_callSites.mp hcall
  have hfind : host.editor.block? block.id = some block :=
    hdistinct.find?_eq_some_iff.mpr ⟨hblock, rfl⟩
  rw [setParameters, hfaultless, hfaultless, Editor.setParameters_eq]
  simp only [Bool.false_eq_true, if_false, hfind, hrole, if_true]
  rfl

theorem dispose_cases (host : Host) (id : BlockId) :
    host.dispose id = host ∨ host.dispose id = host.issue [.dispose id] := by
  unfold dispose
  rw [Editor.dispose_eq]
  split
  · exact Or.inl rfl
  · split
    · exact Or.inr rfl
    · exact Or.inl rfl

theorem dispose_of_mem {host : Host} (hdisposes : host.Disposes) {definition : Definition}
    (h : definition ∈ Graph.definitions host.editor.blocks) :
    host.dispose definition.id = host.issue [.dispose definition.id] := by
  obtain ⟨block, hblock, -, rfl⟩ := Graph.mem_definitions.mp h
  have hcontains : host.editor.contains block.id = true :=
    Editor.contains_eq_true_iff.mpr ⟨block, hblock, rfl⟩
  rw [dispose, hdisposes, if_neg Bool.false_ne_true, Editor.dispose_eq, if_pos hcontains]
  rfl

theorem parameters_of_definition {host : Host} (hfaultless : host.Faultless)
    (hdistinct : Graph.Distinct host.editor.blocks) {definition : Definition}
    (h : definition ∈ Graph.definitions host.editor.blocks) :
    host.parameters definition.id = .ok definition.parameters := by
  obtain ⟨block, hblock, -, rfl⟩ := Graph.mem_definitions.mp h
  have hfind : host.editor.block? block.id = some block :=
    hdistinct.find?_eq_some_iff.mpr ⟨hblock, rfl⟩
  simp [parameters, hfaultless block.id .parametersGone, hfind]

theorem parameters_of_callSite {host : Host} (hfaultless : host.Faultless)
    (hdistinct : Graph.Distinct host.editor.blocks) {call : CallSite}
    (h : call ∈ Graph.callSites host.editor.blocks) :
    host.parameters call.id = .ok call.arguments := by
  obtain ⟨block, hblock, -, rfl⟩ := Graph.mem_callSites.mp h
  have hfind : host.editor.block? block.id = some block :=
    hdistinct.find?_eq_some_iff.mpr ⟨hblock, rfl⟩
  simp [parameters, hfaultless block.id .parametersGone, hfind]

/-! ## Trails on a host -/

/-- One host becomes another by commands of which each meets a condition on its graph. -/
def Issues (condition : List Block → Command → Prop) (host after : Host) : Prop :=
  ∃ commands, Graph.Trail condition host.editor.blocks commands ∧ after = host.issue commands

namespace Issues

variable {condition other : List Block → Command → Prop} {host mid after : Host}

theorem refl (host : Host) : Issues condition host host :=
  ⟨[], .nil _, (issue_nil host).symm⟩

theorem single {command : Command} (h : condition host.editor.blocks command) :
    Issues condition host (host.issue [command]) :=
  ⟨[command], .single h, rfl⟩

theorem trans (hfirst : Issues condition host mid) (hsecond : Issues condition mid after) :
    Issues condition host after := by
  obtain ⟨first, hfirstTrail, rfl⟩ := hfirst
  obtain ⟨second, hsecondTrail, rfl⟩ := hsecond
  exact ⟨first ++ second, hfirstTrail.append hsecondTrail, (issue_append host first second).symm⟩

theorem mono (h : ∀ blocks command, condition blocks command → other blocks command)
    (hissues : Issues condition host after) : Issues other host after := by
  obtain ⟨commands, htrail, rfl⟩ := hissues
  exact ⟨commands, htrail.mono h, rfl⟩

theorem faultless (hissues : Issues condition host after) (h : host.Faultless) :
    after.Faultless := by
  obtain ⟨commands, -, rfl⟩ := hissues
  exact h.issue commands

theorem disposes (hissues : Issues condition host after) (h : host.Disposes) :
    after.Disposes := by
  obtain ⟨commands, -, rfl⟩ := hissues
  exact h

theorem distinct (hissues : Issues condition host after)
    (h : Graph.Distinct host.editor.blocks) : Graph.Distinct after.editor.blocks := by
  obtain ⟨commands, -, rfl⟩ := hissues
  exact h.replayAll commands

theorem declarations (hissues : Issues condition host after) :
    after.editor.declarations = host.editor.declarations := by
  obtain ⟨commands, -, rfl⟩ := hissues
  rfl

theorem progress (hissues : Issues condition host after) :
    Editor.Progress host.editor after.editor := by
  obtain ⟨commands, -, rfl⟩ := hissues
  exact host.editor.progress_issue commands

end Issues

/-- A command that is accepted is carried out or has nothing to do. -/
theorem perform_issues_only {host after : Host} {command : Command}
    (h : host.perform command = .ok after) :
    Issues (fun _ issued => issued = command) host after := by
  cases command with
  | setField id key value => exact setField_ok h ▸ .single rfl
  | setParameters id parameters => exact (setParameters_ok h).1 ▸ .single rfl
  | dispose id =>
      obtain rfl := Except.ok.inj h
      rcases host.dispose_cases id with hsame | hdisposed
      · rw [hsame]
        exact .refl host
      · rw [hdisposed]
        exact .single rfl

/-! ## Suppressed events -/

/-- One host becomes another by commands of which each meets a condition on its graph, whatever
becomes of their events. -/
def Replays (condition : List Block → Command → Prop) (host after : Host) : Prop :=
  ∃ commands outbox, Graph.Trail condition host.editor.blocks commands ∧
    after = host.withEditor { host.editor.issue commands with outbox := outbox }

namespace Replays

variable {condition : List Block → Command → Prop} {host after : Host}

theorem of_issues (h : Issues condition host after) : Replays condition host after := by
  obtain ⟨commands, htrail, rfl⟩ := h
  exact ⟨commands, _, htrail, rfl⟩

theorem refl (host : Host) : Replays condition host host :=
  of_issues (.refl host)

/-- Commands while one more suppression is open, which is closed after them. -/
theorem suppressed (h : Issues condition host.suppress after) :
    Replays condition host after.resume := by
  obtain ⟨commands, htrail, rfl⟩ := h
  exact ⟨commands, _, htrail, rfl⟩

theorem evolves (h : Replays condition host after) :
    Editor.Evolves host.editor after.editor := by
  obtain ⟨commands, outbox, -, rfl⟩ := h
  exact ⟨le_refl _, (host.editor.progress_issue commands).evolves.origin⟩

theorem numbered (h : Replays condition host after) (hnumbered : host.editor.Numbered) :
    after.editor.Numbered := by
  obtain ⟨commands, outbox, -, rfl⟩ := h
  have hissued := (host.editor.progress_issue commands).numbered hnumbered
  exact ⟨hissued.increasing, hissued.below⟩

theorem faultless (h : Replays condition host after) (hfaultless : host.Faultless) :
    after.Faultless := by
  obtain ⟨commands, outbox, -, rfl⟩ := h
  exact hfaultless

theorem suppression (h : Replays condition host after) :
    after.editor.suppression = host.editor.suppression := by
  obtain ⟨commands, outbox, -, rfl⟩ := h
  rfl

theorem mono {other : List Block → Command → Prop}
    (hsub : ∀ blocks command, condition blocks command → other blocks command)
    (h : Replays condition host after) : Replays other host after := by
  obtain ⟨commands, outbox, htrail, hafter⟩ := h
  exact ⟨commands, outbox, htrail.mono hsub, hafter⟩

end Replays

/-! ## Operations -/

/-- The commands of one operation are issued openly, or all of them while events are suppressed. -/
inductive Operates (condition : List Block → Command → Prop) (host : Host) : Host → Prop
  | openly {after : Host} : Issues condition host after → Operates condition host after
  | suppressed {after : Host} : Issues condition host.suppress after →
      Operates condition host after.resume

/-- Commands tell of changes and deletions only. -/
theorem Issues.kind_of_mem_outbox {condition : List Block → Command → Prop} {host after : Host}
    (h : Issues condition host after) {event : Event} (hevent : event ∈ after.editor.outbox) :
    event ∈ host.editor.outbox ∨ event.kind ≠ .create := by
  obtain ⟨commands, -, rfl⟩ := h
  rcases List.mem_append.mp hevent with hold | hnew
  · exact Or.inl hold
  · split at hnew
    · cases hnew
    · obtain ⟨command, -, rfl⟩ := List.mem_map.mp hnew
      right
      cases command <;> simp [Command.event]

namespace Operates

variable {condition other : List Block → Command → Prop} {host after : Host}

theorem refl (host : Host) : Operates condition host host :=
  .openly (.refl host)

theorem mono (hsub : ∀ blocks command, condition blocks command → other blocks command)
    (h : Operates condition host after) : Operates other host after := by
  cases h with
  | openly h => exact .openly (h.mono hsub)
  | suppressed h => exact .suppressed (h.mono hsub)

theorem replays (h : Operates condition host after) : Replays condition host after := by
  cases h with
  | openly h => exact .of_issues h
  | suppressed h => exact .suppressed h

theorem kind_of_mem_outbox (h : Operates condition host after) {event : Event}
    (hevent : event ∈ after.editor.outbox) :
    event ∈ host.editor.outbox ∨ event.kind ≠ .create := by
  cases h with
  | openly h => exact h.kind_of_mem_outbox hevent
  | suppressed h => exact h.kind_of_mem_outbox hevent

end Operates

end Host
end CallBinding
