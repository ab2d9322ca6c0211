import CallBinding.Name
import CallBinding.Proofs.Graph.View

/-!
# Trails of commands

A trail is a list of commands of which each meets a condition on the graph that
it finds.  Conditions speak about one command at a time, so a property that
every command of a trail keeps holds after each of them, and not only at the
end.

The second half of this file is about call sites that are bound by name, and
about the commands that leave every such call site bound.
-/

namespace CallBinding

namespace Command

@[simp] theorem replayAll_nil (blocks : List Block) : replayAll blocks [] = blocks := rfl

@[simp] theorem replayAll_cons (blocks : List Block) (command : Command) (log : List Command) :
    replayAll blocks (command :: log) = replayAll (command.replay blocks) log := rfl

theorem replayAll_append (blocks : List Block) (first second : List Command) :
    replayAll blocks (first ++ second) = replayAll (replayAll blocks first) second :=
  List.foldl_append

end Command

namespace Graph

/-- Each of the commands meets a condition on the graph that it finds. -/
inductive Trail (condition : List Block → Command → Prop) : List Block → List Command → Prop
  | nil (blocks : List Block) : Trail condition blocks []
  | cons {blocks : List Block} {command : Command} {rest : List Command} :
      condition blocks command → Trail condition (command.replay blocks) rest →
      Trail condition blocks (command :: rest)

namespace Trail

variable {condition other : List Block → Command → Prop}
variable {blocks : List Block} {commands : List Command}

theorem single {command : Command} (h : condition blocks command) :
    Trail condition blocks [command] :=
  .cons h (.nil _)

theorem append {more : List Command} (hfirst : Trail condition blocks commands)
    (hsecond : Trail condition (Command.replayAll blocks commands) more) :
    Trail condition blocks (commands ++ more) := by
  induction hfirst with
  | nil => exact hsecond
  | cons hcommand _ ih => exact .cons hcommand (ih hsecond)

/-- An invariant that every command keeps may strengthen the condition on the way, and holds at
the end. -/
theorem strengthen (htrail : Trail condition blocks commands) (invariant : List Block → Prop)
    (hstep : ∀ blocks command, invariant blocks → condition blocks command →
      other blocks command ∧ invariant (command.replay blocks))
    (hstart : invariant blocks) :
    Trail other blocks commands ∧ invariant (Command.replayAll blocks commands) := by
  induction htrail with
  | nil => exact ⟨.nil _, hstart⟩
  | cons hcommand _ ih =>
      obtain ⟨hother, hnext⟩ := hstep _ _ hstart hcommand
      obtain ⟨hrest, hend⟩ := ih hnext
      exact ⟨.cons hother hrest, hend⟩

theorem mono (h : ∀ blocks command, condition blocks command → other blocks command)
    (htrail : Trail condition blocks commands) : Trail other blocks commands :=
  (htrail.strengthen (fun _ => True)
    (fun blocks command _ hcommand => ⟨h blocks command hcommand, trivial⟩) trivial).1

theorem preserves (htrail : Trail condition blocks commands) (invariant : List Block → Prop)
    (hstep : ∀ blocks command, invariant blocks → condition blocks command →
      invariant (command.replay blocks))
    (hstart : invariant blocks) : invariant (Command.replayAll blocks commands) := by
  have h : Trail condition blocks commands ∧ invariant (Command.replayAll blocks commands) :=
    htrail.strengthen invariant
      (fun blocks command h hcommand => ⟨hcommand, hstep blocks command h hcommand⟩) hstart
  exact h.2

theorem take (htrail : Trail condition blocks commands) (n : Nat) :
    Trail condition blocks (commands.take n) := by
  induction htrail generalizing n with
  | nil blocks => simpa using Trail.nil blocks
  | cons hcommand _ ih =>
      cases n with
      | zero => exact .nil _
      | succ n => exact .cons hcommand (ih n)

end Trail

/-- Distinct ids stay distinct, whatever the commands. -/
theorem Distinct.replayAll {blocks : List Block} (hdistinct : Distinct blocks)
    (commands : List Command) : Distinct (Command.replayAll blocks commands) := by
  induction commands generalizing blocks with
  | nil => exact hdistinct
  | cons command rest ih => exact ih (hdistinct.replay command)

/-! ## Renaming and binding call sites -/

/-- A command that gives a call site a certain name. -/
inductive Renames (name : String) (blocks : List Block) : Command → Prop
  | intro {call : CallSite} :
      call ∈ callSites blocks → Renames name blocks (.setField call.id nameField name)

/-- A command that gives a call site arguments with one identity for each label. -/
inductive Binds (blocks : List Block) : Command → Prop
  | intro {call : CallSite} {parameters : Parameters} :
      call ∈ callSites blocks → parameters.isAligned →
      Binds blocks (.setParameters call.id parameters)

variable {blocks : List Block} {commands : List Command} {command : Command} {name : String}

theorem Renames.definitions_replay (hdistinct : Distinct blocks)
    (h : Renames name blocks command) :
    definitions (command.replay blocks) = definitions blocks := by
  cases h with
  | intro hcall => exact definitions_replay_setField hdistinct hcall _ _

theorem Binds.definitions_replay (hdistinct : Distinct blocks) (h : Binds blocks command) :
    definitions (command.replay blocks) = definitions blocks := by
  cases h with
  | intro hcall _ => exact definitions_replay_setParameters hdistinct hcall _

/-- Renaming changes no id of a call site. -/
theorem Renames.ids_replay (h : Renames name blocks command) :
    (callSites (command.replay blocks)).map (·.id) = (callSites blocks).map (·.id) := by
  cases h with
  | intro _ =>
      rw [callSites_replay_setField, List.map_map]
      refine List.map_congr_left fun call _ => ?_
      simp only [Function.comp_apply]
      split <;> rfl

/-- Binding changes neither the ids nor the names of the call sites. -/
theorem Binds.callSites_replay (h : Binds blocks command) :
    (callSites (command.replay blocks)).map (fun call => (call.id, call.name)) =
      (callSites blocks).map fun call => (call.id, call.name) := by
  cases h with
  | intro _ _ =>
      rw [callSites_replay_setParameters, List.map_map]
      refine List.map_congr_left fun call _ => ?_
      simp only [Function.comp_apply]
      split <;> rfl

theorem definitions_of_renames (hdistinct : Distinct blocks)
    (htrail : Trail (Renames name) blocks commands) :
    definitions (Command.replayAll blocks commands) = definitions blocks :=
  (htrail.preserves (fun later => Distinct later ∧ definitions later = definitions blocks)
    (fun _ command h hcommand =>
      ⟨h.1.replay command, (hcommand.definitions_replay h.1).trans h.2⟩)
    ⟨hdistinct, rfl⟩).2

theorem definitions_of_binds (hdistinct : Distinct blocks)
    (htrail : Trail Binds blocks commands) :
    definitions (Command.replayAll blocks commands) = definitions blocks :=
  (htrail.preserves (fun later => Distinct later ∧ definitions later = definitions blocks)
    (fun _ command h hcommand =>
      ⟨h.1.replay command, (hcommand.definitions_replay h.1).trans h.2⟩)
    ⟨hdistinct, rfl⟩).2

theorem callSites_of_binds (htrail : Trail Binds blocks commands) :
    (callSites (Command.replayAll blocks commands)).map (fun call => (call.id, call.name)) =
      (callSites blocks).map fun call => (call.id, call.name) :=
  htrail.preserves
    (fun later => (callSites later).map (fun call => (call.id, call.name)) =
      (callSites blocks).map fun call => (call.id, call.name))
    (fun _ _ h hcommand => hcommand.callSites_replay.trans h) rfl

/-! ## Bound call sites -/

/-- Some definition of the graph carries a name. -/
def Carries (blocks : List Block) (name : String) : Prop :=
  ∃ definition ∈ definitions blocks, definition.name = name

/-- The call site of an id has a valid name, and a definition carries it. -/
def IsBound (blocks : List Block) (id : BlockId) : Prop :=
  ∃ call ∈ callSites blocks,
    call.id = id ∧ Name.isValid call.name = true ∧ Carries blocks call.name

/-- A command after which every call site is bound that was bound before. -/
def Keeps (blocks : List Block) (command : Command) : Prop :=
  ∀ id, IsBound blocks id → IsBound (command.replay blocks) id

theorem isBound_iff (hdistinct : Distinct blocks) {call : CallSite}
    (hcall : call ∈ callSites blocks) :
    IsBound blocks call.id ↔ Name.isValid call.name = true ∧ Carries blocks call.name := by
  constructor
  · rintro ⟨other, hother, hid, hvalid, hcarries⟩
    rw [← hdistinct.callSite_eq hother hcall hid]
    exact ⟨hvalid, hcarries⟩
  · rintro ⟨hvalid, hcarries⟩
    exact ⟨call, hcall, rfl, hvalid, hcarries⟩

theorem isBound_of_names {before after : List Block} {id : BlockId}
    (hdefinitions : definitions after = definitions before)
    (hcalls : (callSites after).map (fun call => (call.id, call.name)) =
      (callSites before).map fun call => (call.id, call.name))
    (h : IsBound before id) : IsBound after id := by
  obtain ⟨call, hcall, hid, hvalid, hcarries⟩ := h
  have hmem : (call.id, call.name) ∈
      (callSites after).map fun call => (call.id, call.name) := by
    rw [hcalls]
    exact List.mem_map_of_mem hcall
  obtain ⟨later, hlater, heq⟩ := List.mem_map.mp hmem
  obtain ⟨hlaterId, hlaterName⟩ := Prod.mk.inj heq
  refine ⟨later, hlater, hlaterId.trans hid, ?_, ?_⟩
  · rwa [hlaterName]
  · rwa [hlaterName, Carries, hdefinitions]

theorem Binds.keeps (hdistinct : Distinct blocks) (h : Binds blocks command) :
    Keeps blocks command :=
  fun _ => isBound_of_names (h.definitions_replay hdistinct) h.callSites_replay

/-- Giving a call site a valid name that a definition carries unbinds none. -/
theorem Renames.keeps (hdistinct : Distinct blocks) (hvalid : Name.isValid name = true)
    (hcarries : Carries blocks name) (h : Renames name blocks command) :
    Keeps blocks command := by
  intro id hbound
  have hdefinitions := h.definitions_replay hdistinct
  cases h with
  | @intro target htarget =>
      obtain ⟨call, hcall, hid, hcallValid, hcallCarries⟩ := hbound
      simp only [IsBound, Carries, hdefinitions, callSites_replay_setField]
      by_cases hsame : call.id = target.id
      · refine ⟨{ call with name := name }, ?_, hid, hvalid, hcarries⟩
        exact List.mem_map.mpr ⟨call, hcall, by rw [if_pos hsame]⟩
      · refine ⟨call, ?_, hid, hcallValid, hcallCarries⟩
        exact List.mem_map.mpr ⟨call, hcall, by rw [if_neg hsame]⟩

/-- Renaming a call site that is not bound unbinds none. -/
theorem keeps_of_not_isBound (hdistinct : Distinct blocks) {call : CallSite}
    (hcall : call ∈ callSites blocks) (hfree : ¬IsBound blocks call.id) :
    Keeps blocks (.setField call.id nameField name) := by
  intro id hbound
  have hne : id ≠ call.id := fun h => hfree (h ▸ hbound)
  obtain ⟨bound, hmem, hid, hvalid, hcarries⟩ := hbound
  simp only [IsBound, Carries, definitions_replay_setField hdistinct hcall,
    callSites_replay_setField]
  refine ⟨bound, ?_, hid, hvalid, hcarries⟩
  exact List.mem_map.mpr ⟨bound, hmem, by rw [if_neg (hid ▸ hne)]⟩

/-- Disposing of a definition unbinds no call site when its callers, if it has a valid name, have
another definition of that name. -/
theorem keeps_dispose (hdistinct : Distinct blocks) {definition : Definition}
    (hdefinition : definition ∈ definitions blocks)
    (hother : ∀ call ∈ callSites blocks, Name.isValid call.name = true →
      call.name = definition.name →
      ∃ kept ∈ definitions blocks, kept.id ≠ definition.id ∧ kept.name = call.name) :
    Keeps blocks (.dispose definition.id) := by
  rintro id ⟨call, hcall, hid, hvalid, carrier, hcarrier, hname⟩
  simp only [IsBound, Carries, callSites_replay_dispose hdistinct hdefinition,
    definitions_replay_dispose]
  refine ⟨call, hcall, hid, hvalid, ?_⟩
  by_cases hsame : carrier.id = definition.id
  · have heq : carrier = definition := hdistinct.definition_eq hcarrier hdefinition hsame
    obtain ⟨kept, hkept, hne, hkeptName⟩ := hother call hcall hvalid (heq ▸ hname.symm)
    exact ⟨kept, List.mem_filter.mpr ⟨hkept, by simpa using hne⟩, hkeptName⟩
  · exact ⟨carrier, List.mem_filter.mpr ⟨hcarrier, by simpa using hsame⟩, hname⟩

/-- A trail of bindings unbinds no call site. -/
theorem keeps_of_binds (hdistinct : Distinct blocks) (htrail : Trail Binds blocks commands) :
    Trail Keeps blocks commands :=
  (htrail.strengthen Distinct
    (fun _ command h hcommand => ⟨hcommand.keeps h, h.replay command⟩) hdistinct).1

/-- Giving call sites, one after another, a valid name that a definition carries unbinds none. -/
theorem keeps_of_renames (hdistinct : Distinct blocks) (hvalid : Name.isValid name = true)
    (hcarries : Carries blocks name) (htrail : Trail (Renames name) blocks commands) :
    Trail Keeps blocks commands := by
  refine (htrail.strengthen
    (fun later => Distinct later ∧ definitions later = definitions blocks)
    (fun later command h hcommand => ⟨?_, ?_⟩) ⟨hdistinct, rfl⟩).1
  · exact hcommand.keeps h.1 hvalid (by rwa [Carries, h.2])
  · exact ⟨h.1.replay command, (hcommand.definitions_replay h.1).trans h.2⟩

end Graph
end CallBinding
