import CallBinding.Proofs.Controller.Becomes
import CallBinding.Proofs.Controller.Binding

/-!
# The names that a controller gives

A new call site keeps its name, or takes the name of an older definition, the
name that a call site was given last, or the default name.  The name that is
remembered is checked in different places: a new call site's when it is
remembered, and that of a second binding when its definition is chosen.  So it
is an invariant of all messages that it is valid.

Without faults it is also known what becomes of a live call site: it has the
name that the controller chose for it, and the arguments that the definition
gives it with which it was synchronised.
-/

namespace CallBinding

open CallBinding.Graph (Renames Distinct)

namespace Host

variable {host : Host}

theorem nameOf?_of_mem (hfaultless : host.Faultless) (hdistinct : Distinct host.editor.blocks)
    {call : CallSite} (hcall : call ∈ Graph.callSites host.editor.blocks) :
    host.nameOf? call.id = some call.name := by
  obtain ⟨block, hblock, -, rfl⟩ := Graph.mem_callSites.mp hcall
  have hfind : host.editor.block? block.id = some block :=
    hdistinct.find?_eq_some_iff.mpr ⟨hblock, rfl⟩
  simp only [nameOf?, field, hfaultless _ _, hfind, Bool.false_eq_true, if_false]
  rfl

/-- A live call site takes every name that it is given, and all others keep theirs. -/
theorem giveName_of_mem (hfaultless : host.Faultless) {call : CallSite}
    (hcall : call ∈ Graph.callSites host.editor.blocks) (name : String) :
    ∃ named, host.giveName call.id call.name name = .ok named ∧
      Issues (Renames name) host named ∧
      { call with name := name } ∈ Graph.callSites named.editor.blocks := by
  by_cases hsame : name = call.name
  · subst hsame
    exact ⟨host, if_pos rfl, .refl host, hcall⟩
  · obtain ⟨block, hblock, -, hview⟩ := Graph.mem_callSites.mp hcall
    have hwritten : host.setField call.id nameField name =
        .ok (host.issue [.setField call.id nameField name]) := by
      rw [hview]
      exact setField_of_mem hfaultless hblock nameField name
    refine ⟨host.issue [.setField call.id nameField name], ?_, .single (.intro hcall), ?_⟩
    · rw [giveName, if_neg hsame, hwritten]
    · rw [blocks_issue, Command.replayAll_cons, Command.replayAll_nil,
        Graph.callSites_replay_setField]
      exact List.mem_map.mpr ⟨call, hcall, if_pos rfl⟩

/-- A live call site has the arguments that a live definition gives it once they have been
synchronised. -/
theorem mem_callSites_sync (hfaultless : host.Faultless) (hdistinct : Distinct host.editor.blocks)
    {definition : Definition} (hdefinition : definition ∈ Graph.definitions host.editor.blocks)
    {call : CallSite} (hcall : call ∈ Graph.callSites host.editor.blocks) :
    { call with arguments := host.argumentsFrom definition call.arguments } ∈
      Graph.callSites (host.sync call.id definition.id).2.editor.blocks := by
  rw [callSites_sync hfaultless hdistinct hdefinition hcall]
  exact List.mem_map.mpr ⟨call, hcall, if_pos rfl⟩

end Host

namespace Controller

open Host (Issues)

variable {controller next : Controller} {host : Host} {usable : List Definition}

/-! ## The name that is remembered -/

/-- A controller remembers no name, or a valid one. -/
def RemembersValid (controller : Controller) : Prop :=
  ∀ name, controller.lastGoodName = some name → Name.isValid name = true

theorem lastGoodName_remember_of_isValid {name : String} (h : Name.isValid name = true)
    (controller : Controller) : (controller.remember name).lastGoodName = some name := by
  rw [remember, if_pos h]

@[simp] theorem lastGoodName_rearmWhenIdle (controller : Controller) (now : Nat) :
    (controller.rearmWhenIdle now).lastGoodName = controller.lastGoodName := by
  unfold rearmWhenIdle
  split <;> rfl

@[simp] theorem lastGoodName_openSession (controller : Controller) (now : Nat) (call : BlockId)
    (prior : List BlockId) :
    (controller.openSession now call prior).lastGoodName = controller.lastGoodName :=
  rfl

namespace RemembersValid

theorem new (settings : Settings) (cleanup : Cleanup) :
    (Controller.new settings cleanup).RemembersValid :=
  fun _ h => by cases h

theorem of_eq (h : controller.RemembersValid)
    (hsame : next.lastGoodName = controller.lastGoodName) : next.RemembersValid :=
  fun name hname => h name (hsame ▸ hname)

theorem of_isValid {name : String} (hvalid : Name.isValid name = true)
    (hname : next.lastGoodName = some name) : next.RemembersValid :=
  fun _ hother => Option.some.inj (hname.symm.trans hother) ▸ hvalid

theorem remember (h : controller.RemembersValid) (name : String) :
    (controller.remember name).RemembersValid := by
  by_cases hvalid : Name.isValid name = true
  · exact of_isValid hvalid (lastGoodName_remember_of_isValid hvalid controller)
  · rwa [Controller.remember, if_neg hvalid]

theorem nameCallSite (h : controller.RemembersValid) (host : Host) (call : BlockId)
    (prior : List BlockId) : (controller.nameCallSite host call prior).2.1.RemembersValid := by
  unfold Controller.nameCallSite
  cases host.nameOf? call with
  | none => exact h
  | some current =>
      dsimp only
      cases host.giveName call current (controller.nameFor (host.usable prior) current) with
      | error _ =>
          dsimp only
          exact h
      | ok _ =>
          dsimp only
          exact h.remember _

/-- A second binding does not check the name that it remembers, but it has chosen it among
valid ones. -/
theorem onRecheck (h : controller.RemembersValid) (host : Host) (id : SessionId) :
    (controller.onRecheck host id).1.RemembersValid := by
  unfold Controller.onRecheck
  split
  · exact h
  · dsimp only
    split
    · exact h
    · split
      · exact h
      next definition hchoice =>
        unfold rebind
        split
        · exact h
        · exact of_isValid (Host.secondChoice?_spec hchoice).2 rfl

/-- After every message the name that is remembered is valid. -/
theorem handle (h : controller.RemembersValid) {now : Nat} {message : Message}
    (hfate : (controller.handle now host message).fate = .running next) : next.RemembersValid := by
  cases becomes_of_handle hfate with
  | heard _ | gone _ _ | closed _ => exact h.of_eq (lastGoodName_rearmWhenIdle _ now)
  | spawned _ _ _ | stale _ | checked _ _ _ | deferred _ | cleaned _ => exact h.of_eq rfl
  | @opened call prior name hlive =>
      obtain ⟨block, hblock⟩ := Option.ne_none_iff_exists'.mp hlive
      have hnext : (controller.onCallSiteCreated now host call prior).1 =
        (controller.memorize name).openSession now call prior := Fate.running.inj hfate
      have hnamed := h.nameCallSite host.suppress call prior
      rw [← hnext, onCallSiteCreated_eq hblock]
      generalize controller.nameCallSite host.suppress call prior = outcome at hnamed ⊢
      exact hnamed.of_eq rfl
  | settled name _ =>
      rw [← Fate.running.inj hfate]
      exact h.onRecheck host _

end RemembersValid

/-! ## The name of a new call site -/

theorem isValid_of_mem_usable {prior : List BlockId} {definition : Definition}
    (h : definition ∈ host.usable prior) : Name.isValid definition.name = true :=
  (Host.mem_usable h).2

/-- Where the name of a new call site comes from. -/
theorem nameFor_origin (controller : Controller) (usable : List Definition) (current : String) :
    controller.nameFor usable current = current ∨
      (∃ definition ∈ usable, definition.name = controller.nameFor usable current) ∨
      controller.lastGoodName = some (controller.nameFor usable current) ∨
      controller.nameFor usable current = controller.settings.defaultName := by
  unfold nameFor
  dsimp only
  split
  · cases usable with
    | cons first rest => exact Or.inr (Or.inl ⟨first, List.mem_cons_self, by simp⟩)
    | nil =>
        cases hlast : controller.lastGoodName with
        | some name => exact Or.inr (Or.inr (Or.inl (by simp)))
        | none => exact Or.inr (Or.inr (Or.inr (by simp)))
  · exact Or.inl rfl

/-- A new call site has a valid name if all the names that it may take are valid: it keeps its own
only if that is no placeholder. -/
theorem isValid_nameFor (hlast : controller.RemembersValid)
    (hdefault : Name.isValid controller.settings.defaultName = true)
    (husable : ∀ definition ∈ usable, Name.isValid definition.name = true) (current : String) :
    Name.isValid (controller.nameFor usable current) = true := by
  unfold nameFor
  dsimp only
  split
  · cases usable with
    | cons first rest => simpa using husable first List.mem_cons_self
    | nil =>
        cases hname : controller.lastGoodName with
        | some name => simpa using hlast name hname
        | none => simpa using hdefault
  next hkept =>
    cases hplaceholder : Name.isPlaceholder current with
    | false => simp [Name.isValid, hplaceholder]
    | true => exact absurd (by simp [hplaceholder]) hkept

/-! ## The call site itself -/

section

variable {call : CallSite} {prior : List BlockId}
variable (hfaultless : host.Faultless) (hdistinct : Distinct host.editor.blocks)
variable (hcall : call ∈ Graph.callSites host.editor.blocks)

include hfaultless hdistinct hcall

theorem nameCallSite_of_mem (controller : Controller) (prior : List BlockId) :
    ∃ named, Issues (Renames (controller.nameFor (host.usable prior) call.name)) host named ∧
      { call with name := controller.nameFor (host.usable prior) call.name } ∈
        Graph.callSites named.editor.blocks ∧
      controller.nameCallSite host call.id prior =
        (bindingFor? (host.usable prior) (controller.nameFor (host.usable prior) call.name),
          controller.remember (controller.nameFor (host.usable prior) call.name), named) := by
  obtain ⟨named, hnamed, hrenames, hlive⟩ := Host.giveName_of_mem hfaultless hcall
    (controller.nameFor (host.usable prior) call.name)
  refine ⟨named, hrenames, hlive, ?_⟩
  simp only [nameCallSite, Host.nameOf?_of_mem hfaultless hdistinct hcall, hnamed]

/-- The handling of a live new call site: it is named and, if there is something to bind it to,
synchronised while events are suppressed, and its session is opened. -/
theorem onCallSiteCreated_of_mem (controller : Controller) (now : Nat) (prior : List BlockId) :
    let name := controller.nameFor (host.usable prior) call.name
    ∃ named, Issues (Renames name) host.suppress named ∧
      { call with name := name } ∈ Graph.callSites named.editor.blocks ∧
      controller.onCallSiteCreated now host call.id prior =
        ((controller.remember name).openSession now call.id prior,
          ((bindingFor? (host.usable prior) name).elim named
            fun definition => (named.sync call.id definition).2).resume) := by
  intro name
  obtain ⟨block, hblock, -, hview⟩ := Graph.mem_callSites.mp hcall
  have hfind : host.editor.block? block.id = some block :=
    hdistinct.find?_eq_some_iff.mpr ⟨hblock, rfl⟩
  have hlive : host.block? call.id = some block := by
    rw [hview, Host.block?, hfaultless, if_neg Bool.false_ne_true, hfind]
  have hsuppressed : host.suppress.Faultless := hfaultless
  obtain ⟨named, hrenames, hmem, hnamed⟩ :=
    nameCallSite_of_mem hsuppressed hdistinct hcall controller prior
  refine ⟨named, hrenames, hmem, ?_⟩
  simp only [onCallSiteCreated, hlive, bindCallSite, hnamed]
  have husable : host.suppress.usable prior = host.usable prior := rfl
  rw [husable]
  cases bindingFor? (host.usable prior) name <;> rfl

/-- A new call site has the name that was chosen for it, which is remembered if it is valid. -/
theorem exists_named_onCallSiteCreated (controller : Controller) (now : Nat)
    (prior : List BlockId) :
    (controller.onCallSiteCreated now host call.id prior).1.lastGoodName =
        (controller.remember (controller.nameFor (host.usable prior) call.name)).lastGoodName ∧
      ∃ live ∈ Graph.callSites
          (controller.onCallSiteCreated now host call.id prior).2.editor.blocks,
        live.id = call.id ∧ live.name = controller.nameFor (host.usable prior) call.name := by
  obtain ⟨named, -, hmem, hnext⟩ :=
    onCallSiteCreated_of_mem hfaultless hdistinct hcall controller now prior
  generalize controller.nameFor (host.usable prior) call.name = name at hmem hnext ⊢
  rw [hnext]
  refine ⟨lastGoodName_openSession _ now call.id prior, ?_⟩
  cases bindingFor? (host.usable prior) name with
  | none => exact ⟨_, hmem, rfl, rfl⟩
  | some definition =>
      have hpair : (call.id, name) ∈
          (Graph.callSites (named.sync call.id definition).2.editor.blocks).map
            fun live => (live.id, live.name) := by
        rw [(named.sync_issues call.id definition).callSites_of_binds]
        exact List.mem_map_of_mem (f := fun live : CallSite => (live.id, live.name)) hmem
      obtain ⟨live, hlive, heq⟩ := List.mem_map.mp hpair
      exact ⟨live, hlive, congrArg Prod.fst heq, congrArg Prod.snd heq⟩

end

end Controller
end CallBinding
