import CallBinding.Proofs.Controller.Debounce

/-!
# What a message makes of a controller

`Becomes` lists the ways in which a controller goes on after a message, with
all that later proofs need to know of each.  Whatever every message keeps is
shown by cases on it, so that no proof beyond this file opens a handler of the
controller's own state.
-/

namespace CallBinding
namespace Controller

/-- The controller with another name to remember. -/
def memorize (controller : Controller) (name : Option String) : Controller :=
  { controller with lastGoodName := name }

/-- A definition is entered into a session, and its check is armed. -/
def awaitCheck (controller : Controller) (now : Nat) (id : SessionId) (definition : BlockId) :
    Controller :=
  (controller.arm now controller.settings.spawnCheckDelay
    (.spawnCheck id definition)).modifySession id fun session =>
      { session with spawnChecks := session.spawnChecks ++ [definition] }

/-- A definition has been checked, and may have survived. -/
def noteCheck (controller : Controller) (id : SessionId) (definition : BlockId)
    (survived : Bool) : Controller :=
  controller.modifySession id fun session =>
    { session with
      spawnChecks := session.spawnChecks.filter fun other => other ≠ definition
      spawned := if survived then session.spawned ++ [definition] else session.spawned }

/-- A session has bound its call site for the second time. -/
def settle (controller : Controller) (id : SessionId) : Controller :=
  controller.modifySession id fun session => { session with phase := .settling }

/-- The ways in which a controller goes on after a message. -/
inductive Becomes (controller : Controller) (now : Nat) (host : Host) : Message → Controller → Prop
  | heard (event : Event) :
      Becomes controller now host (.event event) (controller.rearmWhenIdle now)
  | spawned {event : Event} {session : Session} :
      event.kind = .create → controller.sessions.getLast? = some session →
      event.block ∉ session.prior →
      Becomes controller now host (.event event) (controller.awaitCheck now session.id event.block)
  | gone {call : BlockId} (prior : List BlockId) : host.block? call = none →
      Becomes controller now host (.callSiteCreated call prior) (controller.rearmWhenIdle now)
  | opened {call : BlockId} (prior : List BlockId) (name : Option String) :
      host.block? call ≠ none →
      Becomes controller now host (.callSiteCreated call prior)
        ((controller.memorize name).openSession now call prior)
  | stale {alarm : Alarm} : controller.heeds alarm = false →
      Becomes controller now host (.due alarm) controller
  | checked {id : SessionId} (definition : BlockId) (survived : Bool) :
      controller.heeds (.spawnCheck id definition) = true →
      Becomes controller now host (.due (.spawnCheck id definition))
        (controller.noteCheck id definition survived)
  | settled {id : SessionId} (name : Option String) : controller.heeds (.recheck id) = true →
      Becomes controller now host (.due (.recheck id)) ((controller.settle id).memorize name)
  | closed {id : SessionId} : controller.heeds (.window id) = true →
      Becomes controller now host (.due (.window id)) ((controller.closeSession id).rearmWhenIdle now)
  | deferred {generation : Nat} : controller.heeds (.debounce generation) = true →
      Becomes controller now host (.due (.debounce generation)) controller.takeDebounce
  | cleaned {generation : Nat} : controller.heeds (.debounce generation) = true →
      Becomes controller now host (.due (.debounce generation)) controller.takeDebounce.countCleanup

variable {controller next : Controller} {now : Nat} {host : Host} {message : Message}

/-- A live call site has a session, which is opened by the controller that has named it. -/
theorem onCallSiteCreated_eq {host : Host} {call : BlockId} {block : Block}
    (hblock : host.block? call = some block) (controller : Controller) (now : Nat)
    (prior : List BlockId) :
    (controller.onCallSiteCreated now host call prior).1 =
      (controller.nameCallSite host.suppress call prior).2.1.openSession now call prior := by
  simp only [onCallSiteCreated, hblock]
  rfl

theorem sessions_openSession (controller : Controller) (now : Nat) (call : BlockId)
    (prior : List BlockId) : (controller.openSession now call prior).sessions =
      controller.sessions ++ [⟨⟨controller.nextSession⟩, call, prior, .delayedRecheck, [], []⟩] :=
  rfl

theorem rearmWhenIdle_of_isBusy (h : controller.isBusy = true) (now : Nat) :
    controller.rearmWhenIdle now = controller :=
  if_pos h

theorem rearmWhenIdle_of_not_isBusy (h : controller.isBusy = false) (now : Nat) :
    controller.rearmWhenIdle now = controller.rearmDebounce now :=
  if_neg (by simp [h])

@[simp] theorem sessions_rearmWhenIdle (controller : Controller) (now : Nat) :
    (controller.rearmWhenIdle now).sessions = controller.sessions := by
  unfold rearmWhenIdle
  split <;> rfl

theorem isBusy_eq_false_iff : controller.isBusy = false ↔ controller.sessions = [] := by
  simp [isBusy]

theorem isBusy_of_mem {session : Session} (h : session ∈ controller.sessions) :
    controller.isBusy = true := by
  rw [isBusy, List.isEmpty_eq_false_iff_exists_mem.mpr ⟨session, h⟩]
  rfl

theorem exists_memorize_eq_self (controller : Controller) :
    ∃ last, controller = controller.memorize last :=
  ⟨controller.lastGoodName, rfl⟩

theorem exists_remember_eq (controller : Controller) (name : String) :
    ∃ last, controller.remember name = controller.memorize last := by
  unfold remember
  split
  · exact ⟨some name, rfl⟩
  · exact controller.exists_memorize_eq_self

theorem exists_nameCallSite_eq (controller : Controller) (host : Host) (call : BlockId)
    (prior : List BlockId) :
    ∃ last, (controller.nameCallSite host call prior).2.1 = controller.memorize last := by
  unfold nameCallSite
  cases host.nameOf? call with
  | none => exact controller.exists_memorize_eq_self
  | some current =>
      dsimp only
      cases host.giveName call current (controller.nameFor (host.usable prior) current) with
      | error _ =>
          dsimp only
          exact controller.exists_memorize_eq_self
      | ok _ =>
          dsimp only
          exact controller.exists_remember_eq _

theorem exists_rebind_eq (controller : Controller) (host : Host) (call : BlockId)
    (current : String) (definition : Definition) :
    ∃ last, (controller.rebind host call current definition).1 = controller.memorize last := by
  unfold rebind
  cases host.giveName call current definition.name with
  | error _ =>
      dsimp only
      exact controller.exists_memorize_eq_self
  | ok _ => exact ⟨some definition.name, rfl⟩

theorem becomes_onEvent (controller : Controller) (now : Nat) (host : Host) (event : Event) :
    Becomes controller now host (.event event) (controller.onEvent now host event) := by
  unfold onEvent
  dsimp only
  split
  next hspawned =>
    have hcreate : event.kind = .create := of_decide_eq_true (Bool.and_eq_true_iff.mp hspawned).1
    unfold onDefinitionCreated
    split
    next => exact .heard event
    next session hlast =>
      split
      next => exact .heard event
      next hnew =>
        have hbusy : (controller.awaitCheck now session.id event.block).isBusy = true :=
          isBusy_of_mem (List.mem_map_of_mem (List.mem_of_getLast? hlast))
        have hprior : event.block ∉ session.prior := by simpa using hnew
        have hbecomes : Becomes controller now host (.event event)
            (controller.awaitCheck now session.id event.block) := .spawned hcreate hlast hprior
        rw [← rearmWhenIdle_of_isBusy hbusy now] at hbecomes
        exact hbecomes
  next => exact .heard event

theorem becomes_onCallSiteCreated (controller : Controller) (now : Nat) (host : Host)
    (call : BlockId) (prior : List BlockId) :
    Becomes controller now host (.callSiteCreated call prior)
      (controller.onCallSiteCreated now host call prior).1 := by
  cases hblock : host.block? call with
  | none =>
      simp only [onCallSiteCreated, hblock]
      exact .gone prior hblock
  | some block =>
      obtain ⟨last, hlast⟩ := controller.exists_nameCallSite_eq host.suppress call prior
      rw [onCallSiteCreated_eq hblock, hlast]
      exact .opened prior last (by simp [hblock])

theorem becomes_onRecheck (controller : Controller) (now : Nat) (host : Host) (id : SessionId) :
    Becomes controller now host (.due (.recheck id)) (controller.onRecheck host id).1 := by
  cases hsession : controller.session? id with
  | none =>
      simp only [onRecheck, hsession]
      exact .stale (by simp [heeds, hsession])
  | some session =>
      have hheeds : controller.heeds (.recheck id) = true := by simp [heeds, hsession]
      have hsettled : Becomes controller now host (.due (.recheck id)) (controller.settle id) :=
        .settled controller.lastGoodName hheeds
      simp only [onRecheck, hsession]
      split
      · exact hsettled
      · split
        · exact hsettled
        next current _ _ definition _ =>
          obtain ⟨last, hlast⟩ :=
            (controller.settle id).exists_rebind_eq host session.callSite current definition
          have hbecomes : Becomes controller now host (.due (.recheck id))
              ((controller.settle id).memorize last) := .settled last hheeds
          rw [← hlast] at hbecomes
          exact hbecomes

theorem becomes_onDebounce {generation : Nat}
    (h : (controller.onDebounce host generation).fate = .running next) :
    Becomes controller now host (.due (.debounce generation)) next := by
  have hends := controller.endsWait_onDebounce host generation
  generalize controller.onDebounce host generation = turn at hends h
  cases hends with
  | stale hstale => exact Fate.running.inj h ▸ .stale hstale
  | deferred hheeds _ => exact Fate.running.inj h ▸ .deferred hheeds
  | swept hheeds _ _ | counted hheeds _ _ => exact Fate.running.inj h ▸ .cleaned hheeds
  | crashed _ _ _ => cases h

/-- A controller that goes on after a message does so in one of the listed ways. -/
theorem becomes_of_handle (h : (controller.handle now host message).fate = .running next) :
    Becomes controller now host message next := by
  cases message with
  | event event => exact Fate.running.inj h ▸ controller.becomes_onEvent now host event
  | callSiteCreated call prior =>
      exact Fate.running.inj h ▸ controller.becomes_onCallSiteCreated now host call prior
  | due alarm =>
      cases alarm with
      | spawnCheck id definition =>
          have hnext : (controller.onSpawnCheck host id definition).1 = next := Fate.running.inj h
          subst hnext
          cases hsession : controller.session? id with
          | none =>
              simp only [onSpawnCheck, hsession]
              exact .stale (by simp [heeds, hsession])
          | some session =>
              simp only [onSpawnCheck, hsession]
              exact .checked definition _ (by simp [heeds, hsession])
      | recheck id => exact Fate.running.inj h ▸ controller.becomes_onRecheck now host id
      | window id =>
          have hnext : (controller.onWindow now host id).1 = next := Fate.running.inj h
          subst hnext
          cases hsession : controller.session? id with
          | none =>
              simp only [onWindow, hsession]
              exact .stale (by simp [heeds, hsession])
          | some session =>
              simp only [onWindow, hsession]
              exact .closed (by simp [heeds, hsession])
      | debounce generation => exact becomes_onDebounce h
  | detach => cases h

/-! ## What every message keeps -/

namespace Becomes

theorem keeps (h : Becomes controller now host message next) :
    next.mailbox = controller.mailbox ∧ next.cleanup = controller.cleanup ∧
      next.settings = controller.settings := by
  have rearmed (controller : Controller) :
      (controller.rearmWhenIdle now).mailbox = controller.mailbox ∧
        (controller.rearmWhenIdle now).cleanup = controller.cleanup ∧
        (controller.rearmWhenIdle now).settings = controller.settings := by
    unfold rearmWhenIdle
    split <;> exact ⟨rfl, rfl, rfl⟩
  cases h with
  | heard _ | gone _ _ => exact rearmed controller
  | @closed id _ => exact rearmed (controller.closeSession id)
  | spawned _ _ _ | opened _ _ _ | stale _ | checked _ _ _ | settled _ _ | deferred _ | cleaned _ =>
      exact ⟨rfl, rfl, rfl⟩

/-- Every session was open before, or is the one that the message opens. -/
theorem origin (h : Becomes controller now host message next) :
    ∀ session ∈ next.sessions,
      (∃ former ∈ controller.sessions, former.id = session.id ∧
        former.callSite = session.callSite ∧ former.prior = session.prior) ∨
        message = .callSiteCreated session.callSite session.prior := by
  have kept {session : Session} (hsession : session ∈ controller.sessions) :
      ∃ former ∈ controller.sessions, former.id = session.id ∧
        former.callSite = session.callSite ∧ former.prior = session.prior :=
    ⟨session, hsession, rfl, rfl, rfl⟩
  intro session hsession
  cases h with
  | heard _ | gone _ _ =>
      rw [sessions_rearmWhenIdle] at hsession
      exact Or.inl (kept hsession)
  | spawned _ _ _ | checked _ _ _ | settled _ _ =>
      obtain ⟨former, hformer, rfl⟩ := List.mem_map.mp hsession
      refine Or.inl ⟨former, hformer, ?_⟩
      split <;> exact ⟨rfl, rfl, rfl⟩
  | opened prior _ _ =>
      rw [sessions_openSession] at hsession
      rcases List.mem_append.mp hsession with hold | hnew
      · exact Or.inl (kept hold)
      · rw [List.mem_singleton.mp hnew]
        exact Or.inr rfl
  | stale _ | deferred _ | cleaned _ => exact Or.inl (kept hsession)
  | closed _ =>
      rw [sessions_rearmWhenIdle] at hsession
      exact Or.inl (kept (List.mem_filter.mp hsession).1)

/-- A session stays open until its end is handled.  Meanwhile it may be bound for the second time,
and each of its definitions stays due until its own alarm is handled. -/
theorem exists_session (h : Becomes controller now host message next) {session : Session}
    (hsession : session ∈ controller.sessions) (hwindow : message ≠ .due (.window session.id)) :
    ∃ current ∈ next.sessions, current.id = session.id ∧ current.prior = session.prior ∧
      (current.phase = session.phase ∨
        message = .due (.recheck session.id) ∧ current.phase = .settling) ∧
      ∀ definition ∈ session.spawnChecks,
        message ≠ .due (.spawnCheck session.id definition) → definition ∈ current.spawnChecks := by
  cases h with
  | heard _ | gone _ _ =>
      refine ⟨session, ?_, rfl, rfl, Or.inl rfl, fun _ hdue _ => hdue⟩
      rwa [sessions_rearmWhenIdle]
  | stale _ | deferred _ | cleaned _ =>
      exact ⟨session, hsession, rfl, rfl, Or.inl rfl, fun _ hdue _ => hdue⟩
  | opened prior name _ =>
      exact ⟨session, List.mem_append_left _ hsession, rfl, rfl, Or.inl rfl, fun _ hdue _ => hdue⟩
  | spawned _ _ _ =>
      refine ⟨_, List.mem_map_of_mem hsession, ?_⟩
      split
      · exact ⟨rfl, rfl, Or.inl rfl, fun _ hdue _ => List.mem_append_left _ hdue⟩
      · exact ⟨rfl, rfl, Or.inl rfl, fun _ hdue _ => hdue⟩
  | checked definition survived _ =>
      refine ⟨_, List.mem_map_of_mem hsession, ?_⟩
      split
      next hid =>
        refine ⟨rfl, rfl, Or.inl rfl, fun other hdue hother => List.mem_filter.mpr ⟨hdue, ?_⟩⟩
        exact decide_eq_true fun hsame => hother (by rw [hsame, hid])
      next => exact ⟨rfl, rfl, Or.inl rfl, fun _ hdue _ => hdue⟩
  | settled name _ =>
      refine ⟨_, List.mem_map_of_mem hsession, ?_⟩
      split
      next hid => exact ⟨rfl, rfl, Or.inr ⟨by rw [hid], rfl⟩, fun _ hdue _ => hdue⟩
      next => exact ⟨rfl, rfl, Or.inl rfl, fun _ hdue _ => hdue⟩
  | closed _ =>
      refine ⟨session, ?_, rfl, rfl, Or.inl rfl, fun _ hdue _ => hdue⟩
      rw [sessions_rearmWhenIdle]
      exact List.mem_filter.mpr ⟨hsession, decide_eq_true fun hid => hwindow (by rw [hid])⟩

end Becomes

end Controller
end CallBinding
