import CallBinding.Proofs.Controller.Becomes

/-!
# How a controller goes on

Handling a message changes neither the mailbox nor the kind of cleanup, and
every open session afterwards is for a call site that had one before or that
the message is about.

A controller awaits a cleanup while a session is open or the wait for a quiet
graph is on.  Every message after which it awaits none is one of three: an
alarm that concerns it no longer, or the end of the wait, at which it either
finds a call site without a name or cleans up.
-/

namespace CallBinding
namespace Controller

/-- A session is open, or the wait for a quiet graph is on. -/
def Awaits (controller : Controller) : Prop :=
  controller.isBusy = true ∨ controller.debounce.isPending = true

variable {controller next : Controller}

/-- After a message the mailbox and the kind of cleanup are the same, and each open session is for
a call site that had one before or that the message is about. -/
theorem handle_running {now : Nat} {host : Host} {message : Message}
    (h : (controller.handle now host message).fate = .running next) :
    next.mailbox = controller.mailbox ∧ next.cleanup = controller.cleanup ∧
      ∀ session ∈ next.sessions,
        (∃ former ∈ controller.sessions, former.callSite = session.callSite) ∨
          ∃ prior, message = .callSiteCreated session.callSite prior := by
  have hbecomes := becomes_of_handle h
  obtain ⟨hmailbox, hcleanup, -⟩ := hbecomes.keeps
  refine ⟨hmailbox, hcleanup, fun session hsession => ?_⟩
  rcases hbecomes.origin session hsession with ⟨former, hformer, -, hcall, -⟩ | hmessage
  · exact Or.inl ⟨former, hformer, hcall⟩
  · exact Or.inr ⟨session.prior, hmessage⟩

/-! ## Awaiting a cleanup -/

theorem awaits_rearmWhenIdle (controller : Controller) (now : Nat) :
    (controller.rearmWhenIdle now).Awaits := by
  unfold rearmWhenIdle
  split
  next hbusy => exact Or.inl hbusy
  · exact Or.inr rfl

theorem awaits_of_mem {session : Session} (h : session ∈ controller.sessions) :
    controller.Awaits :=
  Or.inl (isBusy_of_mem h)

theorem awaits_modifySession {id : SessionId} {session : Session}
    (h : controller.session? id = some session) (change : Session → Session) :
    (controller.modifySession id change).Awaits :=
  awaits_of_mem (List.mem_map_of_mem (List.mem_of_find?_eq_some h))

theorem awaits_onRecheck {id : SessionId} {session : Session}
    (h : controller.session? id = some session) (host : Host) :
    (controller.onRecheck host id).1.Awaits := by
  have hsettling := awaits_modifySession h fun session => { session with phase := .settling }
  simp only [onRecheck, h]
  split
  · exact hsettling
  · split
    · exact hsettling
    · unfold rebind
      split
      · exact hsettling
      · exact hsettling

/-- The ways in which a controller comes to await no cleanup. -/
inductive Settles (controller next : Controller) (host after : Host) : Prop where
  /-- The alarm is of a session that is closed, or of an earlier wait. -/
  | stale : next = controller → after = host → Settles controller next host after
  /-- A call site has no name yet. -/
  | unnamed (call : CallSite) : call ∈ host.callSites → Name.isPlaceholder call.name = true →
      after = host → Settles controller next host after
  /-- The controller has swept the graph. -/
  | swept : after = host.sweep.2 → Settles controller next host after

theorem onDebounce_settles {host : Host} {generation : Nat} (hcleanup : controller.cleanup = .sweep)
    (h : (controller.onDebounce host generation).fate = .running next) :
    next.Awaits ∨ Settles controller next host (controller.onDebounce host generation).host := by
  have hends := controller.endsWait_onDebounce host generation
  generalize controller.onDebounce host generation = turn at hends h ⊢
  cases hends with
  | stale _ => exact Or.inr (.stale (Fate.running.inj h).symm rfl)
  | deferred _ hwaits =>
      obtain rfl := Fate.running.inj h
      by_cases hbusy : controller.isBusy = true
      · exact Or.inl (Or.inl hbusy)
      · have hunnamed : ∃ call ∈ host.callSites, Name.isPlaceholder call.name = true := by
          simpa [MayCleanUp, hbusy] using hwaits
        obtain ⟨call, hcall, hname⟩ := hunnamed
        exact Or.inr (.unnamed call hcall hname rfl)
  | swept _ _ _ => exact Or.inr (.swept rfl)
  | counted _ _ hcount => cases hcleanup.symm.trans hcount
  | crashed _ _ _ => cases h

theorem onAlarm_settles {now : Nat} {host : Host} {alarm : Alarm}
    (hcleanup : controller.cleanup = .sweep)
    (h : (controller.onAlarm now host alarm).fate = .running next) :
    next.Awaits ∨ Settles controller next host (controller.onAlarm now host alarm).host := by
  cases alarm with
  | spawnCheck id definition =>
      have hnext : (controller.onSpawnCheck host id definition).1 = next := Fate.running.inj h
      rcases Option.eq_none_or_eq_some (controller.session? id) with hnone | ⟨session, hsession⟩
      · have hstale : controller.onSpawnCheck host id definition = (controller, host) := by
          simp only [onSpawnCheck, hnone]
        rw [hstale] at hnext
        exact Or.inr (.stale hnext.symm (congrArg Prod.snd hstale))
      · simp only [onSpawnCheck, hsession] at hnext
        exact Or.inl (hnext ▸ awaits_modifySession hsession _)
  | recheck id =>
      have hnext : (controller.onRecheck host id).1 = next := Fate.running.inj h
      rcases Option.eq_none_or_eq_some (controller.session? id) with hnone | ⟨session, hsession⟩
      · have hstale : controller.onRecheck host id = (controller, host) := by
          simp only [onRecheck, hnone]
        rw [hstale] at hnext
        exact Or.inr (.stale hnext.symm (congrArg Prod.snd hstale))
      · exact Or.inl (hnext ▸ awaits_onRecheck hsession host)
  | window id =>
      have hnext : (controller.onWindow now host id).1 = next := Fate.running.inj h
      rcases Option.eq_none_or_eq_some (controller.session? id) with hnone | ⟨session, hsession⟩
      · have hstale : controller.onWindow now host id = (controller, host) := by
          simp only [onWindow, hnone]
        rw [hstale] at hnext
        exact Or.inr (.stale hnext.symm (congrArg Prod.snd hstale))
      · simp only [onWindow, hsession] at hnext
        exact Or.inl (hnext ▸ awaits_rearmWhenIdle _ now)
  | debounce generation => exact onDebounce_settles hcleanup h

/-- After a message the controller awaits a cleanup, or the message was an alarm after which it
need not. -/
theorem handle_settles {now : Nat} {host : Host} {message : Message}
    (hcleanup : controller.cleanup = .sweep)
    (h : (controller.handle now host message).fate = .running next) :
    next.Awaits ∨ (∃ alarm, message = .due alarm) ∧
      Settles controller next host (controller.handle now host message).host := by
  cases message with
  | event event =>
      obtain rfl := Fate.running.inj h
      exact Or.inl (awaits_rearmWhenIdle _ now)
  | callSiteCreated call prior =>
      have hnext : (controller.onCallSiteCreated now host call prior).1 = next :=
        Fate.running.inj h
      rcases Option.eq_none_or_eq_some (host.block? call) with hnone | ⟨block, hblock⟩
      · simp only [onCallSiteCreated, hnone] at hnext
        exact Or.inl (hnext ▸ awaits_rearmWhenIdle controller now)
      · rw [onCallSiteCreated_eq hblock] at hnext
        rw [← hnext]
        refine Or.inl (Or.inl ?_)
        simp [isBusy, sessions_openSession]
  | due alarm => exact (onAlarm_settles hcleanup h).imp_right fun hsettles => ⟨⟨alarm, rfl⟩, hsettles⟩
  | detach => cases h

end Controller
end CallBinding
