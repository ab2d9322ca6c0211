import CallBinding.Proofs.Controller.Horizon
import CallBinding.Proofs.Reconcile.Idempotence
import CallBinding.Proofs.Workbench.Schedule

/-!
# Controllers that are left alone

A controller that sweeps is left alone when users and programs do nothing more.
It then closes its sessions, waits for a quiet graph, sweeps, waits once more
because of the echoes of its sweep, and sweeps a graph that is in order, which
makes no echo.  `Stage` counts the sweeps that are still to come, `Closing` says
when at the latest they come, and `load` bounds the alarms that go off before.
-/

namespace CallBinding

theorem Message.IsEcho.load {message : Message} (h : message.IsEcho) : message.load = 0 := by
  cases message with
  | event change => exact if_neg h
  | callSiteCreated _ _ | due _ | detach => cases h

namespace Controller

variable {controller later : Controller} {horizon now : Nat}

/-- Echoes do not move the horizon. -/
theorem Within.of_mailbox (h : controller.Within horizon now)
    (hagenda : later.agenda = controller.agenda) (hsettings : later.settings = controller.settings)
    (hmailbox : ∀ message ∈ later.mailbox, message ∈ controller.mailbox ∨ message.IsEcho) :
    later.Within horizon now := by
  have hold {message : Message} (hmem : message ∈ later.mailbox) (hecho : ¬message.IsEcho) :
      message ∈ controller.mailbox :=
    (hmailbox message hmem).resolve_right hecho
  refine ⟨?_, ?_, fun generation hmem => h.debounces generation (hold hmem id),
    fun hmem => h.attached (hold hmem id)⟩
  · rw [hagenda, hsettings]
    exact h.timers
  · rw [hsettings]
    exact fun call prior hmem => h.openings call prior (hold hmem id)

/-- As time goes by, alarms that are still armed keep within any later horizon. -/
theorem Within.elapse {limit time : Nat} (h : controller.Within horizon now)
    (hlimit : horizon ≤ limit) (hsettings : later.settings = controller.settings)
    (hagenda : ∀ timer ∈ later.agenda, timer ∈ controller.agenda ∧ time ≤ timer.deadline)
    (hmailbox : ∀ message ∈ later.mailbox, ∃ alarm, message = .due alarm ∧
      ∀ generation, alarm ≠ .debounce generation) : later.Within limit time := by
  refine ⟨?_, ?_, ?_, ?_⟩
  · intro timer htimer
    rw [hsettings]
    obtain ⟨hmem, htime⟩ := hagenda timer htimer
    refine ⟨htime, ?_⟩
    have hkind := (h.timers timer hmem).2
    split at hkind
    next halarm => exact hkind.trans hlimit
    next halarm => exact hkind.trans (Nat.add_le_add_right hlimit _)
    · trivial
    · trivial
  · intro call prior hmem
    obtain ⟨alarm, halarm, -⟩ := hmailbox _ hmem
    cases halarm
  · intro generation hmem
    obtain ⟨alarm, halarm, hne⟩ := hmailbox _ hmem
    exact hne generation (Message.due.inj halarm).symm
  · intro hmem
    obtain ⟨alarm, halarm, -⟩ := hmailbox _ hmem
    cases halarm

/-- A turn adds nothing to the load, and neither do its echoes. -/
theorem Becomes.load_le {host : Host} {message : Message} {rest echoes : List Message}
    {next : Controller}
    (h : Becomes { controller with mailbox := rest } now host message next)
    (hmailbox : controller.mailbox = message :: rest) (hlater : later.mailbox = rest ++ echoes)
    (hagenda : later.agenda = next.agenda) (hechoes : ∀ echo ∈ echoes, echo.IsEcho) :
    later.load ≤ controller.load := by
  have hload : next.agenda.sessionTimers.length ≤
      controller.agenda.sessionTimers.length + message.load := h.length_sessionTimers_le
  have hsilent := Message.loadOf_eq_zero fun echo hecho => (hechoes echo hecho).load
  simp only [load, hlater, hmailbox, hagenda, Message.loadOf_append, hsilent, Message.loadOf]
  omega

end Controller

namespace Workbench

/-- How many more times a controller that is left alone cleans up at most. -/
inductive Stage (host : Host) (controller : Controller) : Nat → Prop
  | unswept : Stage host controller 2
  | swept : host.InOrder → controller.sessions = [] →
      (∀ message ∈ controller.mailbox, message.IsEcho) → Stage host controller 1
  | resting : controller.sessions = [] → controller.debounce.isPending = false →
      controller.agenda = [] → controller.mailbox = [] → Stage host controller 0

/-- What holds of a controller that is left alone between any two of its turns. -/
structure Closing (horizon remaining : Nat) (bench : Workbench) (controller : Controller) :
    Prop where
  seat : bench.seat = .running controller
  sound : Sound bench
  ordered : Ordered bench
  sweeps : controller.cleanup = .sweep
  clock : bench.clock ≤ horizon
  within : controller.Within horizon bench.clock
  /-- No alarm has been armed for longer than a window and a debounce from now. -/
  fresh : controller.Within (bench.clock + controller.settings.suppressionWindow.toNat) bench.clock
  stage : Stage bench.host controller remaining

/-- What a turn that starts no cleanup keeps of a controller. -/
structure Proceeds (controller later : Controller) : Prop where
  load : later.load ≤ controller.load
  cleanups : later.cleanups = controller.cleanups
  settings : later.settings = controller.settings

theorem Proceeds.refl (controller : Controller) : Proceeds controller controller :=
  ⟨le_refl _, rfl, rfl⟩

theorem Proceeds.trans {first second third : Controller} (h : Proceeds first second)
    (hnext : Proceeds second third) : Proceeds first third :=
  ⟨hnext.load.trans h.load, hnext.cleanups.trans h.cleanups, hnext.settings.trans h.settings⟩

variable {horizon remaining : Nat} {bench : Workbench} {controller later : Controller}
variable {message : Message} {rest : List Message}

/-! ## Turns that start no cleanup -/

/-- A turn without a cleanup leaves the stage. -/
theorem Stage.handleNext {now : Nat} {host : Host} {next : Controller} {echoes : List Message}
    (h : Stage host controller remaining) (hmailbox : controller.mailbox = message :: rest)
    (hbecomes : Controller.Becomes { controller with mailbox := rest } now host message next)
    (hsessions : later.sessions = next.sessions) (hlater : later.mailbox = rest ++ echoes)
    (hechoes : message.IsEcho → echoes = [])
    {after : Host} (hafter : message.IsEcho → after = host.withEditor host.editor.delivered) :
    Stage after later remaining := by
  cases h with
  | unswept => exact .unswept
  | resting _ _ _ hempty =>
      rw [hempty] at hmailbox
      cases hmailbox
  | swept hinOrder hclosed hold =>
      have hecho : message.IsEcho := hold message (hmailbox ▸ List.mem_cons_self)
      rw [hafter hecho]
      refine .swept hinOrder.delivered ?_ ?_
      · rw [hsessions]
        cases hbecomes with
        | heard _ => rwa [Controller.sessions_rearmWhenIdle]
        | spawned hcreate _ _ => exact absurd hcreate hecho
        | gone _ _ | opened _ _ _ | stale _ | checked _ _ _ | settled _ _ | closed _ | deferred _
        | cleaned _ => cases hecho
      · rw [hlater, hechoes hecho, List.append_nil]
        exact fun other hother => hold other (hmailbox ▸ List.mem_cons_of_mem message hother)

theorem Closing.handleNext (h : Closing horizon remaining bench controller) :
    ∃ later, Closing horizon remaining bench.handleNext later ∧ Proceeds controller later := by
  cases hmailbox : controller.mailbox with
  | nil =>
      rw [handleNext_of_nil h.seat hmailbox]
      exact ⟨controller, h, .refl controller⟩
  | cons message rest =>
      have hfirst : message ∈ controller.mailbox := hmailbox ▸ List.mem_cons_self
      have hstays : message ≠ .detach := by
        rintro rfl
        exact h.within.attached hfirst
      have hquiet (generation : Nat) : message ≠ .due (.debounce generation) := by
        rintro rfl
        exact h.within.debounces generation hfirst
      have hsweeps : ({ controller with mailbox := rest } : Controller).cleanup = .sweep := h.sweeps
      obtain ⟨next, hfate⟩ :=
        Controller.exists_running hsweeps hstays bench.clock bench.host
      have hbecomes := Controller.becomes_of_handle hfate
      obtain ⟨hnextMailbox, hcleanup, hsettings⟩ := hbecomes.keeps
      have hmove := handleNext_eq h.seat hmailbox
      have hseat := bench.seat_takeTurn_of_running hfate
      rw [← hmove] at hseat
      obtain ⟨echoes, hlaterMailbox, hnew, hnone⟩ :=
        h.ordered.mailbox_handleNext h.seat hmailbox hseat
      set later := next.hear bench.handleNext.host
        ({ controller with mailbox := rest }.handle bench.clock bench.host
          message).host.editor.outbox with hlater
      have hlaterSettings : later.settings = controller.settings := hsettings
      have hclock : bench.handleNext.clock = bench.clock := bench.clock_handleNext
      have hheard : ∀ message ∈ later.mailbox, message ∈ next.mailbox ∨ message.IsEcho := by
        rw [hlaterMailbox, hnextMailbox]
        exact fun message hmem => (List.mem_append.mp hmem).imp_right (hnew message)
      have hwithin {limit : Nat} (hlimit : bench.clock ≤ limit)
          (hwas : controller.Within limit bench.clock) : later.Within limit bench.clock :=
        (hwas.becomes hlimit hmailbox hbecomes).of_mailbox rfl rfl hheard
      have hsound : Sound (bench.move .handle) := h.sound.move trivial
      have hsessions : later.sessions = next.sessions := rfl
      refine ⟨later, ⟨hseat, hsound, h.ordered.move .handle, hcleanup.trans h.sweeps, ?_, ?_, ?_,
        ?_⟩, ?_, hbecomes.cleanups_eq hquiet, hlaterSettings⟩
      · rw [hclock]
        exact h.clock
      · rw [hclock]
        exact hwithin h.clock h.within
      · rw [hclock, hlaterSettings]
        exact hwithin (Nat.le_add_right _ _) h.fresh
      · refine h.stage.handleNext hmailbox hbecomes hsessions hlaterMailbox hnone fun hecho => ?_
        rw [hmove, host_takeTurn]
        cases message with
        | event _ => rfl
        | callSiteCreated _ _ | due _ | detach => cases hecho
      · exact hbecomes.load_le hmailbox hlaterMailbox rfl hnew

theorem Closing.handleMany (h : Closing horizon remaining bench controller) (n : Nat) :
    ∃ later, Closing horizon remaining (handleMany n bench) later ∧ Proceeds controller later := by
  induction n generalizing bench controller with
  | zero => exact ⟨controller, h, .refl controller⟩
  | succ n ih =>
      obtain ⟨next, hnext, hproceeds⟩ := h.handleNext
      obtain ⟨later, hlater, hmore⟩ := ih hnext
      exact ⟨later, hlater, hproceeds.trans hmore⟩

theorem Closing.drain (h : Closing horizon remaining bench controller) :
    ∃ later, Closing horizon remaining bench.drain later ∧ Proceeds controller later ∧
      later.mailbox = [] := by
  obtain ⟨next, hnext, hproceeds⟩ := h.handleMany bench.waiting
  obtain ⟨later, hlater, hmore⟩ := hnext.handleMany bench.round.waiting
  exact ⟨later, hlater, hproceeds.trans hmore, h.ordered.isDrained_drain later hlater.seat⟩

/-! ## Alarms of sessions -/

/-- When alarms of sessions go off, fewer are left. -/
theorem load_wake_lt {time : Nat} (hmailbox : controller.mailbox = [])
    (hquiet : controller.agenda.quietTimers = [])
    (hnext : controller.agenda.nextDeadline? = some time) :
    (controller.wake time).load < controller.load := by
  obtain ⟨⟨timer, htimer, hdeadline⟩, -⟩ := Agenda.nextDeadline?_eq_some_iff.mp hnext
  have hall : controller.agenda.sessionTimers = controller.agenda := by
    refine List.filter_eq_self.mpr fun other hother => ?_
    have hkind := List.filter_eq_nil_iff.mp hquiet other hother
    simpa [Option.isSome_iff_ne_none] using hkind
  have hdue : Message.loadOf (controller.wake time).mailbox = 0 := by
    apply Message.loadOf_eq_zero
    intro message hmessage
    simp only [Controller.wake, hmailbox, List.nil_append] at hmessage
    obtain ⟨alarm, -, rfl⟩ := List.mem_map.mp hmessage
    rfl
  have hnow : (controller.wake time).load = (controller.wake time).agenda.sessionTimers.length := by
    rw [Controller.load, hdue, Nat.add_zero]
  have hbefore : controller.load = controller.agenda.length := by
    simp [Controller.load, hmailbox, hall, Message.loadOf]
  rw [hnow, hbefore]
  calc (controller.wake time).agenda.sessionTimers.length
      ≤ (controller.wake time).agenda.length := List.length_filter_le _ _
    _ < controller.agenda.length :=
        List.length_filter_lt_length_iff_exists.mpr ⟨timer, htimer, by simp [hdeadline]⟩

theorem Closing.wake_busy (h : Closing horizon remaining bench controller)
    (hmailbox : controller.mailbox = []) (hsessions : controller.sessions ≠ [])
    (hquiet : controller.agenda.quietTimers = []) {time : Nat}
    (hnext : controller.agenda.nextDeadline? = some time) :
    Closing horizon remaining (bench.wake time) (controller.wake time) := by
  have hseat : (bench.wake time).seat = .running (controller.wake time) := by
    simp [wake, controller?, h.seat]
  have hhost : (bench.wake time).host = bench.host := by simp [wake, controller?, h.seat]
  obtain ⟨⟨first, hfirst, hdeadline⟩, hearliest⟩ := Agenda.nextDeadline?_eq_some_iff.mp hnext
  have hlater : bench.clock ≤ time := hdeadline ▸ (h.within.timers first hfirst).1
  have htime : time ≤ horizon := by
    obtain ⟨timer, htimer, id, halarm⟩ :=
      (h.ordered.orderly controller h.seat).exists_window hmailbox hsessions
    have hwindow := (h.within.timers timer htimer).2
    rw [halarm] at hwindow
    exact (hearliest timer htimer).trans hwindow
  have hkept : ∀ timer ∈ (controller.wake time).agenda,
      timer ∈ controller.agenda ∧ time ≤ timer.deadline := by
    intro timer htimer
    obtain ⟨hmem, hlt⟩ := List.mem_filter.mp htimer
    exact ⟨hmem, Nat.le_of_lt (of_decide_eq_true hlt)⟩
  have hdue : ∀ message ∈ (controller.wake time).mailbox, ∃ alarm, message = .due alarm ∧
      ∀ generation, alarm ≠ .debounce generation := by
    intro message hmessage
    simp only [Controller.wake, hmailbox, List.nil_append] at hmessage
    obtain ⟨alarm, halarm, rfl⟩ := List.mem_map.mp hmessage
    obtain ⟨timer, htimer, rfl⟩ := List.mem_map.mp halarm
    refine ⟨timer.alarm, rfl, fun generation hgeneration => ?_⟩
    have hkind := List.filter_eq_nil_iff.mp hquiet timer (List.mem_filter.mp htimer).1
    simp [hgeneration, Alarm.session?] at hkind
  have hstage : Stage bench.host (controller.wake time) remaining := by
    cases h.stage with
    | unswept => exact .unswept
    | swept _ hclosed _ => exact absurd hclosed hsessions
    | resting hclosed _ _ _ => exact absurd hclosed hsessions
  have hsound : Sound (bench.move (.wake time)) := h.sound.move trivial
  refine ⟨hseat, hsound, h.ordered.move (.wake time), h.sweeps, ?_, ?_, ?_, hhost ▸ hstage⟩
  · rwa [clock_wake]
  · rw [clock_wake]
    exact h.within.elapse (le_refl _) rfl hkept hdue
  · rw [clock_wake]
    exact h.fresh.elapse (Nat.add_le_add_right hlater _) rfl hkept hdue

/-! ## The end of a wait -/

/-- Handling the only message first makes no difference. -/
theorem drain_handleNext (hwaiting : bench.waiting = 1)
    (hdrained : bench.handleNext.round.IsDrained) : bench.handleNext.drain = bench.drain := by
  have hround : bench.round = bench.handleNext := by
    rw [round, hwaiting]
    rfl
  rw [drain, drain, hround, round_of_isDrained hdrained]

theorem Controller.within_of_echoes {horizon now : Nat} (hagenda : controller.agenda = [])
    (hechoes : ∀ message ∈ controller.mailbox, message.IsEcho) :
    controller.Within horizon now := by
  refine ⟨by simp [hagenda], fun call prior hmem => (hechoes _ hmem).elim,
    fun generation hmem => hechoes _ hmem, fun hmem => hechoes _ hmem⟩

/-- A wait that ends brings the controller to its next stage. -/
theorem Stage.end_wait (h : Stage bench.host controller remaining) (hsound : Sound bench)
    (houtbox : bench.host.editor.outbox = []) (hpending : controller.debounce.isPending = true)
    {after : Host} (hafter : after = bench.host ∨ after = bench.host.sweep.2)
    (hsessions : later.sessions = []) (hidle : later.debounce.isPending = false)
    (hagenda : later.agenda = [])
    (hechoes : ∀ message ∈ later.mailbox, message.IsEcho)
    (hsilent : after.editor.outbox = [] → later.mailbox = []) :
    ∃ fewer < remaining, Stage (after.withEditor after.editor.delivered) later fewer := by
  have hdistinct := hsound.numbered.distinct
  have hrests (hsame : after = bench.host) : Stage (after.withEditor after.editor.delivered) later 0 :=
    .resting hsessions hidle hagenda (hsilent (hsame ▸ houtbox))
  cases h with
  | resting _ hnot _ _ => exact absurd (hpending.symm.trans hnot) (by simp)
  | unswept =>
      rcases hafter with hsame | rfl
      · exact ⟨0, by omega, hrests hsame⟩
      · have hinOrder := Host.inOrder_sweep hsound.faultless hdistinct
        exact ⟨1, by omega, .swept hinOrder.delivered hsessions hechoes⟩
  | swept hinOrder _ _ =>
      have hsame : after = bench.host :=
        hafter.elim id fun hswept => hswept.trans (hinOrder.sweep_eq_self hsound.faultless hdistinct)
      exact ⟨0, by omega, hrests hsame⟩

/-- The turn at the end of a wait. -/
theorem closing_of_end_wait {former : Controller} (hseat : bench.seat = .running controller)
    (hmailbox : controller.mailbox = [.due (.debounce controller.debounce.generation)])
    (hagenda : controller.agenda = []) (hsessions : controller.sessions = [])
    (hpending : controller.debounce.isPending = true) (hsweeps : controller.cleanup = .sweep)
    (hsound : Sound bench) (hordered : Ordered bench) (hclock : bench.clock ≤ horizon)
    (hstage : Stage bench.host former remaining) (hwaited : former.debounce.isPending = true) :
    ∃ fewer < remaining, ∃ later, Closing horizon fewer bench.handleNext later ∧
      (∀ message ∈ later.mailbox, message.IsEcho) ∧ later.agenda = [] ∧
      later.cleanups ≤ controller.cleanups + 1 ∧ later.settings = controller.settings := by
  set taken : Controller := { controller with mailbox := [] }
  have hheeds : taken.heeds (.debounce controller.debounce.generation) = true := by
    simp [taken, Controller.heeds, hpending]
  have htaken : taken.cleanup = .sweep := hsweeps
  obtain ⟨next, hfate, hnext, hafter⟩ :=
    Controller.exists_running_debounce htaken hheeds bench.clock bench.host
  have hmove := handleNext_eq hseat hmailbox
  have hlater := bench.seat_takeTurn_of_running hfate
  have hhost := bench.host_takeTurn
    (taken.handle bench.clock bench.host (.due (.debounce controller.debounce.generation)))
  rw [← hmove] at hlater hhost
  obtain ⟨echoes, hechoes, hnew, -⟩ := hordered.mailbox_handleNext hseat hmailbox hlater
  set later := next.hear bench.handleNext.host
    (taken.handle bench.clock bench.host
      (.due (.debounce controller.debounce.generation))).host.editor.outbox with hlaterEq
  have hkept : next.sessions = [] ∧ next.debounce.isPending = false ∧ next.agenda = [] ∧
      next.mailbox = [] ∧ next.cleanup = .sweep ∧ next.settings = controller.settings ∧
      next.cleanups ≤ controller.cleanups + 1 := by
    rcases hnext with rfl | rfl
    · exact ⟨hsessions, rfl, hagenda, rfl, hsweeps, rfl, Nat.le_succ _⟩
    · exact ⟨hsessions, rfl, hagenda, rfl, hsweeps, rfl, le_refl _⟩
  obtain ⟨hclosed, hidle, hempty, hnoMail, hcleanup, hsettings, hcleanups⟩ := hkept
  rw [List.nil_append] at hechoes
  have hallEchoes : ∀ message ∈ later.mailbox, message.IsEcho := hechoes ▸ hnew
  have hwithin {limit : Nat} : later.Within limit bench.handleNext.clock :=
    Controller.within_of_echoes hempty hallEchoes
  have hlaterClosed : later.sessions = [] := hclosed
  obtain ⟨fewer, hfewer, hstageNext⟩ :=
    hstage.end_wait hsound hordered.outbox hwaited hafter hlaterClosed hidle hempty hallEchoes (by
      intro hsilent
      simp [hlaterEq, Controller.hear, hnoMail, hsilent])
  have hsoundNext : Sound (bench.move .handle) := hsound.move trivial
  refine ⟨fewer, hfewer, later, ⟨hlater, hsoundNext, hordered.move .handle, hcleanup, ?_, hwithin,
    hwithin, hhost ▸ hstageNext⟩, hallEchoes, hempty, hcleanups, hsettings⟩
  rwa [clock_handleNext]

theorem Closing.end_wait (h : Closing horizon remaining bench controller)
    (hmailbox : controller.mailbox = []) (hsessions : controller.sessions = [])
    (hpending : controller.debounce.isPending = true) {deadline : Nat}
    (hagenda : controller.agenda = [⟨deadline, .debounce controller.debounce.generation⟩]) :
    ∃ fewer < remaining, ∃ later,
      Closing (horizon + controller.settings.debounce.toNat) fewer
        (bench.wake deadline).handleNext later ∧
      (bench.wake deadline).handleNext.drain = (bench.wake deadline).drain ∧
      later.load = 0 ∧ later.cleanups ≤ controller.cleanups + 1 ∧
      later.settings = controller.settings := by
  have hseat : (bench.wake deadline).seat = .running (controller.wake deadline) := by
    simp [wake, controller?, h.seat]
  have hhost : (bench.wake deadline).host = bench.host := by simp [wake, controller?, h.seat]
  have hposted : (controller.wake deadline).mailbox =
      [.due (.debounce controller.debounce.generation)] := by
    simp [Controller.wake, hmailbox, hagenda, Agenda.dueBy]
  have hnone : (controller.wake deadline).agenda = [] := by
    simp [Controller.wake, Agenda.laterThan, hagenda]
  have hsound : Sound (bench.move (.wake deadline)) := h.sound.move trivial
  have hordered : Ordered (bench.move (.wake deadline)) := h.ordered.move (.wake deadline)
  have hclock : (bench.wake deadline).clock ≤ horizon + controller.settings.debounce.toNat := by
    have htimer := h.within.timers ⟨deadline, .debounce controller.debounce.generation⟩
    rw [clock_wake]
    exact (htimer (by simp [hagenda])).2
  obtain ⟨fewer, hfewer, later, hclosing, hechoes, hempty, hcleanups, hsettings⟩ :=
    closing_of_end_wait hseat hposted hnone hsessions hpending h.sweeps hsound hordered hclock
      (hhost.symm ▸ h.stage) hpending
  refine ⟨fewer, hfewer, later, hclosing, ?_, ?_, hcleanups, hsettings⟩
  · apply drain_handleNext
    · rw [waiting_eq hseat, hposted]
      rfl
    · intro other hother
      refine hclosing.ordered.mailbox_handleMany_of_echoes _ ?_ hother
      intro first hfirst
      obtain rfl := Seat.running.inj (hclosing.seat.symm.trans hfirst)
      exact ⟨hechoes, (waiting_eq hclosing.seat).ge⟩
  · have hload := Message.loadOf_eq_zero fun echo hecho => (hechoes echo hecho).load
    rw [Controller.load, hload, hempty]
    rfl

/-! ## Until a time -/

/-- What has become of a controller that was left alone until a time. -/
structure LeftUntil (target bound most : Nat) (settings : Settings) (bench : Workbench)
    (controller : Controller) : Prop where
  seat : bench.seat = .running controller
  clock : bench.clock = target
  mailbox : controller.mailbox = []
  within : controller.Within (target + settings.suppressionWindow.toNat) target
  settings : controller.settings = settings
  cleanups : controller.cleanups ≤ most
  quiet : bound ≤ target → controller.sessions = [] ∧ controller.agenda = [] ∧
    controller.debounce.isPending = false

theorem LeftUntil.mono {target bound limit most more : Nat} {settings : Settings}
    (h : LeftUntil target bound most settings bench controller) (hlimit : bound ≤ limit)
    (hmore : most ≤ more) : LeftUntil target limit more settings bench controller :=
  ⟨h.seat, h.clock, h.mailbox, h.within, h.settings, h.cleanups.trans hmore,
    fun hle => h.quiet (hlimit.trans hle)⟩

/-- The clock moves on to a time at which no alarm has gone off. -/
theorem Closing.tick {target bound : Nat} (h : Closing horizon remaining bench controller)
    (hmailbox : controller.mailbox = []) (hclock : bench.clock ≤ target)
    (hlate : ∀ timer ∈ controller.agenda, target ≤ timer.deadline)
    (hquiet : bound ≤ target → controller.sessions = [] ∧ controller.agenda = [] ∧
      controller.debounce.isPending = false) :
    LeftUntil target bound (controller.cleanups + remaining) controller.settings
      { bench with clock := target } controller := by
  refine ⟨h.seat, rfl, hmailbox, ?_, rfl, Nat.le_add_right _ _, hquiet⟩
  refine h.fresh.elapse (Nat.add_le_add_right hclock _) rfl (fun timer htimer =>
    ⟨htimer, hlate timer htimer⟩) fun message hmessage => ?_
  rw [hmailbox] at hmessage
  cases hmessage

theorem advanceWithin_congr {first second : Workbench} (h : first.drain = second.drain)
    {wakes : Nat} (hwakes : 0 < wakes) (target : Nat) :
    advanceWithin wakes target first = advanceWithin wakes target second := by
  cases wakes with
  | zero => exact absurd hwakes (lt_irrefl 0)
  | succ wakes => rw [advanceWithin, advanceWithin, h]

/-- Without messages and alarms the controller is at rest. -/
theorem Closing.rests (h : Closing horizon remaining bench controller)
    (hmailbox : controller.mailbox = []) (hagenda : controller.agenda = []) :
    controller.sessions = [] ∧ controller.agenda = [] ∧
      controller.debounce.isPending = false := by
  have horderly := h.ordered.orderly controller h.seat
  cases horderly.poised hmailbox with
  | busy hsessions _ =>
      obtain ⟨timer, htimer, -⟩ := horderly.exists_window hmailbox hsessions
      rw [hagenda] at htimer
      cases htimer
  | waiting _ _ _ hone =>
      rw [hagenda] at hone
      cases hone
  | resting hsessions hidle _ => exact ⟨hsessions, hagenda, hidle⟩

/-- The next alarm goes off before all sweeps must have come. -/
theorem Closing.deadline_le (h : Closing horizon remaining bench controller)
    (hmailbox : controller.mailbox = []) {deadline : Nat}
    (hnext : controller.agenda.nextDeadline? = some deadline) :
    deadline ≤ horizon + remaining * controller.settings.debounce.toNat := by
  have horderly := h.ordered.orderly controller h.seat
  obtain ⟨⟨first, hfirst, -⟩, hearliest⟩ := Agenda.nextDeadline?_eq_some_iff.mp hnext
  cases horderly.poised hmailbox with
  | busy hsessions _ =>
      obtain ⟨timer, htimer, id, halarm⟩ := horderly.exists_window hmailbox hsessions
      have hwindow := (h.within.timers timer htimer).2
      rw [halarm] at hwindow
      exact ((hearliest timer htimer).trans hwindow).trans (Nat.le_add_right _ _)
  | waiting time _ hpending hone =>
      have htimer : (⟨time, .debounce controller.debounce.generation⟩ : Timer) ∈
          controller.agenda := by simp [hone]
      have hremaining : 1 ≤ remaining := by
        cases h.stage with
        | unswept => omega
        | swept _ _ _ => exact le_refl _
        | resting _ hnot _ _ => exact absurd (hpending.symm.trans hnot) (by simp)
      calc deadline ≤ time := hearliest _ htimer
        _ ≤ horizon + controller.settings.debounce.toNat := (h.within.timers _ htimer).2
        _ ≤ horizon + remaining * controller.settings.debounce.toNat :=
            Nat.add_le_add_left (Nat.le_mul_of_pos_left _ hremaining) _
  | resting _ _ hempty =>
      rw [hempty] at hfirst
      cases hfirst

/-- When alarms go off, there are fewer of them, or fewer sweeps are still to come. -/
theorem Closing.exists_wake (h : Closing horizon remaining bench controller)
    (hmailbox : controller.mailbox = []) {deadline : Nat}
    (hnext : controller.agenda.nextDeadline? = some deadline) :
    ∃ limit fewer next later, Closing limit fewer next later ∧
      next.drain = (bench.wake deadline).drain ∧ next.clock = deadline ∧
      limit + fewer * controller.settings.debounce.toNat ≤
        horizon + remaining * controller.settings.debounce.toNat ∧
      later.load + fewer < controller.load + remaining ∧
      later.cleanups + fewer ≤ controller.cleanups + remaining ∧
      later.settings = controller.settings := by
  cases (h.ordered.orderly controller h.seat).poised hmailbox with
  | busy hsessions hquiet =>
      have hload := load_wake_lt hmailbox hquiet hnext
      exact ⟨horizon, remaining, _, _, h.wake_busy hmailbox hsessions hquiet hnext, rfl,
        clock_wake _ _, le_refl _, Nat.add_lt_add_right hload _, le_refl _, rfl⟩
  | waiting time hsessions hpending hone =>
      obtain rfl : time = deadline := by
        simpa [Agenda.nextDeadline?, hone] using hnext
      obtain ⟨fewer, hfewer, later, hclosing, hdrain, hload, hcleanups, hsettings⟩ :=
        h.end_wait hmailbox hsessions hpending hone
      refine ⟨_, fewer, _, later, hclosing, hdrain, by simp, ?_, by omega, by omega, hsettings⟩
      calc horizon + controller.settings.debounce.toNat +
            fewer * controller.settings.debounce.toNat
          = horizon + (fewer + 1) * controller.settings.debounce.toNat := by
            rw [Nat.succ_mul]
            omega
        _ ≤ horizon + remaining * controller.settings.debounce.toNat :=
            Nat.add_le_add_left (Nat.mul_le_mul_right _ hfewer) _
  | resting _ _ hempty =>
      rw [hempty] at hnext
      cases hnext

/-- A controller that is left alone gets to every time, and is at rest when all of its sweeps may
have come. -/
theorem Closing.advanceWithin (wakes : Nat) {target : Nat}
    (h : Closing horizon remaining bench controller) (hload : controller.load + remaining < wakes)
    (hclock : bench.clock ≤ target) :
    ∃ later, LeftUntil target (horizon + remaining * controller.settings.debounce.toNat)
      (controller.cleanups + remaining) controller.settings (advanceWithin wakes target bench)
      later := by
  induction wakes generalizing bench controller horizon remaining with
  | zero => omega
  | succ wakes ih =>
      obtain ⟨drained, hdrained, hproceeds, hmailbox⟩ := h.drain
      have hdrainedClock : bench.drain.clock ≤ target := by rwa [clock_drain]
      have hdrainedLoad := hproceeds.load
      have hnext : bench.drain.nextDeadline? = drained.agenda.nextDeadline? := by
        simp [nextDeadline?, controller?, hdrained.seat]
      rw [← hproceeds.settings, ← hproceeds.cleanups]
      unfold Workbench.advanceWithin
      dsimp only
      rw [hnext]
      split
      next hnone =>
        have hempty : drained.agenda = [] := by simpa [Agenda.nextDeadline?] using hnone
        exact ⟨drained, hdrained.tick hmailbox hdrainedClock (by simp [hempty])
          fun _ => hdrained.rests hmailbox hempty⟩
      next deadline hdeadline =>
        split
        next hle =>
          obtain ⟨limit, fewer, next, woken, hclosing, hdrain, hwokenClock, hlimit, hless, hmost,
            hsettings⟩ := hdrained.exists_wake hmailbox hdeadline
          have hwakes : woken.load + fewer < wakes := by omega
          obtain ⟨later, hlater⟩ := ih hclosing hwakes (hwokenClock.trans_le hle)
          rw [hsettings] at hlater
          rw [← advanceWithin_congr hdrain (Nat.zero_lt_of_lt hwakes)]
          exact ⟨later, hlater.mono hlimit hmost⟩
        next hlt =>
          have hearliest := (Agenda.nextDeadline?_eq_some_iff.mp hdeadline).2
          refine ⟨drained, hdrained.tick hmailbox hdrainedClock (fun timer htimer => ?_)
            fun hbound => ?_⟩
          · exact (Nat.le_of_not_le hlt).trans (hearliest timer htimer)
          · exact absurd ((hdrained.deadline_le hmailbox hdeadline).trans hbound) hlt

end Workbench
end CallBinding
