import CallBinding.Proofs.Workbench.Closing

/-!
# Convergence

Between two steps of a run without scripted faults, the controller that sweeps
has heard news at most, and its alarms go off in time: `Rested` says so, and
every step keeps it.  So, whenever users and programs stop, the controller is
quiescent a window and two debounces later, and has swept twice at most.
-/

namespace CallBinding

theorem Message.load_le (message : Message) : message.load ≤ 2 := by
  cases message with
  | event change =>
      simp only [load]
      split <;> omega
  | callSiteCreated _ _ | due _ | detach => simp [load]

theorem Message.loadOf_le (messages : List Message) : loadOf messages ≤ 2 * messages.length := by
  induction messages with
  | nil => simp [loadOf]
  | cons message rest ih =>
      have hload := message.load_le
      simp only [loadOf, List.length_cons]
      omega

theorem Controller.load_le (controller : Controller) :
    controller.load ≤ controller.agenda.length + 2 * controller.mailbox.length :=
  Nat.add_le_add (List.length_filter_le _ _) (Message.loadOf_le _)

/-- News moves the horizon to the end of a window that is opened now. -/
theorem Controller.within_of_news {controller : Controller} {now : Nat}
    (htimers : ∀ timer ∈ controller.agenda, timer.Within controller.settings
      (now + controller.settings.suppressionWindow.toNat) now)
    (hnews : ∀ message ∈ controller.mailbox, message.IsNews) :
    controller.Within (now + controller.settings.suppressionWindow.toNat) now :=
  ⟨htimers, fun _ _ _ => le_refl _, fun _ hmem => hnews _ hmem, fun hmem => hnews _ hmem⟩

/-- A row about a cleanup. -/
def TraceRow.isCleanup : TraceRow → Bool
  | heard _ _ => false
  | cleanup _ _ => true

namespace Workbench

/-- The number of cleanups in the trace. -/
def cleanupCount (bench : Workbench) : Nat :=
  bench.trace.countP TraceRow.isCleanup

/-- What holds of a workbench between two steps of a run without scripted faults. -/
structure Rested (bench : Workbench) : Prop where
  sound : Sound bench
  ordered : Ordered bench
  news : ∀ controller, bench.seat = .running controller → controller.cleanup = .sweep →
    ∀ message ∈ controller.mailbox, message.IsNews
  timers : ∀ controller, bench.seat = .running controller → controller.cleanup = .sweep →
    ∀ timer ∈ controller.agenda, timer.Within controller.settings
      (bench.clock + controller.settings.suppressionWindow.toNat) bench.clock

theorem rested_new (autoDefine : Bool) : Rested (new autoDefine) :=
  ⟨sound_new autoDefine, ordered_new autoDefine, fun _ h => (by cases h), fun _ h => (by cases h)⟩

variable {bench : Workbench} {controller : Controller}

theorem Rested.closing (h : Rested bench) (hseat : bench.seat = .running controller)
    (hsweeps : controller.cleanup = .sweep) :
    Closing (bench.clock + controller.settings.suppressionWindow.toNat) 2 bench controller := by
  have hwithin := Controller.within_of_news (h.timers controller hseat hsweeps)
    (h.news controller hseat hsweeps)
  exact ⟨hseat, h.sound, h.ordered, hsweeps, Nat.le_add_right _ _, hwithin, hwithin, .unswept⟩

/-- Until any time, a controller that sweeps can be left alone. -/
theorem Rested.leftUntil (h : Rested bench) (hseat : bench.seat = .running controller)
    (hsweeps : controller.cleanup = .sweep) {target : Nat} (hclock : bench.clock ≤ target) :
    ∃ later, LeftUntil target
      (bench.clock + controller.settings.suppressionWindow.toNat +
        2 * controller.settings.debounce.toNat)
      (controller.cleanups + 2) controller.settings (bench.advanceTo target) later := by
  refine (h.closing hseat hsweeps).advanceWithin _ ?_ hclock
  have hload := controller.load_le
  simp only [wakeLimit, waiting_eq hseat, controller?, hseat, Option.map_some, Option.getD_some]
  omega

/-! ## Inner moves -/

/-- No controller that sweeps is seated. -/
def Sweepless (bench : Workbench) : Prop :=
  ∀ controller, bench.seat = .running controller → controller.cleanup ≠ .sweep

theorem Sweepless.move (h : Sweepless bench) {move : Move} (hinner : move.IsInner) :
    Sweepless (bench.move move) := by
  intro later hlater
  rcases (seats_move hlater).attached_or_keeps with
    ⟨_, _, _, rfl, _⟩ | ⟨former, hformer, hcleanup, _⟩
  · cases hinner
  · rw [hcleanup]
    exact h former hformer

theorem cleanupCount_takeTurn (bench : Workbench) (turn : Turn) :
    (bench.takeTurn turn).cleanupCount = bench.cleanupCount + turn.cleanup.toList.length := by
  have htrace : (bench.takeTurn turn).trace =
      (turn.host.editor.outbox.map (TraceRow.heard bench.clock)).reverse ++
        ((turn.cleanup.map (TraceRow.cleanup bench.clock)).toList ++ bench.trace) := by
    simp only [takeTurn, adopt, deliver]
    cases turn.fate <;> rfl
  have hheard : (turn.host.editor.outbox.map (TraceRow.heard bench.clock)).reverse.countP
      TraceRow.isCleanup = 0 := by
    simp [List.countP_eq_zero, TraceRow.isCleanup]
  have hstarted : (turn.cleanup.map (TraceRow.cleanup bench.clock)).toList.countP
      TraceRow.isCleanup = turn.cleanup.toList.length := by
    cases turn.cleanup <;> rfl
  rw [cleanupCount, htrace, List.countP_append, List.countP_append, hheard, hstarted, cleanupCount]
  omega

/-- The trace has grown by the cleanups that the controller has counted. -/
def Tallied (rows counted : Nat) (bench : Workbench) : Prop :=
  ∀ controller, bench.seat = .running controller →
    bench.cleanupCount + counted = rows + controller.cleanups

theorem Tallied.move {rows counted : Nat} (h : Tallied rows counted bench) {move : Move}
    (hinner : move.IsInner) : Tallied rows counted (bench.move move) := by
  intro later hseat
  cases seats_move hseat with
  | installed _ _ _ => cases hinner
  | told _ _ houter _ => exact absurd hinner houter
  | idled hformer hempty =>
      have hsame : bench.move .handle = bench := handleNext_of_nil hformer hempty
      rw [hsame]
      exact h _ hformer
  | turned hformer hmailbox hfate =>
      have hmove : bench.move .handle = _ := handleNext_eq hformer hmailbox
      have hrows := h _ hformer
      have hcounted := Controller.cleanups_of_handle hfate
      rw [hmove, cleanupCount_takeTurn]
      simp only [Controller.hear]
      simp only at hcounted
      omega
  | woken time hformer =>
      have hrows := h _ hformer
      have htrace : (bench.move (.wake time)).trace = bench.trace := by
        simp [Workbench.move, wake, controller?, hformer]
      rw [cleanupCount, htrace]
      exact hrows
  | ticked time hformer | dismissed hformer =>
      have hrows := h _ hformer
      exact hrows

theorem course_advanceTo {target : Nat} (hclock : bench.clock ≤ target) :
    Course (fun _ move => move.IsInner) bench (bench.advanceTo target) :=
  @course_advanceWithin (fun _ move => move.IsInner) (fun _ => True) (fun _ _ _ => trivial)
    (fun _ _ _ hinner _ => hinner) _ target bench trivial hclock

/-- All that a step does, if it asks for nothing, is to let the controller work. -/
theorem course_step_of_none {step : Step} (h : step.move? = none) :
    Course (fun _ move => move.IsInner) bench (bench.step step).2 :=
  @course_step (fun _ move => move.IsInner) (fun _ => True) (fun _ _ _ => trivial)
    (fun _ _ _ hinner _ => hinner) step bench trivial (by simp [h])

theorem Rested.sound_course (h : Rested bench) {last : Workbench}
    (hcourse : Course (fun _ move => move.IsInner) bench last) : Sound last ∧ Ordered last := by
  refine hcourse.preserves (fun bench => Sound bench ∧ Ordered bench) ?_ ⟨h.sound, h.ordered⟩
  exact fun _ move hbench hinner => ⟨hbench.1.move hinner.isFaultless, hbench.2.move move⟩

theorem Rested.advanceTo (h : Rested bench) {target : Nat} (hclock : bench.clock ≤ target) :
    Rested (bench.advanceTo target) := by
  have hcourse := course_advanceTo hclock
  obtain ⟨hsound, hordered⟩ := h.sound_course hcourse
  by_cases hsweepless : Sweepless bench
  · have hlast : Sweepless (bench.advanceTo target) :=
      hcourse.preserves Sweepless (fun _ _ hbench hinner => hbench.move hinner) hsweepless
    exact ⟨hsound, hordered, fun later hseat hsweeps => absurd hsweeps (hlast later hseat),
      fun later hseat hsweeps => absurd hsweeps (hlast later hseat)⟩
  · simp only [Sweepless, not_forall, not_not] at hsweepless
    obtain ⟨controller, hseat, hsweeps⟩ := hsweepless
    obtain ⟨last, hlast⟩ := h.leftUntil hseat hsweeps hclock
    have honly {later : Controller} (hlater : (bench.advanceTo target).seat = .running later) :
        later = last := Seat.running.inj (hlater.symm.trans hlast.seat)
    refine ⟨hsound, hordered, fun later hlater _ => ?_, fun later hlater _ => ?_⟩
    · rw [honly hlater, hlast.mailbox]
      simp
    · have htimers := hlast.within.timers
      rw [← hlast.settings, ← hlast.clock] at htimers
      rw [honly hlater]
      exact htimers

/-! ## Steps -/

/-- What users and programs do posts news at most. -/
theorem Rested.move (h : Rested bench) {move : Move} (houter : ¬move.IsInner)
    (hmove : move.IsFaultless) : Rested (bench.move move) := by
  refine ⟨h.sound.move hmove, h.ordered.move move, fun later hseat hsweeps => ?_,
    fun later hseat hsweeps => ?_⟩
  · cases seats_move hseat with
    | installed _ _ _ => simp [Controller.new]
    | @told former _ events hformer _ _ =>
        intro message hmessage
        rcases List.mem_append.mp hmessage with hold | hheard
        · exact h.news former hformer hsweeps message hold
        · obtain ⟨event, -, rfl⟩ := List.mem_map.mp hheard
          exact Message.isNews_ofEvent _ event
    | idled _ _ | turned _ _ _ | woken _ _ | ticked _ _ | dismissed _ =>
        exact absurd trivial houter
  · rw [clock_move bench houter]
    cases seats_move hseat with
    | installed _ _ _ => simp [Controller.new]
    | @told former _ events hformer _ _ => exact h.timers former hformer hsweeps
    | idled _ _ | turned _ _ _ | woken _ _ | ticked _ _ | dismissed _ =>
        exact absurd trivial houter

theorem Rested.of_vacant {last : Workbench} (hsound : Sound last) (hordered : Ordered last)
    (hvacant : last.seat = .vacant) : Rested last := by
  refine ⟨hsound, hordered, fun later hseat _ => ?_, fun later hseat _ => ?_⟩
  · rw [hvacant] at hseat
    cases hseat
  · rw [hvacant] at hseat
    cases hseat

theorem attach_eq_move (bench : Workbench) (cleanup : Cleanup) (settings : Settings) :
    (bench.attach cleanup settings).2 = bench.settle.move (.attach cleanup settings) := by
  simp only [attach, Workbench.move, install]
  cases hseat : bench.settle.seat <;> rfl

theorem seat_detach (bench : Workbench) : bench.detach.2.seat = .vacant := by
  unfold detach
  split
  next hvacant => exact hvacant
  · dsimp only
    split
    next hvacant => exact hvacant
    · rfl

theorem seat_drop (bench : Workbench) : bench.drop.2.seat = .vacant := by
  unfold drop
  split
  next hvacant => exact hvacant
  · rfl

theorem Rested.step (h : Rested bench) {step : Step} (hstep : step.IsFaultless) :
    Rested (bench.step step).2 := by
  have hsettled : Rested bench.settle := h.advanceTo (le_refl _)
  have asked {move : Move} (hasked : step.move? = some move) (houter : ¬move.IsInner) :
      Rested (bench.move move) := h.move houter (hstep move hasked)
  have vacated (hnone : step.move? = none) (hvacant : (bench.step step).2.seat = .vacant) :
      Rested (bench.step step).2 := by
    obtain ⟨hsound, hordered⟩ := h.sound_course (course_step_of_none hnone)
    exact .of_vacant hsound hordered hvacant
  cases step with
  | user _ | inspect _ | host _ | reconcile _ | setFaults _ _ | setLeaky _ => exact asked rfl id
  | query _ => exact h
  | attach cleanup settings =>
      have hattached : Rested (bench.settle.move (.attach cleanup settings)) :=
        hsettled.move id trivial
      rw [← attach_eq_move] at hattached
      exact hattached
  | advance milliseconds => exact h.advanceTo (Nat.le_add_right _ _)
  | status =>
      simp only [Workbench.step, status]
      split
      · exact h
      · split <;> exact hsettled
  | detach => exact vacated rfl bench.seat_detach
  | drop => exact vacated rfl bench.seat_drop

theorem Rested.run (h : Rested bench) {steps : List Step}
    (hsteps : ∀ step ∈ steps, step.IsFaultless) : Rested (bench.run steps).2 := by
  induction steps generalizing bench with
  | nil => exact h
  | cons step rest ih =>
      obtain ⟨hstep, hrest⟩ := List.forall_mem_cons.mp hsteps
      exact ih (h.step hstep) hrest

/-! ## The controller at rest -/

theorem isQuiescent_of_rests (hsessions : controller.sessions = [])
    (hidle : controller.debounce.isPending = false) : controller.status.isQuiescent = true := by
  simp [Status.isQuiescent, Controller.status, hsessions, hidle, Session.pendingAlarmsOf]

/-- Whatever steps have been done, a window and two debounces later a controller that sweeps is
quiescent, and it has swept twice at most in the meantime. -/
theorem quiescent_of_run (autoDefine : Bool) {steps : List Step}
    (hsteps : ∀ step ∈ steps, step.IsFaultless)
    (hseat : ((new autoDefine).run steps).2.seat = .running controller)
    (hsweeps : controller.cleanup = .sweep) {milliseconds : Nat}
    (hlong : controller.settings.suppressionWindow.toNat +
      2 * controller.settings.debounce.toNat ≤ milliseconds) :
    let bench := ((new autoDefine).run steps).2
    let last := (bench.step (.advance milliseconds)).2
    last.clock = bench.clock + milliseconds ∧ last.cleanupCount ≤ bench.cleanupCount + 2 ∧
      ∃ later, last.seat = .running later ∧ later.sessions = [] ∧ later.agenda = [] ∧
        later.mailbox = [] ∧ later.status.isQuiescent = true ∧
        later.cleanups ≤ controller.cleanups + 2 := by
  intro bench last
  have hrested : Rested bench := (rested_new autoDefine).run hsteps
  have hclock : bench.clock ≤ bench.clock + milliseconds := Nat.le_add_right _ milliseconds
  obtain ⟨later, hlater⟩ := hrested.leftUntil hseat hsweeps hclock
  have hbound : bench.clock + controller.settings.suppressionWindow.toNat +
      2 * controller.settings.debounce.toNat ≤ bench.clock + milliseconds := by omega
  obtain ⟨hsessions, hagenda, hidle⟩ := hlater.quiet hbound
  have htallied : Tallied bench.cleanupCount controller.cleanups bench := by
    intro other hother
    rw [Seat.running.inj (hother.symm.trans hseat)]
  have hlast : Tallied bench.cleanupCount controller.cleanups last :=
    (course_advanceTo hclock).preserves (Tallied bench.cleanupCount controller.cleanups)
      (fun _ _ hbench hinner => hbench.move hinner) htallied
  have hrows := hlast later hlater.seat
  have hcleanups := hlater.cleanups
  exact ⟨hlater.clock, by omega, later, hlater.seat, hsessions, hagenda, hlater.mailbox,
    isQuiescent_of_rests hsessions hidle, hcleanups⟩

/-- Without any delay, all of it happens at once. -/
theorem quiescent_of_run_without_delays :
    let settings := { Settings.default with
      recheckDelay := 0, debounce := 0, suppressionWindow := 0 }
    let steps : List Step := [.user (.define "f" ["x"]), .user (.define "f2" []),
      .attach .sweep settings, .user (.call "f2")]
    let bench := ((new false).run steps).2
    let last := (bench.step (.advance 0)).2
    let controller := { Controller.new settings .sweep with
      mailbox := [.callSiteCreated ⟨2⟩ [⟨0⟩, ⟨1⟩]] }
    ((∀ step ∈ steps, step.IsFaultless) ∧ bench.seat = .running controller ∧
      controller.cleanup = .sweep ∧ controller.settings.suppressionWindow.toNat +
        2 * controller.settings.debounce.toNat ≤ 0) ∧
      last.clock = bench.clock + 0 ∧ last.cleanupCount ≤ bench.cleanupCount + 2 ∧
      ∃ later, last.seat = .running later ∧ later.sessions = [] ∧ later.agenda = [] ∧
        later.mailbox = [] ∧ later.status.isQuiescent = true ∧
        later.cleanups ≤ controller.cleanups + 2 := by
  intro settings steps bench last controller
  have hsteps : ∀ step ∈ steps, step.IsFaultless := by decide
  have hseat : bench.seat = .running controller := by decide +kernel
  have hlong : controller.settings.suppressionWindow.toNat +
      2 * controller.settings.debounce.toNat ≤ 0 := by decide
  exact ⟨⟨hsteps, hseat, rfl, hlong⟩, quiescent_of_run false hsteps hseat rfl hlong⟩

end Workbench
end CallBinding
