import CallBinding.Proofs.Workbench.Listeners
import CallBinding.Proofs.Workbench.Timers

/-!
# Silence

A controller ends when it handles the request to stop, or when its cleanup
fails.  Whatever sessions it had open, whatever alarms it had armed and whatever
messages it had not handled, nothing of it is left but the listener of a failed
one.  From then on every step does what is asked for and nothing else, until a
new controller is attached.
-/

namespace CallBinding

/-- The turns after which a controller is running no longer. -/
inductive Controller.LastTurn (controller : Controller) (host : Host) : Message → Turn → Prop
  | detached : LastTurn controller host .detach ⟨host, .detached, none⟩
  | failed (generation : Nat) : controller.cleanup = .panic →
      LastTurn controller host (.due (.debounce generation)) ⟨host, .crashed, some .panic⟩

theorem Controller.lastTurn_handle {controller : Controller} {now : Nat} {host : Host}
    {message : Message}
    (h : ∀ next, (controller.handle now host message).fate ≠ .running next) :
    LastTurn controller host message (controller.handle now host message) := by
  cases message with
  | event _ | callSiteCreated _ _ => exact absurd rfl (h _)
  | detach => exact .detached
  | due alarm =>
      cases alarm with
      | spawnCheck _ _ | recheck _ | window _ => exact absurd rfl (h _)
      | debounce generation =>
          have hends := controller.endsWait_onDebounce host generation
          have hhandle : controller.handle now host (.due (.debounce generation)) =
            controller.onDebounce host generation := rfl
          rw [hhandle] at h ⊢
          generalize controller.onDebounce host generation = turn at hends h
          cases hends with
          | stale _ | deferred _ _ | swept _ _ _ | counted _ _ _ => exact absurd rfl (h _)
          | crashed _ _ hpanic => exact .failed generation hpanic

/-- How many suppressions are open after a move, if some were open before it. -/
def Move.resuppress (depth : Nat) : Move → Nat
  | request .suppress => depth + 1
  | request .resume => depth - 1
  | _ => depth

def Step.resuppress (depth : Nat) (step : Step) : Nat :=
  match step.move? with
  | some move => move.resuppress depth
  | none => depth

namespace Workbench

variable {bench : Workbench} {controller : Controller}

/-! ## The end -/

/-- What is left at the end of a controller. -/
inductive Leaves (bench : Workbench) (controller : Controller) : Workbench → Prop
  /-- It was asked to stop. -/
  | detached (rest : List Message) : controller.mailbox = .detach :: rest →
      Leaves bench controller { bench with seat := .vacant }
  /-- Its cleanup has failed. -/
  | failed (generation : Nat) (rest : List Message) :
      controller.mailbox = .due (.debounce generation) :: rest → controller.cleanup = .panic →
      Leaves bench controller
        { bench with
          seat := .crashed
          orphans := bench.orphans + 1
          trace := .cleanup bench.clock .panic :: bench.trace }

/-- A turn that leaves the host alone and no controller behind delivers nothing. -/
theorem takeTurn_of_host (houtbox : bench.host.editor.outbox = []) (fate : Fate)
    (cleanup : Option Cleanup) :
    bench.takeTurn ⟨bench.host, fate, cleanup⟩ =
      { bench with
        trace := (cleanup.map (TraceRow.cleanup bench.clock)).toList ++ bench.trace }.seatFate
          fate := by
  have hadopt (next : Workbench) (hhost : next.host = bench.host) :
      next.adopt bench.host = next := by
    rw [← hhost] at houtbox ⊢
    exact adopt_host houtbox
  exact hadopt _ (host_seatFate _ fate)

/-- A controller that is running no longer after a turn has been asked to stop or has failed. -/
theorem leaves_handle (houtbox : bench.host.editor.outbox = [])
    (hseat : bench.seat = .running controller) (hends : Unseated (bench.move .handle)) :
    Leaves bench controller (bench.move .handle) := by
  cases hmailbox : controller.mailbox with
  | nil =>
      have hsame : bench.move .handle = bench := handleNext_of_nil hseat hmailbox
      rw [hsame] at hends
      exact absurd hseat (hends controller)
  | cons message rest =>
      have hmove : bench.move .handle = bench.takeTurn
          ({ controller with mailbox := rest }.handle bench.clock bench.host message) :=
        handleNext_eq hseat hmailbox
      have hfate : ∀ next, ({ controller with mailbox := rest }.handle bench.clock bench.host
          message).fate ≠ .running next := by
        intro next hnext
        rw [hmove, takeTurn, hnext] at hends
        exact hends _ rfl
      have hlast := Controller.lastTurn_handle hfate
      rw [hmove]
      generalize ({ controller with mailbox := rest } : Controller).handle bench.clock bench.host
        message = turn at hlast
      cases hlast with
      | detached =>
          rw [takeTurn_of_host houtbox]
          exact .detached rest hmailbox
      | failed generation hpanic =>
          rw [takeTurn_of_host houtbox]
          exact .failed generation rest hmailbox hpanic

/-! ## Steps without a controller -/

/-- What a step does by itself: what it asks for, and for how long. -/
def alone (bench : Workbench) : Step → Workbench
  | .advance milliseconds => { bench with clock := bench.clock + milliseconds }
  | .detach | .drop => bench.vacate
  | step => step.move?.elim bench bench.move

theorem vacate_of_vacant (h : bench.seat = .vacant) : bench = bench.vacate := by
  rw [vacate, ← h]

theorem controller?_of_unseated (h : Unseated bench) : bench.controller? = none :=
  Option.eq_none_iff_forall_ne_some.mpr fun controller hcontroller =>
    h controller (controller?_eq_some_iff.mp hcontroller)

theorem handleMany_of_unseated (h : Unseated bench) (n : Nat) : handleMany n bench = bench := by
  have hnext : bench.handleNext = bench := by simp [handleNext, controller?_of_unseated h]
  induction n with
  | zero => rfl
  | succ n ih => rw [handleMany, hnext, ih]

theorem drain_of_unseated (h : Unseated bench) : bench.drain = bench := by
  simp only [drain, round, handleMany_of_unseated h]

theorem advanceTo_of_unseated (h : Unseated bench) (target : Nat) :
    bench.advanceTo target = { bench with clock := target } := by
  obtain ⟨wakes, hwakes⟩ : ∃ wakes, bench.wakeLimit target = wakes + 1 :=
    Nat.exists_eq_succ_of_ne_zero (by simp only [wakeLimit]; omega)
  have hdeadline : bench.nextDeadline? = none := by
    simp [nextDeadline?, controller?_of_unseated h]
  rw [advanceTo, hwakes, advanceWithin, drain_of_unseated h]
  simp only [hdeadline]

theorem dismiss_of_unseated (h : Unseated bench) : bench.dismiss = bench := by
  have hasked : { bench with seat := Seat.post [.detach] bench.seat } = bench := by
    cases hseat : bench.seat with
    | running controller => exact absurd hseat (h controller)
    | vacant | crashed => exact congrArg (fun seat => { bench with seat := seat }) hseat.symm
  rw [dismiss, hasked, drain_of_unseated h]

/-- Without a controller a step does no more than what is asked for. -/
theorem step_of_unseated (h : Unseated bench) (step : Step) :
    (bench.step step).2 = bench.alone step := by
  have hsettle : bench.settle = bench := advanceTo_of_unseated h bench.clock
  cases step with
  | user _ | inspect _ | host _ | query _ | reconcile _ | setFaults _ _ | setLeaky _ => rfl
  | attach cleanup settings =>
      have hattached := bench.attach_eq_move cleanup settings
      rw [hsettle] at hattached
      exact hattached
  | advance milliseconds => exact advanceTo_of_unseated h _
  | status =>
      simp only [Workbench.step, status, hsettle, controller?_of_unseated h]
      split <;> rfl
  | detach =>
      have hvacant : bench.detach.2 = bench.vacate := by
        unfold detach
        cases hseat : bench.seat with
        | running controller => exact absurd hseat (h controller)
        | vacant => exact vacate_of_vacant hseat
        | crashed => simp only [dismiss_of_unseated h, hseat]
      exact hvacant
  | drop =>
      have hvacant : bench.drop.2 = bench.vacate := by
        unfold drop
        cases hseat : bench.seat with
        | running controller => exact absurd hseat (h controller)
        | vacant => exact vacate_of_vacant hseat
        | crashed => simp only [dismiss_of_unseated h]
      exact hvacant

/-- The next controller starts afresh. -/
theorem step_attach_of_vacant (h : bench.seat = .vacant) (cleanup : Cleanup)
    (settings : Settings) :
    (bench.step (.attach cleanup settings)).2 =
      { bench with seat := .running (.new settings cleanup) } := by
  have hunseated : Unseated bench := fun controller hseat => by cases h.symm.trans hseat
  rw [step_of_unseated hunseated]
  change bench.install cleanup settings = _
  rw [install, h]

/-! ## Runs without a controller -/

/-- No step of a run attaches a controller to a vacant seat. -/
def Unattached (bench : Workbench) : List Step → Prop
  | [] => True
  | step :: rest =>
      (step.isAttach = true → bench.seat ≠ .vacant) ∧ (bench.step step).2.Unattached rest

instance decidableUnattached (bench : Workbench) : DecidablePred bench.Unattached
  | [] => isTrue trivial
  | step :: rest =>
      have := decidableUnattached (bench.step step).2 rest
      inferInstanceAs (Decidable (_ ∧ _))

theorem Unseated.alone (h : Unseated bench) {step : Step}
    (hstep : step.isAttach = true → bench.seat ≠ .vacant) : Unseated (bench.alone step) := by
  have asked {move : Move} (hmove : step.move? = some move) (hstep : step.isAttach = false) :
      Unseated (bench.move move) := h.move (Step.move?_ne_attach hstep hmove)
  cases step with
  | attach cleanup settings =>
      have hsame : bench.alone (.attach cleanup settings) = bench := by
        change bench.install cleanup settings = bench
        unfold install
        cases hseat : bench.seat with
        | vacant => exact absurd hseat (hstep rfl)
        | running _ | crashed => rfl
      rwa [hsame]
  | detach | drop => exact fun controller hseat => by cases hseat
  | advance _ | query _ | status => exact h
  | user _ | inspect _ | host _ | reconcile _ | setFaults _ _ | setLeaky _ =>
      exact asked rfl rfl

/-- A run without a controller does no more than what is asked for, step by step. -/
theorem run_of_unseated (h : Unseated bench) {steps : List Step}
    (hsteps : bench.Unattached steps) :
    Unseated (bench.run steps).2 ∧ (bench.run steps).2 = steps.foldl Workbench.alone bench := by
  induction steps generalizing bench with
  | nil => exact ⟨h, rfl⟩
  | cons step rest ih =>
      obtain ⟨hstep, hrest⟩ := hsteps
      have hnext := step_of_unseated h step
      have hunseated := h.alone hstep
      rw [← hnext] at hunseated
      obtain ⟨hlast, hrun⟩ := ih hunseated hrest
      exact ⟨hlast, hrun.trans (by rw [hnext, List.foldl_cons])⟩

/-- A step that asks for nothing has nothing to report. -/
theorem stepReport_of_unseated (h : Unseated bench) {step : Step} (hnone : step.move? = none) :
    (bench.stepReport step).1.rows = [] ∧ (bench.stepReport step).1.commands = [] := by
  have hsame : (bench.step step).2.trace = bench.trace ∧ (bench.step step).2.host = bench.host := by
    rw [step_of_unseated h step]
    cases step with
    | advance _ | detach | drop | query _ | status => exact ⟨rfl, rfl⟩
    | user _ | inspect _ | host _ | reconcile _ | setFaults _ _ | setLeaky _ | attach _ _ =>
        cases hnone
  simp only [stepReport, hsame.1, hsame.2, Nat.sub_self, List.take_zero, List.reverse_nil,
    List.drop_length, and_self]

/-! ## Suppressions -/

theorem suppression_move (h : Ordered bench) (move : Move) :
    (bench.move move).host.editor.suppression =
      move.resuppress bench.host.editor.suppression := by
  have hkept (move : Move) (hsuppress : move ≠ .request .suppress)
      (hresume : move ≠ .request .resume) (depth : Nat) : move.resuppress depth = depth := by
    unfold Move.resuppress
    split
    · exact absurd rfl hsuppress
    · exact absurd rfl hresume
    · rfl
  by_cases hsuppress : move = .request .suppress
  · rw [hsuppress]
    rfl
  · by_cases hresume : move = .request .resume
    · rw [hresume]
      rfl
    · rw [hkept move hsuppress hresume]
      have hhosts := bench.hosts_move move
      generalize (bench.move move).host = after at hhosts ⊢
      cases hhosts with
      | kept _ | scripted _ _ | leaked _ => rfl
      | adopted _ _ _ hprogress => exact hprogress.suppression
      | suppressed => exact absurd rfl hsuppress
      | resumed => exact absurd rfl hresume
      | turned hseat hmailbox hafter =>
          subst hafter
          exact (h.handle_reconciles hseat hmailbox).replays.suppression

theorem resuppress_of_isInner (depth : Nat) (move : Move) (h : move.IsInner) :
    move.resuppress depth = depth := by
  cases move <;> first | rfl | cases h

/-- The controller closes every suppression that it opens. -/
theorem suppression_of_inner (h : Ordered bench) {last : Workbench}
    (hinner : Leads Move.IsInner bench last) :
    last.host.editor.suppression = bench.host.editor.suppression := by
  have hlast : Ordered last ∧ last.host.editor.suppression = bench.host.editor.suppression := by
    refine hinner.preserves (fun last => Ordered last ∧
      last.host.editor.suppression = bench.host.editor.suppression) ?_ ⟨h, rfl⟩
    rintro last move ⟨hordered, hsame⟩ hmove
    refine ⟨hordered.move move, ?_⟩
    rw [suppression_move hordered, resuppress_of_isInner _ move hmove, hsame]
  exact hlast.2

/-- Only the steps that open or close a suppression account for how many are open. -/
theorem suppression_run (h : Ordered bench) (steps : List Step) :
    (bench.run steps).2.host.editor.suppression =
      steps.foldl Step.resuppress bench.host.editor.suppression := by
  induction steps generalizing bench with
  | nil => rfl
  | cons step rest ih =>
      have hstep : (bench.step step).2.host.editor.suppression =
          step.resuppress bench.host.editor.suppression := by
        have hmeasured := measure_step (fun bench => bench.host.editor.suppression) Ordered
          (fun _ move hordered => hordered.move move)
          (fun _ move hordered => suppression_move hordered move) resuppress_of_isInner h step
        rw [hmeasured, Step.resuppress]
        cases step.move? <;> rfl
      rw [List.foldl_cons, ← hstep]
      exact ih (h.run [step])

/-! ## Silence -/

/-- Inner moves leave nothing to do where no controller is running. -/
theorem inner_of_unseated {last : Workbench} (h : Unseated bench)
    (hinner : Leads Move.IsInner bench last) :
    Unseated last ∧
      ∃ clock seat, last = { bench with clock := clock, seat := seat } := by
  refine hinner.preserves (fun last => Unseated last ∧
    ∃ clock seat, last = { bench with clock := clock, seat := seat }) ?_
    ⟨h, bench.clock, bench.seat, rfl⟩
  rintro last move ⟨hlast, clock, seat, hsame⟩ hmove
  refine ⟨hlast.move fun _ _ hattach => by rw [hattach] at hmove; exact hmove, ?_⟩
  cases move with
  | handle =>
      have hnext : last.move .handle = last := handleMany_of_unseated hlast 1
      exact ⟨clock, seat, hnext.trans hsame⟩
  | wake time =>
      have hnext : last.move (.wake time) = { last with clock := time } := by
        simp only [Workbench.move, wake, controller?_of_unseated hlast]
      exact ⟨time, seat, by rw [hnext, hsame]⟩
  | tick time => exact ⟨time, seat, by rw [hsame]; rfl⟩
  | dismiss => exact ⟨clock, Seat.post [.detach] last.seat, by rw [hsame]; rfl⟩
  | vacate => exact ⟨clock, .vacant, by rw [hsame]; rfl⟩
  | act _ | inspect _ | request _ | reconcile _ | setFaults _ _ | setLeaky _ | attach _ _ =>
      cases hmove

/-- Whoever still holds the handle of a controller that has ended is told so. -/
theorem answer_of_unseated (h : Unseated bench) (hheld : bench.seat ≠ .vacant) :
    (bench.step .status).1 = .failed .detached ∧ (bench.step .detach).1 = .failed .detached := by
  have hcrashed : bench.seat = .crashed := by
    cases hseat : bench.seat with
    | vacant => exact absurd hseat hheld
    | running controller => exact absurd hseat (h controller)
    | crashed => rfl
  have hsettle : bench.settle = bench := advanceTo_of_unseated h bench.clock
  constructor
  · simp only [Workbench.step, status, hsettle, controller?_of_unseated h, hcrashed]
  · simp only [Workbench.step, detach, dismiss_of_unseated h, hcrashed]

/-- From the moment at which a controller has ended, in the middle of whatever step and with
whatever sessions, alarms and messages, every step does what it asks for by itself and nothing
else, until another controller is attached, which starts afresh.  The open suppressions are those
that the steps have opened and not closed, and a handle that is still held answers that its
controller is detached. -/
theorem silent_of_run (autoDefine : Bool) (steps later : List Step) {last : Workbench}
    (hbench : Leads Move.IsInner ((new autoDefine).run steps).2 bench)
    (hseat : bench.seat = .running controller) (hends : Unseated (bench.move .handle))
    (hlast : Leads Move.IsInner (bench.move .handle) last) (hlater : last.Unattached later) :
    let after := (last.run later).2
    Leaves bench controller (bench.move .handle) ∧
      (∃ clock seat, last = { bench.move .handle with clock := clock, seat := seat }) ∧
      Unseated after ∧ after = later.foldl alone last ∧
      (∀ step, step.move? = none →
        (after.stepReport step).1.rows = [] ∧ (after.stepReport step).1.commands = []) ∧
      after.host.editor.suppression = (steps ++ later).foldl Step.resuppress 0 ∧
      (after.seat ≠ .vacant →
        (after.step .status).1 = .failed .detached ∧
          (after.step .detach).1 = .failed .detached) ∧
      (after.seat = .vacant → ∀ cleanup settings,
        (after.step (.attach cleanup settings)).2 =
          { after with seat := .running (.new settings cleanup) }) := by
  intro after
  have hrun : Ordered ((new autoDefine).run steps).2 := (ordered_new autoDefine).run steps
  have houtbox := (hrun.leads hbench).outbox
  have hhandled : Leads Move.IsInner ((new autoDefine).run steps).2 (bench.move .handle) :=
    hbench.move trivial
  have hended := hhandled.trans hlast
  obtain ⟨hunseated, hsame⟩ := inner_of_unseated hends hlast
  obtain ⟨hafter, halone⟩ := run_of_unseated hunseated hlater
  have hsuppression : after.host.editor.suppression = (steps ++ later).foldl Step.resuppress 0 := by
    rw [suppression_run (hrun.leads hended), suppression_of_inner hrun hended,
      suppression_run (ordered_new autoDefine), List.foldl_append]
    rfl
  exact ⟨leaves_handle houtbox hseat hends, hsame, hafter, halone,
    fun _ hnone => stepReport_of_unseated hafter hnone, hsuppression, answer_of_unseated hafter,
    step_attach_of_vacant⟩

/-- A controller fails 300 ms after the last change, and the request to stop that it has not handled
by then is lost with it.  The steps after that have the effects that they have by themselves. -/
theorem silent_of_run_failed :
    let steps : List Step := [.attach .panic .default, .host .suppress, .host .resume,
      .user .createOther]
    let bench := ((((new false).run steps).2.move .handle).move (.wake 300)).move .dismiss
    let later : List Step := [.user (.call "f"), .host .suppress, .attach .sweep .default,
      .advance 5000]
    bench.waiting = 2 ∧
      ((bench.move .handle).run later).2 = later.foldl alone (bench.move .handle) ∧
      ((bench.move .handle).run later).2.host.editor.suppression = 1 ∧
      (((bench.move .handle).run later).2.step .status).1 = .failed .detached := by
  intro steps bench later
  let failing : Controller :=
    { Controller.new .default .panic with
      debounce := ⟨1, true⟩
      mailbox := [.due (.debounce 1), .detach] }
  have hbench : Leads Move.IsInner ((new false).run steps).2 bench :=
    ((Leads.refl.move trivial).move trivial).move trivial
  have hseat : bench.seat = .running failing := by decide +kernel
  have hcrashed : (bench.move .handle).seat = .crashed := by decide +kernel
  have hends : Unseated (bench.move .handle) := fun _ hrunning => by
    cases hcrashed.symm.trans hrunning
  have hlater : (bench.move .handle).Unattached later := by decide +kernel
  obtain ⟨-, -, -, halone, -, hsuppression, hheld, -⟩ :=
    silent_of_run false steps later hbench hseat hends .refl hlater
  have hdepth : (steps ++ later).foldl Step.resuppress 0 = 1 := by decide
  have hkept : ((bench.move .handle).run later).2.seat ≠ .vacant := by decide +kernel
  have hwaiting : bench.waiting = 2 := by decide +kernel
  exact ⟨hwaiting, halone, hsuppression.trans hdepth, (hheld hkept).1⟩

end Workbench
end CallBinding
