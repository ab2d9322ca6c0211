import CallBinding.Proofs.Workbench.Convergence

/-!
# Listeners

A controller listens to its host from the time it is attached, and takes its
listener back when it is asked to stop.  A controller whose cleanup has failed
answers to nothing any more, so its listener stays, whichever way its handle is
given up.
-/

namespace CallBinding

/-- A row about a cleanup that has failed. -/
def TraceRow.isFailure : TraceRow → Bool
  | cleanup _ .panic => true
  | _ => false

def Step.isAttach : Step → Bool
  | attach _ _ => true
  | _ => false

/-- What a move does to the added listeners, of which it is listed which are subscribed. -/
def Move.resubscribe (subscriptions : List Bool) : Move → List Bool
  | request .subscribe => subscriptions ++ [true]
  | request (.unsubscribe tap) => subscriptions.modify tap fun _ => false
  | _ => subscriptions

def Step.resubscribe (subscriptions : List Bool) (step : Step) : List Bool :=
  match step.move? with
  | some move => move.resubscribe subscriptions
  | none => subscriptions

theorem Step.move?_ne_attach {step : Step} (h : step.isAttach = false) {move : Move}
    (hmove : step.move? = some move) (cleanup : Cleanup) (settings : Settings) :
    move ≠ .attach cleanup settings := by
  rintro rfl
  cases step <;> cases hmove
  cases h

/-- A controller crashes when its cleanup fails, and only then. -/
theorem Controller.crashed_iff {controller : Controller} {now : Nat} {host : Host}
    {message : Message} :
    (controller.handle now host message).fate = .crashed ↔
      (controller.handle now host message).cleanup = some .panic := by
  cases message with
  | event _ | callSiteCreated _ _ | detach => exact ⟨fun h => (by cases h), fun h => (by cases h)⟩
  | due alarm =>
      cases alarm with
      | spawnCheck _ _ | recheck _ | window _ =>
          exact ⟨fun h => (by cases h), fun h => (by cases h)⟩
      | debounce generation =>
          have hends := controller.endsWait_onDebounce host generation
          have hhandle : controller.handle now host (.due (.debounce generation)) =
            controller.onDebounce host generation := rfl
          rw [hhandle]
          generalize controller.onDebounce host generation = turn at hends
          cases hends <;> simp [Turn.proceed]

/-- The cleanup that a turn starts is the controller's own. -/
theorem Controller.cleanup_of_handle {controller : Controller} {now : Nat} {host : Host}
    {message : Message} {cleanup : Cleanup}
    (h : (controller.handle now host message).cleanup = some cleanup) :
    controller.cleanup = cleanup := by
  cases message with
  | event _ | callSiteCreated _ _ | detach => cases h
  | due alarm =>
      cases alarm with
      | spawnCheck _ _ | recheck _ | window _ => cases h
      | debounce generation =>
          have hends := controller.endsWait_onDebounce host generation
          have hturn : (controller.onDebounce host generation).cleanup = some cleanup := h
          generalize controller.onDebounce host generation = turn at hends hturn
          cases hends with
          | stale _ | deferred _ _ => cases hturn
          | swept _ _ hown | counted _ _ hown | crashed _ _ hown =>
              exact hown.trans (Option.some.inj hturn)

namespace Workbench

/-- The number of cleanups in the trace that have failed. -/
def failures (bench : Workbench) : Nat :=
  bench.trace.countP TraceRow.isFailure

def subscriptions (bench : Workbench) : List Bool :=
  bench.taps.map (·.isSubscribed)

/-- No controller is running. -/
def Unseated (bench : Workbench) : Prop :=
  ∀ controller, bench.seat ≠ .running controller

variable {bench : Workbench}

theorem listeners_of_unseated (h : Unseated bench) :
    bench.listeners = 1 + bench.subscriptions.count true + bench.orphans := by
  have hnone : bench.controller? = none :=
    Option.eq_none_iff_forall_ne_some.mpr fun controller hcontroller =>
      h controller (controller?_eq_some_iff.mp hcontroller)
  simp [listeners, hnone, subscriptions, List.count, List.countP_map, Function.comp_def,
    ← List.countP_eq_length_filter]

/-! ## Listeners after a move -/

@[simp] theorem failures_adopt (bench : Workbench) (host : Host) :
    (bench.adopt host).failures = bench.failures := by
  have hheard : (host.editor.outbox.map (TraceRow.heard bench.clock)).reverse.countP
      TraceRow.isFailure = 0 := by
    simp [List.countP_eq_zero, TraceRow.isFailure]
  simp only [failures, adopt, deliver, List.countP_append, hheard, Nat.zero_add]

@[simp] theorem subscriptions_adopt (bench : Workbench) (host : Host) :
    (bench.adopt host).subscriptions = bench.subscriptions := by
  have hhear (tap : Tap) : (tap.hear host.editor.outbox).isSubscribed = tap.isSubscribed := by
    unfold Tap.hear
    split <;> rfl
  simp [subscriptions, adopt, deliver, Function.comp_def, hhear]

/-- Added listeners may be subscribed or not, and there are as many failed controllers as before. -/
structure Resubscribed (subscriptions : List Bool) (bench next : Workbench) : Prop where
  taps : next.subscriptions = subscriptions
  orphans : next.orphans = bench.orphans
  failures : next.failures = bench.failures

theorem Resubscribed.refl (bench : Workbench) : Resubscribed bench.subscriptions bench bench :=
  ⟨rfl, rfl, rfl⟩

theorem Resubscribed.adopt (bench : Workbench) (host : Host) :
    Resubscribed bench.subscriptions bench (bench.adopt host) :=
  ⟨subscriptions_adopt bench host, rfl, failures_adopt bench host⟩

theorem Resubscribed.plan (bench : Workbench) (plan : List Resolution) :
    Resubscribed bench.subscriptions bench { bench with plan := plan } :=
  ⟨rfl, rfl, rfl⟩

theorem resubscribed_request (bench : Workbench) (request : HostRequest) :
    Resubscribed (Move.resubscribe bench.subscriptions (.request request)) bench
      (bench.request request).2 := by
  cases request with
  | command command =>
      simp only [Workbench.request]
      cases bench.host.perform command with
      | ok host => exact .adopt bench host
      | error _ => exact .refl bench
  | field id key =>
      simp only [Workbench.request]
      split <;> exact .refl bench
  | parameters id =>
      simp only [Workbench.request]
      split <;> exact .refl bench
  | suppress => exact .adopt bench _
  | resume => exact .adopt bench _
  | subscribe => exact ⟨by simp [subscriptions, Workbench.request, Move.resubscribe], rfl, rfl⟩
  | unsubscribe tap =>
      refine ⟨?_, rfl, rfl⟩
      refine List.ext_getElem? fun n => ?_
      simp only [subscriptions, Workbench.request, modifyTap, Move.resubscribe, List.getElem?_map,
        List.getElem?_modify]
      cases bench.taps[n]? with
      | none => rfl
      | some former => split <;> rfl
  | block _ | blocksOfRole _ | declared _ | heard _ => exact .refl bench

theorem resubscribed_reconcile (bench : Workbench) (reconciliation : Reconciliation) :
    Resubscribed bench.subscriptions bench (bench.reconcile reconciliation).2 := by
  cases reconciliation with
  | sync call definition =>
      simp only [reconcile]
      exact .adopt bench _
  | syncCallers definition =>
      simp only [reconcile]
      split
      · exact .refl bench
      · exact .adopt bench _
  | apply plan =>
      simp only [reconcile, carryOut]
      have hadopted := Resubscribed.adopt { bench with plan := plan.getD bench.plan }
        (bench.host.apply (plan.getD bench.plan)).2
      exact ⟨hadopted.taps, rfl, hadopted.failures⟩
  | sweep =>
      simp only [reconcile]
      exact .adopt bench _
  | plan | planFamily _ | planSpawned _ _ =>
      simp only [reconcile, keepPlan]
      exact .plan bench _
  | identitiesOf _ | members => exact .refl bench

/-- Only a turn makes a controller fail. -/
theorem resubscribed_move {move : Move} (hmove : move ≠ .handle) :
    Resubscribed (move.resubscribe bench.subscriptions) bench (bench.move move) := by
  cases move with
  | act action =>
      simp only [Workbench.move, act]
      split
      · exact .adopt bench _
      · exact .refl bench
  | inspect inspection =>
      cases inspection with
      | clearCommands => exact .adopt bench _
      | _ => exact .refl bench
  | request request => exact resubscribed_request bench request
  | reconcile reconciliation => exact resubscribed_reconcile bench reconciliation
  | attach cleanup settings =>
      simp only [Workbench.move, install]
      split <;> exact ⟨rfl, rfl, rfl⟩
  | handle => exact absurd rfl hmove
  | wake time =>
      simp only [Workbench.move, wake]
      split <;> exact ⟨rfl, rfl, rfl⟩
  | setFaults _ _ | setLeaky _ | tick _ | dismiss | vacate => exact ⟨rfl, rfl, rfl⟩

theorem subscriptions_takeTurn (bench : Workbench) (turn : Turn) :
    (bench.takeTurn turn).subscriptions = bench.subscriptions := by
  rw [takeTurn, subscriptions_adopt]
  cases turn.fate <;> rfl

theorem subscriptions_move (bench : Workbench) (move : Move) :
    (bench.move move).subscriptions = move.resubscribe bench.subscriptions := by
  by_cases hmove : move = .handle
  · subst hmove
    rcases bench.handleNext_cases with hsame | ⟨_, _, _, _, _, hturn⟩
    · exact congrArg subscriptions hsame
    · exact (congrArg subscriptions hturn).trans (bench.subscriptions_takeTurn _)
  · exact (resubscribed_move hmove).taps

theorem failures_takeTurn (bench : Workbench) (turn : Turn) :
    (bench.takeTurn turn).failures =
      bench.failures + if turn.cleanup = some .panic then 1 else 0 := by
  have hfate (bench : Workbench) (fate : Fate) :
      (bench.seatFate fate).failures = bench.failures := by
    cases fate <;> rfl
  rw [takeTurn, failures_adopt, hfate]
  rcases turn.cleanup with _ | _ | _ | _ <;>
    simp [failures, List.countP_cons, TraceRow.isFailure]

theorem orphans_takeTurn (bench : Workbench) (turn : Turn) :
    (bench.takeTurn turn).orphans = bench.orphans + if turn.fate = .crashed then 1 else 0 := by
  rw [takeTurn]
  cases turn.fate <;> rfl

/-- Every failed controller has left a row about its cleanup. -/
theorem orphans_move (h : bench.orphans = bench.failures) (move : Move) :
    (bench.move move).orphans = (bench.move move).failures := by
  by_cases hmove : move = .handle
  · subst hmove
    rcases bench.handleNext_cases with hsame | ⟨_, _, _, _, _, hturn⟩
    · rw [Workbench.move, hsame]
      exact h
    · rw [Workbench.move, hturn, orphans_takeTurn, failures_takeTurn, h]
      simp only [Controller.crashed_iff]
  · have hkept : Resubscribed _ bench (bench.move move) := resubscribed_move hmove
    rw [hkept.orphans, hkept.failures, h]

/-! ## Runs -/

theorem Unseated.move {move : Move} (h : Unseated bench)
    (hmove : ∀ cleanup settings, move ≠ .attach cleanup settings) : Unseated (bench.move move) := by
  intro later hlater
  rcases (seats_move hlater).attached_or_keeps with
    ⟨cleanup, settings, _, hattach, _⟩ | ⟨former, hformer, _⟩
  · exact hmove cleanup settings hattach
  · exact h former hformer

/-- Without a controller no controller fails. -/
theorem Unseated.orphans_move {move : Move} (h : Unseated bench) :
    (bench.move move).orphans = bench.orphans := by
  by_cases hmove : move = .handle
  · subst hmove
    rcases bench.handleNext_cases with hsame | ⟨controller, _, _, hseat, _, _⟩
    · exact congrArg orphans hsame
    · exact absurd hseat (h controller)
  · exact (resubscribed_move hmove).orphans

/-- While no controller is attached, none is running, and none fails. -/
theorem Unseated.run (h : Unseated bench) {steps : List Step}
    (hsteps : ∀ step ∈ steps, step.isAttach = false) :
    Unseated (bench.run steps).2 ∧ (bench.run steps).2.orphans = bench.orphans := by
  have hleads : Leads (fun move => ∀ cleanup settings, move ≠ .attach cleanup settings) bench
      (bench.run steps).2 := by
    refine leads_run (fun move hinner cleanup settings hmove => ?_) bench steps
      fun step hstep move hmove => Step.move?_ne_attach (hsteps step hstep) hmove
    subst hmove
    cases hinner
  refine hleads.preserves (fun last => Unseated last ∧ last.orphans = bench.orphans) ?_ ⟨h, rfl⟩
  exact fun last move hlast hmove => ⟨hlast.1.move hmove, hlast.1.orphans_move.trans hlast.2⟩

/-- What inner moves leave alone changes with a step as with the move that the step asks for. -/
theorem measure_step {α : Type} {change : α → Move → α} (measure : Workbench → α)
    (invariant : Workbench → Prop)
    (hkeeps : ∀ bench move, invariant bench → invariant (bench.move move))
    (hmove : ∀ bench move, invariant bench →
      measure (bench.move move) = change (measure bench) move)
    (hinner : ∀ value move, move.IsInner → change value move = value)
    (h : invariant bench) (step : Step) :
    measure (bench.step step).2 = step.move?.elim (measure bench) (change (measure bench)) := by
  have hkept {last : Workbench} (hcourse : Course (fun _ move => move.IsInner) bench last) :
      invariant last ∧ measure last = measure bench := by
    refine hcourse.preserves (fun last => invariant last ∧ measure last = measure bench) ?_ ⟨h, rfl⟩
    rintro last move ⟨hlast, hsame⟩ hallowed
    refine ⟨hkeeps last move hlast, ?_⟩
    rw [hmove last move hlast, hsame]
    exact hinner _ move hallowed
  cases step with
  | user action => exact hmove bench (.act action) h
  | inspect inspection => exact hmove bench (.inspect inspection) h
  | host request => exact hmove bench (.request request) h
  | reconcile reconciliation => exact hmove bench (.reconcile reconciliation) h
  | setFaults id faults => exact hmove bench (.setFaults id faults) h
  | setLeaky leaky => exact hmove bench (.setLeaky leaky) h
  | attach cleanup settings =>
      obtain ⟨hsettled, hsame⟩ := hkept (course_advanceTo (le_refl bench.clock))
      have hattached := hmove bench.settle (.attach cleanup settings) hsettled
      rw [← attach_eq_move] at hattached
      exact hattached.trans (congrArg (change · (.attach cleanup settings)) hsame)
  | query _ | advance _ | status | detach | drop => exact (hkept (course_step_of_none rfl)).2

theorem subscriptions_step (bench : Workbench) (step : Step) :
    (bench.step step).2.subscriptions = step.resubscribe bench.subscriptions := by
  have hinner (subscriptions : List Bool) (move : Move) (h : move.IsInner) :
      move.resubscribe subscriptions = subscriptions := by
    cases move <;> first | rfl | cases h
  rw [measure_step subscriptions (fun _ => True) (fun _ _ _ => trivial)
    (fun bench move _ => bench.subscriptions_move move) hinner trivial step, Step.resubscribe]
  cases step.move? <;> rfl

/-- The controllers leave the added listeners alone. -/
theorem subscriptions_run_filter {plain : Workbench}
    (h : bench.subscriptions = plain.subscriptions) (steps : List Step) :
    (bench.run steps).2.subscriptions =
      (plain.run (steps.filter fun step => !step.isAttach)).2.subscriptions := by
  induction steps generalizing bench plain with
  | nil => exact h
  | cons step rest ih =>
      have hstep : (bench.step step).2.subscriptions = step.resubscribe plain.subscriptions :=
        (bench.subscriptions_step step).trans (congrArg (Step.resubscribe · step) h)
      cases hattach : step.isAttach with
      | false =>
          rw [List.filter_cons_of_pos (by simp [hattach])]
          exact ih (hstep.trans (plain.subscriptions_step step).symm)
      | true =>
          rw [List.filter_cons_of_neg (by simp [hattach])]
          refine ih (hstep.trans ?_)
          cases step <;> first | rfl | cases hattach

theorem run_append (bench : Workbench) (steps more : List Step) :
    (bench.run (steps ++ more)).2 = ((bench.run steps).2.run more).2 := by
  induction steps generalizing bench with
  | nil => rfl
  | cons step rest ih => exact ih _

/-- No controller is running whose cleanup fails, and none has failed. -/
structure Unfailing (bench : Workbench) : Prop where
  cleanup : ∀ controller, bench.seat = .running controller → controller.cleanup ≠ .panic
  failures : bench.failures = 0

theorem Unfailing.move {move : Move} (h : Unfailing bench)
    (hmove : ∀ settings, move ≠ .attach .panic settings) : Unfailing (bench.move move) := by
  refine ⟨fun later hlater => ?cleanup, ?failures⟩
  case cleanup =>
    rcases (seats_move hlater).attached_or_keeps with
      ⟨cleanup, settings, _, hattach, rfl⟩ | ⟨former, hformer, hcleanup, _⟩
    · rintro rfl
      exact hmove settings hattach
    · rw [hcleanup]
      exact h.cleanup former hformer
  case failures =>
    by_cases hhandle : move = .handle
    · subst hhandle
      rcases bench.handleNext_cases with hsame | ⟨controller, message, rest, hseat, _, hturn⟩
      · exact (congrArg Workbench.failures hsame).trans h.failures
      · rw [Workbench.move, hturn, failures_takeTurn, h.failures, if_neg]
        intro hpanic
        have hcleanup := Controller.cleanup_of_handle hpanic
        exact h.cleanup controller hseat hcleanup
    · exact (resubscribed_move hhandle).failures.trans h.failures

theorem failures_run_eq_zero (autoDefine : Bool) {steps : List Step}
    (h : ∀ settings, .attach .panic settings ∉ steps) :
    ((new autoDefine).run steps).2.failures = 0 := by
  have hleads : Leads (fun move => ∀ settings, move ≠ .attach .panic settings) (new autoDefine)
      ((new autoDefine).run steps).2 := by
    refine leads_run (fun move hinner settings hmove => ?_) _ steps
      fun step hstep move hmove settings hattach => ?_
    · subst hmove
      cases hinner
    · subst hattach
      cases step <;> cases hmove
      exact h settings hstep
  have hstart : Unfailing (new autoDefine) := ⟨fun _ hseat => (by cases hseat), rfl⟩
  exact (hleads.preserves Unfailing (fun _ _ hbench hmove => hbench.move hmove) hstart).failures

/-! ## Every way out -/

/-- Once the handle of a controller has been given up, there are as many listeners as the same steps
would have led to without any controller, and one more for every cleanup that has failed. -/
theorem listeners_of_run (autoDefine : Bool) (steps after : List Step) {exit : Step}
    (hexit : exit = .detach ∨ exit = .drop) (hafter : ∀ step ∈ after, step.isAttach = false) :
    let all := steps ++ exit :: after
    let left := ((new autoDefine).run all).2
    let unattended := ((new autoDefine).run (all.filter fun step => !step.isAttach)).2
    left.listeners = unattended.listeners + left.failures ∧
      ((∀ settings, .attach .panic settings ∉ steps) → left.failures = 0) := by
  intro all left unattended
  constructor
  · have hgiven : Unseated (((new autoDefine).run steps).2.step exit).2 := by
      intro controller hseat
      rcases hexit with rfl | rfl
      · cases (seat_detach _).symm.trans hseat
      · cases (seat_drop _).symm.trans hseat
    have hleft : Unseated left := by
      have hrun : left = ((((new autoDefine).run steps).2.step exit).2.run after).2 :=
        run_append (new autoDefine) steps (exit :: after)
      rw [hrun]
      exact (hgiven.run hafter).1
    have horphans : left.orphans = left.failures :=
      (leads_run (fun _ _ => trivial) (new autoDefine) all fun _ _ _ _ => trivial).preserves
        (fun bench => bench.orphans = bench.failures)
        (fun _ move hbench _ => orphans_move hbench move) rfl
    have hnew : Unseated (new autoDefine) := fun _ hseat => by cases hseat
    have hplain : ∀ step ∈ all.filter fun step => !step.isAttach, step.isAttach = false :=
      fun step hstep => by simpa using (List.mem_filter.mp hstep).2
    obtain ⟨hunattended, hnone⟩ : Unseated unattended ∧ unattended.orphans = 0 := hnew.run hplain
    have hsubscriptions : left.subscriptions = unattended.subscriptions :=
      subscriptions_run_filter rfl all
    rw [listeners_of_unseated hleft, listeners_of_unseated hunattended, hsubscriptions, horphans,
      hnone, Nat.add_zero]
  · intro hsteps
    refine failures_run_eq_zero autoDefine fun settings hmem => ?_
    rcases List.mem_append.mp hmem with hmem | hmem
    · exact hsteps settings hmem
    · rcases List.mem_cons.mp hmem with rfl | hmem
      · rcases hexit with hexit | hexit <;> cases hexit
      · cases hafter _ hmem

/-- A controller fails after 300 ms, and its handle is given up after that: its listener stays. -/
theorem listeners_of_run_failed :
    let steps := [.attach .panic .default, .user .createOther, .advance 300]
    let after := [.host .subscribe]
    let left := ((new false).run (steps ++ .drop :: after)).2
    left.failures = 1 ∧
      left.listeners =
        ((new false).run [.user .createOther, .advance 300, .drop, .host .subscribe]).2.listeners +
          1 := by
  intro steps after left
  have hfailures : left.failures = 1 := by decide +kernel
  have hlisteners := (listeners_of_run false steps after (Or.inr rfl) (by decide)).1
  rw [hfailures] at hlisteners
  exact ⟨hfailures, hlisteners⟩

/-- A controller that has failed is detached, and there is a listener left over. -/
theorem exists_listener_of_detached :
    ((new false).run [.attach .panic .default, .user .createOther, .advance 300,
        .detach]).2.seat = .vacant ∧
      ((new false).run [.attach .panic .default, .user .createOther, .advance 300,
        .detach]).2.listeners = 2 ∧
      ((new false).run [.user .createOther, .advance 300, .detach]).2.listeners = 1 := by
  decide +kernel

end Workbench
end CallBinding
