import CallBinding.Proofs.Workbench.Regular

/-!
# Timers

Between two moves no timer is lost, and none is left over.  When its mailbox is
empty, the armed alarms of a controller are those that its open sessions and
its wait for a quiet graph ask for, each of them once, and their number is the
one in its status.  An alarm whose session has been closed meanwhile, or whose
wait has been given up, is taken out of the mailbox and changes nothing.
-/

namespace CallBinding

/-- Every open session waits for its end, so a controller that waits for nothing has none. -/
theorem Controller.isQuiescent_status_iff (controller : Controller) :
    controller.status.isQuiescent = true ↔ controller.status.pendingAlarms = 0 := by
  simp only [Status.isQuiescent, Bool.and_eq_true, decide_eq_true_eq]
  refine and_iff_right_of_imp fun hnone => ?_
  cases hsessions : controller.sessions with
  | nil => simp [status, hsessions]
  | cons session rest =>
      simp only [status, hsessions, Session.pendingAlarmsOf, Session.pendingAlarms] at hnone
      omega

/-- To tell no one of anything changes nothing. -/
theorem Workbench.deliver_nil (bench : Workbench) : bench.deliver [] = bench := by
  have htaps : bench.taps.map (Tap.hear []) = bench.taps := by
    refine List.map_id'' (fun tap => ?_) bench.taps
    unfold Tap.hear
    split <;> simp
  have hseat : Seat.post [] bench.seat = bench.seat := by
    cases bench.seat <;> simp [Seat.post]
  simp [deliver, htaps, hseat]

namespace Workbench

variable {allowed : Move → Prop} {bench : Workbench} {controller : Controller} {alarm : Alarm}
variable {rest : List Message}

/-- The host may be taken over that is there already. -/
theorem adopt_host (h : bench.host.editor.outbox = []) : bench.adopt bench.host = bench := by
  have hhost : bench.host.withEditor bench.host.editor.delivered = bench.host := by
    rw [Editor.delivered, ← h]
    rfl
  rw [adopt, hhost, h]
  exact deliver_nil bench

/-- An alarm that the controller does not heed is taken out of the mailbox, and that is all. -/
theorem handle_of_not_heeds (h : Ordered bench) (hseat : bench.seat = .running controller)
    (hmailbox : controller.mailbox = .due alarm :: rest) (hstale : controller.heeds alarm = false) :
    bench.move .handle = { bench with seat := .running { controller with mailbox := rest } } := by
  have hpopped : Controller.heeds { controller with mailbox := rest } alarm = false := hstale
  have hturn := Controller.handle_of_not_heeds hpopped bench.clock bench.host
  have hhost : bench.host.withEditor bench.host.editor.delivered = bench.host := by
    rw [Editor.delivered, ← h.outbox]
    rfl
  have hnext : bench.move .handle =
      bench.takeTurn (.proceed { controller with mailbox := rest } bench.host) := by
    rw [← hturn]
    exact handleNext_eq hseat hmailbox
  rw [hnext]
  simp only [takeTurn, Turn.proceed, seatFate, adopt, h.outbox, hhost, deliver_nil]
  rfl

/-- In every reachable state, whatever the faults and the settings, the alarms of the controller are
the ones that it waits for, and an alarm that is over does nothing when it goes off. -/
theorem timers_of_reachable (h : Reachable allowed bench)
    (hseat : bench.seat = .running controller) :
    (controller.mailbox = [] →
      (controller.agenda.map (·.alarm)).Perm controller.awaited ∧
      controller.status.pendingAlarms = controller.agenda.length) ∧
    controller.awaited.Nodup ∧
    (controller.sessions.flatMap (·.spawnChecks)).Nodup ∧
    (∀ session ∈ controller.sessions,
      session.phase = .delayedRecheck ∨ session.phase = .settling) ∧
    (controller.status.isQuiescent = true ↔ controller.status.pendingAlarms = 0) ∧
    ∀ alarm rest, controller.mailbox = .due alarm :: rest →
      (controller.IsOver alarm ↔ controller.heeds alarm = false) ∧
      (controller.IsOver alarm →
        bench.move .handle =
          { bench with seat := .running { controller with mailbox := rest } }) := by
  have hregular := h.regular
  have horderly := hregular.ordered.orderly controller hseat
  have haccounted := hregular.accounted controller hseat
  refine ⟨fun hempty => ?_, haccounted.nodup_awaited horderly,
    haccounted.nodup_flatMap_spawnChecks horderly, haccounted.phases,
    controller.isQuiescent_status_iff, fun alarm rest hmailbox => ⟨?_, fun hover => ?_⟩⟩
  · have hperm := haccounted.perm_awaited horderly hempty
    refine ⟨hperm, ?_⟩
    rw [← controller.length_awaited, ← hperm.length_eq, List.length_map]
  · refine horderly.isOver_iff (Controller.mem_alarms.mpr (Or.inr ?_))
    rw [hmailbox]
    exact List.mem_cons_self
  · exact handle_of_not_heeds hregular.ordered hseat hmailbox
      (Controller.not_heeds_of_isOver hover)

/-- A definition is due for its check when the session ends in which it was created.  Both alarms
are armed until then, and once the session has been closed the check is over. -/
theorem timers_of_reachable_late_check :
    let settings := { Settings.default with spawnCheckDelay := 3000 }
    let waiting := ((new false).run [.attach .count settings, .user (.call "f"), .advance 500,
      .user (.define "f" ["x"]), .advance 0]).2
    let closed := (((waiting.run [.advance 2999]).2.move (.wake 3500)).move .handle)
    (∃ controller, waiting.seat = .running controller ∧ controller.mailbox = [] ∧
      (controller.agenda.map (·.alarm)).Perm [.window ⟨0⟩, .spawnCheck ⟨0⟩ ⟨1⟩] ∧
      controller.status.pendingAlarms = 2) ∧
    ∃ controller, closed.seat = .running controller ∧
      controller.mailbox = [.due (.spawnCheck ⟨0⟩ ⟨1⟩)] ∧
      closed.move .handle = { closed with seat := .running { controller with mailbox := [] } } := by
  intro settings waiting closed
  let waiter : Controller :=
    { Controller.new settings .count with
      sessions := [⟨⟨0⟩, ⟨0⟩, [], .settling, [⟨1⟩], []⟩]
      nextSession := 1
      lastGoodName := some "f"
      agenda := [⟨3500, .window ⟨0⟩⟩, ⟨3500, .spawnCheck ⟨0⟩ ⟨1⟩⟩] }
  let closer : Controller :=
    { Controller.new settings .count with
      nextSession := 1
      lastGoodName := some "f"
      debounce := ⟨1, true⟩
      agenda := [⟨3800, .debounce 1⟩]
      mailbox := [.due (.spawnCheck ⟨0⟩ ⟨1⟩)] }
  have hwaiting : Leads (fun _ => True) (new false) waiting :=
    leads_run (fun _ _ => trivial) _ _ fun _ _ _ _ => trivial
  have hclosed : Leads (fun _ => True) (new false) closed := by
    have hadvanced := hwaiting.trans
      (leads_run (fun _ _ => trivial) waiting [.advance 2999] fun _ _ _ _ => trivial)
    exact (hadvanced.move trivial).move trivial
  have hwaiter : waiting.seat = .running waiter := by decide +kernel
  have hcloser : closed.seat = .running closer := by decide +kernel
  obtain ⟨harmed, hpending⟩ := (timers_of_reachable ⟨false, hwaiting⟩ hwaiter).1 rfl
  have hover : closer.IsOver (.spawnCheck ⟨0⟩ ⟨1⟩) := ⟨by decide, by decide⟩
  exact ⟨⟨waiter, hwaiter, rfl, harmed, hpending⟩, closer, hcloser, rfl,
    ((timers_of_reachable ⟨false, hclosed⟩ hcloser).2.2.2.2.2 _ _ rfl).2 hover⟩

end Workbench
end CallBinding
