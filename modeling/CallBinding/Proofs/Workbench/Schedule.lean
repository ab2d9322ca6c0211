import CallBinding.Proofs.Workbench.Ordered

/-!
# Schedules

A workbench lets its controller handle all messages before it moves the clock,
and it moves the clock from one alarm to the next.  This rests on `drain`: two
rounds empty the mailbox, because what the controller hears of its own commands
makes it issue no others.  `Scheduled` says it of single moves, and every run
is a course of scheduled moves.
-/

namespace CallBinding

/-- A message that tells of an event, and of no new block. -/
def Message.IsEcho : Message → Prop
  | event change => change.kind ≠ .create
  | _ => False

namespace Workbench

/-- The controller has no message to handle. -/
def IsDrained (bench : Workbench) : Prop :=
  ∀ controller, bench.seat = .running controller → controller.mailbox = []

theorem isDrained_iff {bench : Workbench} : bench.IsDrained ↔ bench.waiting = 0 := by
  unfold IsDrained waiting controller?
  cases bench.seat <;> simp

instance (bench : Workbench) : Decidable bench.IsDrained :=
  decidable_of_iff _ isDrained_iff.symm

/-- The controller has no message to handle, and none of its alarms is due. -/
def IsSettled (bench : Workbench) : Prop :=
  bench.IsDrained ∧ ∀ deadline, bench.nextDeadline? = some deadline → bench.clock < deadline

instance (bench : Workbench) : Decidable bench.IsSettled :=
  inferInstanceAs (Decidable (_ ∧ ∀ deadline ∈ bench.nextDeadline?, bench.clock < deadline))

/-- The clock moves only when the mailbox is empty: to the time of the next alarms, or to a time
at which none goes off. -/
def Scheduled (bench : Workbench) : Move → Prop
  | .wake time => bench.IsDrained ∧ bench.nextDeadline? = some time
  | .tick time => bench.IsDrained ∧ bench.clock ≤ time ∧
      ∀ deadline, bench.nextDeadline? = some deadline → time < deadline
  | _ => True

instance (bench : Workbench) : (move : Move) → Decidable (Scheduled bench move)
  | .wake _ => inferInstanceAs (Decidable (_ ∧ _))
  | .tick time =>
      inferInstanceAs (Decidable (_ ∧ _ ∧ ∀ deadline ∈ bench.nextDeadline?, time < deadline))
  | .act _ | .inspect _ | .request _ | .reconcile _ | .setFaults _ _ | .setLeaky _ | .attach _ _
  | .handle | .dismiss | .vacate => inferInstanceAs (Decidable True)

variable {bench : Workbench} {controller later : Controller} {message : Message}
variable {rest : List Message}

/-! ## Emptying the mailbox -/

/-- A turn leaves echoes at most, and the turn on an echo leaves none. -/
theorem Ordered.mailbox_handleNext (h : Ordered bench) (hseat : bench.seat = .running controller)
    (hmailbox : controller.mailbox = message :: rest)
    (hlater : bench.handleNext.seat = .running later) :
    ∃ echoes, later.mailbox = rest ++ echoes ∧ (∀ echo ∈ echoes, echo.IsEcho) ∧
      (message.IsEcho → echoes = []) := by
  rw [handleNext_eq hseat hmailbox] at hlater
  obtain ⟨next, hfate, rfl⟩ := seat_takeTurn_eq_running hlater
  refine ⟨_, congrArg (· ++ _) (Controller.becomes_of_handle hfate).keeps.1, ?_, ?_⟩
  · intro echo hecho
    obtain ⟨event, hevent, rfl⟩ := List.mem_map.mp hecho
    have hkind : event.kind ≠ .create := h.kind_of_mem_turn hseat hmailbox hevent
    simp [Message.ofEvent, hkind, Message.IsEcho]
  · intro hecho
    cases message with
    | event event =>
        have hhost : ({ controller with mailbox := rest }.handle bench.clock bench.host
            (.event event)).host = bench.host := rfl
        rw [hhost, h.outbox]
        rfl
    | callSiteCreated _ _ | due _ | detach => cases hecho

/-- Once the messages are handled that were there, only echoes are left. -/
theorem Ordered.mailbox_handleMany (h : Ordered bench) (n : Nat)
    (hechoes : ∀ controller, bench.seat = .running controller →
      ∀ message ∈ controller.mailbox.drop n, message.IsEcho)
    (hlater : (handleMany n bench).seat = .running later) :
    ∀ message ∈ later.mailbox, message.IsEcho := by
  induction n generalizing bench with
  | zero => simpa using hechoes later hlater
  | succ n ih =>
      refine ih (h.move .handle) ?_ hlater
      intro next hnext
      cases seats_handle hnext with
      | told _ _ hinner _ => exact absurd trivial hinner
      | idled _ hnil => simp [hnil]
      | @turned controller _ _ _ hseat hmailbox _ =>
          obtain ⟨echoes, hnextMailbox, hnew, -⟩ := h.mailbox_handleNext hseat hmailbox hnext
          have hold := hechoes controller hseat
          rw [hmailbox, List.drop_succ_cons] at hold
          intro other hother
          rw [hnextMailbox, List.drop_append] at hother
          rcases List.mem_append.mp hother with hrest | hecho
          · exact hold other hrest
          · exact hnew other (List.mem_of_mem_drop hecho)

/-- Echoes are handled without any more of them. -/
theorem Ordered.mailbox_handleMany_of_echoes (h : Ordered bench) (n : Nat)
    (hechoes : ∀ controller, bench.seat = .running controller →
      (∀ message ∈ controller.mailbox, message.IsEcho) ∧ controller.mailbox.length ≤ n)
    (hlater : (handleMany n bench).seat = .running later) : later.mailbox = [] := by
  induction n generalizing bench with
  | zero => exact List.length_eq_zero_iff.mp (Nat.le_zero.mp (hechoes later hlater).2)
  | succ n ih =>
      refine ih (h.move .handle) ?_ hlater
      intro next hnext
      cases seats_handle hnext with
      | told _ _ hinner _ => exact absurd trivial hinner
      | idled _ hnil => simp [hnil]
      | @turned controller _ message _ hseat hmailbox _ =>
          obtain ⟨hall, hlength⟩ := hechoes controller hseat
          obtain ⟨echoes, hnextMailbox, -, hnone⟩ := h.mailbox_handleNext hseat hmailbox hnext
          rw [hmailbox] at hall hlength
          rw [hnone (hall message List.mem_cons_self), List.append_nil] at hnextMailbox
          rw [hnextMailbox]
          exact ⟨fun other hother => hall other (List.mem_cons_of_mem message hother),
            Nat.le_of_succ_le_succ hlength⟩

theorem waiting_eq (hseat : bench.seat = .running controller) :
    bench.waiting = controller.mailbox.length := by
  simp [waiting, controller?, hseat]

theorem Ordered.handleMany (h : Ordered bench) (n : Nat) : Ordered (handleMany n bench) := by
  induction n generalizing bench with
  | zero => exact h
  | succ n ih => exact ih (h.move .handle)

/-- Two rounds empty the mailbox. -/
theorem Ordered.isDrained_drain (h : Ordered bench) : bench.drain.IsDrained := by
  intro later hlater
  have hround : Ordered bench.round := h.handleMany bench.waiting
  refine hround.mailbox_handleMany_of_echoes bench.round.waiting ?_ hlater
  intro controller hseat
  refine ⟨?_, (waiting_eq hseat).ge⟩
  refine h.mailbox_handleMany bench.waiting ?_ hseat
  intro former hformer message hmessage
  rw [waiting_eq hformer, List.drop_length] at hmessage
  cases hmessage

theorem round_of_isDrained (h : bench.IsDrained) : bench.round = bench := by
  rw [round, isDrained_iff.mp h]
  rfl

/-- Where nothing is pending, nothing happens as long as the clock stands. -/
theorem settle_of_isSettled (h : bench.IsSettled) : bench.settle = bench := by
  obtain ⟨hdrained, hlater⟩ := h
  have hdrain : bench.drain = bench := by
    rw [drain, round_of_isDrained hdrained, round_of_isDrained hdrained]
  obtain ⟨wakes, hwakes⟩ : ∃ wakes, bench.wakeLimit bench.clock = wakes + 1 :=
    Nat.exists_eq_succ_of_ne_zero (by simp [wakeLimit])
  rw [settle, advanceTo, hwakes, advanceWithin, hdrain]
  cases hnext : bench.nextDeadline? with
  | none => rfl
  | some deadline => exact if_neg (Nat.not_le.mpr (hlater deadline hnext))

/-! ## Runs -/

theorem Scheduled.of_timely {move : Move} (h : Timely Ordered bench move) :
    Scheduled bench move := by
  cases move with
  | wake time =>
      obtain ⟨⟨earlier, hearlier, rfl⟩, hdeadline⟩ := h
      exact ⟨hearlier.isDrained_drain, hdeadline⟩
  | tick time =>
      obtain ⟨⟨earlier, hearlier, rfl⟩, hclock, hdeadlines⟩ := h
      exact ⟨hearlier.isDrained_drain, hclock, hdeadlines⟩
  | _ => trivial

/-- Whatever the steps, their moves are scheduled. -/
theorem course_scheduled_run (h : Ordered bench) (steps : List Step) :
    Course Scheduled bench (bench.run steps).2 := by
  have hkeeps : ∀ bench move, Ordered bench → Ordered (bench.move move) :=
    fun _ move hordered => hordered.move move
  refine course_run hkeeps (fun _ _ _ _ htimely => .of_timely htimely) steps h ?_
  intro step _ bench move hmove
  cases step <;> cases hmove <;> trivial

end Workbench
end CallBinding
