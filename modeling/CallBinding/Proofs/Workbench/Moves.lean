import CallBinding.Workbench.Step

/-!
# Moves

One step of a workbench may handle many messages and let many alarms go off.
Moves are smaller: one of them handles one message, or wakes the controller
once, or is one request from outside.  Every step is a sequence of moves, so
whatever holds between any two moves holds between any two messages, in every
order in which users, programs and the clock may come between them.
-/

namespace CallBinding

/-- A small part of a step. -/
inductive Move where
  | act (action : UserAction)
  | inspect (inspection : Inspection)
  | request (request : HostRequest)
  | reconcile (reconciliation : Reconciliation)
  | setFaults (id : BlockId) (faults : List Fault)
  | setLeaky (leaky : Bool)
  | attach (cleanup : Cleanup) (settings : Settings)
  /-- The controller handles the first message in its mailbox. -/
  | handle
  /-- The clock moves to a time, and the alarms of that time go off. -/
  | wake (time : Nat)
  /-- The clock moves to a time. -/
  | tick (time : Nat)
  /-- The controller is asked to stop. -/
  | dismiss
  | vacate
  deriving DecidableEq, Repr

namespace Move

/-- The moves that a step makes besides what it asks for. -/
def IsInner : Move → Prop
  | handle | wake _ | tick _ | dismiss | vacate => True
  | _ => False

/-- The moves that script no faults. -/
def IsFaultless : Move → Prop
  | setFaults _ faults => faults = []
  | _ => True

instance : DecidablePred IsFaultless := fun move => by
  cases move <;> unfold IsFaultless <;> infer_instance

theorem IsInner.isFaultless {move : Move} (h : move.IsInner) : move.IsFaultless := by
  cases move with
  | setFaults _ _ => cases h
  | _ => trivial

end Move

/-- What a step asks for, as a move. -/
def Step.move? : Step → Option Move
  | .user action => some (.act action)
  | .inspect inspection => some (.inspect inspection)
  | .host request => some (.request request)
  | .reconcile reconciliation => some (.reconcile reconciliation)
  | .setFaults id faults => some (.setFaults id faults)
  | .setLeaky leaky => some (.setLeaky leaky)
  | .attach cleanup settings => some (.attach cleanup settings)
  | .query _ | .advance _ | .status | .detach | .drop => none

/-- A step that scripts no faults. -/
def Step.IsFaultless (step : Step) : Prop :=
  ∀ move ∈ step.move?, move.IsFaultless

instance : DecidablePred Step.IsFaultless := fun step =>
  inferInstanceAs (Decidable (∀ move ∈ step.move?, move.IsFaultless))

namespace Workbench

/-- Gives a vacant seat to a new controller. -/
def install (bench : Workbench) (cleanup : Cleanup) (settings : Settings) : Workbench :=
  match bench.seat with
  | .vacant => { bench with seat := .running (.new settings cleanup) }
  | _ => bench

/-- Makes one move. -/
def move (bench : Workbench) : Move → Workbench
  | .act action => (bench.act action).2
  | .inspect inspection => (bench.inspect inspection).2
  | .request request => (bench.request request).2
  | .reconcile reconciliation => (bench.reconcile reconciliation).2
  | .setFaults id faults => { bench with host := bench.host.setFaults id faults }
  | .setLeaky leaky => { bench with host := { bench.host with leaky := leaky } }
  | .attach cleanup settings => bench.install cleanup settings
  | .handle => bench.handleNext
  | .wake time => bench.wake time
  | .tick time => { bench with clock := time }
  | .dismiss => { bench with seat := Seat.post [.detach] bench.seat }
  | .vacate => bench.vacate

/-- One workbench becomes another by allowed moves. -/
inductive Leads (allowed : Move → Prop) (start : Workbench) : Workbench → Prop
  | refl : Leads allowed start start
  | move {bench : Workbench} {move : Move} :
      Leads allowed start bench → allowed move → Leads allowed start (bench.move move)

/-- A workbench that allowed moves make of a new one. -/
def Reachable (allowed : Move → Prop) (bench : Workbench) : Prop :=
  ∃ autoDefine, Leads allowed (.new autoDefine) bench

namespace Leads

variable {allowed : Move → Prop} {start mid bench : Workbench}

theorem trans (hfirst : Leads allowed start mid) (hsecond : Leads allowed mid bench) :
    Leads allowed start bench := by
  induction hsecond with
  | refl => exact hfirst
  | move _ hmove ih => exact .move ih hmove

theorem single (bench : Workbench) {move : Move} (h : allowed move) :
    Leads allowed bench (bench.move move) :=
  .move .refl h

/-- What every allowed move keeps holds at the end. -/
theorem preserves (h : Leads allowed start bench) (invariant : Workbench → Prop)
    (hstep : ∀ bench move, invariant bench → allowed move → invariant (bench.move move))
    (hstart : invariant start) : invariant bench := by
  induction h with
  | refl => exact hstart
  | move _ hmove ih => exact hstep _ _ ih hmove

end Leads

/-- One workbench becomes another by moves of which each is allowed where it is made. -/
inductive Course (allowed : Workbench → Move → Prop) (start : Workbench) : Workbench → Prop
  | refl : Course allowed start start
  | move {bench : Workbench} {move : Move} :
      Course allowed start bench → allowed bench move → Course allowed start (bench.move move)

namespace Course

variable {allowed other : Workbench → Move → Prop} {start mid bench : Workbench}

theorem trans (hfirst : Course allowed start mid) (hsecond : Course allowed mid bench) :
    Course allowed start bench := by
  induction hsecond with
  | refl => exact hfirst
  | move _ hmove ih => exact .move ih hmove

theorem single (bench : Workbench) {move : Move} (h : allowed bench move) :
    Course allowed bench (bench.move move) :=
  .move .refl h

/-- An invariant of every allowed move may strengthen the condition on the way, and holds at the
end. -/
theorem strengthen (h : Course allowed start bench) (invariant : Workbench → Prop)
    (hstep : ∀ bench move, invariant bench → allowed bench move →
      other bench move ∧ invariant (bench.move move))
    (hstart : invariant start) : Course other start bench ∧ invariant bench := by
  induction h with
  | refl => exact ⟨.refl, hstart⟩
  | move _ hmove ih =>
      obtain ⟨hcourse, hinvariant⟩ := ih
      obtain ⟨hother, hnext⟩ := hstep _ _ hinvariant hmove
      exact ⟨hcourse.move hother, hnext⟩

theorem preserves (h : Course allowed start bench) (invariant : Workbench → Prop)
    (hstep : ∀ bench move, invariant bench → allowed bench move → invariant (bench.move move))
    (hstart : invariant start) : invariant bench := by
  have hend : Course allowed start bench ∧ invariant bench := h.strengthen invariant
    (fun bench move hinvariant hmove => ⟨hmove, hstep bench move hinvariant hmove⟩) hstart
  exact hend.2

theorem mono (h : Course allowed start bench)
    (hsub : ∀ bench move, allowed bench move → other bench move) : Course other start bench := by
  have hend : Course other start bench ∧ True := h.strengthen (fun _ => True)
    (fun bench move _ hmove => ⟨hsub bench move hmove, trivial⟩) trivial
  exact hend.1

theorem leads {allowed : Move → Prop} (h : Course (fun _ => allowed) start bench) :
    Leads allowed start bench := by
  induction h with
  | refl => exact .refl
  | move _ hmove ih => exact ih.move hmove

end Course

/-! ## Steps as moves -/

@[simp] theorem clock_takeTurn (bench : Workbench) (turn : Turn) :
    (bench.takeTurn turn).clock = bench.clock := by
  simp only [takeTurn, adopt, deliver]
  cases turn.fate <;> rfl

@[simp] theorem clock_wake (bench : Workbench) (time : Nat) : (bench.wake time).clock = time := by
  unfold wake
  split <;> rfl

@[simp] theorem clock_handleNext (bench : Workbench) : bench.handleNext.clock = bench.clock := by
  unfold handleNext
  split
  · rfl
  · split
    · rfl
    · exact bench.clock_takeTurn _

@[simp] theorem clock_handleMany (n : Nat) (bench : Workbench) :
    (handleMany n bench).clock = bench.clock := by
  induction n generalizing bench with
  | zero => rfl
  | succ n ih => exact (ih bench.handleNext).trans bench.clock_handleNext

@[simp] theorem clock_drain (bench : Workbench) : bench.drain.clock = bench.clock := by
  simp [drain, round]

/-- When a step moves the clock, the mailbox has just been emptied, and the clock moves to the
next alarm or to a time before it. -/
def Timely (invariant : Workbench → Prop) (bench : Workbench) : Move → Prop
  | .wake time => (∃ earlier, invariant earlier ∧ earlier.drain = bench) ∧
      bench.nextDeadline? = some time
  | .tick time => (∃ earlier, invariant earlier ∧ earlier.drain = bench) ∧ bench.clock ≤ time ∧
      ∀ deadline, bench.nextDeadline? = some deadline → time < deadline
  | _ => True

section

variable {allowed : Workbench → Move → Prop} {invariant : Workbench → Prop}
variable (hkeeps : ∀ bench move, invariant bench → invariant (bench.move move))
variable (hinner : ∀ bench move, invariant bench → Move.IsInner move →
  Timely invariant bench move → allowed bench move)

include hkeeps in
theorem Course.keeps {start bench : Workbench} (h : Course allowed start bench)
    (hstart : invariant start) : invariant bench :=
  h.preserves invariant (fun bench move hinvariant _ => hkeeps bench move hinvariant) hstart

include hkeeps hinner

theorem course_handleMany (n : Nat) {bench : Workbench} (h : invariant bench) :
    Course allowed bench (handleMany n bench) := by
  induction n generalizing bench with
  | zero => exact .refl
  | succ n ih =>
      have hfirst : Course allowed bench (bench.move .handle) :=
        .single bench (hinner bench .handle h trivial trivial)
      exact hfirst.trans (ih (hkeeps bench .handle h))

theorem course_drain {bench : Workbench} (h : invariant bench) :
    Course allowed bench bench.drain := by
  have hround := course_handleMany hkeeps hinner bench.waiting h
  exact hround.trans (course_handleMany hkeeps hinner _ (hround.keeps hkeeps h))

theorem course_advanceWithin (wakes : Nat) {target : Nat} {bench : Workbench} (h : invariant bench)
    (hclock : bench.clock ≤ target) : Course allowed bench (advanceWithin wakes target bench) := by
  induction wakes generalizing bench with
  | zero => exact .refl
  | succ wakes ih =>
      have hdrained := course_drain hkeeps hinner h
      have hinvariant := hdrained.keeps hkeeps h
      have hdrain : ∃ earlier, invariant earlier ∧ earlier.drain = bench.drain := ⟨bench, h, rfl⟩
      unfold advanceWithin
      dsimp only
      split
      next hnone =>
        refine hdrained.move (hinner _ (.tick target) hinvariant trivial ⟨hdrain, ?_, ?_⟩)
        · rwa [clock_drain]
        · simp [hnone]
      next deadline hdeadline =>
        split
        next hle =>
          have hwoken := hdrained.move
            (hinner _ (.wake deadline) hinvariant trivial ⟨hdrain, hdeadline⟩)
          refine hwoken.trans (ih (hkeeps _ (.wake deadline) hinvariant) ?_)
          exact Nat.le_trans (Nat.le_of_eq (clock_wake _ deadline)) hle
        next hlt =>
          refine hdrained.move (hinner _ (.tick target) hinvariant trivial ⟨hdrain, ?_, ?_⟩)
          · rwa [clock_drain]
          · intro other hother
            rw [hdeadline] at hother
            exact Option.some.inj hother ▸ Nat.lt_of_not_le hlt

theorem course_settle {bench : Workbench} (h : invariant bench) :
    Course allowed bench bench.settle :=
  course_advanceWithin hkeeps hinner _ h (Nat.le_refl _)

theorem course_dismiss {bench : Workbench} (h : invariant bench) :
    Course allowed bench bench.dismiss := by
  have hasked : Course allowed bench (bench.move .dismiss) :=
    .single bench (hinner bench .dismiss h trivial trivial)
  exact hasked.trans (course_drain hkeeps hinner (hkeeps bench .dismiss h))

/-- A step is a course of moves, of which at most one is not an inner one. -/
theorem course_step (step : Step) {bench : Workbench} (h : invariant bench)
    (houter : ∀ bench move, step.move? = some move → allowed bench move) :
    Course allowed bench (bench.step step).2 := by
  cases step with
  | user action => exact .single bench (houter bench _ rfl)
  | inspect inspection => exact .single bench (houter bench _ rfl)
  | host request => exact .single bench (houter bench _ rfl)
  | query query => exact .refl
  | reconcile reconciliation => exact .single bench (houter bench _ rfl)
  | setFaults id faults => exact .single bench (houter bench _ rfl)
  | setLeaky leaky => exact .single bench (houter bench _ rfl)
  | attach cleanup settings =>
      have hsettled := course_settle hkeeps hinner h
      have hinstalled := hsettled.move (houter _ (.attach cleanup settings) rfl)
      simp only [Workbench.move, install] at hinstalled
      simp only [Workbench.step, attach]
      cases hseat : bench.settle.seat with
      | vacant => simpa only [hseat] using hinstalled
      | running controller => exact hsettled
      | crashed => exact hsettled
  | advance milliseconds =>
      exact course_advanceWithin hkeeps hinner _ h (Nat.le_add_right _ _)
  | status =>
      simp only [Workbench.step, status]
      split
      · exact .refl
      · split
        · exact course_settle hkeeps hinner h
        · exact course_settle hkeeps hinner h
  | detach =>
      have hdismissed := course_dismiss hkeeps hinner h
      have hinvariant := hdismissed.keeps hkeeps h
      simp only [Workbench.step, detach]
      split
      · exact .refl
      · split
        · exact hdismissed
        · exact hdismissed.move (hinner _ .vacate hinvariant trivial trivial)
  | drop =>
      have hdismissed := course_dismiss hkeeps hinner h
      have hinvariant := hdismissed.keeps hkeeps h
      simp only [Workbench.step, drop]
      split
      · exact .refl
      · exact hdismissed.move (hinner _ .vacate hinvariant trivial trivial)

theorem course_run (steps : List Step) {bench : Workbench} (h : invariant bench)
    (houter : ∀ step ∈ steps, ∀ bench move, step.move? = some move → allowed bench move) :
    Course allowed bench (bench.run steps).2 := by
  induction steps generalizing bench with
  | nil => exact .refl
  | cons step rest ih =>
      have hfirst := course_step hkeeps hinner step h (houter step List.mem_cons_self)
      exact hfirst.trans (ih (hfirst.keeps hkeeps h)
        fun other hother => houter other (List.mem_cons_of_mem step hother))

end

theorem leads_run {allowed : Move → Prop} (hinner : ∀ move, Move.IsInner move → allowed move)
    (bench : Workbench) (steps : List Step)
    (houter : ∀ step ∈ steps, ∀ move, step.move? = some move → allowed move) :
    Leads allowed bench (bench.run steps).2 := by
  have hcourse : Course (fun _ => allowed) bench (bench.run steps).2 :=
    @course_run (fun _ => allowed) (fun _ => True) (fun _ _ _ => trivial)
      (fun _ move _ hmove _ => hinner move hmove) steps bench trivial
      fun step hstep _ move hmove => houter step hstep move hmove
  exact hcourse.leads

/-- Steps that script no faults make a workbench that moves without faults make. -/
theorem reachable_run (autoDefine : Bool) (steps : List Step)
    (h : ∀ step ∈ steps, step.IsFaultless) :
    Reachable Move.IsFaultless ((new autoDefine).run steps).2 :=
  ⟨autoDefine, leads_run (fun _ => Move.IsInner.isFaultless) _ steps
    fun step hstep move hmove => h step hstep move hmove⟩

end Workbench
end CallBinding
