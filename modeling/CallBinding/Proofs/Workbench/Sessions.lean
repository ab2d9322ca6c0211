import CallBinding.Proofs.Controller.Pace
import CallBinding.Proofs.Workbench.Regular
import CallBinding.Proofs.Workbench.Schedule

/-!
# The course of a session

In a run the call site of a session is bound for the second time when its delay
is over to the millisecond, and the session is closed when its window is over,
in this order and in the order in which sessions were opened.  A delay of more
than thirty years is cut short.  `Life` says where a session stands at every
later moment, as long as its controller keeps its seat.
-/

namespace CallBinding
namespace Workbench

/-- The controller is about to handle an alarm, and will heed it. -/
def Rings (bench : Workbench) (alarm : Alarm) : Prop :=
  ∃ controller rest, bench.seat = .running controller ∧
    controller.mailbox = .due alarm :: rest ∧ controller.heeds alarm = true

/-- The move belongs to a run and is made while there is a seat taken. -/
def Lasts (bench : Workbench) (move : Move) : Prop :=
  Scheduled bench move ∧ bench.seat ≠ .vacant

instance (bench : Workbench) (move : Move) : Decidable (Lasts bench move) :=
  inferInstanceAs (Decidable (_ ∧ _))

/-- Between two workbenches an alarm has been handled at some time. -/
def HandledAt (start bench : Workbench) (alarm : Alarm) (time : Nat) : Prop :=
  ∃ turn, Course Lasts start turn ∧ turn.Rings alarm ∧ turn.clock = time ∧
    Course Lasts (turn.move .handle) bench

/-- Where a session stands that is due to be bound for the second time and to be closed at the given
times. -/
inductive Life (start : Workbench) (id : SessionId) (bound closed : Nat) (bench : Workbench)
    (controller : Controller) : Prop
  | waiting (session : Session) : session ∈ controller.sessions → session.id = id →
      session.phase = .delayedRecheck → bench.clock ≤ bound →
      Life start id bound closed bench controller
  | settled (session : Session) : session ∈ controller.sessions → session.id = id →
      session.phase = .settling → HandledAt start bench (.recheck id) bound →
      bench.clock ≤ closed → Life start id bound closed bench controller
  | closed : controller.IsOver (.window id) → HandledAt start bench (.recheck id) bound →
      HandledAt start bench (.window id) closed → Life start id bound closed bench controller

/-- An alarm is armed for a time, or it goes off just now and the time has come. -/
structure GoesOffAt (bench : Workbench) (controller : Controller) (alarm : Alarm) (time : Nat) :
    Prop where
  armed : ∀ timer ∈ controller.agenda, timer.alarm = alarm → timer.deadline = time
  rung : .due alarm ∈ controller.mailbox → bench.clock = time

/-- What holds between any two moves of a run: the controller keeps the pace, if its settings are
acceptable. -/
structure OnPace (bench : Workbench) : Prop where
  regular : Regular bench
  paced : ∀ controller, bench.seat = .running controller →
    controller.settings.validate = .ok () → controller.Paced bench.clock

variable {start bench : Workbench} {former later controller : Controller} {alarm : Alarm}
variable {id : SessionId} {time bound closed : Nat}

theorem lasts_handle (hseat : bench.seat = .running controller) : Lasts bench .handle :=
  ⟨trivial, by simp [hseat]⟩

/-! ## The pace of a run -/

theorem nextDeadline?_eq (hseat : bench.seat = .running controller) :
    bench.nextDeadline? = controller.agenda.nextDeadline? := by
  simp [nextDeadline?, controller?, hseat]

/-- The clock moves to the time of the alarms that go off next. -/
theorem Scheduled.deadlines_of_wake (h : Scheduled bench (.wake time))
    (hseat : bench.seat = .running controller) :
    (∃ timer ∈ controller.agenda, timer.deadline = time) ∧
      ∀ timer ∈ controller.agenda, time ≤ timer.deadline := by
  have hnext : bench.nextDeadline? = some time := h.2
  rw [nextDeadline?_eq hseat] at hnext
  exact Agenda.nextDeadline?_eq_some_iff.mp hnext

/-- The clock moves to a time at which no alarm has gone off yet. -/
theorem Scheduled.lt_deadline_of_tick (h : Scheduled bench (.tick time))
    (hseat : bench.seat = .running controller) :
    ∀ timer ∈ controller.agenda, time < timer.deadline := by
  intro timer htimer
  cases hnext : controller.agenda.nextDeadline? with
  | none =>
      rw [Agenda.nextDeadline?, List.min?_eq_none_iff, List.map_eq_nil_iff] at hnext
      rw [hnext] at htimer
      cases htimer
  | some deadline =>
      have hlt := h.2.2 deadline (by rw [nextDeadline?_eq hseat, hnext])
      exact hlt.trans_le ((Agenda.nextDeadline?_eq_some_iff.mp hnext).2 timer htimer)

theorem onPace_new (autoDefine : Bool) : OnPace (new autoDefine) :=
  ⟨regular_new autoDefine, fun _ h => (by cases h)⟩

theorem OnPace.move {move : Move} (h : OnPace bench) (hscheduled : Scheduled bench move) :
    OnPace (bench.move move) := by
  refine ⟨h.regular.move move, fun later hlater hvalid => ?_⟩
  cases seats_move hlater with
  | installed cleanup settings => exact .new settings cleanup _
  | told events hformer hinner _ =>
      rw [clock_move bench hinner]
      exact (h.paced _ hformer hvalid).post fun _ => Controller.not_due_of_mem_hear
  | idled hformer _ =>
      have hclock : (bench.move .handle).clock = bench.clock := bench.clock_handleNext
      rw [hclock]
      exact h.paced _ hformer hvalid
  | turned hformer hmailbox hfate =>
      have hclock : (bench.move .handle).clock = bench.clock := bench.clock_handleNext
      have hbecomes := Controller.becomes_of_handle hfate
      rw [Controller.settings_hear, hbecomes.keeps.2.2] at hvalid
      have hpaced := (h.paced _ hformer hvalid).becomes (h.regular.ordered.orderly _ hformer)
        (h.regular.accounted _ hformer) hvalid hmailbox hbecomes
      rw [hclock]
      exact hpaced.post fun _ => Controller.not_due_of_mem_hear
  | woken time hformer =>
      have hpaced := h.paced _ hformer hvalid
      obtain ⟨⟨timer, htimer, rfl⟩, -⟩ := hscheduled.deadlines_of_wake hformer
      have hclock : (bench.move (.wake timer.deadline)).clock = timer.deadline :=
        bench.clock_wake timer.deadline
      rw [hclock]
      exact hpaced.wake (hpaced.future timer htimer)
  | ticked time hformer =>
      exact (h.paced _ hformer hvalid).tick hscheduled.2.1 fun timer htimer =>
        (hscheduled.lt_deadline_of_tick hformer timer htimer).le
  | dismissed hformer => exact (h.paced _ hformer hvalid).post (by simp)

theorem onPace_of_course {autoDefine : Bool} (h : Course Scheduled (new autoDefine) bench) :
    OnPace bench :=
  h.preserves OnPace (fun _ _ hbench hmove => hbench.move hmove) (onPace_new autoDefine)

/-! ## The alarms of one session -/

/-- An alarm of a session that has been opened keeps its time. -/
theorem GoesOffAt.move {move : Move} (h : GoesOffAt bench former alarm time)
    (hscheduled : Scheduled bench move) (hseat : bench.seat = .running former)
    (hlater : (bench.move move).seat = .running later)
    (hid : id.number < former.nextSession) (halarm : alarm = .recheck id ∨ alarm = .window id) :
    GoesOffAt (bench.move move) later alarm time := by
  have hsame {other : Controller} (hother : bench.seat = .running other) :
      GoesOffAt bench other alarm time ∧ id.number < other.nextSession :=
    Seat.running.inj (hseat.symm.trans hother) ▸ ⟨h, hid⟩
  cases seats_move hlater with
  | installed _ _ hvacant => cases hseat.symm.trans hvacant
  | told _ hformer hinner _ =>
      refine ⟨(hsame hformer).1.armed, fun hrung => ?_⟩
      rw [clock_move bench hinner]
      exact (hsame hformer).1.rung (Controller.mem_mailbox_of_due hrung)
  | idled hformer hempty =>
      refine ⟨(hsame hformer).1.armed, fun hrung => ?_⟩
      rw [hempty] at hrung
      cases hrung
  | turned hformer hmailbox hfate =>
      have hbecomes := Controller.becomes_of_handle hfate
      have hclock : (bench.move .handle).clock = bench.clock := bench.clock_handleNext
      obtain ⟨hgoes, hopened⟩ := hsame hformer
      refine ⟨fun timer htimer hof => ?_, fun hrung => ?_⟩
      · exact hgoes.armed timer
          (hbecomes.mem_agenda_of_opened htimer hopened (hof ▸ halarm)) hof
      · rw [hclock]
        exact hgoes.rung (mem_mailbox_of_turn hmailbox hbecomes.keeps.1 hrung)
  | woken time hformer =>
      refine ⟨fun timer htimer => (hsame hformer).1.armed timer (List.mem_filter.mp htimer).1, ?_⟩
      -- The mailbox was empty, so the alarm goes off now, and none is due earlier than now.
      intro hrung
      have hclock : (bench.move (.wake time)).clock = time := bench.clock_wake time
      simp only [Controller.wake, hscheduled.1 _ hformer, List.nil_append, Agenda.dueBy,
        List.map_map, List.mem_map, List.mem_filter, decide_eq_true_eq, Function.comp_apply,
        Message.due.injEq] at hrung
      obtain ⟨timer, ⟨htimer, hdue⟩, hof⟩ := hrung
      have hfirst := (hscheduled.deadlines_of_wake hformer).2 timer htimer
      rw [hclock, ← (hsame hformer).1.armed timer htimer hof]
      exact Nat.le_antisymm hfirst hdue
  | ticked _ hformer =>
      refine ⟨(hsame hformer).1.armed, fun hrung => ?_⟩
      rw [hscheduled.1 _ hformer] at hrung
      cases hrung
  | dismissed hformer =>
      exact ⟨(hsame hformer).1.armed, fun hrung => (hsame hformer).1.rung (by simpa using hrung)⟩

/-- The time of an alarm that has not been handled has not passed. -/
theorem GoesOffAt.clock_le (h : GoesOffAt bench controller alarm time)
    (hpaced : controller.Paced bench.clock) (hmem : alarm ∈ controller.alarms) :
    bench.clock ≤ time := by
  rcases Controller.mem_alarms.mp hmem with ⟨timer, htimer, hof⟩ | hrung
  · exact h.armed timer htimer hof ▸ hpaced.future timer htimer
  · exact (h.rung hrung).le

/-! ## The life of one session -/

/-- What is known of a session that was opened by a controller with acceptable settings and is due
to be bound for the second time and to be closed at the given times. -/
structure Tracked (start : Workbench) (id : SessionId) (bound closed : Nat) (bench : Workbench)
    (controller : Controller) : Prop where
  acceptable : controller.settings.validate = .ok ()
  life : Life start id bound closed bench controller
  recheck : GoesOffAt bench controller (.recheck id) bound
  window : GoesOffAt bench controller (.window id) closed

theorem HandledAt.move {move : Move} (h : HandledAt start bench alarm time)
    (hlasts : Lasts bench move) : HandledAt start (bench.move move) alarm time := by
  obtain ⟨turn, hcourse, hrings, hclock, hafter⟩ := h
  exact ⟨turn, hcourse, hrings, hclock, hafter.move hlasts⟩

/-- A session whose life is told has been opened. -/
theorem Life.opened (h : Life start id bound closed bench controller)
    (horderly : controller.Orderly) : id.number < controller.nextSession := by
  cases h with
  | waiting session hsession hid _ _ | settled session hsession hid _ _ _ =>
      exact hid ▸ horderly.numbers session hsession
  | closed hover _ _ => exact hover.1

/-- A session that is not open any more has been bound for the second time and closed. -/
theorem Life.handled (h : Life start id bound closed bench controller)
    (hnone : controller.sessions = []) :
    HandledAt start bench (.recheck id) bound ∧ HandledAt start bench (.window id) closed := by
  cases h with
  | waiting session hsession _ _ _ | settled session hsession _ _ _ _ =>
      rw [hnone] at hsession
      cases hsession
  | closed _ hbound hclosed => exact ⟨hbound, hclosed⟩

namespace Tracked

/-- No move leads a session astray. -/
theorem move {move : Move} (h : Tracked start id bound closed bench former) (hpace : OnPace bench)
    (hcourse : Course Lasts start bench) (hlasts : Lasts bench move)
    (hseat : bench.seat = .running former) (hlater : (bench.move move).seat = .running later) :
    Tracked start id bound closed (bench.move move) later := by
  have hseats := seats_move hlater
  have hacceptable : later.settings.validate = .ok () :=
    hseats.settings_eq hseat ▸ h.acceptable
  have hopened := h.life.opened (hpace.regular.ordered.orderly former hseat)
  have hrecheck := h.recheck.move hlasts.1 hseat hlater hopened (Or.inl rfl)
  have hwindow := h.window.move hlasts.1 hseat hlater hopened (Or.inr rfl)
  have hpacedLater := (hpace.move hlasts.1).paced later hlater hacceptable
  have haccountedLater := (hpace.move hlasts.1).regular.accounted later hlater
  refine ⟨hacceptable, ?_, hrecheck, hwindow⟩
  have hsettled {session current : Session} (hid : session.id = id)
      (hcurrent : current ∈ later.sessions) (hsame : current.id = session.id)
      (hphase : current.phase = .settling)
      (hhandled : HandledAt start (bench.move move) (.recheck id) bound) :
      Life start id bound closed (bench.move move) later := by
    subst hid
    exact .settled current hcurrent hsame hphase hhandled
      (hwindow.clock_le hpacedLater (hsame ▸ haccountedLater.window_mem hcurrent))
  have hrings {alarm : Alarm} {rest : List Message}
      (hmailbox : former.mailbox = .due alarm :: rest) (halarm : alarm.session? = some id)
      (hopen : id ∈ former.sessions.map (·.id)) : bench.Rings alarm :=
    ⟨former, rest, hseat, hmailbox, (Controller.heeds_iff halarm).mpr hopen⟩
  cases h.life with
  | closed hover hbound hclosed =>
      exact .closed (hseats.isOver hseat hover) (hbound.move hlasts) (hclosed.move hlasts)
  | waiting session hsession hid hphase _ =>
      have hopen : id ∈ former.sessions.map (·.id) := hid ▸ List.mem_map_of_mem hsession
      obtain ⟨current, hcurrent, hsame, hkept | ⟨⟨rest, rfl, hmailbox⟩, hnow⟩⟩ :=
        hseats.exists_session hseat hsession fun rest _ hmailbox => by
          -- A session is not closed before it is bound for the second time.
          have hpaced := hpace.paced former hseat h.acceptable
          have haccounted := hpace.regular.accounted former hseat
          cases hphase.symm.trans (hpaced.phase_of_window haccounted hmailbox hsession rfl)
      · have hdelayed := hkept.trans hphase
        refine .waiting current hcurrent (hsame.trans hid) hdelayed ?_
        subst hid
        exact hrecheck.clock_le hpacedLater (hsame ▸ haccountedLater.recheck_mem hcurrent hdelayed)
      · rw [hid] at hmailbox
        have hclock := h.recheck.rung (hmailbox ▸ List.mem_cons_self)
        exact hsettled hid hcurrent hsame hnow
          ⟨bench, hcourse, hrings hmailbox rfl hopen, hclock, .refl⟩
  | settled session hsession hid hphase hbound _ =>
      by_cases hends : ∃ rest, move = .handle ∧ former.mailbox = .due (.window id) :: rest
      · obtain ⟨rest, rfl, hmailbox⟩ := hends
        have hopen : id ∈ former.sessions.map (·.id) := hid ▸ List.mem_map_of_mem hsession
        obtain ⟨next, hbecomes, rfl⟩ := exists_becomes hseat hmailbox hlater
        have hclock := h.window.rung (hmailbox ▸ List.mem_cons_self)
        exact .closed ((hbecomes.isOver_window hopened).of_same rfl rfl rfl) (hbound.move hlasts)
          ⟨bench, hcourse, hrings hmailbox rfl hopen, hclock, .refl⟩
      · obtain ⟨current, hcurrent, hsame, hcases⟩ :=
          hseats.exists_session hseat hsession fun rest hmove hmailbox =>
            hends ⟨rest, hmove, hid ▸ hmailbox⟩
        have hnow : current.phase = .settling := hcases.elim (·.trans hphase) (·.2)
        exact hsettled hid hcurrent hsame hnow (hbound.move hlasts)

theorem course (hstart : OnPace start) (h : Course Lasts start bench)
    (htracked : ∀ controller, start.seat = .running controller →
      Tracked start id bound closed start controller) :
    ∀ controller, bench.seat = .running controller →
      Tracked start id bound closed bench controller := by
  have hall : Course Lasts start bench ∧ OnPace bench ∧ ∀ controller,
      bench.seat = .running controller → Tracked start id bound closed bench controller := by
    induction h with
    | refl => exact ⟨.refl, hstart, htracked⟩
    | move _ hlasts ih =>
        obtain ⟨hcourse, hpace, hformer⟩ := ih
        refine ⟨hcourse.move hlasts, hpace.move hlasts.1, fun later hlater => ?_⟩
        obtain ⟨former, hseat⟩ := (seats_move hlater).exists_former hlasts.2
        exact (hformer former hseat).move hpace hcourse hlasts hseat hlater
  exact hall.2.2

/-- The second binding and the end of a session are armed when it is opened. -/
theorem of_opening (h : OnPace bench) (hseat : bench.seat = .running controller)
    (hvalid : controller.settings.validate = .ok ()) {call : BlockId} {prior : List BlockId}
    {rest : List Message} (hmailbox : controller.mailbox = .callSiteCreated call prior :: rest)
    (hshown : bench.host.block? call ≠ none)
    (hlater : (bench.move .handle).seat = .running later) :
    Tracked (bench.move .handle) ⟨controller.nextSession⟩
      (bench.clock + Agenda.wait controller.settings.recheckDelay)
      (bench.clock + Agenda.wait controller.settings.suppressionWindow)
      (bench.move .handle) later := by
  have horderly := h.regular.ordered.orderly controller hseat
  have hclock : (bench.move .handle).clock = bench.clock := bench.clock_handleNext
  obtain ⟨next, hbecomes, rfl⟩ := exists_becomes hseat hmailbox hlater
  have hnew {alarm : Alarm} (halarm : alarm.session? = some ⟨controller.nextSession⟩) :
      alarm ∉ controller.alarms := fun hmem => lt_irrefl _ (horderly.number_lt hmem halarm)
  have hrung {alarm : Alarm} {time : Nat} {host : Host} {events : List Event}
      (halarm : alarm.session? = some ⟨controller.nextSession⟩)
      (hmem : .due alarm ∈ (next.hear host events).mailbox) :
      (bench.move .handle).clock = time := by
    have hold := mem_mailbox_of_turn hmailbox hbecomes.keeps.1 hmem
    exact absurd (Controller.mem_alarms.mpr (Or.inr hold)) (hnew halarm)
  cases hbecomes with
  | gone _ hgone => exact absurd hgone hshown
  | opened prior name _ =>
      have harmed {timer : Timer} (htimer : timer ∈
          (((controller.memorize name).openSession bench.clock call prior).agenda))
          (halarm : timer.alarm.session? = some ⟨controller.nextSession⟩) :
          timer = ⟨bench.clock + Agenda.wait controller.settings.recheckDelay,
            .recheck ⟨controller.nextSession⟩⟩ ∨
          timer = ⟨bench.clock + Agenda.wait controller.settings.suppressionWindow,
            .window ⟨controller.nextSession⟩⟩ := by
        refine (Controller.timer_of_mem_openSession htimer).resolve_left fun hold => hnew halarm ?_
        exact Controller.mem_alarms.mpr (Or.inl ⟨timer, hold, rfl⟩)
      refine ⟨hvalid, ?life, ⟨fun timer htimer hof => ?recheck, hrung rfl⟩,
        ⟨fun timer htimer hof => ?window, hrung rfl⟩⟩
      case life =>
        refine .waiting ⟨⟨controller.nextSession⟩, call, prior, .delayedRecheck, [], []⟩
          (List.mem_append_right _ List.mem_cons_self) rfl rfl ?_
        rw [hclock]
        exact Nat.le_add_right _ _
      case recheck =>
        rcases harmed htimer (by rw [hof]; rfl) with rfl | rfl
        · rfl
        · cases hof
      case window =>
        rcases harmed htimer (by rw [hof]; rfl) with rfl | rfl
        · cases hof
        · rfl

end Tracked

/-! ## The order of sessions -/

/-- Once a session has been closed, only younger ones are open. -/
structure Outlived (id : SessionId) (controller : Controller) : Prop where
  opened : id.number < controller.nextSession
  younger : ∀ other ∈ controller.sessions.map (·.id), id.number < other.number

theorem Outlived.move {move : Move} (h : Outlived id former) (hseats : Seats bench move later)
    (hseat : bench.seat = .running former) : Outlived id later := by
  obtain ⟨hle, hids⟩ := hseats.ids hseat
  refine ⟨h.opened.trans_le hle, fun other hother => ?_⟩
  rcases hids other hother with hold | hnew
  · exact h.younger other hold
  · exact hnew ▸ h.opened

theorem Outlived.course (hstart : ∀ controller, start.seat = .running controller →
      Outlived id controller) (h : Course Lasts start bench) :
    ∀ controller, bench.seat = .running controller → Outlived id controller := by
  induction h with
  | refl => exact hstart
  | move _ hlasts ih =>
      intro later hlater
      obtain ⟨former, hseat⟩ := (seats_move hlater).exists_former hlasts.2
      exact (ih former hseat).move (seats_move hlater) hseat

/-- Whatever comes later, no session that ends is older than one that has ended. -/
theorem OnPace.number_lt_of_rings (h : OnPace bench) (hseat : bench.seat = .running controller)
    (hvalid : controller.settings.validate = .ok ()) (hrings : bench.Rings (.window id))
    {next : Workbench} (hnext : Course Lasts (bench.move .handle) next) {other : SessionId}
    (hother : next.Rings (.window other)) : id.number < other.number := by
  obtain ⟨_, rest, hsame, hmailbox, hheeds⟩ := hrings
  obtain rfl := Seat.running.inj (hseat.symm.trans hsame)
  have hopened := (h.regular.ordered.orderly controller hseat).number_lt
    (Controller.mem_alarms.mpr (Or.inr (hmailbox ▸ List.mem_cons_self))) rfl
  obtain ⟨session, younger, hsessions, hid, -, hyounger⟩ :=
    (h.paced controller hseat hvalid).exists_of_window (h.regular.accounted controller hseat)
      hmailbox hheeds
  have houtlived : ∀ later, (bench.move .handle).seat = .running later → Outlived id later := by
    intro later hlater
    obtain ⟨next, hbecomes, rfl⟩ := exists_becomes hseat hmailbox hlater
    have hover := hbecomes.isOver_window hopened
    have hpopped : Controller.sessions { controller with mailbox := rest } = session :: younger :=
      hsessions
    refine ⟨hover.1, fun other hother => ?_⟩
    rcases hbecomes.ids.2 other hother with hold | hnew
    · obtain ⟨former, hformer, rfl⟩ := List.mem_map.mp hold
      rw [hpopped] at hformer
      rcases List.mem_cons.mp hformer with rfl | hmem
      · exact absurd (hid ▸ hother) hover.2
      · exact hyounger former hmem
    · exact hnew ▸ hopened
  obtain ⟨current, _, hcurrent, -, hopen⟩ := hother
  exact (Outlived.course houtlived hnext current hcurrent).younger other
    ((Controller.heeds_iff rfl).mp hopen)

/-- In a run of a controller with acceptable settings the open sessions, oldest first, are some that
have been bound for the second time and then some that have not.  The session that ends is the one
opened first, it has been bound for the second time, and all that end later are younger.  The call
site of a session is bound for the second time when the delay is over since the session was opened,
and the session ends when the window is over, as long as the controller keeps its seat; delays of
more than thirty years are cut short. -/
theorem sessions_of_course {autoDefine : Bool} (h : Course Scheduled (new autoDefine) bench)
    (hseat : bench.seat = .running controller)
    (hvalid : controller.settings.validate = .ok ()) :
    (∃ settled delayed, controller.status.phases =
      List.replicate settled .settling ++ List.replicate delayed .delayedRecheck) ∧
    (∀ id, bench.Rings (.window id) →
      (∃ session younger, controller.sessions = session :: younger ∧ session.id = id ∧
        session.phase = .settling) ∧
      ∀ next other, Course Lasts (bench.move .handle) next → next.Rings (.window other) →
        id.number < other.number) ∧
    ∀ call prior rest, controller.mailbox = .callSiteCreated call prior :: rest →
      bench.host.block? call ≠ none →
      ∀ next later, Course Lasts (bench.move .handle) next → next.seat = .running later →
        controller.nextSession < later.nextSession ∧
        Life (bench.move .handle) ⟨controller.nextSession⟩
          (bench.clock + min controller.settings.recheckDelay.toNat Agenda.longestWait)
          (bench.clock + min controller.settings.suppressionWindow.toNat Agenda.longestWait)
          next later := by
  have hpace := onPace_of_course h
  have hpaced := hpace.paced controller hseat hvalid
  have haccounted := hpace.regular.accounted controller hseat
  refine ⟨hpaced.exists_map_phase_eq haccounted, fun id hrings => ⟨?_, ?_⟩, ?_⟩
  · obtain ⟨_, rest, hsame, hmailbox, hheeds⟩ := hrings
    obtain rfl := Seat.running.inj (hseat.symm.trans hsame)
    obtain ⟨session, younger, hsessions, hid, hphase, -⟩ :=
      hpaced.exists_of_window haccounted hmailbox hheeds
    exact ⟨session, younger, hsessions, hid, hphase⟩
  · intro next other hnext hother
    exact hpace.number_lt_of_rings hseat hvalid hrings hnext hother
  · intro call prior rest hmailbox hshown next later hnext hlater
    have hstart : OnPace (bench.move .handle) := hpace.move trivial
    have htracked := Tracked.course hstart hnext (fun opened hopened =>
      .of_opening hpace hseat hvalid hmailbox hshown hopened) later hlater
    have hpaceNext : OnPace next :=
      hnext.preserves OnPace (fun _ _ hbench hlasts => hbench.move hlasts.1) hstart
    have horderly := hpaceNext.regular.ordered.orderly later hlater
    exact ⟨htracked.life.opened horderly, htracked.life⟩

/-- Two sessions overlap.  Each is bound for the second time 50 ms after it was opened, and ends
after 3500 ms.  In between the older one has been bound for the second time and the younger one has
not, and the older one ends first. -/
theorem sessions_of_course_overlapping :
    let first := ((new false).run [.attach .count .default, .user (.call "f")]).2
    let second := ((first.move .handle).move (.tick 20)).move (.act (.call "g"))
    let between := ((second.move .handle).move (.wake 50)).move .handle
    let closing := ((between.move (.wake 70)).move .handle).move (.wake 3500)
    let last := (closing.move .handle).move (.wake 3520)
    let closed := last.move .handle
    (first.clock = 0 ∧ HandledAt (first.move .handle) closed (.recheck ⟨0⟩) 50 ∧
      HandledAt (first.move .handle) closed (.window ⟨0⟩) 3500) ∧
    (second.clock = 20 ∧ HandledAt (second.move .handle) closed (.recheck ⟨1⟩) 70 ∧
      HandledAt (second.move .handle) closed (.window ⟨1⟩) 3520) ∧
    (∃ controller settled delayed, between.seat = .running controller ∧
      controller.status.phases = [.settling, .delayedRecheck] ∧
      controller.status.phases =
        List.replicate settled .settling ++ List.replicate delayed .delayedRecheck) ∧
    (∃ controller session younger, closing.seat = .running controller ∧
      controller.sessions = session :: younger ∧ younger ≠ [] ∧ closing.Rings (.window ⟨0⟩) ∧
      session.id = ⟨0⟩ ∧ session.phase = .settling) ∧
    last.Rings (.window ⟨1⟩) ∧ ∀ other, last.Rings (.window other) → 0 < other.number := by
  intro first second between closing last closed
  let older : Session := ⟨⟨0⟩, ⟨0⟩, [], .settling, [], []⟩
  let younger : Session := ⟨⟨1⟩, ⟨1⟩, [], .settling, [], []⟩
  let opener : Controller :=
    { Controller.new .default .count with mailbox := [.callSiteCreated ⟨0⟩ []] }
  let waiter : Controller :=
    { Controller.new .default .count with
      sessions := [{ older with phase := .delayedRecheck }]
      nextSession := 1
      lastGoodName := some "f"
      agenda := [⟨50, .recheck ⟨0⟩⟩, ⟨3500, .window ⟨0⟩⟩]
      mailbox := [.callSiteCreated ⟨1⟩ []] }
  let rebound : Controller :=
    { Controller.new .default .count with
      sessions := [older, { younger with phase := .delayedRecheck }]
      nextSession := 2
      lastGoodName := some "g"
      agenda := [⟨3500, .window ⟨0⟩⟩, ⟨70, .recheck ⟨1⟩⟩, ⟨3520, .window ⟨1⟩⟩] }
  let closer : Controller :=
    { rebound with
      sessions := [older, younger]
      agenda := [⟨3520, .window ⟨1⟩⟩]
      mailbox := [.due (.window ⟨0⟩)] }
  let survivor : Controller :=
    { closer with
      sessions := [younger]
      agenda := []
      mailbox := [.due (.window ⟨1⟩)] }
  let idler : Controller :=
    { survivor with
      sessions := []
      debounce := ⟨1, true⟩
      agenda := [⟨3820, .debounce 1⟩]
      mailbox := [] }
  have hvalid : Settings.default.validate = .ok () := by
    rw [Settings.validate, if_neg (by decide +kernel), if_neg (by decide +kernel)]
  have hopener : first.seat = .running opener := by decide +kernel
  have hwaiter : second.seat = .running waiter := by decide +kernel
  have hrebound : between.seat = .running rebound := by decide +kernel
  have hcloser : closing.seat = .running closer := by decide +kernel
  have hsurvivor : last.seat = .running survivor := by decide +kernel
  have hidler : closed.seat = .running idler := by decide +kernel
  have hsecond : Course Lasts (first.move .handle) second :=
    (Course.single _ (by decide +kernel)).move (by decide +kernel)
  have hbetween : Course Lasts (second.move .handle) between :=
    (Course.single _ (by decide +kernel)).move (by decide +kernel)
  have hclosing : Course Lasts between closing :=
    ((Course.single _ (by decide +kernel)).move (by decide +kernel)).move (by decide +kernel)
  have hlast : Course Lasts (closing.move .handle) last := .single _ (by decide +kernel)
  have hclosed : Course Lasts (second.move .handle) closed :=
    (((hbetween.trans hclosing).move (lasts_handle hcloser)).trans hlast).move
      (lasts_handle hsurvivor)
  have hwhole : Course Lasts (first.move .handle) closed :=
    (hsecond.move (lasts_handle hwaiter)).trans hclosed
  -- The theorem speaks of four moments of one run.
  have hrunFirst : Course Scheduled (new false) first := course_scheduled_run (ordered_new false) _
  have hrunSecond : Course Scheduled (new false) second :=
    (hrunFirst.move (lasts_handle hopener).1).trans (hsecond.mono fun _ _ => And.left)
  have hrunBetween : Course Scheduled (new false) between :=
    (hrunSecond.move (lasts_handle hwaiter).1).trans (hbetween.mono fun _ _ => And.left)
  have hrunClosing : Course Scheduled (new false) closing :=
    hrunBetween.trans (hclosing.mono fun _ _ => And.left)
  have hclockFirst : first.clock = 0 := by decide +kernel
  have hclockSecond : second.clock = 20 := by decide +kernel
  have hlifeFirst := ((sessions_of_course hrunFirst hopener hvalid).2.2 ⟨0⟩ [] [] rfl
    (by decide +kernel) closed idler hwhole hidler).2
  rw [hclockFirst] at hlifeFirst
  have hlifeSecond := ((sessions_of_course hrunSecond hwaiter hvalid).2.2 ⟨1⟩ [] [] rfl
    (by decide +kernel) closed idler hclosed hidler).2
  rw [hclockSecond] at hlifeSecond
  obtain ⟨settled, delayed, hblocks⟩ := (sessions_of_course hrunBetween hrebound hvalid).1
  have hends : closing.Rings (.window ⟨0⟩) := ⟨closer, [], hcloser, rfl, by decide⟩
  have hendsLast : last.Rings (.window ⟨1⟩) := ⟨survivor, [], hsurvivor, rfl, by decide⟩
  obtain ⟨⟨session, rest, hsessions, hid, hphase⟩, horder⟩ :=
    (sessions_of_course hrunClosing hcloser hvalid).2.1 ⟨0⟩ hends
  have hrest : rest ≠ [] := by
    rintro rfl
    cases hsessions
  exact ⟨⟨hclockFirst, hlifeFirst.handled rfl⟩, ⟨hclockSecond, hlifeSecond.handled rfl⟩,
    ⟨rebound, settled, delayed, hrebound, rfl, hblocks⟩,
    ⟨closer, session, rest, hcloser, hsessions, hrest, hends, hid, hphase⟩,
    hendsLast, fun other => horder last other hlast⟩

/-- A second binding and an end that are due after more than thirty years come too early. -/
theorem exists_recheck_before_delay :
    let settings := { Settings.default with
      recheckDelay := 946080000001
      suppressionWindow := 946080000002 }
    let opening := ((new false).run [.attach .count settings, .user (.call "f")]).2
    let rung := (opening.move .handle).move (.wake 946080000000)
    let opener := { Controller.new settings .count with mailbox := [.callSiteCreated ⟨0⟩ []] }
    settings.validate = .ok () ∧ Course Scheduled (new false) opening ∧
      opening.seat = .running opener ∧ opening.host.block? ⟨0⟩ ≠ none ∧
      Course Lasts (opening.move .handle) rung ∧
      rung.Rings (.recheck ⟨0⟩) ∧ (rung.move .handle).Rings (.window ⟨0⟩) ∧
      rung.clock < opening.clock + settings.recheckDelay.toNat ∧
      (rung.move .handle).clock < opening.clock + settings.suppressionWindow.toNat := by
  intro settings opening rung opener
  let ringer : Controller :=
    { Controller.new settings .count with
      sessions := [⟨⟨0⟩, ⟨0⟩, [], .delayedRecheck, [], []⟩]
      nextSession := 1
      lastGoodName := some "f"
      mailbox := [.due (.recheck ⟨0⟩), .due (.window ⟨0⟩)] }
  let settled : Controller :=
    { ringer with
      sessions := [⟨⟨0⟩, ⟨0⟩, [], .settling, [], []⟩]
      mailbox := [.due (.window ⟨0⟩)] }
  have hlasts : Course Lasts (opening.move .handle) rung :=
    .single _ (by decide +kernel)
  have hringer : rung.seat = .running ringer := by decide +kernel
  have hsettled : (rung.move .handle).seat = .running settled := by decide +kernel
  have hvalid : settings.validate = .ok () := by
    rw [Settings.validate, if_neg (by decide +kernel), if_neg (by decide +kernel)]
  have hrecheck : rung.Rings (.recheck ⟨0⟩) := ⟨ringer, _, hringer, rfl, by decide⟩
  have hwindow : (rung.move .handle).Rings (.window ⟨0⟩) := ⟨settled, _, hsettled, rfl, by decide⟩
  exact ⟨hvalid, course_scheduled_run (ordered_new false) _, by decide +kernel, by decide +kernel,
    hlasts, hrecheck, hwindow, by decide +kernel, by decide +kernel⟩

end Workbench
end CallBinding
