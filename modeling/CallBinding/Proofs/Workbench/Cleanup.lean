import CallBinding.Proofs.Controller.Quiet
import CallBinding.Proofs.Workbench.Schedule

/-!
# Cleanups

A cleanup ends a wait for a quiet graph.  `ArmedAt` follows a wait from the
turn that has started it: since then no change was told of and no session was
closed, and its alarm is armed, or goes off just now.  So a cleanup runs when
the wait is over to the millisecond, and no wait ends in two cleanups.
-/

namespace CallBinding
namespace Workbench

/-- The next turn tells of a change, or closes a session. -/
def Stirs (bench : Workbench) : Prop :=
  ∃ controller message rest, bench.seat = .running controller ∧
    controller.mailbox = message :: rest ∧ controller.StirredBy message

/-- The move does not disturb the quiet. -/
def Calm (bench : Workbench) (move : Move) : Prop :=
  move = .handle → ¬bench.Stirs

/-- The move belongs to a run, does not disturb the quiet, and is made while there is a seat
taken. -/
def Waits (bench : Workbench) (move : Move) : Prop :=
  Scheduled bench move ∧ Calm bench move ∧ bench.seat ≠ .vacant

/-- The next turn starts the wait of some generation, in a controller of the given settings. -/
def Arms (bench : Workbench) (generation : Nat) (settings : Settings) : Prop :=
  bench.Stirs ∧ ∃ former later, bench.seat = .running former ∧
    former.debounce.generation < generation ∧
    (bench.move .handle).seat = .running later ∧ later.settings = settings ∧
    later.debounce = ⟨generation, true⟩

/-- The next turn starts a cleanup. -/
def Cleans (bench : Workbench) : Prop :=
  ∃ controller message rest, bench.seat = .running controller ∧
    controller.mailbox = message :: rest ∧
    ({ controller with mailbox := rest }.handle bench.clock bench.host message).cleanup ≠ none

/-- The time at which a wait is over that is started now. -/
def quietTime (bench : Workbench) (settings : Settings) : Nat :=
  bench.clock + min settings.debounce.toNat Agenda.longestWait

/-- The controller's wait was started by the next turn of an earlier workbench, and nothing has
disturbed it. -/
structure ArmedAt (start armed bench : Workbench) (controller : Controller) : Prop where
  course : Course Scheduled start armed
  arms : armed.Arms controller.debounce.generation controller.settings
  waits : Course Waits (armed.move .handle) bench
  deadline : ∀ timer ∈ controller.agenda,
    timer.alarm = .debounce controller.debounce.generation →
      timer.deadline = armed.quietTime controller.settings
  clock : .due (.debounce controller.debounce.generation) ∈ controller.mailbox →
    bench.clock = armed.quietTime controller.settings

variable {start armed bench : Workbench} {former later controller : Controller}
variable {message : Message} {rest : List Message}

theorem stirs_iff (hseat : bench.seat = .running controller)
    (hmailbox : controller.mailbox = message :: rest) :
    bench.Stirs ↔ controller.StirredBy message := by
  constructor
  · rintro ⟨other, next, tail, hother, hnext, hstirs⟩
    obtain rfl := Seat.running.inj (hseat.symm.trans hother)
    rw [hmailbox] at hnext
    obtain ⟨rfl, rfl⟩ := List.cons.inj hnext
    exact hstirs
  · exact fun hstirs => ⟨controller, message, rest, hseat, hmailbox, hstirs⟩

/-- A controller keeps waiting through a move that does not disturb it. -/
theorem ArmedAt.keep {move : Move} (h : ArmedAt start armed bench former) (hwaits : Waits bench move)
    (hdebounce : later.debounce = former.debounce) (hsettings : later.settings = former.settings)
    (hagenda : ∀ timer ∈ later.agenda, timer ∈ former.agenda)
    (hclock : .due (.debounce former.debounce.generation) ∈ later.mailbox →
      (bench.move move).clock = armed.quietTime former.settings) :
    ArmedAt start armed (bench.move move) later := by
  refine ⟨h.course, ?_, h.waits.move hwaits, ?_, ?_⟩
  · rw [hdebounce, hsettings]
    exact h.arms
  · rw [hdebounce, hsettings]
    exact fun timer htimer => h.deadline timer (hagenda timer htimer)
  · rw [hdebounce, hsettings]
    exact hclock

/-- Every wait has been started by some turn. -/
def Waited (start bench : Workbench) : Prop :=
  ∀ controller, bench.seat = .running controller → controller.debounce.isPending = true →
    ∃ armed, ArmedAt start armed bench controller

/-- A turn that disturbs the quiet starts the wait that is on after it. -/
theorem armedAt_of_stirredBy (hcourse : Course Scheduled start bench) (hordered : Ordered bench)
    (hseat : bench.seat = .running former) (hmailbox : former.mailbox = message :: rest)
    {next : Controller}
    (hbecomes : Controller.Becomes { former with mailbox := rest } bench.clock bench.host message
      next)
    {events : List Event} {host : Host}
    (hlater : (bench.move .handle).seat = .running (next.hear host events))
    (hpending : next.debounce.isPending = true) (hstirred : former.StirredBy message) :
    ArmedAt start bench (bench.move .handle) (next.hear host events) := by
  have horderly := hordered.orderly former hseat
  obtain ⟨hnextMailbox, -, hsettings⟩ := hbecomes.keeps
  obtain ⟨hdebounce, hagenda⟩ :=
    hbecomes.debounce_of_stirredBy horderly.exclusive hstirred hpending
  have hstirs : bench.Stirs := (stirs_iff hseat hmailbox).mpr hstirred
  have hnew : ¬former.Outstanding (.debounce (former.debounce.generation + 1)) := by
    intro houtstanding
    have hle : former.debounce.generation + 1 ≤ former.debounce.generation :=
      horderly.expected _ houtstanding
    omega
  have hgeneration : (next.hear host events).debounce.generation =
      former.debounce.generation + 1 := by
    rw [Controller.debounce_hear, hdebounce]
  refine ⟨hcourse, ⟨hstirs, former, _, hseat, ?_, hlater, rfl, ?_⟩, .refl, ?deadline, ?clock⟩
  · rw [hgeneration]
    exact Nat.lt_succ_self _
  · rw [hgeneration, Controller.debounce_hear, hdebounce]
  case deadline =>
    rw [hgeneration, Controller.settings_hear, hsettings]
    intro timer htimer halarm
    rcases hagenda timer htimer with hold | rfl
    · exact absurd (Or.inl ⟨timer, hold, halarm⟩) hnew
    · rfl
  case clock =>
    rw [hgeneration]
    intro hmem
    exact absurd (Or.inr (mem_mailbox_of_turn hmailbox hnextMailbox hmem)) hnew

theorem Waited.handle (h : Waited start bench) (hcourse : Course Scheduled start bench)
    (hordered : Ordered bench) (hseat : bench.seat = .running former)
    (hmailbox : former.mailbox = message :: rest) {next : Controller}
    (hfate : ({ former with mailbox := rest }.handle bench.clock bench.host message).fate =
      .running next)
    {events : List Event} {host : Host}
    (hlater : (bench.move .handle).seat = .running (next.hear host events))
    (hpending : next.debounce.isPending = true) :
    ∃ armed, ArmedAt start armed (bench.move .handle) (next.hear host events) := by
  have hbecomes := Controller.becomes_of_handle hfate
  by_cases hstirred : former.StirredBy message
  · exact ⟨bench,
      armedAt_of_stirredBy hcourse hordered hseat hmailbox hbecomes hlater hpending hstirred⟩
  · obtain ⟨hnextMailbox, -, hsettings⟩ := hbecomes.keeps
    have hcalm : Calm bench .handle := fun _ hstirs =>
      hstirred ((stirs_iff hseat hmailbox).mp hstirs)
    obtain ⟨hdebounce, hagenda⟩ := hbecomes.debounce_of_not_stirredBy hstirred hpending
    have hwas : former.debounce.isPending = true := by
      rw [hdebounce] at hpending
      exact hpending
    obtain ⟨armed, harmed⟩ := h former hseat hwas
    refine ⟨armed, harmed.keep ⟨trivial, hcalm, by simp [hseat]⟩ hdebounce hsettings ?_ ?_⟩
    · intro timer htimer
      have hmem : timer ∈ next.agenda := htimer
      rwa [hagenda] at hmem
    · intro hmem
      rw [← harmed.clock (mem_mailbox_of_turn hmailbox hnextMailbox hmem)]
      exact bench.clock_handleNext

theorem Waited.wake (h : Waited start bench) {time : Nat}
    (hscheduled : Scheduled bench (.wake time)) (hseat : bench.seat = .running former)
    (hpending : former.debounce.isPending = true) :
    ∃ armed, ArmedAt start armed (bench.move (.wake time)) (former.wake time) := by
  obtain ⟨armed, harmed⟩ := h former hseat hpending
  refine ⟨armed, harmed.keep ⟨hscheduled, by simp [Calm], by simp [hseat]⟩ rfl rfl ?_ ?_⟩
  · exact fun timer htimer => (List.mem_filter.mp htimer).1
  · -- The mailbox was empty, so the alarm goes off now, and no alarm is due earlier than now.
    intro hmem
    obtain ⟨hdrained, hnext⟩ := hscheduled
    have hdeadlines : former.agenda.nextDeadline? = some time := by
      simpa [nextDeadline?, controller?, hseat] using hnext
    simp only [Controller.wake, hdrained former hseat, List.nil_append, Agenda.dueBy, List.map_map,
      List.mem_map, List.mem_filter, decide_eq_true_eq, Function.comp_apply,
      Message.due.injEq] at hmem
    obtain ⟨timer, ⟨htimer, hdue⟩, halarm⟩ := hmem
    have hfirst : time ≤ timer.deadline :=
      (Agenda.nextDeadline?_eq_some_iff.mp hdeadlines).2 timer htimer
    have hclock : (bench.move (.wake time)).clock = time := bench.clock_wake time
    rw [hclock, ← harmed.deadline timer htimer halarm]
    exact Nat.le_antisymm hfirst hdue

theorem Waited.move {move : Move} (h : Waited start bench) (hcourse : Course Scheduled start bench)
    (hordered : Ordered bench) (hscheduled : Scheduled bench move) :
    Waited start (bench.move move) := by
  intro later hseat hpending
  cases seats_move hseat with
  | installed _ _ _ => cases hpending
  | told events hformer hinner _ =>
      obtain ⟨armed, harmed⟩ := h _ hformer hpending
      have hcalm : Calm bench move := by
        rintro rfl
        exact absurd trivial hinner
      refine ⟨armed, harmed.keep ⟨hscheduled, hcalm, by simp [hformer]⟩ rfl rfl
        (fun timer htimer => htimer) fun hmem => ?_⟩
      rw [clock_move bench hinner]
      exact harmed.clock (Controller.mem_mailbox_of_due hmem)
  | @idled former hformer hempty =>
      obtain ⟨armed, harmed⟩ := h _ hformer hpending
      have hcalm : Calm bench .handle := by
        rintro - ⟨controller, message, rest, hcontroller, hmailbox, -⟩
        obtain rfl := Seat.running.inj (hformer.symm.trans hcontroller)
        rw [hempty] at hmailbox
        cases hmailbox
      refine ⟨armed, harmed.keep ⟨hscheduled, hcalm, by simp [hformer]⟩ rfl rfl
        (fun timer htimer => htimer) fun hmem => ?_⟩
      rw [hempty] at hmem
      cases hmem
  | turned hformer hmailbox hfate =>
      exact h.handle hcourse hordered hformer hmailbox hfate hseat hpending
  | woken time hformer => exact h.wake hscheduled hformer hpending
  | ticked time hformer =>
      obtain ⟨armed, harmed⟩ := h _ hformer hpending
      refine ⟨armed, harmed.keep ⟨hscheduled, by simp [Calm], by simp [hformer]⟩ rfl rfl
        (fun timer htimer => htimer) fun hmem => ?_⟩
      rw [hscheduled.1 _ hformer] at hmem
      cases hmem
  | dismissed hformer =>
      obtain ⟨armed, harmed⟩ := h _ hformer hpending
      refine ⟨armed, harmed.keep ⟨hscheduled, by simp [Calm], by simp [hformer]⟩ rfl rfl
        (fun timer htimer => htimer) fun hmem => ?_⟩
      exact harmed.clock (by simpa using hmem)

theorem waited_of_course {autoDefine : Bool} (h : Course Scheduled (new autoDefine) bench) :
    Ordered bench ∧ Waited (new autoDefine) bench := by
  induction h with
  | refl => exact ⟨ordered_new autoDefine, fun _ hseat => by cases hseat⟩
  | @move bench move hcourse hscheduled ih =>
      obtain ⟨hordered, hwaited⟩ := ih
      exact ⟨hordered.move move, hwaited.move hcourse hordered hscheduled⟩

/-! ## No second cleanup -/

/-- The controller waits for no quiet. -/
def Unarmed (bench : Workbench) : Prop :=
  ∀ controller, bench.seat = .running controller → controller.debounce.isPending = false

theorem Unarmed.move {move : Move} (h : Unarmed bench) (hcalm : Calm bench move) :
    Unarmed (bench.move move) := by
  intro later hseat
  cases seats_move hseat with
  | installed _ _ _ => rfl
  | told _ hformer _ _ | idled hformer _ | woken _ hformer | ticked _ hformer
  | dismissed hformer =>
      have hnone := h _ hformer
      exact hnone
  | turned hformer hmailbox hfate =>
      have hbecomes := Controller.becomes_of_handle hfate
      have hnot := fun hstirred => hcalm rfl ((stirs_iff hformer hmailbox).mpr hstirred)
      rw [Controller.debounce_hear, ← Bool.not_eq_true]
      intro hpending
      have hdebounce := (hbecomes.debounce_of_not_stirredBy hnot hpending).1
      rw [hdebounce] at hpending
      exact Bool.false_ne_true ((h _ hformer).symm.trans hpending)

theorem Unarmed.not_cleans (h : Unarmed bench) : ¬bench.Cleans := by
  rintro ⟨controller, message, rest, hseat, -, hcleanup⟩
  obtain ⟨generation, -, hheeds, -⟩ := Controller.exists_of_cleanup hcleanup
  simp [Controller.heeds, h controller hseat] at hheeds

/-- A cleanup uses up the wait that it ends. -/
theorem Cleans.unarmed (h : bench.Cleans) : Unarmed (bench.move .handle) := by
  obtain ⟨controller, message, rest, hseat, hmailbox, hcleanup⟩ := h
  obtain ⟨generation, rfl, hheeds, -⟩ := Controller.exists_of_cleanup hcleanup
  intro later hlater
  cases seats_handle hlater with
  | told _ _ hinner _ => exact absurd trivial hinner
  | idled hformer hempty =>
      obtain rfl := Seat.running.inj (hseat.symm.trans hformer)
      rw [hempty] at hmailbox
      cases hmailbox
  | turned hformer hnext hfate =>
      obtain rfl := Seat.running.inj (hseat.symm.trans hformer)
      obtain ⟨rfl, rfl⟩ := List.cons.inj (hmailbox.symm.trans hnext)
      rw [Controller.debounce_hear]
      cases Controller.becomes_of_handle hfate with
      | stale hstale => exact absurd (hheeds.symm.trans hstale) (by simp)
      | deferred _ | cleaned _ => rfl

/-! ## The cleanups of a run -/

/-- Whatever the faults and the settings, no wait is on while a session is open.  A cleanup runs
when its wait is over to the millisecond, or after thirty years; the quiet was not disturbed in
the meantime, and another cleanup runs only after it has been. -/
theorem coalesced_of_course {autoDefine : Bool} (h : Course Scheduled (new autoDefine) bench)
    (hseat : bench.seat = .running controller) :
    (controller.debounce.isPending = true → controller.sessions = []) ∧
      (∀ generation rest, controller.mailbox = .due (.debounce generation) :: rest →
        controller.heeds (.debounce generation) = true → controller.isBusy = false) ∧
      (bench.Cleans →
        controller.sessions = [] ∧
        (∀ call ∈ bench.host.callSites, Name.isPlaceholder call.name = false) ∧
        (∃ generation rest armed, controller.mailbox = .due (.debounce generation) :: rest ∧
          Course Scheduled (new autoDefine) armed ∧
          armed.Arms generation controller.settings ∧
          bench.clock = armed.clock + min controller.settings.debounce.toNat Agenda.longestWait ∧
          Course Waits (armed.move .handle) bench) ∧
        ∀ later, Course Calm (bench.move .handle) later → ¬later.Cleans) := by
  obtain ⟨hordered, hwaited⟩ := waited_of_course h
  have hexclusive := (hordered.orderly controller hseat).exclusive
  have hidle {generation : Nat} (hheeds : controller.heeds (.debounce generation) = true) :
      controller.isBusy = false := by
    simp only [Controller.heeds, Bool.and_eq_true, decide_eq_true_eq] at hheeds
    exact Controller.isBusy_eq_false_iff.mpr (hexclusive hheeds.2)
  refine ⟨hexclusive, fun generation rest _ hheeds => hidle hheeds, fun hcleans => ?_⟩
  have hunarmed := hcleans.unarmed
  obtain ⟨other, message, rest, hother, hmailbox, hcleanup⟩ := hcleans
  obtain rfl := Seat.running.inj (hseat.symm.trans hother)
  obtain ⟨generation, rfl, hheeds, -, hnames⟩ := Controller.exists_of_cleanup hcleanup
  have hheeds : controller.heeds (.debounce generation) = true := hheeds
  refine ⟨Controller.isBusy_eq_false_iff.mp (hidle hheeds), hnames, ?_, ?_⟩
  · simp only [Controller.heeds, Bool.and_eq_true, decide_eq_true_eq] at hheeds
    obtain ⟨rfl, hpending⟩ := hheeds
    obtain ⟨armed, harmed⟩ := hwaited controller hseat hpending
    have hclock := harmed.clock (hmailbox ▸ List.mem_cons_self)
    exact ⟨_, rest, armed, hmailbox, harmed.course, harmed.arms, hclock, harmed.waits⟩
  · intro later hcalm
    have hlater : Unarmed later :=
      hcalm.preserves Unarmed (fun _ _ hbench hmove => hbench.move hmove) hunarmed
    exact hlater.not_cleans

/-- A change is followed by a quiet of the usual length. -/
theorem coalesced_of_course_single_change :
    let bench := ((new false).run
      [.attach .count .default, .user .createOther, .advance 0]).2.move (.wake 300)
    let controller := { Controller.new .default .count with
      debounce := ⟨1, true⟩
      mailbox := [.due (.debounce 1)] }
    (Course Scheduled (new false) bench ∧ bench.seat = .running controller) ∧ bench.Cleans ∧
      ∃ generation rest armed, controller.mailbox = .due (.debounce generation) :: rest ∧
        Course Scheduled (new false) armed ∧ armed.Arms generation .default ∧
        bench.clock = armed.clock + 300 ∧ Course Waits (armed.move .handle) bench := by
  intro bench controller
  have hcourse : Course Scheduled (new false) bench :=
    (course_scheduled_run (ordered_new false) _).move ⟨by decide +kernel, by decide +kernel⟩
  have hseat : bench.seat = .running controller := by decide +kernel
  have hcleans : bench.Cleans := ⟨controller, _, _, hseat, rfl, by decide +kernel⟩
  obtain ⟨-, -, hcleanup⟩ := coalesced_of_course hcourse hseat
  exact ⟨⟨hcourse, hseat⟩, hcleans, (hcleanup hcleans).2.2.1⟩

/-- A wait of more than thirty years is cut short. -/
theorem exists_cleanup_before_debounce :
    let settings := { Settings.default with debounce := 946080000001 }
    let bench := ((new false).run
      [.attach .count settings, .user .createOther, .advance 0]).2.move (.wake 946080000000)
    let controller := { Controller.new settings .count with
      debounce := ⟨1, true⟩
      mailbox := [.due (.debounce 1)] }
    Course Scheduled (new false) bench ∧ bench.seat = .running controller ∧ bench.Cleans ∧
      ∀ armed : Workbench, bench.clock ≠ armed.clock + controller.settings.debounce.toNat := by
  intro settings bench controller
  have hcourse : Course Scheduled (new false) bench :=
    (course_scheduled_run (ordered_new false) _).move ⟨by decide +kernel, by decide +kernel⟩
  have hseat : bench.seat = .running controller := by decide +kernel
  have hcleans : bench.Cleans := ⟨controller, _, _, hseat, rfl, by decide +kernel⟩
  refine ⟨hcourse, hseat, hcleans, fun armed => ?_⟩
  have hclock : bench.clock < controller.settings.debounce.toNat := by decide +kernel
  exact Nat.ne_of_lt (Nat.lt_of_lt_of_le hclock (Nat.le_add_left _ _))

end Workbench
end CallBinding
