import CallBinding.Proofs.Controller.Checks
import CallBinding.Proofs.Workbench.Regular

/-!
# Every spawned definition is checked once

A definition that is created while a session is open is due for one check, with
the older definitions of the session opened last.  Its own alarm and the end of
that session compete for it: whichever is handled first runs the check, and the
other finds nothing to do, even when both go off at the same time.  `Audit`
records the checks of all moves, `RunsChecks` says that a turn runs what is
recorded of it, and `CheckStage` says how far a definition has come in such a
record.
-/

namespace CallBinding
namespace Workbench

/-- The checks that happen in a move. -/
def checks (bench : Workbench) : Move → List Check
  | .handle =>
      match bench.controller? with
      | none => []
      | some controller =>
          match controller.mailbox with
          | [] => []
          | message :: _ => controller.checksOf message
  | _ => []

/-- The next turn runs the checks that happen in it, and ends. -/
def RunsChecks (bench : Workbench) : Prop :=
  ∀ controller message rest, bench.seat = .running controller →
    controller.mailbox = message :: rest →
    ∃ after, { controller with mailbox := rest }.EndsTurn
        ((bench.checks .handle).foldl Check.perform bench.host) message after ∧
      (bench.move .handle).host = after.withEditor after.editor.delivered

/-- One workbench becomes another by allowed moves, and the listed checks happen on the way. -/
inductive Audit (allowed : Workbench → Move → Prop) (start : Workbench) :
    List Check → Workbench → Prop
  | refl : Audit allowed start [] start
  | move {log : List Check} {bench : Workbench} {move : Move} :
      Audit allowed start log bench → allowed bench move →
      Audit allowed start (log ++ bench.checks move) (bench.move move)

/-- The move is made while there is a seat taken, so no other controller takes it. -/
def Seated (bench : Workbench) (_ : Move) : Prop :=
  bench.seat ≠ .vacant

/-- A definition has been checked: the controller has not yet to be told of it, and heeds no alarm
for its check. -/
structure Spent (bench : Workbench) (definition : BlockId) : Prop where
  old : definition.number < bench.host.editor.nextBlock
  told : ∀ controller, bench.seat = .running controller →
    .event ⟨.create, definition⟩ ∉ controller.mailbox
  ended : ∀ controller, bench.seat = .running controller →
    ∀ id, .spawnCheck id definition ∈ controller.alarms →
      controller.IsOver (.spawnCheck id definition)

/-- How far a definition has come that is created while the given session is the one opened last. -/
inductive CheckStage (session : Session) (definition : BlockId) (log : List Check)
    (bench : Workbench) (controller : Controller) : Prop
  | due : controller.Due session definition →
      log.filter (fun check => check.definition = definition) = [] →
      CheckStage session definition log bench controller
  | checked : Spent bench definition →
      log.filter (fun check => check.definition = definition) =
        [⟨.spawnCheck session.id definition, definition, session.prior⟩] →
      CheckStage session definition log bench controller
  | closed : controller.IsOver (.window session.id) →
      CheckStage session definition log bench controller

variable {allowed : Workbench → Move → Prop} {bench start : Workbench} {log : List Check}
variable {former later controller : Controller} {message : Message} {alarm : Alarm}
variable {rest : List Message} {session : Session} {definition : BlockId} {check : Check}

/-- Every course can be recorded. -/
theorem Course.exists_audit (h : Course allowed start bench) :
    ∃ log, Audit allowed start log bench := by
  induction h with
  | refl => exact ⟨[], .refl⟩
  | move _ hallowed ih =>
      obtain ⟨log, haudit⟩ := ih
      exact ⟨_, haudit.move hallowed⟩

theorem checks_handle (hseat : bench.seat = .running controller)
    (hmailbox : controller.mailbox = message :: rest) :
    bench.checks .handle = controller.checksOf message := by
  simp [checks, controller?, hseat, hmailbox]

theorem runsChecks (bench : Workbench) : bench.RunsChecks := by
  intro controller message rest hseat hmailbox
  let popped : Controller := { controller with mailbox := rest }
  have hends := popped.endsTurn_handle bench.clock bench.host message
  refine ⟨(popped.handle bench.clock bench.host message).host, ?_, ?_⟩
  · rw [checks_handle hseat hmailbox]
    exact hends
  · exact (congrArg Workbench.host (handleNext_eq hseat hmailbox)).trans (bench.host_takeTurn _)

theorem exists_of_mem_checks {move : Move} (h : check ∈ bench.checks move) :
    ∃ controller alarm rest, move = .handle ∧ bench.seat = .running controller ∧
      controller.mailbox = .due alarm :: rest ∧ check ∈ controller.checks alarm := by
  unfold checks at h
  split at h
  · split at h
    · cases h
    next controller hcontroller =>
      split at h
      · cases h
      next message rest hmailbox =>
        cases message with
        | due alarm =>
            exact ⟨controller, alarm, rest, rfl, controller?_eq_some_iff.mp hcontroller, hmailbox, h⟩
        | event _ | callSiteCreated _ _ | detach => cases h
  · cases h

theorem mem_alarms_of_mailbox (hmailbox : controller.mailbox = .due alarm :: rest) :
    alarm ∈ controller.alarms :=
  Controller.mem_alarms.mpr (Or.inr (hmailbox ▸ List.mem_cons_self))

/-- To hear that a definition is new it takes an event that says so. -/
theorem create_mem_of_mem_hear {host : Host} {events : List Event}
    (h : .event ⟨.create, definition⟩ ∈ (controller.hear host events).mailbox) :
    .event ⟨.create, definition⟩ ∈ controller.mailbox ∨ ⟨.create, definition⟩ ∈ events := by
  refine (List.mem_append.mp h).imp_right fun hheard => ?_
  obtain ⟨event, hevent, hmessage⟩ := List.mem_map.mp hheard
  have hcreated : (Message.ofEvent host event).created? = some definition :=
    Message.created?_eq_some_iff.mpr hmessage
  rwa [← Event.created?_eq_some_iff.mp (Message.created?_of_ofEvent hcreated)]

/-! ## Definitions that have been checked -/

/-- What a controller is told of in a move is younger than all that was there before. -/
theorem Regular.number_le_of_told {move : Move} (h : Regular bench) (hinner : ¬move.IsInner)
    {events : List Event}
    (htrace : (bench.move move).trace = (events.map (.heard bench.clock)).reverse ++ bench.trace)
    (hmem : ⟨.create, definition⟩ ∈ events) : bench.host.editor.nextBlock ≤ definition.number := by
  obtain ⟨worked, hbirths, -, -⟩ := bears_move h.ordered hinner htrace
  exact (hbirths.range definition (List.mem_filterMap.mpr ⟨_, hmem, if_pos rfl⟩)).1

namespace Spent

theorem filter_checks (h : Spent bench definition) (hregular : Regular bench) (move : Move) :
    (bench.checks move).filter (fun check => check.definition = definition) = [] := by
  refine List.filter_eq_nil_iff.mpr fun check hcheck => ?_
  simp only [decide_eq_true_eq]
  rintro rfl
  obtain ⟨controller, alarm, rest, -, hseat, hmailbox, hmem⟩ := exists_of_mem_checks hcheck
  obtain ⟨session, hsession, halarm, -⟩ := Controller.exists_of_mem_checks
    (hregular.accounted controller hseat) (mem_alarms_of_mailbox hmailbox) hmem
  have hclosed : session.id.number < controller.nextSession ∧
      session.id ∉ controller.sessions.map (·.id) := h.ended controller hseat _ halarm
  exact hclosed.2 (List.mem_map_of_mem hsession)

theorem move (h : Spent bench definition) (hregular : Regular bench) (move : Move) :
    Spent (bench.move move) definition := by
  have hle : bench.host.editor.nextBlock ≤ (bench.move move).host.editor.nextBlock :=
    (evolves_move hregular.ordered.consistent.numbered hregular.ordered.turnReplays
      move).2.nextBlock_le
  refine ⟨h.old.trans_le hle, fun later hseat => ?told, fun later hseat id halarm => ?ended⟩
  case told =>
    intro hmem
    cases seats_move hseat with
    | installed _ _ _ => cases hmem
    | told events hformer hinner htrace =>
        rcases create_mem_of_mem_hear hmem with hold | hnew
        · exact h.told _ hformer hold
        · exact absurd h.old (Nat.not_lt.mpr (hregular.number_le_of_told hinner htrace hnew))
    | idled hformer _ | ticked _ hformer => exact h.told _ hformer hmem
    | turned hformer hmailbox hfate =>
        have hrest := (Controller.becomes_of_handle hfate).keeps.1
        rcases create_mem_of_mem_hear hmem with hold | hnew
        · rw [hrest] at hold
          exact h.told _ hformer (hmailbox ▸ List.mem_cons_of_mem _ hold)
        · exact hregular.ordered.kind_of_mem_turn hformer hmailbox hnew rfl
    | woken _ hformer | dismissed hformer =>
      exact h.told _ hformer (by simpa [Controller.wake] using hmem)
  case ended =>
    have hseats := seats_move hseat
    have hold {former : Controller} (hformer : bench.seat = .running former)
        (hmem : .spawnCheck id definition ∈ former.alarms) :
        later.IsOver (.spawnCheck id definition) :=
      hseats.isOver hformer (h.ended former hformer id hmem)
    cases hseats with
    | installed _ _ _ => cases halarm
    | told _ hformer _ _ => exact hold hformer (Controller.alarms_hear _ _ _ ▸ halarm)
    | idled hformer _ | ticked _ hformer => exact hold hformer halarm
    | turned hformer hmailbox hfate =>
        rw [Controller.alarms_hear] at halarm
        rcases (Controller.becomes_of_handle hfate).spawnCheck_of_mem_alarms halarm with hmem | rfl
        · exact hold hformer (Controller.mem_alarms_of_pop hmailbox hmem)
        · exact absurd (hmailbox ▸ List.mem_cons_self) (h.told _ hformer)
    | woken time hformer => exact hold hformer ((Controller.alarms_wake _ time).mem_iff.mp halarm)
    | dismissed hformer =>
        rw [Controller.alarms_post (by simp)] at halarm
        exact hold hformer halarm

/-- A definition that has been checked is never checked again. -/
theorem filter_audit (h : Spent start definition) (hregular : Regular start)
    (haudit : Audit allowed start log bench) :
    log.filter (fun check => check.definition = definition) = [] := by
  have hend : (Spent bench definition ∧ Regular bench) ∧
      log.filter (fun check => check.definition = definition) = [] := by
    induction haudit with
    | refl => exact ⟨⟨h, hregular⟩, rfl⟩
    | @move log bench move _ _ ih =>
        obtain ⟨⟨hspent, hbench⟩, hlog⟩ := ih
        refine ⟨⟨hspent.move hbench move, hbench.move move⟩, ?_⟩
        rw [List.filter_append, hlog, hspent.filter_checks hbench move, List.append_nil]
  exact hend.2

end Spent

/-! ## Definitions that are due -/

/-- The turn on one of the two alarms leaves the definition checked. -/
theorem spent_of_turn (h : Regular bench) (hseat : bench.seat = .running controller)
    (hmailbox : controller.mailbox = .due alarm :: rest)
    (hrecalled : .spawnCheck session.id definition ∈ controller.alarms)
    (hcases : alarm = .spawnCheck session.id definition ∨ alarm = .window session.id) :
    Spent (bench.move .handle) definition := by
  have haccounted := h.accounted controller hseat
  have hle : bench.host.editor.nextBlock ≤ (bench.move .handle).host.editor.nextBlock :=
    (evolves_move h.ordered.consistent.numbered h.ordered.turnReplays .handle).2.nextBlock_le
  refine ⟨?old, fun later hlater hmem => ?told, fun later hlater id halarm => ?ended⟩
  case old =>
    have hbelow := ((h.chronological controller hseat).recalled definition
      (Or.inr ⟨session.id, hrecalled⟩)).1
    exact hbelow.trans_le hle
  case told =>
    obtain ⟨next, hbecomes, rfl⟩ := exists_becomes hseat hmailbox hlater
    rcases create_mem_of_mem_hear hmem with hold | hnew
    · rw [hbecomes.keeps.1] at hold
      exact h.not_mem_alarms hseat (hmailbox ▸ List.mem_cons_of_mem _ hold) session.id hrecalled
    · exact h.ordered.kind_of_mem_turn hseat hmailbox hnew rfl
  case ended =>
    obtain ⟨next, hbecomes, rfl⟩ := exists_becomes hseat hmailbox hlater
    rw [Controller.alarms_hear] at halarm
    have hmem := (hbecomes.spawnCheck_of_mem_alarms halarm).resolve_right (by simp)
    obtain rfl := haccounted.once id session.id definition
      (Controller.mem_alarms_of_pop hmailbox hmem) hrecalled
    rcases hcases with rfl | rfl
    · -- No alarm is there twice.
      have hnodup := haccounted.nodup
      rw [Controller.alarms_eq_cons hmailbox, List.nodup_cons] at hnodup
      exact absurd hmem hnodup.1
    · have hopened := (h.ordered.orderly controller hseat).number_lt hrecalled rfl
      exact (hbecomes.isOver_window hopened).of_same rfl rfl rfl

/-- After a check the definition has been checked. -/
theorem spent_of_mem_checks (h : Regular bench) {move : Move} (hcheck : check ∈ bench.checks move) :
    Spent (bench.move move) check.definition := by
  obtain ⟨controller, alarm, rest, rfl, hseat, hmailbox, hmem⟩ := exists_of_mem_checks hcheck
  obtain ⟨session, -, hrecalled, hcases⟩ := Controller.exists_of_mem_checks
    (h.accounted controller hseat) (mem_alarms_of_mailbox hmailbox) hmem
  exact spent_of_turn h hseat hmailbox hrecalled hcases

/-- A definition of which a check is recorded has been checked. -/
theorem Audit.spent (h : Audit allowed start log bench) (hstart : Regular start) :
    Regular bench ∧ ∀ check ∈ log, Spent bench check.definition := by
  induction h with
  | refl => exact ⟨hstart, fun check hcheck => nomatch hcheck⟩
  | @move log bench move _ _ ih =>
      obtain ⟨hregular, hspent⟩ := ih
      refine ⟨hregular.move move, fun check hcheck => ?_⟩
      rcases List.mem_append.mp hcheck with hold | hnew
      · exact (hspent check hold).move hregular move
      · exact spent_of_mem_checks hregular hnew

/-- As long as neither alarm is handled, nothing happens to the definition. -/
theorem due_move {move : Move} (h : Regular bench) (hseat : bench.seat = .running former)
    (hlater : (bench.move move).seat = .running later) (hdue : former.Due session definition)
    (hother : ∀ alarm rest, move = .handle → former.mailbox = .due alarm :: rest →
      alarm ≠ .spawnCheck session.id definition ∧ alarm ≠ .window session.id) :
    later.Due session definition ∧
      (bench.checks move).filter (fun check => check.definition = definition) = [] := by
  constructor
  · obtain ⟨next, agenda, mailbox, rfl, rfl | ⟨message, rest, hmove, hmailbox, hbecomes⟩⟩ :=
      (seats_move hlater).eq_or_becomes hseat
    · exact hdue
    · have hpopped : Controller.Due { former with mailbox := rest } session definition := hdue
      have hnext : next.Due session definition := by
        refine hpopped.becomes hbecomes ?_ ?_
        · rintro rfl
          exact (hother _ _ hmove hmailbox).2 rfl
        · rintro rfl
          exact (hother _ _ hmove hmailbox).1 rfl
      exact hnext
  · refine List.filter_eq_nil_iff.mpr fun check hcheck => ?_
    obtain ⟨controller, alarm, rest, rfl, hcontroller, hmailbox, hmem⟩ :=
      exists_of_mem_checks hcheck
    obtain rfl := Seat.running.inj (hseat.symm.trans hcontroller)
    obtain ⟨hnotCheck, hnotWindow⟩ := hother alarm rest rfl hmailbox
    have hnone := hdue.filter_checks_eq_nil (h.accounted former hseat)
      (mem_alarms_of_mailbox hmailbox) hnotWindow hnotCheck
    exact List.filter_eq_nil_iff.mp hnone check hmem

namespace CheckStage

/-- No move leads a definition from one stage to an earlier one. -/
theorem move {move : Move} (h : CheckStage session definition log bench former)
    (hregular : Regular bench) (hseat : bench.seat = .running former)
    (hlater : (bench.move move).seat = .running later) :
    CheckStage session definition (log ++ bench.checks move) (bench.move move) later := by
  cases h with
  | closed hover => exact .closed ((seats_move hlater).isOver hseat hover)
  | checked hspent hlog =>
      refine .checked (hspent.move hregular move) ?_
      rw [List.filter_append, hlog, hspent.filter_checks hregular move, List.append_nil]
  | due hdue hlog =>
      by_cases hhandled : ∃ alarm rest, move = .handle ∧ former.mailbox = .due alarm :: rest ∧
          (alarm = .spawnCheck session.id definition ∨ alarm = .window session.id)
      · obtain ⟨alarm, rest, rfl, hmailbox, hcases⟩ := hhandled
        have horderly := hregular.ordered.orderly former hseat
        have hrecalled := hdue.mem_alarms (hregular.accounted former hseat)
        have hspent := spent_of_turn hregular hseat hmailbox hrecalled hcases
        rcases hcases with rfl | rfl
        · refine .checked hspent ?_
          rw [List.filter_append, hlog, List.nil_append, checks_handle hseat hmailbox]
          exact hdue.filter_checks_spawnCheck horderly
        · obtain ⟨next, hbecomes, rfl⟩ := exists_becomes hseat hmailbox hlater
          have hopened := horderly.number_lt hrecalled rfl
          exact .closed ((hbecomes.isOver_window hopened).of_same rfl rfl rfl)
      · have hother : ∀ alarm rest, move = .handle → former.mailbox = .due alarm :: rest →
            alarm ≠ .spawnCheck session.id definition ∧ alarm ≠ .window session.id := by
          intro alarm rest hmove hmailbox
          rw [← not_or]
          exact fun hcases => hhandled ⟨alarm, rest, hmove, hmailbox, hcases⟩
        obtain ⟨hstill, hnone⟩ := due_move hregular hseat hlater hdue hother
        refine .due hstill ?_
        rw [List.filter_append, hlog, hnone, List.append_nil]

theorem audit (hregular : Regular start)
    (hstart : ∀ controller, start.seat = .running controller →
      CheckStage session definition [] start controller)
    (haudit : Audit Seated start log bench) :
    Regular bench ∧ ∀ controller, bench.seat = .running controller →
      CheckStage session definition log bench controller := by
  induction haudit with
  | refl => exact ⟨hregular, hstart⟩
  | @move log bench move _ hseated ih =>
      obtain ⟨hbench, hstage⟩ := ih
      refine ⟨hbench.move move, fun later hlater => ?_⟩
      obtain ⟨former, hformer⟩ := (seats_move hlater).exists_former hseated
      exact (hstage former hformer).move hbench hformer hlater

end CheckStage

/-! ## One check for every definition -/

/-- A definition whose creation is handled while a session is open is none of the older ones of the
session opened last, and is due for its check in it. -/
theorem stage_of_created (h : Regular bench) (hseat : bench.seat = .running controller)
    (hmailbox : controller.mailbox = .event ⟨.create, definition⟩ :: rest)
    (hlive : ∃ block, bench.host.block? definition = some block ∧ block.role = .definition)
    (hlast : controller.sessions.getLast? = some session) :
    definition ∉ session.prior ∧ ∀ later, (bench.move .handle).seat = .running later →
      CheckStage session definition [] (bench.move .handle) later := by
  have hprior : definition ∉ session.prior := fun hmem =>
    (h.chronological controller hseat).not_recalls (hmailbox ▸ List.mem_cons_self)
      (Or.inl ⟨session, List.mem_of_getLast? hlast, hmem⟩)
  refine ⟨hprior, fun later hlater => ?_⟩
  have hblock : (bench.host.block? definition).any Block.isDefinition = true := by
    obtain ⟨block, hread, hrole⟩ := hlive
    simp [hread, Block.isDefinition, hrole]
  let popped : Controller := { controller with mailbox := rest }
  have hmove : bench.move .handle = bench.takeTurn
      (popped.handle bench.clock bench.host (.event ⟨.create, definition⟩)) :=
    handleNext_eq hseat hmailbox
  rw [hmove] at hlater
  obtain ⟨next, hfate, rfl⟩ := seat_takeTurn_eq_running hlater
  have hpopped : popped.sessions.getLast? = some session := hlast
  have hentered : popped.onEvent bench.clock bench.host ⟨.create, definition⟩ = next :=
    Fate.running.inj hfate
  rw [Controller.onEvent_create hblock hpopped hprior] at hentered
  have hdue : next.Due session definition :=
    hentered ▸ Controller.due_awaitCheck (List.mem_of_getLast? hpopped) bench.clock definition
  exact .due hdue rfl

/-- In every run, whatever the faults and the settings, a definition whose creation is handled while
the host has it and a session is open is not among the older definitions of the session opened last;
and once that session has been closed by its window, the whole record of the run has exactly one
check of the definition, with the older definitions of the session, at its own alarm or when the
session was closed.  Turns run the checks that are recorded of them, and no others. -/
theorem checked_once_of_audit {earlier : Workbench → Move → Prop} {autoDefine : Bool}
    {before : List Check} (h : Audit earlier (new autoDefine) before bench)
    (hseat : bench.seat = .running controller)
    (hmailbox : controller.mailbox = .event ⟨.create, definition⟩ :: rest)
    (hlive : ∃ block, bench.host.block? definition = some block ∧ block.role = .definition)
    (hlast : controller.sessions.getLast? = some session) :
    definition ∉ session.prior ∧
    (∀ log closing closer tail, Audit Seated (bench.move .handle) log closing →
      closing.seat = .running closer → closer.mailbox = .due (.window session.id) :: tail →
      closer.heeds (.window session.id) = true →
      ∃ check : Check, check.definition = definition ∧ check.prior = session.prior ∧
        (check.alarm = .spawnCheck session.id definition ∧ check ∈ log ∨
          check.alarm = .window session.id ∧ check ∈ closing.checks .handle) ∧
        ∀ allowed more later, Audit allowed (closing.move .handle) more later →
          (before ++ bench.checks .handle ++ log ++ closing.checks .handle ++ more).filter
            (fun check => check.definition = definition) = [check]) ∧
    ∀ turn : Workbench, turn.RunsChecks := by
  obtain ⟨hregular, hspent⟩ := h.spent (regular_new autoDefine)
  obtain ⟨hprior, hstart⟩ := stage_of_created hregular hseat hmailbox hlive hlast
  -- A definition that has been checked is not new to the controller.
  have hbefore : (before ++ bench.checks .handle).filter
      (fun check => check.definition = definition) = [] := by
    rw [checks_handle hseat hmailbox, Controller.checksOf, List.append_nil]
    refine List.filter_eq_nil_iff.mpr fun check hcheck => ?_
    simp only [decide_eq_true_eq]
    rintro rfl
    exact (hspent check hcheck).told controller hseat (hmailbox ▸ List.mem_cons_self)
  refine ⟨hprior, fun log closing closer tail haudit hcloser hwindow hheeds => ?_, runsChecks⟩
  obtain ⟨hclosing, hstage⟩ := CheckStage.audit (hregular.move .handle) hstart haudit
  cases hstage closer hcloser with
  | closed hover => exact absurd hheeds (by simp [Controller.not_heeds_of_isOver hover])
  | checked hspent hlog =>
      refine ⟨⟨.spawnCheck session.id definition, definition, session.prior⟩, rfl, rfl,
        Or.inl ⟨rfl, ?_⟩, fun allowed more later hmore => ?_⟩
      · exact List.mem_of_mem_filter (hlog ▸ List.mem_cons_self)
      · have hnone := (hspent.move hclosing .handle).filter_audit (hclosing.move .handle) hmore
        simp only [List.filter_append] at hbefore ⊢
        rw [hbefore, hlog, hnone, hspent.filter_checks hclosing .handle, List.nil_append,
          List.append_nil, List.append_nil]
  | due hdue hlog =>
      have hlast := hdue.filter_checks_window (hclosing.accounted closer hcloser)
        (hclosing.ordered.orderly closer hcloser)
      have hchecks : closing.checks .handle = closer.checks (.window session.id) :=
        checks_handle hcloser hwindow
      rw [← hchecks] at hlast
      refine ⟨⟨.window session.id, definition, session.prior⟩, rfl, rfl,
        Or.inr ⟨rfl, ?_⟩, fun allowed more later hmore => ?_⟩
      · exact List.mem_of_mem_filter (hlast ▸ List.mem_cons_self)
      · have hrecalled := hdue.mem_alarms (hclosing.accounted closer hcloser)
        have hspent := spent_of_turn hclosing hcloser hwindow hrecalled (Or.inr rfl)
        have hnone := hspent.filter_audit (hclosing.move .handle) hmore
        simp only [List.filter_append] at hbefore ⊢
        rw [hbefore, hlog, hnone, hlast, List.append_nil, List.nil_append, List.nil_append]

/-- The end of a session and the alarm of a definition go off at the same time.  The end is handled
first and runs the check, which removes the definition, and the alarm that is handled next runs
none. -/
theorem checked_once_of_audit_simultaneous :
    let settings := { Settings.default with spawnCheckDelay := 3000 }
    let bench := ((new false).run [.user (.define "f" ["x"]), .attach .count settings,
      .user (.call "f"), .advance 500, .user (.define "f2" ["y"])]).2
    let closing := (bench.move .handle).move (.wake 3500)
    let closed := closing.move .handle
    (∃ controller tail, closing.seat = .running controller ∧
      controller.mailbox = .due (.window ⟨0⟩) :: .due (.spawnCheck ⟨0⟩ ⟨2⟩) :: tail) ∧
    (∃ before check, Audit (fun _ _ => True) (new false) before bench ∧
      check.definition = ⟨2⟩ ∧ check.prior = [⟨0⟩] ∧ check.alarm = .window ⟨0⟩ ∧
      (before ++ bench.checks .handle ++ closing.checks .handle ++ closed.checks .handle).filter
        (fun check => check.definition = ⟨2⟩) = [check]) ∧
    closing.RunsChecks ∧ closing.host.editor.contains ⟨2⟩ = true ∧
      closed.host.editor.contains ⟨2⟩ = false := by
  intro settings bench closing closed
  let session : Session := ⟨⟨0⟩, ⟨1⟩, [⟨0⟩], .settling, [], []⟩
  let entering : Controller :=
    { Controller.new settings .count with
      sessions := [session]
      nextSession := 1
      lastGoodName := some "f"
      agenda := [⟨3500, .window ⟨0⟩⟩]
      mailbox := [.event ⟨.create, ⟨2⟩⟩] }
  let closer : Controller :=
    { entering with
      sessions := [{ session with spawnChecks := [⟨2⟩] }]
      agenda := []
      mailbox := [.due (.window ⟨0⟩), .due (.spawnCheck ⟨0⟩ ⟨2⟩)] }
  have hcourse : Course (fun _ _ => True) (new false) bench :=
    @course_run (fun _ _ => True) (fun _ => True) (fun _ _ _ => trivial)
      (fun _ _ _ _ _ => trivial) _ _ trivial fun _ _ _ _ _ => trivial
  obtain ⟨before, hbefore⟩ := hcourse.exists_audit
  have hseat : bench.seat = .running entering := by decide +kernel
  have hcloser : closing.seat = .running closer := by decide +kernel
  have hread : (bench.host.block? ⟨2⟩).any Block.isDefinition = true := by decide +kernel
  obtain ⟨block, hblock, hrole⟩ := (Option.any_eq_true _ _).mp hread
  have hlive : ∃ block, bench.host.block? ⟨2⟩ = some block ∧ block.role = .definition :=
    ⟨block, hblock, of_decide_eq_true hrole⟩
  have hlast : entering.sessions.getLast? = some session := rfl
  have hseated : Seated (bench.move .handle) (.wake 3500) := by
    unfold Seated
    decide +kernel
  have haudit : Audit Seated (bench.move .handle)
      ([] ++ (bench.move .handle).checks (.wake 3500)) closing := .move .refl hseated
  have hmore : Audit (fun _ _ => True) closed ([] ++ closed.checks .handle) (closed.move .handle) :=
    .move .refl trivial
  have hnone : [] ++ (bench.move .handle).checks (.wake 3500) = [] := rfl
  obtain ⟨-, honce, hruns⟩ := checked_once_of_audit hbefore hseat rfl hlive hlast
  obtain ⟨check, hdefinition, hprior, halarm, hchecked⟩ :=
    honce _ closing closer _ haudit hcloser rfl (by decide)
  have hrecord := hchecked _ _ _ hmore
  rw [hnone] at halarm hrecord
  rw [List.append_nil, List.nil_append] at hrecord
  have hwindow : check.alarm = .window ⟨0⟩ :=
    (halarm.resolve_left fun hearly => List.not_mem_nil hearly.2).1
  exact ⟨⟨closer, [], hcloser, rfl⟩,
    ⟨before, check, hbefore, hdefinition, hprior, hwindow, hrecord⟩, hruns closing,
    by decide +kernel, by decide +kernel⟩

end Workbench
end CallBinding
