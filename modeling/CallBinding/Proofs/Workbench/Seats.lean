import CallBinding.Proofs.Controller.Binding
import CallBinding.Proofs.Workbench.Moves

/-!
# What a move makes of a workbench

What users and programs ask of a workbench either leaves its host alone or
replaces the editor by one that has made progress.  Whatever the move, `Seats`
lists how the controller that is seated after it has come to its seat.
-/

namespace CallBinding

open Editor (Progress)

/-- A message about a change of the graph. -/
def Message.IsNews : Message → Prop
  | event _ | callSiteCreated _ _ => True
  | due _ | detach => False

theorem Message.isNews_ofEvent (host : Host) (event : Event) :
    (Message.ofEvent host event).IsNews := by
  unfold ofEvent
  split <;> trivial

/-- The news of a call site is about a live one, and goes with the live definitions. -/
theorem Message.exists_of_ofEvent {host : Host} {event : Event} {call : BlockId}
    {prior : List BlockId} (h : ofEvent host event = .callSiteCreated call prior) :
    event = ⟨.create, call⟩ ∧ prior = host.definitions.map (·.id) ∧
      ∃ block ∈ host.editor.blocks, block.id = call ∧ block.role = .callSite := by
  unfold ofEvent at h
  split at h
  next hcreate =>
    obtain ⟨rfl, rfl⟩ := Message.callSiteCreated.inj h
    obtain ⟨hkind, hsite⟩ := Bool.and_eq_true_iff.mp hcreate
    obtain ⟨block, hblock, hrole⟩ := (Option.any_eq_true _ _).mp hsite
    refine ⟨by rw [← of_decide_eq_true hkind], rfl, block, ?_⟩
    unfold Host.block? at hblock
    split at hblock
    · cases hblock
    · exact ⟨List.mem_of_find?_eq_some hblock, by simpa using List.find?_some hblock,
        by simpa [Block.isCallSite] using hrole⟩
  next => cases h

/-- The controller once it has been told of some events. -/
def Controller.hear (controller : Controller) (host : Host) (events : List Event) : Controller :=
  { controller with mailbox := controller.mailbox ++ events.map (Message.ofEvent host) }

@[simp] theorem Controller.settings_hear (controller : Controller) (host : Host)
    (events : List Event) : (controller.hear host events).settings = controller.settings :=
  rfl

@[simp] theorem Controller.debounce_hear (controller : Controller) (host : Host)
    (events : List Event) : (controller.hear host events).debounce = controller.debounce :=
  rfl

namespace Workbench

/-! ## Requests from outside -/

/-- The host is left alone, or its editor is replaced by one that has made progress. -/
inductive Adopts (bench next : Workbench) : Prop
  | same : next.host = bench.host → next.seat = bench.seat → next.trace = bench.trace →
      Adopts bench next
  | adopt (host : Host) (plan : List Resolution) : host.faults = bench.host.faults →
      Progress bench.host.editor host.editor → next = { bench with plan := plan }.adopt host →
      Adopts bench next

theorem Adopts.refl (bench : Workbench) : Adopts bench bench :=
  .same rfl rfl rfl

theorem Adopts.of_issues {bench : Workbench} {condition : List Block → Command → Prop}
    {host : Host} (h : Host.Issues condition bench.host host) : Adopts bench (bench.adopt host) := by
  have hprogress := h.progress
  obtain ⟨commands, -, rfl⟩ := h
  exact .adopt (bench.host.issue commands) bench.plan rfl hprogress rfl

theorem adopts_act (bench : Workbench) (action : UserAction) :
    Adopts bench (bench.act action).2 := by
  unfold act
  split
  next yield editor hact =>
    exact .adopt (bench.host.withEditor editor) bench.plan rfl (Editor.progress_act hact) rfl
  next => exact .refl bench

theorem adopts_inspect (bench : Workbench) (inspection : Inspection) :
    Adopts bench (bench.inspect inspection).2 := by
  cases inspection with
  | clearCommands =>
      exact .adopt (bench.host.withEditor bench.host.editor.clearCommands) bench.plan rfl
        (.of_silent rfl rfl rfl rfl) rfl
  | _ => exact .refl bench

theorem perform_issues {host after : Host} {command : Command}
    (h : host.perform command = .ok after) : Host.Issues Host.AnyCommand host after :=
  (Host.perform_issues_only h).mono fun _ _ _ => trivial

theorem adopts_request (bench : Workbench) {request : HostRequest} (hsuppress : request ≠ .suppress)
    (hresume : request ≠ .resume) : Adopts bench (bench.request request).2 := by
  cases request with
  | command command =>
      simp only [Workbench.request, adoptCommand]
      cases hperform : bench.host.perform command with
      | ok after => exact .of_issues (perform_issues hperform)
      | error _ => exact .refl bench
  | field id key =>
      simp only [Workbench.request]
      split <;> exact .refl bench
  | parameters id =>
      simp only [Workbench.request]
      split <;> exact .refl bench
  | suppress => exact absurd rfl hsuppress
  | resume => exact absurd rfl hresume
  | subscribe => exact .same rfl rfl rfl
  | unsubscribe tap => exact .same rfl rfl rfl
  | block _ | blocksOfRole _ | declared _ | heard _ => exact .refl bench

theorem adopts_keepPlan (bench : Workbench) (plan : List Resolution) :
    Adopts bench (bench.keepPlan plan).2 :=
  .same rfl rfl rfl

theorem adopts_reconcile (bench : Workbench) (reconciliation : Reconciliation) :
    Adopts bench (bench.reconcile reconciliation).2 := by
  cases reconciliation with
  | sync call definition => exact .of_issues (bench.host.sync_issues call definition)
  | syncCallers definition =>
      simp only [reconcile]
      split
      · exact .refl bench
      · exact .of_issues (bench.host.syncCallers_issues _)
  | apply plan =>
      have hissues := bench.host.apply_issues (plan.getD bench.plan)
      have hprogress := hissues.progress
      obtain ⟨commands, -, hissued⟩ := hissues
      exact .adopt _ (plan.getD bench.plan) (by rw [hissued]; rfl) hprogress rfl
  | sweep =>
      simp only [reconcile]
      exact .of_issues bench.host.sweep_issues
  | plan | planFamily _ | planSpawned _ _ =>
      simp only [reconcile]
      exact bench.adopts_keepPlan _
  | identitiesOf _ | members => exact .refl bench

/-! ## Seats -/

theorem controller?_eq_some_iff {bench : Workbench} {controller : Controller} :
    bench.controller? = some controller ↔ bench.seat = .running controller := by
  unfold controller?
  cases bench.seat <;> simp

theorem post_eq_running {seat : Seat} {messages : List Message} {controller : Controller}
    (h : Seat.post messages seat = .running controller) :
    ∃ former, seat = .running former ∧
      controller = { former with mailbox := former.mailbox ++ messages } := by
  cases seat with
  | running former => exact ⟨former, rfl, (Seat.running.inj h).symm⟩
  | vacant => cases h
  | crashed => cases h

/-- A controller is told of the events of a host that is taken over. -/
theorem seat_adopt_eq_running {bench : Workbench} {host : Host} {controller : Controller}
    (h : (bench.adopt host).seat = .running controller) :
    ∃ former, bench.seat = .running former ∧
      controller = former.hear (bench.adopt host).host host.editor.outbox :=
  post_eq_running h

/-- The controller that goes on after a turn, before it hears of the turn's events. -/
theorem seatFate_eq_running {bench : Workbench} {fate : Fate} {controller : Controller}
    (h : (bench.seatFate fate).seat = .running controller) : fate = .running controller := by
  cases fate with
  | running next => rw [Seat.running.inj h]
  | detached => cases h
  | crashed => cases h

theorem seat_takeTurn_eq_running {bench : Workbench} {turn : Turn} {controller : Controller}
    (h : (bench.takeTurn turn).seat = .running controller) :
    ∃ next, turn.fate = .running next ∧
      controller = next.hear (bench.takeTurn turn).host turn.host.editor.outbox := by
  obtain ⟨next, hnext, hcontroller⟩ := seat_adopt_eq_running h
  exact ⟨next, seatFate_eq_running hnext, hcontroller⟩

theorem seat_takeTurn_of_running (bench : Workbench) {turn : Turn} {next : Controller}
    (h : turn.fate = .running next) :
    (bench.takeTurn turn).seat =
      .running (next.hear (bench.takeTurn turn).host turn.host.editor.outbox) := by
  simp only [takeTurn, adopt, deliver, h]
  rfl

@[simp] theorem host_seatFate (bench : Workbench) (fate : Fate) :
    (bench.seatFate fate).host = bench.host := by
  cases fate <;> rfl

theorem host_takeTurn (bench : Workbench) (turn : Turn) :
    (bench.takeTurn turn).host = turn.host.withEditor turn.host.editor.delivered := by
  simp [takeTurn, adopt, deliver]

/-- A turn is taken on the first message. -/
theorem handleNext_eq {bench : Workbench} {controller : Controller} {message : Message}
    {rest : List Message} (hseat : bench.seat = .running controller)
    (hmailbox : controller.mailbox = message :: rest) :
    bench.handleNext =
      bench.takeTurn ({ controller with mailbox := rest }.handle bench.clock bench.host message) := by
  simp [handleNext, controller?, hseat, hmailbox]

/-- A controller that goes on after a turn without a cleanup keeps its seat. -/
theorem handleNext_of_proceed {bench : Workbench} {controller next : Controller}
    {message : Message} {rest : List Message} {after : Host}
    (hseat : bench.seat = .running controller) (hmailbox : controller.mailbox = message :: rest)
    (hturn : { controller with mailbox := rest }.handle bench.clock bench.host message =
      .proceed next after) :
    bench.handleNext.host = after.withEditor after.editor.delivered ∧
      bench.handleNext.seat =
        .running (next.hear bench.handleNext.host after.editor.outbox) := by
  rw [handleNext_eq hseat hmailbox, hturn]
  exact ⟨bench.host_takeTurn _, bench.seat_takeTurn_of_running rfl⟩

theorem handleNext_of_nil {bench : Workbench} {controller : Controller}
    (hseat : bench.seat = .running controller) (hmailbox : controller.mailbox = []) :
    bench.handleNext = bench := by
  simp [handleNext, controller?, hseat, hmailbox]

/-- There is no message to handle, or a turn is taken on the first one. -/
theorem handleNext_cases (bench : Workbench) :
    bench.handleNext = bench ∨
      ∃ controller message rest, bench.seat = .running controller ∧
        controller.mailbox = message :: rest ∧ bench.handleNext = bench.takeTurn
          ({ controller with mailbox := rest }.handle bench.clock bench.host message) := by
  cases hcontroller : bench.controller? with
  | none => exact Or.inl (by simp [handleNext, hcontroller])
  | some controller =>
      have hseat := controller?_eq_some_iff.mp hcontroller
      cases hmailbox : controller.mailbox with
      | nil => exact Or.inl (handleNext_of_nil hseat hmailbox)
      | cons message rest =>
          exact Or.inr ⟨controller, message, rest, hseat, hmailbox, handleNext_eq hseat hmailbox⟩

theorem seat_of_seat_handleNext {bench : Workbench} {later : Controller}
    (h : bench.handleNext.seat = .running later) :
    ∃ controller, bench.seat = .running controller := by
  unfold handleNext at h
  split at h
  · exact ⟨later, h⟩
  next controller hcontroller => exact ⟨controller, controller?_eq_some_iff.mp hcontroller⟩

/-! ## Hosts -/

/-- How the host has come about that a workbench has after a move. -/
inductive Hosts (bench : Workbench) : Move → Host → Prop
  | kept (move : Move) : Hosts bench move bench.host
  /-- Users or programs have worked on it. -/
  | adopted (move : Move) (host : Host) : host.faults = bench.host.faults →
      Progress bench.host.editor host.editor →
      Hosts bench move (host.withEditor host.editor.delivered)
  | suppressed : Hosts bench (.request .suppress)
      (bench.host.suppress.withEditor bench.host.suppress.editor.delivered)
  | resumed : Hosts bench (.request .resume)
      (bench.host.resume.withEditor bench.host.resume.editor.delivered)
  | scripted (id : BlockId) (faults : List Fault) :
      Hosts bench (.setFaults id faults) (bench.host.setFaults id faults)
  | leaked (leaky : Bool) : Hosts bench (.setLeaky leaky) { bench.host with leaky := leaky }
  /-- The controller has handled a message. -/
  | turned {controller : Controller} {message : Message} {rest : List Message} {after : Host} :
      bench.seat = .running controller → controller.mailbox = message :: rest →
      ({ controller with mailbox := rest }.handle bench.clock bench.host message).host = after →
      Hosts bench .handle (after.withEditor after.editor.delivered)

theorem Hosts.of_adopts {bench next : Workbench} (move : Move) (h : Adopts bench next) :
    Hosts bench move next.host := by
  cases h with
  | same hhost _ _ => exact hhost ▸ .kept move
  | adopt host plan hfaults hprogress hnext => exact hnext ▸ .adopted move host hfaults hprogress

theorem hosts_handle (bench : Workbench) : Hosts bench .handle bench.handleNext.host := by
  rcases bench.handleNext_cases with hsame | ⟨_, _, _, hseat, hmailbox, hturn⟩
  · rw [hsame]
    exact .kept .handle
  · rw [hturn, host_takeTurn]
    exact .turned hseat hmailbox rfl

theorem hosts_move (bench : Workbench) (move : Move) :
    Hosts bench move (bench.move move).host := by
  cases move with
  | act action => exact .of_adopts _ (bench.adopts_act action)
  | inspect inspection => exact .of_adopts _ (bench.adopts_inspect inspection)
  | request request =>
      by_cases hsuppress : request = .suppress
      · exact hsuppress ▸ .suppressed
      · by_cases hresume : request = .resume
        · exact hresume ▸ .resumed
        · exact .of_adopts _ (bench.adopts_request hsuppress hresume)
  | reconcile reconciliation => exact .of_adopts _ (bench.adopts_reconcile reconciliation)
  | setFaults id faults => exact .scripted id faults
  | setLeaky leaky => exact .leaked leaky
  | attach cleanup settings =>
      have hhost : (bench.install cleanup settings).host = bench.host := by
        unfold install
        split <;> rfl
      exact hhost ▸ .kept (.attach cleanup settings)
  | handle => exact bench.hosts_handle
  | wake time =>
      have hhost : (bench.wake time).host = bench.host := by
        unfold wake
        split <;> rfl
      exact hhost ▸ .kept (.wake time)
  | tick _ | dismiss | vacate => exact .kept _

/-! ## The clock and the controllers after a move -/

/-- Only the inner moves of steps move the clock. -/
theorem clock_move (bench : Workbench) {move : Move} (hmove : ¬move.IsInner) :
    (bench.move move).clock = bench.clock := by
  cases move with
  | act action =>
      simp only [Workbench.move, act]
      split <;> rfl
  | inspect inspection => cases inspection <;> rfl
  | request request =>
      cases request with
      | command command =>
          simp only [Workbench.move, Workbench.request]
          cases bench.host.perform command <;> rfl
      | field id key =>
          simp only [Workbench.move, Workbench.request]
          split <;> rfl
      | parameters id =>
          simp only [Workbench.move, Workbench.request]
          split <;> rfl
      | _ => rfl
  | reconcile reconciliation =>
      cases reconciliation with
      | syncCallers definition =>
          simp only [Workbench.move, reconcile]
          split <;> rfl
      | plan | planFamily _ | planSpawned _ _ => simp only [Workbench.move, reconcile, keepPlan]
      | sync _ _ | apply _ | sweep =>
          simp only [Workbench.move, reconcile, carryOut, adopt, deliver]
      | identitiesOf _ | members => rfl
  | attach cleanup settings =>
      simp only [Workbench.move, install]
      split <;> rfl
  | setFaults _ _ | setLeaky _ => rfl
  | handle | wake _ | tick _ | dismiss | vacate => exact absurd trivial hmove

/-- How the controller that is seated after a move has come to its seat. -/
inductive Seats (bench : Workbench) : Move → Controller → Prop
  | installed (cleanup : Cleanup) (settings : Settings) : bench.seat = .vacant →
      Seats bench (.attach cleanup settings) (.new settings cleanup)
  /-- It has kept its seat, and may have been told of events. -/
  | told {former : Controller} {move : Move} (events : List Event) :
      bench.seat = .running former → ¬move.IsInner →
      (bench.move move).trace = (events.map (.heard bench.clock)).reverse ++ bench.trace →
      Seats bench move (former.hear (bench.move move).host events)
  /-- It has found no message. -/
  | idled {former : Controller} : bench.seat = .running former → former.mailbox = [] →
      Seats bench .handle former
  /-- It has handled a message, and is then told of the events of its turn. -/
  | turned {former next : Controller} {message : Message} {rest : List Message} :
      bench.seat = .running former → former.mailbox = message :: rest →
      ({ former with mailbox := rest }.handle bench.clock bench.host message).fate =
        .running next →
      Seats bench .handle (next.hear (bench.move .handle).host
        ({ former with mailbox := rest }.handle bench.clock bench.host
          message).host.editor.outbox)
  | woken {former : Controller} (time : Nat) : bench.seat = .running former →
      Seats bench (.wake time) (former.wake time)
  | ticked {former : Controller} (time : Nat) : bench.seat = .running former →
      Seats bench (.tick time) former
  /-- It is asked to stop. -/
  | dismissed {former : Controller} : bench.seat = .running former →
      Seats bench .dismiss { former with mailbox := former.mailbox ++ [.detach] }

variable {bench : Workbench} {move : Move} {later : Controller}

theorem Seats.of_same (hmove : ¬move.IsInner) (hsame : (bench.move move).seat = bench.seat)
    (htrace : (bench.move move).trace = bench.trace)
    (hseat : (bench.move move).seat = .running later) : Seats bench move later := by
  have htold : Seats bench move (later.hear (bench.move move).host []) :=
    .told [] (hsame ▸ hseat) hmove (by simpa using htrace)
  simpa [Controller.hear] using htold

theorem Seats.of_adopt {host : Host} (plan : List Resolution) (hinner : ¬move.IsInner)
    (hmove : bench.move move = { bench with plan := plan }.adopt host)
    (hseat : (bench.move move).seat = .running later) : Seats bench move later := by
  have htrace : (bench.move move).trace =
      (host.editor.outbox.map (.heard bench.clock)).reverse ++ bench.trace := by
    rw [hmove]
    rfl
  rw [hmove] at hseat
  obtain ⟨former, hformer, hlater⟩ := seat_adopt_eq_running hseat
  have hrunning : bench.seat = .running former := hformer
  rw [hlater, ← hmove]
  exact .told host.editor.outbox hrunning hinner htrace

theorem Seats.of_adopts (hinner : ¬move.IsInner) (hadopts : Adopts bench (bench.move move))
    (hseat : (bench.move move).seat = .running later) : Seats bench move later := by
  cases hadopts with
  | same _ hsame htrace => exact .of_same hinner hsame htrace hseat
  | adopt host plan _ _ hmove => exact .of_adopt plan hinner hmove hseat

theorem seats_handle (hseat : (bench.move .handle).seat = .running later) :
    Seats bench .handle later := by
  obtain ⟨former, hformer⟩ := seat_of_seat_handleNext hseat
  cases hmailbox : former.mailbox with
  | nil =>
      have hsame : bench.move .handle = bench := handleNext_of_nil hformer hmailbox
      rw [hsame, hformer] at hseat
      obtain rfl := Seat.running.inj hseat
      exact .idled hformer hmailbox
  | cons message rest =>
      have hmove : bench.move .handle = bench.takeTurn
          ({ former with mailbox := rest }.handle bench.clock bench.host message) :=
        handleNext_eq hformer hmailbox
      rw [hmove] at hseat
      obtain ⟨next, hfate, hlater⟩ := seat_takeTurn_eq_running hseat
      rw [hlater, ← hmove]
      exact .turned hformer hmailbox hfate

/-- Every controller that is seated after a move has come to its seat in one of the listed ways. -/
theorem seats_move (hseat : (bench.move move).seat = .running later) : Seats bench move later := by
  cases move with
  | act action => exact .of_adopts id (bench.adopts_act action) hseat
  | inspect inspection => exact .of_adopts id (bench.adopts_inspect inspection) hseat
  | request request =>
      by_cases hsuppress : request = .suppress
      · subst hsuppress
        exact .of_adopt bench.plan id rfl hseat
      · by_cases hresume : request = .resume
        · subst hresume
          exact .of_adopt bench.plan id rfl hseat
        · exact .of_adopts id (bench.adopts_request hsuppress hresume) hseat
  | reconcile reconciliation => exact .of_adopts id (bench.adopts_reconcile reconciliation) hseat
  | attach cleanup settings =>
      have hmove : bench.move (.attach cleanup settings) = bench.install cleanup settings := rfl
      unfold install at hmove
      split at hmove
      next hvacant =>
        rw [hmove] at hseat
        obtain rfl := Seat.running.inj hseat
        exact .installed cleanup settings hvacant
      · exact .of_same id (by rw [hmove]) (by rw [hmove]) hseat
  | handle => exact seats_handle hseat
  | wake time =>
      have hmove : bench.move (.wake time) = bench.wake time := rfl
      unfold wake at hmove
      rw [hmove] at hseat
      split at hseat
      next hnone =>
        have hrunning : bench.seat = .running later := hseat
        rw [controller?_eq_some_iff.mpr hrunning] at hnone
        cases hnone
      next former hformer =>
        obtain rfl := Seat.running.inj hseat
        exact .woken time (controller?_eq_some_iff.mp hformer)
  | tick time => exact .ticked time hseat
  | dismiss =>
      obtain ⟨former, hformer, rfl⟩ := post_eq_running hseat
      exact .dismissed hformer
  | setFaults _ _ | setLeaky _ => exact .of_same id rfl rfl hseat
  | vacate => cases hseat

end Workbench
end CallBinding
