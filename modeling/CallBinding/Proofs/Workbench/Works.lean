import CallBinding.Proofs.Host.Works
import CallBinding.Proofs.Workbench.Ordered

/-!
# What listeners are told

Whatever the move, the host is worked on once, and every listener is told of
the events of this work, in the same order: the recording listener and all
others that are subscribed.  A move that leaves the graph alone is the case in
which there was nothing to do and nothing to tell.
-/

namespace CallBinding

open CallBinding.Graph (Reconciles)

/-- The event of which an entry of the trace tells. -/
def TraceRow.event? : TraceRow → Option Event
  | heard _ event => some event
  | cleanup _ _ => none

namespace Workbench

/-- What the recording listener has heard, oldest first. -/
def stream (bench : Workbench) : List Event :=
  bench.trace.reverse.filterMap TraceRow.event?

/-- The recording listener has been told of some events, and so has every other one that is
subscribed in the end. -/
structure Broadcast (bench next : Workbench) (events : List Event) : Prop where
  stream : next.stream = bench.stream ++ events
  taps : ∀ (number : Nat) (tap : Tap), bench.taps[number]? = some tap →
    ∃ later, next.taps[number]? = some later ∧
      (later.isSubscribed = true → tap.isSubscribed = true ∧ later.heard = tap.heard ++ events)

namespace Broadcast

variable {first mid last : Workbench} {events more : List Event}

theorem of_eq (hstream : last.stream = first.stream) (htaps : last.taps = first.taps) :
    Broadcast first last [] := by
  constructor
  · rw [hstream, List.append_nil]
  · intro number tap htap
    exact ⟨tap, htaps ▸ htap, fun hsubscribed => ⟨hsubscribed, (List.append_nil _).symm⟩⟩

theorem trans (hfirst : Broadcast first mid events) (hlast : Broadcast mid last more) :
    Broadcast first last (events ++ more) := by
  constructor
  · rw [hlast.stream, hfirst.stream, List.append_assoc]
  · intro number tap htap
    obtain ⟨between, hbetween, hheard⟩ := hfirst.taps number tap htap
    obtain ⟨later, hlater, hmore⟩ := hlast.taps number between hbetween
    refine ⟨later, hlater, fun hsubscribed => ?_⟩
    obtain ⟨hstill, hlaterHeard⟩ := hmore hsubscribed
    obtain ⟨hformer, hbetweenHeard⟩ := hheard hstill
    exact ⟨hformer, by rw [hlaterHeard, hbetweenHeard, List.append_assoc]⟩

end Broadcast

/-- The host has been worked on, and the listeners have been told of the events. -/
structure Works (bench next : Workbench) (host : Host) : Prop where
  worked : bench.host.Worked host
  editor : next.host.editor = host.editor.delivered
  broadcast : Broadcast bench next host.editor.outbox

/-- Every event that is heard is added at the end. -/
theorem stream_of_trace {bench next : Workbench} {time : Nat} {events : List Event}
    (h : next.trace = (events.map (.heard time)).reverse ++ bench.trace) :
    next.stream = bench.stream ++ events := by
  have hevents : (events.map (TraceRow.heard time)).filterMap TraceRow.event? = events := by
    rw [List.filterMap_map]
    exact List.filterMap_some
  rw [stream, stream, h, List.reverse_append, List.reverse_reverse, List.filterMap_append, hevents]

theorem broadcast_adopt (bench : Workbench) (host : Host) :
    Broadcast bench (bench.adopt host) host.editor.outbox := by
  refine ⟨stream_of_trace rfl, fun number tap htap => ?_⟩
  refine ⟨tap.hear host.editor.outbox, ?_, ?_⟩
  · simp only [adopt, deliver, List.getElem?_map, htap, Option.map_some]
  · unfold Tap.hear
    split
    next hsubscribed => exact fun _ => ⟨hsubscribed, rfl⟩
    next hnot => exact fun hsubscribed => absurd hsubscribed hnot

namespace Works

variable {bench next quiet : Workbench} {host : Host}

/-- A host is taken over, once other parts of the workbench are different. -/
theorem adopt (hworked : bench.host.Worked host) (hstream : quiet.stream = bench.stream)
    (htaps : quiet.taps = bench.taps) : Works bench (quiet.adopt host) host :=
  ⟨hworked, rfl, (Broadcast.of_eq hstream htaps).trans (quiet.broadcast_adopt host)⟩

/-- Nothing happens to the host. -/
theorem idle (h : Ordered bench) (heditor : next.host.editor = bench.host.editor)
    (hbroadcast : Broadcast bench next []) : Works bench next bench.host := by
  refine ⟨.refl bench.host, ?_, h.outbox ▸ hbroadcast⟩
  rw [heditor, Editor.delivered, ← h.outbox]

theorem refl (h : Ordered bench) : Works bench bench bench.host :=
  .idle h rfl (.of_eq rfl rfl)

end Works

/-! ## One move -/

variable {bench : Workbench}

theorem works_act (h : Ordered bench) (action : UserAction) :
    ∃ host, Works bench (bench.act action).2 host := by
  unfold act
  split
  next yield editor hact => exact ⟨_, .adopt (.acted hact) rfl rfl⟩
  next => exact ⟨_, .refl h⟩

theorem works_inspect (h : Ordered bench) (inspection : Inspection) :
    ∃ host, Works bench (bench.inspect inspection).2 host := by
  cases inspection with
  | clearCommands => exact ⟨_, .adopt .forgot rfl rfl⟩
  | _ => exact ⟨_, .refl h⟩

/-- Listeners that come or go leave the others as they are. -/
theorem broadcast_subscribe (bench : Workbench) :
    Broadcast bench (bench.request .subscribe).2 [] := by
  refine ⟨(List.append_nil _).symm, fun number tap htap => ⟨tap, ?_, ?_⟩⟩
  · have hlt : number < bench.taps.length := List.getElem?_eq_some_iff.mp htap |>.1
    simpa only [Workbench.request, List.getElem?_append_left hlt] using htap
  · exact fun hsubscribed => ⟨hsubscribed, (List.append_nil _).symm⟩

theorem broadcast_unsubscribe (bench : Workbench) (number : Nat) :
    Broadcast bench (bench.request (.unsubscribe number)).2 [] := by
  refine ⟨(List.append_nil _).symm, fun other tap htap => ?_⟩
  simp only [Workbench.request, modifyTap, List.getElem?_modify, htap]
  split
  · exact ⟨_, rfl, fun hsubscribed => absurd hsubscribed Bool.false_ne_true⟩
  · exact ⟨_, rfl, fun hsubscribed => ⟨hsubscribed, (List.append_nil _).symm⟩⟩

theorem works_request (h : Ordered bench) (request : HostRequest) :
    ∃ host, Works bench (bench.request request).2 host := by
  cases request with
  | command command =>
      simp only [Workbench.request]
      cases hperform : bench.host.perform command with
      | ok after => exact ⟨_, .adopt (.issued (Host.perform_onLive hperform)) rfl rfl⟩
      | error _ => exact ⟨_, .refl h⟩
  | field id key =>
      simp only [Workbench.request]
      split <;> exact ⟨_, .refl h⟩
  | parameters id =>
      simp only [Workbench.request]
      split <;> exact ⟨_, .refl h⟩
  | suppress => exact ⟨_, .adopt .suppressed rfl rfl⟩
  | resume => exact ⟨_, .adopt .resumed rfl rfl⟩
  | subscribe => exact ⟨_, .idle h rfl bench.broadcast_subscribe⟩
  | unsubscribe number => exact ⟨_, .idle h rfl (bench.broadcast_unsubscribe number)⟩
  | block _ | blocksOfRole _ | declared _ | heard _ => exact ⟨_, .refl h⟩

theorem works_keepPlan (h : Ordered bench) (plan : List Resolution) :
    ∃ host, Works bench (bench.keepPlan plan).2 host :=
  ⟨_, .idle h rfl (.of_eq rfl rfl)⟩

theorem works_reconcile (h : Ordered bench) (reconciliation : Reconciliation) :
    ∃ host, Works bench (bench.reconcile reconciliation).2 host := by
  have hdistinct := h.consistent.numbered.distinct
  have bound {after : Host} (hbinds : Host.Issues Graph.Binds bench.host after) :
      bench.host.Worked after := by
    have hissues : Host.Issues (Reconciles fun _ => False) bench.host after :=
      hbinds.reconciles_of_binds
    exact .issued hissues.onLive
  cases reconciliation with
  | sync call definition =>
      simp only [reconcile]
      exact ⟨_, .adopt (bound (bench.host.sync_issues call definition)) rfl rfl⟩
  | syncCallers definition =>
      simp only [reconcile]
      split
      · exact ⟨_, .refl h⟩
      next found _ => exact ⟨_, .adopt (bound (bench.host.syncCallers_issues found)) rfl rfl⟩
  | apply plan =>
      have hissues : Host.Issues (Reconciles fun _ => True) bench.host
          (bench.host.apply (plan.getD bench.plan)).2 :=
        Host.apply_reconciles hdistinct fun _ _ => trivial
      simp only [reconcile, carryOut]
      exact ⟨_, .adopt (.issued hissues.onLive) rfl rfl⟩
  | sweep =>
      simp only [reconcile]
      exact ⟨_, .adopt (.issued (Host.sweep_reconciles hdistinct).onLive) rfl rfl⟩
  | plan | planFamily _ | planSpawned _ _ =>
      simp only [reconcile]
      exact works_keepPlan h _
  | identitiesOf _ | members => exact ⟨_, .refl h⟩

/-- Only while it binds a new call site does a controller suppress events. -/
theorem Ordered.worked_turn (h : Ordered bench) {controller : Controller} {message : Message}
    {rest : List Message} (hseat : bench.seat = .running controller)
    (hmailbox : controller.mailbox = message :: rest) :
    bench.host.Worked
      ({ controller with mailbox := rest }.handle bench.clock bench.host message).host := by
  have hknows := h.consistent.knows controller hseat
  cases message with
  | event _ | detach => exact .refl bench.host
  | callSiteCreated call prior =>
      have honly : bench.host.editor.OnlyCallSite call :=
        hknows.messages call prior (hmailbox ▸ List.mem_cons_self)
      exact .of_operates (Controller.onCallSiteCreated_reconciles honly
        { controller with mailbox := rest } bench.clock prior)
  | due alarm =>
      have honly : ∀ session ∈ ({ controller with mailbox := rest } : Controller).sessions,
          bench.host.editor.OnlyCallSite session.callSite := hknows.sessions
      have hissues := Controller.onAlarm_reconciles h.consistent.numbered.distinct honly
        (h.orderly controller hseat).spares bench.clock alarm
      exact .issued hissues.onLive

/-- A cleanup leaves a row in the trace, but it is no event. -/
theorem stream_started (bench : Workbench) (cleanup : Option Cleanup) (fate : Fate) :
    ({ bench with trace := (cleanup.map (TraceRow.cleanup bench.clock)).toList ++
      bench.trace }.seatFate fate).stream = bench.stream := by
  cases fate <;> cases cleanup <;> simp [seatFate, stream, TraceRow.event?]

theorem stream_takeTurn (bench : Workbench) (turn : Turn) :
    (bench.takeTurn turn).stream = bench.stream ++ turn.host.editor.outbox := by
  rw [takeTurn, (broadcast_adopt _ turn.host).stream, stream_started]

theorem works_handle (h : Ordered bench) : ∃ host, Works bench bench.handleNext host := by
  rcases bench.handleNext_cases with hsame | ⟨controller, message, rest, hseat, hmailbox, hturn⟩
  · rw [hsame]
    exact ⟨_, .refl h⟩
  · have hworked := h.worked_turn hseat hmailbox
    rw [hturn]
    generalize { controller with mailbox := rest }.handle bench.clock bench.host message = turn
      at hworked
    refine ⟨turn.host, .adopt hworked (bench.stream_started turn.cleanup turn.fate) ?_⟩
    cases turn.fate <;> rfl

/-- Every move works on the host in one of the ways there are, and tells every listener. -/
theorem works_move (h : Ordered bench) (move : Move) :
    ∃ host, Works bench (bench.move move) host := by
  cases move with
  | act action => exact works_act h action
  | inspect inspection => exact works_inspect h inspection
  | request request => exact works_request h request
  | reconcile reconciliation => exact works_reconcile h reconciliation
  | attach cleanup settings =>
      simp only [Workbench.move, install]
      split
      · exact ⟨_, .idle h rfl (.of_eq rfl rfl)⟩
      · exact ⟨_, .refl h⟩
  | handle => exact works_handle h
  | wake time =>
      simp only [Workbench.move, wake]
      split <;> exact ⟨_, .idle h rfl (.of_eq rfl rfl)⟩
  | setFaults _ _ | setLeaky _ | tick _ | dismiss | vacate =>
      exact ⟨_, .idle h rfl (.of_eq rfl rfl)⟩

end Workbench
end CallBinding
