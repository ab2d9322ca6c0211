import CallBinding.Proofs.Editor.Stream
import CallBinding.Proofs.Workbench.Silence
import CallBinding.Proofs.Workbench.Timers
import CallBinding.Proofs.Workbench.Works

/-!
# The stream of events

As long as users and programs open no suppression, whoever listens can keep
track of the graph: the recording listener, every other one while it is
subscribed, and the controller, for which the events wait in its mailbox.  The
suppressions of the controller do no harm, because it opens them only to bind
a call site, and then neither creates nor deletes a block.
-/

namespace CallBinding

open Editor (Follows)

/-- A move by which nobody but the controller suppresses events. -/
def Move.IsOpen (move : Move) : Prop :=
  move ≠ .request .suppress

instance : DecidablePred Move.IsOpen := fun move =>
  inferInstanceAs (Decidable (move ≠ .request .suppress))

theorem Move.IsInner.isOpen {move : Move} (h : move.IsInner) : move.IsOpen := by
  rintro rfl
  exact h

theorem Move.IsOpen.resuppress_zero {move : Move} (h : move.IsOpen) : move.resuppress 0 = 0 := by
  unfold resuppress
  split
  · exact absurd rfl h
  · rfl
  · rfl

/-- The event of which a message tells. -/
def Message.event? : Message → Option Event
  | event heard => some heard
  | callSiteCreated call _ => some ⟨.create, call⟩
  | due _ | detach => none

theorem Message.event?_ofEvent (host : Host) (event : Event) :
    (ofEvent host event).event? = some event := by
  obtain ⟨kind, block⟩ := event
  unfold ofEvent
  split
  next hcreate =>
    obtain rfl : kind = .create := of_decide_eq_true (Bool.and_eq_true_iff.mp hcreate).1
    rfl
  next => rfl

namespace Controller

/-- The events of which the controller has been told, but which it has not handled yet. -/
def news (controller : Controller) : List Event :=
  controller.mailbox.filterMap Message.event?

theorem news_hear (controller : Controller) (host : Host) (events : List Event) :
    (controller.hear host events).news = controller.news ++ events := by
  have hevents : (events.map (Message.ofEvent host)).filterMap Message.event? = events := by
    rw [List.filterMap_map]
    exact (List.filterMap_congr fun event _ => Message.event?_ofEvent host event).trans
      List.filterMap_some
  rw [news, hear, List.filterMap_append, hevents]
  rfl

/-- Messages that tell of no event are no news. -/
theorem news_post (controller : Controller) {messages : List Message}
    (h : ∀ message ∈ messages, message.event? = none) :
    news { controller with mailbox := controller.mailbox ++ messages } = controller.news := by
  rw [news, List.filterMap_append, List.filterMap_eq_nil_iff.mpr h, List.append_nil, news]

end Controller

namespace Workbench

variable {bench first last : Workbench}

/-! ## The graph -/

namespace Ordered

theorem exists_follows_move (h : Ordered bench) (hopen : bench.host.editor.suppression = 0)
    {move : Move} (hmove : move.IsOpen) :
    (bench.move move).host.editor.suppression = 0 ∧
      ∃ events, Broadcast bench (bench.move move) events ∧
        Follows bench.host.editor (bench.move move).host.editor events := by
  have hstill : (bench.move move).host.editor.suppression = 0 := by
    rw [suppression_move h, hopen, hmove.resuppress_zero]
  obtain ⟨host, hworks⟩ := works_move h move
  have hhostStill : host.editor.suppression = 0 := by
    rw [hworks.editor] at hstill
    exact hstill
  obtain ⟨events, houtbox, hfollows⟩ :=
    hworks.worked.follows h.consistent.numbered hopen hhostStill
  rw [h.outbox, List.nil_append] at houtbox
  refine ⟨hstill, events, houtbox ▸ hworks.broadcast, ?_⟩
  rw [hworks.editor]
  exact ⟨hfollows.live, hfollows.created⟩

theorem exists_follows (h : Ordered first) (hopen : first.host.editor.suppression = 0)
    (hleads : Leads Move.IsOpen first last) :
    last.host.editor.suppression = 0 ∧
      ∃ events, Broadcast first last events ∧
        Follows first.host.editor last.host.editor events := by
  have hlast := hleads.preserves (fun bench => Ordered bench ∧
    bench.host.editor.suppression = 0 ∧ ∃ events, Broadcast first bench events ∧
      Follows first.host.editor bench.host.editor events)
    ?_ ⟨h, hopen, [], .of_eq rfl rfl, .of_silent rfl rfl⟩
  · exact hlast.2
  · rintro bench move ⟨hordered, hstill, events, hbroadcast, hfollows⟩ hmove
    obtain ⟨hnext, more, hmore, hmoreFollows⟩ := hordered.exists_follows_move hstill hmove
    exact ⟨hordered.move move, hnext, events ++ more, hbroadcast.trans hmore,
      hfollows.trans hmoreFollows⟩

end Ordered

/-- Steps of which none suppresses events. -/
theorem leads_run_of_not_mem (bench : Workbench) {steps : List Step}
    (h : .host .suppress ∉ steps) : Leads Move.IsOpen bench (bench.run steps).2 := by
  refine leads_run (fun _ => Move.IsInner.isOpen) bench steps ?_
  rintro step hstep _ hmove rfl
  cases step with
  | host request =>
      obtain rfl : request = .suppress := Move.request.inj (Option.some.inj hmove)
      exact h hstep
  | _ => cases hmove

/-! ## The controller -/

/-- A controller has kept its seat, and has handled the listed messages in the meantime. -/
inductive Serves (first : Workbench) : List Message → Workbench → Prop
  | refl : Serves first [] first
  | move {handled : List Message} {bench : Workbench} {former later : Controller} (move : Move) :
      Serves first handled bench → bench.seat = .running former →
      (bench.move move).seat = .running later →
      Serves first (handled ++ if move = .handle then former.mailbox.take 1 else [])
        (bench.move move)

/-- In one move the controller is told of the events that the recording listener hears. -/
theorem news_move {move : Move} {former later : Controller} {events : List Event}
    (hformer : bench.seat = .running former) (hlater : (bench.move move).seat = .running later)
    (hstream : (bench.move move).stream = bench.stream ++ events) :
    former.news ++ events =
      (if move = .handle then former.mailbox.take 1 else []).filterMap Message.event? ++
        later.news := by
  have hheard {heard : List Event} (h : (bench.move move).stream = bench.stream ++ heard) :
      events = heard :=
    List.append_cancel_left (hstream.symm.trans h)
  have hunheard (h : (bench.move move).trace = bench.trace) : events = [] := by
    refine hheard ?_
    rw [stream, h, List.append_nil, stream]
  have hseated {other : Controller} (h : bench.seat = .running other) : former = other :=
    Seat.running.inj (hformer.symm.trans h)
  cases seats_move hlater with
  | installed _ _ hvacant => cases hvacant.symm.trans hformer
  | told others hother hinner htrace =>
      obtain rfl := hseated hother
      obtain rfl := hheard (stream_of_trace htrace)
      have hne : move ≠ .handle := fun hhandle => hinner (hhandle ▸ trivial)
      rw [if_neg hne, Controller.news_hear]
      rfl
  | idled hother hmailbox =>
      obtain rfl := hseated hother
      have hsame : bench.move .handle = bench := handleNext_of_nil hother hmailbox
      obtain rfl := hunheard (congrArg trace hsame)
      rw [if_pos rfl, hmailbox, List.append_nil]
      rfl
  | @turned _ next message rest hother hmailbox hfate =>
      obtain rfl := hseated hother
      have hturn : bench.move .handle = bench.takeTurn
          ({ former with mailbox := rest }.handle bench.clock bench.host message) :=
        handleNext_eq hother hmailbox
      obtain rfl := hheard ((congrArg stream hturn).trans (bench.stream_takeTurn _))
      have hrest : next.mailbox = rest := (Controller.handle_running hfate).1
      have hnext : former.news = [message].filterMap Message.event? ++ next.news := by
        rw [Controller.news, hmailbox, Controller.news, hrest, ← List.filterMap_append]
        rfl
      rw [if_pos rfl, hmailbox, Controller.news_hear, hnext, List.append_assoc]
      rfl
  | woken time hother =>
      obtain rfl := hseated hother
      have hsame : (bench.move (.wake time)).trace = bench.trace := by
        rw [Workbench.move, wake]
        split <;> rfl
      obtain rfl := hunheard hsame
      have hrung : (former.wake time).news = former.news := by
        refine former.news_post fun message hmessage => ?_
        obtain ⟨alarm, -, rfl⟩ := List.mem_map.mp hmessage
        rfl
      rw [if_neg (by simp), hrung, List.append_nil]
      rfl
  | ticked time hother =>
      obtain rfl := hseated hother
      obtain rfl := hunheard rfl
      rw [if_neg (by simp), List.append_nil]
      rfl
  | dismissed hother =>
      obtain rfl := hseated hother
      obtain rfl := hunheard rfl
      rw [if_neg (by simp), former.news_post (by simp [Message.event?]), List.append_nil]
      rfl

/-- What the controller has handled and what still waits are the events that the recording
listener has heard. -/
theorem Serves.exists_news {handled : List Message} (h : Serves first handled last)
    (hordered : Ordered first) :
    Ordered last ∧ ∃ events, last.stream = first.stream ++ events ∧
      ∀ former later, first.seat = .running former → last.seat = .running later →
        former.news ++ events = handled.filterMap Message.event? ++ later.news := by
  induction h with
  | refl =>
      refine ⟨hordered, [], (List.append_nil _).symm, fun former later hformer hlater => ?_⟩
      obtain rfl := Seat.running.inj (hformer.symm.trans hlater)
      exact List.append_nil _
  | @move handled bench middle _ move _ hmiddle _ ih =>
      obtain ⟨hbench, events, hstream, hnews⟩ := ih
      obtain ⟨host, hworks⟩ := works_move hbench move
      have hmore := hworks.broadcast.stream
      refine ⟨hbench.move move, events ++ host.editor.outbox, ?_, ?_⟩
      · rw [hmore, hstream, List.append_assoc]
      · intro former later hformer hlater
        rw [← List.append_assoc, hnews former middle hformer hmiddle, List.append_assoc,
          news_move hmiddle hlater hmore, List.filterMap_append, List.append_assoc]

/-! ## Refusals -/

/-- A step that is refused changes nothing. -/
theorem step_of_refused {step : Step} {error : EditorError}
    (h : (bench.step step).1 = .failed (.refused error)) : (bench.step step).2 = bench := by
  cases step with
  | user action =>
      simp only [Workbench.step, act] at h ⊢
      split at h
      · cases h
      · rfl
  | inspect inspection => cases inspection <;> cases h
  | host request =>
      cases request with
      | command command =>
          simp only [Workbench.step, Workbench.request] at h ⊢
          cases hperform : bench.host.perform command with
          | ok _ =>
              rw [hperform] at h
              cases h
          | error _ => rfl
      | field id key =>
          simp only [Workbench.step, Workbench.request]
          split <;> rfl
      | parameters id =>
          simp only [Workbench.step, Workbench.request]
          split <;> rfl
      | _ => cases h
  | query query => rfl
  | reconcile reconciliation =>
      cases reconciliation with
      | syncCallers definition =>
          simp only [Workbench.step, reconcile] at h
          split at h <;> cases h
      | _ => cases h
  | attach cleanup settings =>
      simp only [Workbench.step, attach] at h
      split at h <;> cases h
  | status =>
      simp only [Workbench.step, status] at h ⊢
      split at h
      · rfl
      · split at h <;> cases h
  | detach =>
      simp only [Workbench.step, detach] at h ⊢
      split at h
      · rfl
      · split at h <;> cases h
  | drop =>
      simp only [Workbench.step, drop] at h ⊢
      split at h
      · rfl
      · cases h
  | setFaults _ _ | setLeaky _ | advance _ => cases h

/-- A command that is not logged changes nothing. -/
theorem command_of_unlogged (houtbox : bench.host.editor.outbox = []) {command : Command}
    (h : (bench.request (.command command)).2.host.editor.commands =
      bench.host.editor.commands) : (bench.request (.command command)).2 = bench := by
  simp only [Workbench.request] at h ⊢
  cases hperform : bench.host.perform command with
  | error _ => rfl
  | ok after =>
      rw [hperform] at h
      obtain ⟨commands, -, rfl⟩ := Host.perform_onLive hperform
      have hnone : commands = [] := List.append_cancel_left (h.trans (List.append_nil _).symm)
      rw [hnone, Host.issue_nil]
      exact adopt_host houtbox

/-- Every listener can keep track of the graph by the events that it hears while it is subscribed,
and so can the controller.  No id is created or deleted twice, and what is refused or finds
nothing to do is not told of. -/
theorem follows_of_reachable (h : Reachable Move.IsOpen first)
    (hleads : Leads Move.IsOpen first last) :
    ∃ events,
      Broadcast first last events ∧
      (∀ handled former later, Serves first handled last → first.seat = .running former →
        last.seat = .running later →
        former.news ++ events = handled.filterMap Message.event? ++ later.news) ∧
      events.foldlM Event.follow? first.host.editor.ids = some last.host.editor.ids ∧
      (events.filterMap Event.created?).Nodup ∧ (events.filterMap Event.deleted?).Nodup ∧
      (∀ step error, (last.step step).1 = .failed (.refused error) →
        (last.step step).2 = last) ∧
      ∀ command, (last.request (.command command)).2.host.editor.commands =
        last.host.editor.commands → (last.request (.command command)).2 = last := by
  have hfirst : Ordered first := h.ordered
  have hlast : Ordered last := hfirst.leads hleads
  obtain ⟨autoDefine, hstart⟩ := h
  have hopen : first.host.editor.suppression = 0 :=
    ((ordered_new autoDefine).exists_follows rfl hstart).1
  obtain ⟨-, events, hbroadcast, hfollows⟩ := hfirst.exists_follows hopen hleads
  refine ⟨events, hbroadcast, ?_, hfollows.live, hfollows.nodup_created,
    hfollows.nodup_deleted hfirst.consistent.numbered, fun _ _ => step_of_refused,
    fun _ => command_of_unlogged hlast.outbox⟩
  intro handled former later hserves hformer hlater
  obtain ⟨-, others, hothers, hnews⟩ := hserves.exists_news hfirst
  have hsame : events = others := List.append_cancel_left (hbroadcast.stream.symm.trans hothers)
  rw [hsame]
  exact hnews former later hformer hlater

/-- A listener is added while a controller is attached.  It does not hear how the new call site is
renamed and bound, but it hears that the controller disposes of the second definition of a name,
and it knows which blocks are live. -/
theorem follows_of_reachable_unheard :
    let first := ((new false).run [.user (.define "f" ["x"]), .user (.define "g" []),
      .attach .sweep .default, .host .subscribe]).2
    let last := (first.run [.user (.call "f1"), .advance 100, .user (.define "f1" ["y"]),
      .host (.command (.dispose ⟨9⟩)), .user (.remove ⟨9⟩), .host .resume, .user (.remove ⟨1⟩),
      .advance 4000]).2
    last.host.editor.commands = [.setField ⟨2⟩ nameField "f",
        .setParameters ⟨2⟩ ⟨["x"], [⟨0⟩]⟩, .dispose ⟨3⟩] ∧
      last.heardBy 0 = [⟨.create, ⟨2⟩⟩, ⟨.create, ⟨3⟩⟩, ⟨.delete, ⟨1⟩⟩, ⟨.delete, ⟨3⟩⟩] ∧
      (last.heardBy 0).foldlM Event.follow? first.host.editor.ids = some last.host.editor.ids ∧
      ((last.heardBy 0).filterMap Event.deleted?).Nodup := by
  intro first last
  have hreachable : Reachable Move.IsOpen first :=
    ⟨false, leads_run_of_not_mem _ (by decide)⟩
  have hleads : Leads Move.IsOpen first last := leads_run_of_not_mem _ (by decide)
  obtain ⟨events, hbroadcast, -, hfollows, -, hdeleted, -⟩ := follows_of_reachable hreachable hleads
  have htap : first.taps[0]? = some ⟨[], true⟩ := by decide +kernel
  obtain ⟨later, hlater, hheard⟩ := hbroadcast.taps 0 _ htap
  have hsubscribed : ∀ tap ∈ last.taps[0]?, tap.isSubscribed = true := by decide +kernel
  have hevents : last.heardBy 0 = events := by
    rw [heardBy, hlater, Option.map_some, Option.getD_some, (hheard (hsubscribed later hlater)).2,
      List.nil_append]
  refine ⟨by decide +kernel, by decide +kernel, ?_, ?_⟩
  · rw [hevents]
    exact hfollows
  · rw [hevents]
    exact hdeleted

end Workbench
end CallBinding
