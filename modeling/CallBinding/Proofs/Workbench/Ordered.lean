import CallBinding.Proofs.Controller.Orderly
import CallBinding.Proofs.Workbench.Sound

/-!
# Ordered workbenches

Every workbench that moves make of a new one is ordered, whatever faults are
scripted: it is consistent, its controller is orderly, and between two moves no
event waits to be delivered.
-/

namespace CallBinding

open CallBinding.Graph (Reconciles)

/-- Events ring no alarms. -/
theorem Controller.mem_mailbox_of_due {controller : Controller} {host : Host} {events : List Event}
    {alarm : Alarm} (h : .due alarm ∈ (controller.hear host events).mailbox) :
    .due alarm ∈ controller.mailbox := by
  rcases List.mem_append.mp h with hold | hheard
  · exact hold
  · obtain ⟨event, -, hevent⟩ := List.mem_map.mp hheard
    exact absurd hevent (Message.ofEvent_ne_due host event alarm)

namespace Workbench

/-- The controller that is seated after a turn has handled the message and heard of the turn. -/
theorem exists_becomes {bench : Workbench} {controller later : Controller} {message : Message}
    {rest : List Message} (hseat : bench.seat = .running controller)
    (hmailbox : controller.mailbox = message :: rest)
    (hlater : (bench.move .handle).seat = .running later) :
    ∃ next, Controller.Becomes { controller with mailbox := rest } bench.clock bench.host message
        next ∧
      later = next.hear (bench.move .handle).host
        ({ controller with mailbox := rest }.handle bench.clock bench.host
          message).host.editor.outbox := by
  have hmove : bench.move .handle = bench.takeTurn
      ({ controller with mailbox := rest }.handle bench.clock bench.host message) :=
    handleNext_eq hseat hmailbox
  rw [hmove] at hlater ⊢
  obtain ⟨next, hfate, rfl⟩ := seat_takeTurn_eq_running hlater
  exact ⟨next, Controller.becomes_of_handle hfate, rfl⟩

/-- Events that a controller hears of after a turn ring no alarm that was not rung before. -/
theorem mem_mailbox_of_turn {former next : Controller} {message : Message} {rest : List Message}
    {host : Host} {events : List Event} {alarm : Alarm}
    (hmailbox : former.mailbox = message :: rest) (hnext : next.mailbox = rest)
    (h : .due alarm ∈ (next.hear host events).mailbox) : .due alarm ∈ former.mailbox := by
  have hold := Controller.mem_mailbox_of_due h
  rw [hnext] at hold
  exact hmailbox ▸ List.mem_cons_of_mem message hold

namespace Seats

variable {bench : Workbench} {move : Move} {former later : Controller}

/-- A controller has been attached just now, or it keeps its cleanup and its settings. -/
theorem attached_or_keeps (h : Seats bench move later) :
    (∃ cleanup settings, bench.seat = .vacant ∧ move = .attach cleanup settings ∧
      later = .new settings cleanup) ∨
    ∃ former, bench.seat = .running former ∧ later.cleanup = former.cleanup ∧
      later.settings = former.settings := by
  cases h with
  | installed cleanup settings hvacant =>
      exact Or.inl ⟨cleanup, settings, hvacant, rfl, rfl⟩
  | told _ hformer _ _ | idled hformer _ | woken _ hformer | ticked _ hformer
  | dismissed hformer => exact Or.inr ⟨_, hformer, rfl, rfl⟩
  | turned hformer _ hfate =>
      exact Or.inr ⟨_, hformer, (Controller.becomes_of_handle hfate).keeps.2⟩

theorem exists_former (h : Seats bench move later) (hseat : bench.seat ≠ .vacant) :
    ∃ former, bench.seat = .running former := by
  rcases h.attached_or_keeps with ⟨_, _, hvacant, _, _⟩ | ⟨former, hformer, _⟩
  · exact absurd hvacant hseat
  · exact ⟨former, hformer⟩

theorem settings_eq (h : Seats bench move later) (hseat : bench.seat = .running former) :
    later.settings = former.settings := by
  rcases h.attached_or_keeps with ⟨_, _, hvacant, _, _⟩ | ⟨_, hformer, _, hsettings⟩
  · cases hseat.symm.trans hvacant
  · exact Seat.running.inj (hseat.symm.trans hformer) ▸ hsettings

/-- But for its alarms and messages, a seated controller is as before, or it has gone on after a
message. -/
theorem eq_or_becomes (h : Seats bench move later) (hseat : bench.seat = .running former) :
    ∃ next agenda mailbox, later = { next with agenda := agenda, mailbox := mailbox } ∧
      (next = former ∨ ∃ message rest, move = .handle ∧ former.mailbox = message :: rest ∧
        Controller.Becomes { former with mailbox := rest } bench.clock bench.host message
          next) := by
  cases h with
  | installed _ _ hvacant => cases hseat.symm.trans hvacant
  | told _ hformer _ _ | idled hformer _ | woken _ hformer | ticked _ hformer
  | dismissed hformer =>
      obtain rfl := Seat.running.inj (hseat.symm.trans hformer)
      exact ⟨former, _, _, rfl, Or.inl rfl⟩
  | turned hformer hmailbox hfate =>
      obtain rfl := Seat.running.inj (hseat.symm.trans hformer)
      exact ⟨_, _, _, rfl,
        Or.inr ⟨_, _, rfl, hmailbox, Controller.becomes_of_handle hfate⟩⟩

end Seats

/-- What holds of a workbench between any two moves, whatever the faults of its host. -/
structure Ordered (bench : Workbench) : Prop where
  consistent : Consistent bench
  orderly : ∀ controller, bench.seat = .running controller → controller.Orderly
  outbox : bench.host.editor.outbox = []

theorem ordered_new (autoDefine : Bool) : Ordered (new autoDefine) :=
  ⟨consistent_new autoDefine, fun _ h => (by cases h), rfl⟩

theorem outbox_move {bench : Workbench} (h : bench.host.editor.outbox = []) (move : Move) :
    (bench.move move).host.editor.outbox = [] := by
  have hhosts := bench.hosts_move move
  generalize (bench.move move).host = after at hhosts ⊢
  cases hhosts with
  | kept _ | scripted _ _ | leaked _ => exact h
  | adopted _ _ _ _ | suppressed | resumed | turned _ _ _ => rfl

namespace Ordered

variable {bench : Workbench} {controller : Controller} {message : Message} {rest : List Message}

/-- The next turn reconciles the graph, at the cost of definitions that may go. -/
theorem handle_reconciles (h : Ordered bench) (hseat : bench.seat = .running controller)
    (hmailbox : controller.mailbox = message :: rest) :
    Host.Operates (Reconciles (Controller.MayDispose { controller with mailbox := rest } message))
      bench.host
      ({ controller with mailbox := rest }.handle bench.clock bench.host message).host := by
  have hknows := h.consistent.knows controller hseat
  have honly : ∀ session ∈ ({ controller with mailbox := rest } : Controller).sessions,
      bench.host.editor.OnlyCallSite session.callSite := hknows.sessions
  have hspares := (h.orderly controller hseat).spares
  refine Controller.handle_reconciles h.consistent.numbered.distinct honly hspares bench.clock ?_
  rintro call prior rfl
  exact hknows.messages call prior (hmailbox ▸ List.mem_cons_self)

/-- A turn creates no block. -/
theorem kind_of_mem_turn (h : Ordered bench) (hseat : bench.seat = .running controller)
    (hmailbox : controller.mailbox = message :: rest) {event : Event}
    (hevent : event ∈ ({ controller with mailbox := rest }.handle bench.clock bench.host
      message).host.editor.outbox) : event.kind ≠ .create := by
  refine ((h.handle_reconciles hseat hmailbox).kind_of_mem_outbox hevent).resolve_left ?_
  rw [h.outbox]
  exact List.not_mem_nil

theorem turnReplays (h : Ordered bench) : TurnReplays Host.AnyCommand bench := by
  intro controller message rest hseat hmailbox
  exact (h.handle_reconciles hseat hmailbox).replays.mono fun _ _ _ => trivial

theorem move (h : Ordered bench) (move : Move) : Ordered (bench.move move) := by
  refine ⟨h.consistent.move h.turnReplays move, fun later hseat => ?_, outbox_move h.outbox move⟩
  have hears {controller : Controller} (horderly : controller.Orderly) (host : Host)
      (events : List Event) : (controller.hear host events).Orderly := by
    apply horderly.post
    intro message hmem alarm
    obtain ⟨event, -, rfl⟩ := List.mem_map.mp hmem
    exact Message.ofEvent_ne_due host event alarm
  cases seats_move hseat with
  | installed cleanup settings => exact .new settings cleanup
  | told events hformer _ _ => exact hears (h.orderly _ hformer) _ events
  | idled hformer _ | ticked _ hformer => exact h.orderly _ hformer
  | turned hformer hmailbox hfate =>
      have hbecomes := Controller.becomes_of_handle hfate
      exact hears ((h.orderly _ hformer).becomes hmailbox hbecomes) _ _
  | woken time hformer => exact (h.orderly _ hformer).wake time
  | dismissed hformer => exact (h.orderly _ hformer).post (by simp)

theorem leads (h : Ordered bench) {allowed : Move → Prop} {last : Workbench}
    (hleads : Leads allowed bench last) : Ordered last :=
  hleads.preserves Ordered (fun _ move hordered _ => hordered.move move) h

theorem run (h : Ordered bench) (steps : List Step) : Ordered (bench.run steps).2 := by
  have hleads : Leads (fun _ => True) bench (bench.run steps).2 :=
    leads_run (fun _ _ => trivial) bench steps fun _ _ _ _ => trivial
  exact h.leads hleads

end Ordered

theorem Reachable.ordered {allowed : Move → Prop} {bench : Workbench}
    (h : Reachable allowed bench) : Ordered bench := by
  obtain ⟨autoDefine, hleads⟩ := h
  exact (ordered_new autoDefine).leads hleads

end Workbench
end CallBinding
