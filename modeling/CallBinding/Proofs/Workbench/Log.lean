import CallBinding.Proofs.Controller.Log
import CallBinding.Proofs.Workbench.Reshapes
import CallBinding.Proofs.Workbench.Stream

/-!
# The log of a workbench

A command is refused, or has nothing to do, or is carried out.  In the first
two cases nothing happens at all, and in the last the log grows by one entry
and every listener hears one event.  So the log tells all that programs and
controllers have made of the graph, in whatever order they take turns: replayed
on the graph of the beginning, it gives the one of the end.
-/

namespace CallBinding

/-- A move by which no user changes the graph and nobody forgets the log. -/
def Move.IsLogged : Move → Prop
  | act _ | inspect .clearCommands => False
  | _ => True

namespace Workbench

open Host (Records)

variable {bench : Workbench}

/-! ## Single commands -/

/-- A command is accepted or refused. -/
theorem answer_command (bench : Workbench) (command : Command) :
    (bench.step (.host (.command command))).1 = .nothing ∨
      ∃ error, (bench.step (.host (.command command))).1 = .failed (.refused error) := by
  simp only [step, request]
  cases bench.host.perform command with
  | ok after => exact .inl rfl
  | error error => exact .inr ⟨error, rfl⟩

/-- To dispose of a block that is gone is no work, and nobody is told of it. -/
theorem step_dispose_of_missing (houtbox : bench.host.editor.outbox = []) {id : BlockId}
    (hgone : bench.host.editor.contains id = false) :
    bench.step (.host (.command (.dispose id))) = (.nothing, bench) := by
  have hsame : bench.host.dispose id = bench.host := by
    rw [Host.dispose, Editor.dispose_eq, hgone]
    split <;> rfl
  simp only [step, request, Host.perform, adoptCommand, hsame, adopt_host houtbox]

/-- A command that is carried out makes one entry of the log and, if events are not suppressed,
one event. -/
theorem step_command (houtbox : bench.host.editor.outbox = []) {command : Command}
    (hanswer : (bench.step (.host (.command command))).1 = .nothing)
    (hdispose : ∀ id, command = .dispose id → bench.host.editor.contains id = true ∧
      bench.host.hasFault id .disposeIgnored = false) :
    let next := (bench.step (.host (.command command))).2
    next.host.editor = { bench.host.editor with
        blocks := command.replay bench.host.editor.blocks
        commands := bench.host.editor.commands ++ [command] } ∧
      Broadcast bench next (if bench.host.editor.isSuppressed then [] else [command.event]) := by
  simp only [step, request] at hanswer ⊢
  cases hperform : bench.host.perform command with
  | error _ =>
      rw [hperform] at hanswer
      cases hanswer
  | ok after =>
      obtain rfl := Host.perform_eq_issue hperform hdispose
      have hbroadcast := bench.broadcast_adopt (bench.host.issue [command])
      constructor
      · change (bench.host.editor.issue [command]).delivered = _
        rw [Editor.delivered, ← houtbox]
        rfl
      · have hevents : (bench.host.issue [command]).editor.outbox =
            if bench.host.editor.isSuppressed then [] else [command.event] := by
          change bench.host.editor.outbox ++ _ = _
          rw [houtbox, List.nil_append, List.map_singleton]
        rwa [hevents] at hbroadcast

/-! ## Sequences -/

/-- What an operation does to the graph is in the log. -/
theorem records_operation {after : Host} (h : Operation bench after) : bench.host.Records after := by
  cases h with
  | apply plan => exact .of_issues (bench.host.apply_issues plan)
  | sweep => exact .of_issues bench.host.sweep_issues
  | sync call definition => exact .of_issues (bench.host.sync_issues call definition)
  | syncCallers definition => exact .of_issues (bench.host.syncCallers_issues definition)
  | handle _ _ => exact Controller.records_handle _ bench.clock bench.host _

/-- What one move does to the graph is in the log, if no user makes it and the log is kept. -/
theorem records_move (bench : Workbench) {move : Move} (h : move.IsLogged) :
    bench.host.Records (bench.move move).host := by
  have hreshapes := bench.reshapes_move move
  rw [Host.Records]
  generalize (bench.move move).host.editor = editor at hreshapes ⊢
  cases hreshapes with
  | acted _ _ | forgot => cases h
  | kept _ | suppressed | resumed => exact Records.refl bench.host
  | performed after hperform => exact Records.of_issues (perform_issues hperform)
  | operated _ after hafter => exact records_operation hafter

theorem records_of_leads {first last : Workbench} (h : Leads Move.IsLogged first last) :
    first.host.Records last.host :=
  h.preserves (fun bench => first.host.Records bench.host)
    (fun bench _ hrecords hmove => hrecords.trans (bench.records_move hmove)) (.refl first.host)

/-- What is refused or finds nothing to do leaves everything as it is, what is carried out is
logged once and told once, and the log of whatever is done replays to the graph. -/
structure Logged (bench : Workbench) : Prop where
  answered : ∀ command, (bench.step (.host (.command command))).1 = .nothing ∨
    ∃ error, (bench.step (.host (.command command))).1 = .failed (.refused error)
  refused : ∀ step error, (bench.step step).1 = .failed (.refused error) →
    (bench.step step).2 = bench
  missing : ∀ id, bench.host.editor.contains id = false →
    bench.step (.host (.command (.dispose id))) = (.nothing, bench)
  performed : ∀ command, (bench.step (.host (.command command))).1 = .nothing →
    (∀ id, command = .dispose id → bench.host.editor.contains id = true ∧
      bench.host.hasFault id .disposeIgnored = false) →
    let next := (bench.step (.host (.command command))).2
    next.host.editor = { bench.host.editor with
        blocks := command.replay bench.host.editor.blocks
        commands := bench.host.editor.commands ++ [command] } ∧
      Broadcast bench next (if bench.host.editor.isSuppressed then [] else [command.event])
  sync : ∀ call definition, bench.host.Records (bench.host.sync call definition).2
  syncCallers : ∀ definition, bench.host.Records (bench.host.syncCallers definition).2
  apply : ∀ plan, bench.host.Records (bench.host.apply plan).2
  sweep : bench.host.Records bench.host.sweep.2
  handle : ∀ (controller : Controller) (now : Nat) (message : Message),
    bench.host.Records (controller.handle now bench.host message).host
  /-- Commands, reconciliations and the turns of a controller, in any order. -/
  sequence : ∀ later, Leads Move.IsLogged bench later → bench.host.Records later.host

/-- The log is complete, in every state in which no event waits to be delivered, as none does
between two moves. -/
theorem logged_of_delivered (houtbox : bench.host.editor.outbox = []) : Logged bench where
  answered := answer_command bench
  refused _ _ := step_of_refused
  missing _ hgone := step_dispose_of_missing houtbox hgone
  performed _ hanswer hdispose := step_command houtbox hanswer hdispose
  sync call definition := .of_issues (bench.host.sync_issues call definition)
  syncCallers definition := .of_issues (bench.host.syncCallers_issues definition)
  apply plan := .of_issues (bench.host.apply_issues plan)
  sweep := .of_issues bench.host.sweep_issues
  handle controller now message := controller.records_handle now bench.host message
  sequence _ hleads := records_of_leads hleads

theorem logged_of_delivered_suppressed :
    let bench := ((new false).run [.user (.define "f" ["x"]), .user (.call "f"),
      .attach .sweep .default, .host .suppress]).2
    bench.host.editor.outbox = [] ∧
      (bench.step (.host (.command (.setParameters ⟨0⟩ .empty)))).1 =
        .failed (.refused (.wrongRole ⟨0⟩ .callSite .definition)) ∧
      Logged bench := by
  intro bench
  have houtbox : bench.host.editor.outbox = [] := by decide +kernel
  exact ⟨houtbox, by decide +kernel, logged_of_delivered houtbox⟩

end Workbench
end CallBinding
