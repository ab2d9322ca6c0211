import CallBinding.Proofs.Graph.Discipline
import CallBinding.Proofs.Host.Issues

/-!
# Work on a host

There are few ways in which a host is worked on: a user acts, commands are
issued for live blocks, a call site is bound while events are suppressed, the
log is forgotten, or a suppression is opened or closed.  `Worked` lists them,
so whatever each of them keeps is kept by everything that is done to a host.
-/

namespace CallBinding

open CallBinding.Graph (Reconciles)

namespace Graph

/-- A command for a live block. -/
def OnLive (blocks : List Block) (command : Command) : Prop :=
  ∃ block ∈ blocks, block.id = command.event.block

theorem Reconciles.onLive {mayGo : BlockId → Prop} {blocks : List Block} {command : Command}
    (h : Reconciles mayGo blocks command) : OnLive blocks command := by
  cases h with
  | rename name hcall =>
      obtain ⟨block, hblock, -, rfl⟩ := mem_callSites.mp hcall
      exact ⟨block, hblock, rfl⟩
  | bind hcall _ =>
      obtain ⟨block, hblock, -, rfl⟩ := mem_callSites.mp hcall
      exact ⟨block, hblock, rfl⟩
  | dispose hdefinition _ =>
      obtain ⟨block, hblock, -, rfl⟩ := mem_definitions.mp hdefinition
      exact ⟨block, hblock, rfl⟩

end Graph

namespace Host

/-- What becomes of a host when it is worked on. -/
inductive Worked (host : Host) : Host → Prop
  | acted {action : UserAction} {yield : Yield} {editor : Editor} :
      host.editor.act action = .ok (yield, editor) → Worked host (host.withEditor editor)
  | issued {after : Host} : Issues Graph.OnLive host after → Worked host after
  /-- A call site is bound while events are suppressed. -/
  | hushed {after : Host} : Issues (Reconciles fun _ => False) host.suppress after →
      Worked host after.resume
  | forgot : Worked host (host.withEditor host.editor.clearCommands)
  | suppressed : Worked host host.suppress
  | resumed : Worked host host.resume

variable {host after : Host} {mayGo : BlockId → Prop}

theorem Worked.refl (host : Host) : Worked host host :=
  .issued (.refl host)

theorem Issues.onLive (h : Issues (Reconciles mayGo) host after) : Issues Graph.OnLive host after :=
  h.mono fun _ _ hcommand => hcommand.onLive

/-- An operation that disposes of nothing. -/
theorem Worked.of_operates (h : Operates (Reconciles fun _ => False) host after) :
    Worked host after := by
  cases h with
  | openly hissues => exact .issued hissues.onLive
  | suppressed hissues => exact .hushed hissues

/-- A command that is carried out is for a live block; to dispose of another does nothing. -/
theorem perform_onLive {command : Command} (h : host.perform command = .ok after) :
    Issues Graph.OnLive host after := by
  cases command with
  | setField id key value =>
      obtain rfl := setField_ok h
      exact .single (exists_of_setField_ok h)
  | setParameters id parameters =>
      obtain ⟨rfl, call, hcall, rfl⟩ := setParameters_ok h
      obtain ⟨block, hblock, -, rfl⟩ := Graph.mem_callSites.mp hcall
      exact .single ⟨block, hblock, rfl⟩
  | dispose id =>
      have hdisposed : host.dispose id = after := Except.ok.inj h
      rw [dispose, Editor.dispose_eq] at hdisposed
      split at hdisposed
      · exact hdisposed ▸ .refl host
      · split at hdisposed
        next hlive =>
          subst hdisposed
          exact .single (Editor.contains_eq_true_iff.mp hlive)
        next => exact hdisposed ▸ .refl host

/-- A command that is accepted is carried out, unless it is to dispose of a block that is gone or
that the host will not part with. -/
theorem perform_eq_issue {command : Command} (h : host.perform command = .ok after)
    (hdispose : ∀ id, command = .dispose id →
      host.editor.contains id = true ∧ host.hasFault id .disposeIgnored = false) :
    after = host.issue [command] := by
  cases command with
  | setField id key value => exact setField_ok h
  | setParameters id parameters => exact (setParameters_ok h).1
  | dispose id =>
      obtain ⟨hlive, hfault⟩ := hdispose id rfl
      obtain rfl := Except.ok.inj h
      rw [dispose, hfault, if_neg Bool.false_ne_true, Editor.dispose_eq, if_pos hlive]
      rfl

end Host
end CallBinding
