import CallBinding.Editor.Basic
import CallBinding.Proofs.Graph.Trail

/-!
# Issued commands

What an editor becomes when it carries out commands, one after another, as a
single equation: the graph is replayed, the log grows by the commands and the
outbox by their events, and nothing else changes.  Each command of an editor
either is refused, or has nothing to do, or has exactly this effect.
-/

namespace CallBinding

/-- The event that tells of a command. -/
def Command.event : Command → Event
  | setField id _ _ => ⟨.change, id⟩
  | setParameters id _ => ⟨.change, id⟩
  | dispose id => ⟨.delete, id⟩

/-- No command creates a block. -/
theorem Command.kind_event_ne_create (command : Command) : command.event.kind ≠ .create := by
  cases command <;> simp [event]

namespace Editor

/-- The editor after it has carried out commands. -/
def issue (editor : Editor) (commands : List Command) : Editor :=
  { editor with
    blocks := Command.replayAll editor.blocks commands
    commands := editor.commands ++ commands
    outbox := editor.outbox ++ if editor.isSuppressed then [] else commands.map Command.event }

@[simp] theorem issue_nil (editor : Editor) : editor.issue [] = editor := by
  unfold issue
  split <;> simp

theorem issue_append (editor : Editor) (first second : List Command) :
    editor.issue (first ++ second) = (editor.issue first).issue second := by
  have hsuppressed : (editor.issue first).isSuppressed = editor.isSuppressed := rfl
  unfold issue at hsuppressed ⊢
  simp only [hsuppressed, Command.replayAll_append, List.append_assoc]
  split <;> simp

theorem emit_eq (editor : Editor) (kind : EventKind) (id : BlockId) :
    editor.emit kind id =
      { editor with outbox := editor.outbox ++ if editor.isSuppressed then [] else [⟨kind, id⟩] } := by
  unfold emit
  split <;> simp

@[simp] theorem blocks_emit (editor : Editor) (kind : EventKind) (id : BlockId) :
    (editor.emit kind id).blocks = editor.blocks := by
  rw [emit_eq]

@[simp] theorem nextBlock_emit (editor : Editor) (kind : EventKind) (id : BlockId) :
    (editor.emit kind id).nextBlock = editor.nextBlock := by
  rw [emit_eq]

@[simp] theorem suppression_emit (editor : Editor) (kind : EventKind) (id : BlockId) :
    (editor.emit kind id).suppression = editor.suppression := by
  rw [emit_eq]

/-- Unless events are suppressed, an event reaches the outbox. -/
theorem outbox_emit {editor : Editor} (h : editor.suppression = 0) (kind : EventKind)
    (id : BlockId) : (editor.emit kind id).outbox = editor.outbox ++ [⟨kind, id⟩] := by
  simp [emit_eq, isSuppressed, h]

theorem contains_eq_true_iff {editor : Editor} {id : BlockId} :
    editor.contains id = true ↔ ∃ block ∈ editor.blocks, block.id = id := by
  simp [contains]

/-! ## The three commands -/

theorem setField_eq (editor : Editor) (id : BlockId) (key value : String) :
    editor.setField id key value =
      if editor.contains id then .ok (editor.issue [.setField id key value])
      else .error (.blockNotFound id) := by
  unfold setField
  rw [emit_eq]
  rfl

theorem setParameters_eq (editor : Editor) (id : BlockId) (parameters : Parameters) :
    editor.setParameters id parameters =
      match editor.block? id with
      | none => .error (.blockNotFound id)
      | some block =>
          if block.role = .callSite then .ok (editor.issue [.setParameters id parameters])
          else .error (.wrongRole id .callSite block.role) := by
  unfold setParameters
  rw [emit_eq]
  rfl

theorem dispose_eq (editor : Editor) (id : BlockId) :
    editor.dispose id = if editor.contains id then editor.issue [.dispose id] else editor := by
  unfold dispose
  rw [emit_eq]
  rfl

end Editor
end CallBinding
