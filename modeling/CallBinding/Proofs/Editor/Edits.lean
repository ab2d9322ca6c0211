import CallBinding.Editor.Action
import CallBinding.Proofs.Editor.Commands
import Mathlib.Logic.Relation

/-!
# Edits

Every action of a user is a sequence of edits: a variable is declared, a block
is created, a live block is changed or deleted, or the queue of reflexes gets
longer or is emptied.  So a relation between editors that holds for single
edits and can be chained holds for every action.
-/

namespace CallBinding
namespace Editor

open Relation (ReflTransGen)

/-- The smallest changes of which actions are made. -/
inductive Edit (editor : Editor) : Editor → Prop
  | declared (name : String) : Edit editor (editor.declare name).2
  | queued (name : String) : Edit editor (editor.queueReflex name)
  | unqueued : Edit editor { editor with reflexes := [] }
  | created (role : Role) (name : String) (parameters : Parameters) :
      Edit editor (editor.create role name parameters).2
  /-- A live block is changed or deleted as by a command, which is not logged. -/
  | replayed (command : Command) : editor.contains command.event.block = true →
      Edit editor ({ editor with blocks := command.replay editor.blocks }.emit
        command.event.kind command.event.block)

/-- Several edits, one after another. -/
def Edits : Editor → Editor → Prop :=
  ReflTransGen Edit

theorem edits_declareAll (editor : Editor) (names : List String) :
    Edits editor (editor.declareAll names).2 := by
  induction names generalizing editor with
  | nil => exact .refl
  | cons name rest ih => exact .head (.declared name) (ih (editor.declare name).2)

theorem edits_define (editor : Editor) (name : String) (labels : List String) :
    Edits editor (editor.define name labels).2 :=
  (editor.edits_declareAll labels).tail (.created .definition name _)

theorem edits_defineEach (editor : Editor) (names : List String) :
    Edits editor (editor.defineEach names).2 := by
  induction names generalizing editor with
  | nil => exact .refl
  | cons name rest ih => exact (editor.edits_define name []).trans (ih (editor.define name []).2)

/-- An action that is not refused is a sequence of edits. -/
theorem edits_act {editor after : Editor} {action : UserAction} {yield : Yield}
    (h : editor.act action = .ok (yield, after)) : Edits editor after := by
  cases action with
  | declare name =>
      obtain ⟨-, rfl⟩ := Prod.mk.inj (Except.ok.inj h)
      exact .single (.declared name)
  | define name labels =>
      obtain ⟨-, rfl⟩ := Prod.mk.inj (Except.ok.inj h)
      exact editor.edits_define name labels
  | defineWith name parameters =>
      obtain ⟨-, rfl⟩ := Prod.mk.inj (Except.ok.inj h)
      exact .single (.created .definition name parameters)
  | call name =>
      obtain ⟨-, rfl⟩ := Prod.mk.inj (Except.ok.inj h)
      exact .tail (.single (.queued name)) (.created .callSite name .empty)
  | createOther =>
      obtain ⟨-, rfl⟩ := Prod.mk.inj (Except.ok.inj h)
      exact .single (.created .other "" .empty)
  | rename id name =>
      simp only [act, rename] at h
      split at h
      next hlive =>
        obtain ⟨-, rfl⟩ := Prod.mk.inj (Except.ok.inj h)
        exact .single (.replayed (.setField id nameField name) hlive)
      next => cases h
  | remove id =>
      simp only [act, remove] at h
      split at h
      next hlive =>
        obtain ⟨-, rfl⟩ := Prod.mk.inj (Except.ok.inj h)
        exact .single (.replayed (.dispose id) hlive)
      next => cases h
  | runReflexes =>
      obtain ⟨-, rfl⟩ := Prod.mk.inj (Except.ok.inj h)
      exact .head .unqueued (edits_defineEach _ editor.reflexes)

/-- A relation that holds for every edit and can be chained holds for every action. -/
theorem Edits.lift {related : Editor → Editor → Prop} (hrefl : ∀ editor, related editor editor)
    (htrans : ∀ {first mid last}, related first mid → related mid last → related first last)
    (hedit : ∀ {before after}, Edit before after → related before after) {before after : Editor}
    (h : Edits before after) : related before after := by
  induction h with
  | refl => exact hrefl before
  | tail _ hlast ih => exact htrans ih (hedit hlast)

end Editor
end CallBinding
