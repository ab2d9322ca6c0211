import CallBinding.Editor.Basic

/-!
# User actions

Everything that a user does in an editor, as data, and what each action gives
back.  An action that the editor refuses changes nothing.
-/

namespace CallBinding

/-- What a user does in an editor. -/
inductive UserAction where
  | declare (name : String)
  /-- Creates a definition with the variables of its labels. -/
  | define (name : String) (labels : List String)
  /-- Creates a definition with identities of the user's choice. -/
  | defineWith (name : String) (parameters : Parameters)
  /-- Creates a call site. -/
  | call (name : String)
  /-- Creates a block of no particular role. -/
  | createOther
  | rename (id : BlockId) (name : String)
  | remove (id : BlockId)
  /-- Lets the editor define the names for which it has queued a reflex. -/
  | runReflexes
  deriving DecidableEq, Repr

/-- What an action gives back. -/
inductive Yield where
  | nothing
  | block (id : BlockId)
  | blocks (ids : List BlockId)
  | identity (identity : VariableId)
  deriving DecidableEq, Repr

/-- Does what a user does. -/
def Editor.act (editor : Editor) : UserAction → Except EditorError (Yield × Editor)
  | .declare name =>
      let (identity, declared) := editor.declare name
      .ok (.identity identity, declared)
  | .define name labels =>
      let (id, defined) := editor.define name labels
      .ok (.block id, defined)
  | .defineWith name parameters =>
      let (id, defined) := editor.defineWith name parameters
      .ok (.block id, defined)
  | .call name =>
      let (id, called) := editor.call name
      .ok (.block id, called)
  | .createOther =>
      let (id, created) := editor.createOther
      .ok (.block id, created)
  | .rename id name => (editor.rename id name).map fun renamed => (.nothing, renamed)
  | .remove id => (editor.remove id).map fun removed => (.nothing, removed)
  | .runReflexes =>
      let (ids, defined) := editor.runReflexes
      .ok (.blocks ids, defined)

end CallBinding
