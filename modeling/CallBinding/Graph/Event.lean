import CallBinding.Graph.Block

/-!
# Events

What an editor tells its listeners about its graph.
-/

namespace CallBinding

/-- The ways in which the graph changes. -/
inductive EventKind where
  | create
  | change
  | delete
  deriving DecidableEq, Repr

def EventKind.label : EventKind → String
  | .create => "Create"
  | .change => "Change"
  | .delete => "Delete"

/-- One change of one block. -/
structure Event where
  kind : EventKind
  block : BlockId
  deriving DecidableEq, Repr

end CallBinding
