import CallBinding.Graph.Block

/-!
# Editor commands

The commands through which a program, unlike a user, changes an editor's
graph, the reasons for which one is refused, and what each of them does to a
list of blocks.  An editor logs the commands that it carried out, so replaying
a log on a graph rebuilds the graph that the commands made of it.
-/

namespace CallBinding

/-- A change of the graph asked for by a program. -/
inductive Command where
  | setField (id : BlockId) (key value : String)
  | setParameters (id : BlockId) (parameters : Parameters)
  | dispose (id : BlockId)
  deriving DecidableEq, Repr

/-- The reasons for which an editor refuses a request. -/
inductive EditorError where
  | blockNotFound (id : BlockId)
  | wrongRole (id : BlockId) (expected found : Role)
  deriving DecidableEq, Repr

namespace EditorError

/-- What a refusal says to a person. -/
def message : EditorError → String
  | blockNotFound id => "block not found: " ++ decimal id.number
  | wrongRole id expected found =>
      "block " ++ decimal id.number ++ " is a " ++ found.label ++
        ", command needs a " ++ expected.label

/-- A stale request names a block that is gone. -/
def isStale : EditorError → Bool
  | blockNotFound _ => true
  | wrongRole _ _ _ => false

end EditorError

/-- A role mismatch as a refusal of a request. -/
def RoleMismatch.asEditorError (mismatch : RoleMismatch) : EditorError :=
  .wrongRole mismatch.id mismatch.expected mismatch.found

/-- The blocks after one more command was carried out on them. -/
def Command.replay (blocks : List Block) : Command → List Block
  | setField id key value =>
      blocks.map fun block => if block.id = id then block.setField key value else block
  | setParameters id parameters =>
      blocks.map fun block =>
        if block.id = id then { block with parameters := parameters } else block
  | dispose id => blocks.filter fun block => block.id ≠ id

/-- The blocks after a log of commands was carried out on them, oldest first. -/
def Command.replayAll (blocks : List Block) (log : List Command) : List Block :=
  log.foldl Command.replay blocks

end CallBinding
