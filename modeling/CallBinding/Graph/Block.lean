import CallBinding.Graph.Parameters
import CallBinding.OrderedMap
import CallBinding.Text.Decimal

/-!
# Blocks

The nodes of an editor's program graph.  A block is an untyped record; a
definition and a call site are typed views of a block of the matching role.
-/

namespace CallBinding

/-- The number that an editor gives to a block. -/
structure BlockId where
  /-- Blocks are numbered in the order of their creation. -/
  number : Nat
  deriving DecidableEq, Repr

/-- What a block is, as far as binding calls is concerned. -/
inductive Role where
  /-- The block declares a named procedure. -/
  | definition
  /-- The block calls a named procedure with bound arguments. -/
  | callSite
  /-- The block is anything else in the workspace. -/
  | other
  deriving DecidableEq, Repr

/-- The word for a role in documents and messages. -/
def Role.label : Role → String
  | .definition => "Definition"
  | .callSite => "CallSite"
  | .other => "Other"

/-- The field that holds the name of a definition or the name a call site calls. -/
def nameField : String :=
  "NAME"

/-- A node of the graph. -/
structure Block where
  id : BlockId
  role : Role
  /-- Named fields in the order of their first writing. -/
  fields : OrderedMap String String
  /-- The parameters of a definition or the arguments of a call site. -/
  parameters : Parameters
  deriving DecidableEq

/-- A definition as a block shows it. -/
structure Definition where
  id : BlockId
  name : String
  parameters : Parameters
  deriving DecidableEq, Repr

/-- A call site as a block shows it. -/
structure CallSite where
  id : BlockId
  name : String
  arguments : Parameters
  deriving DecidableEq, Repr

/-- A block was read as a role that it does not have. -/
structure RoleMismatch where
  id : BlockId
  expected : Role
  found : Role
  deriving DecidableEq, Repr

/-- What a role mismatch says to a person. -/
def RoleMismatch.message (mismatch : RoleMismatch) : String :=
  "block " ++ decimal mismatch.id.number ++ " is a " ++ mismatch.found.label ++
    ", expected a " ++ mismatch.expected.label

namespace Block

/-- A block with its name set and no other field. -/
def named (id : BlockId) (role : Role) (name : String) (parameters : Parameters) : Block :=
  ⟨id, role, OrderedMap.empty.insert nameField name, parameters⟩

def field? (block : Block) (key : String) : Option String :=
  block.fields.get? key

def setField (block : Block) (key value : String) : Block :=
  { block with fields := block.fields.insert key value }

/-- The name of a block; a block without one has the empty name. -/
def name (block : Block) : String :=
  (block.field? nameField).getD ""

def isDefinition (block : Block) : Bool :=
  block.role = .definition

def isCallSite (block : Block) : Bool :=
  block.role = .callSite

def asDefinition (block : Block) : Except RoleMismatch Definition :=
  if block.role = .definition then
    .ok ⟨block.id, block.name, block.parameters⟩
  else
    .error ⟨block.id, .definition, block.role⟩

def asCallSite (block : Block) : Except RoleMismatch CallSite :=
  if block.role = .callSite then
    .ok ⟨block.id, block.name, block.parameters⟩
  else
    .error ⟨block.id, .callSite, block.role⟩

end Block
end CallBinding
