/-!
# Parameters

A procedure's parameters are labels for people and identities for the program:
two parameters labelled alike in different procedures are different variables.
A definition's identities may lag behind its labels; a call site's are written
with one identity for each label.
-/

namespace CallBinding

/-- The identity of a variable in the editor's namespace. -/
structure VariableId where
  /-- Identities are numbered in the order of their declaration. -/
  number : Nat
  deriving DecidableEq, Repr

/-- One parameter: a label and the variable it stands for. -/
structure Slot where
  label : String
  identity : VariableId
  deriving DecidableEq, Repr

/-- The parameters of a definition, or the arguments bound at a call site. -/
structure Parameters where
  labels : List String
  identities : List VariableId
  deriving DecidableEq, Repr

namespace Parameters

/-- The parameters of a procedure that takes none. -/
def empty : Parameters :=
  ⟨[], []⟩

/-- The number of parameters, which is the number of labels. -/
def count (parameters : Parameters) : Nat :=
  parameters.labels.length

/-- Parameters without labels, whatever their identities. -/
def isEmpty (parameters : Parameters) : Bool :=
  parameters.labels.isEmpty

/-- Every label has exactly one identity. -/
def isAligned (parameters : Parameters) : Bool :=
  parameters.labels.length = parameters.identities.length

/-- Aligned parameters made of slots. -/
def ofSlots (slots : List Slot) : Parameters :=
  ⟨slots.map (·.label), slots.map (·.identity)⟩

def slots? (parameters : Parameters) : Option (List Slot) :=
  if parameters.isAligned then
    some (List.zipWith Slot.mk parameters.labels parameters.identities)
  else
    none

end Parameters
end CallBinding
