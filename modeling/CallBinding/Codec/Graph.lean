import CallBinding.Graph.Event
import CallBinding.Json.Value

/-!
# Graph data as JSON

Each type of the graph has one written form and a reader, which also takes a
record as an array of its values in order, and an enumeration as an object of
one key.  Ids are written as numbers of 32 bits.
-/

namespace CallBinding

/-- Ids below this bound can be written. -/
def idLimit : Nat :=
  4294967296

namespace BlockId

def toJson (id : BlockId) : Json :=
  .natural id.number

def ofJson? (json : Json) : Option BlockId :=
  (json.naturalBelow? idLimit).map BlockId.mk

end BlockId

namespace VariableId

def toJson (id : VariableId) : Json :=
  .natural id.number

def ofJson? (json : Json) : Option VariableId :=
  (json.naturalBelow? idLimit).map VariableId.mk

end VariableId

namespace Role

def all : List Role :=
  [definition, callSite, other]

def toJson (role : Role) : Json :=
  .string role.label

def ofJson? (json : Json) : Option Role :=
  json.word?.bind fun word => all.find? fun role => role.label = word

end Role

namespace Slot

def toJson (slot : Slot) : Json :=
  .record [("label", .string slot.label), ("identity", slot.identity.toJson)]

def ofJson? (json : Json) : Option Slot :=
  match json.recordValues? ["label", "identity"] with
  | some [some label, some identity] => do
      some ⟨← label.string?, ← VariableId.ofJson? identity⟩
  | _ => none

end Slot

namespace Parameters

def toJson (parameters : Parameters) : Json :=
  .record [("labels", .array (parameters.labels.map .string)),
    ("identities", .array (parameters.identities.map VariableId.toJson))]

def ofJson? (json : Json) : Option Parameters :=
  match json.recordValues? ["labels", "identities"] with
  | some [some labels, some identities] => do
      some ⟨← labels.arrayOf? Json.string?, ← identities.arrayOf? VariableId.ofJson?⟩
  | _ => none

end Parameters

namespace Block

def fieldsToJson (fields : OrderedMap String String) : Json :=
  .record (fields.entries.map fun field => (field.1, .string field.2))

def fieldOfMember? (member : Option String × Json) : Option (String × String) := do
  some (← member.1, ← member.2.string?)

/-- Reads fields; a key that occurs again keeps its place and takes the later value. -/
def fieldsOfJson? : Json → Option (OrderedMap String String)
  | .object members =>
      (members.mapM fieldOfMember?).map OrderedMap.ofList
  | _ => none

def toJson (block : Block) : Json :=
  .record [("id", block.id.toJson), ("role", block.role.toJson),
    ("fields", fieldsToJson block.fields), ("parameters", block.parameters.toJson)]

def ofJson? (json : Json) : Option Block :=
  match json.recordValues? ["id", "role", "fields", "parameters"] with
  | some [some id, some role, some fields, some parameters] => do
      some ⟨← BlockId.ofJson? id, ← Role.ofJson? role, ← fieldsOfJson? fields,
        ← Parameters.ofJson? parameters⟩
  | _ => none

end Block

namespace Definition

def toJson (definition : Definition) : Json :=
  .record [("id", definition.id.toJson), ("name", .string definition.name),
    ("parameters", definition.parameters.toJson)]

def ofJson? (json : Json) : Option Definition :=
  match json.recordValues? ["id", "name", "parameters"] with
  | some [some id, some name, some parameters] => do
      some ⟨← BlockId.ofJson? id, ← name.string?, ← Parameters.ofJson? parameters⟩
  | _ => none

end Definition

namespace CallSite

def toJson (call : CallSite) : Json :=
  .record [("id", call.id.toJson), ("name", .string call.name),
    ("bound_parameters", call.arguments.toJson)]

def ofJson? (json : Json) : Option CallSite :=
  match json.recordValues? ["id", "name", "bound_parameters"] with
  | some [some id, some name, some arguments] => do
      some ⟨← BlockId.ofJson? id, ← name.string?, ← Parameters.ofJson? arguments⟩
  | _ => none

end CallSite

namespace EventKind

def all : List EventKind :=
  [create, change, delete]

def toJson (kind : EventKind) : Json :=
  .string kind.label

def ofJson? (json : Json) : Option EventKind :=
  json.word?.bind fun word => all.find? fun kind => kind.label = word

end EventKind

namespace Event

def toJson (event : Event) : Json :=
  .record [("kind", event.kind.toJson), ("block_id", event.block.toJson)]

def ofJson? (json : Json) : Option Event :=
  match json.recordValues? ["kind", "block_id"] with
  | some [some kind, some block] => do
      some ⟨← EventKind.ofJson? kind, ← BlockId.ofJson? block⟩
  | _ => none

end Event
end CallBinding
