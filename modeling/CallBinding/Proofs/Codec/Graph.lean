import CallBinding.Codec.Graph
import CallBinding.Proofs.Json.Record
import CallBinding.Proofs.OrderedMap

/-!
# Graph data in documents

Blocks, parameters, definitions, call sites and events are read back from what
is written of them, and from every other form of the same records.  Ids have to
fit into 32 bits; nothing else about the data matters.
-/

namespace CallBinding

/-! ## What can be written -/

def BlockId.Fits (id : BlockId) : Prop :=
  id.number < idLimit

def VariableId.Fits (id : VariableId) : Prop :=
  id.number < idLimit

/-- Parameters fit whether they are aligned or not. -/
def Parameters.Fits (parameters : Parameters) : Prop :=
  ∀ identity ∈ parameters.identities, identity.Fits

def Block.Fits (block : Block) : Prop :=
  block.id.Fits ∧ block.parameters.Fits

def Definition.Fits (definition : Definition) : Prop :=
  definition.id.Fits ∧ definition.parameters.Fits

def CallSite.Fits (call : CallSite) : Prop :=
  call.id.Fits ∧ call.arguments.Fits

def Event.Fits (event : Event) : Prop :=
  event.block.Fits

/-! ## Forms -/

/-- The forms of parameters as JSON. -/
def Parameters.IsForm (parameters : Parameters) : Json → Prop :=
  Json.IsRecord [("labels", .array (parameters.labels.map .string)),
    ("identities", .array (parameters.identities.map VariableId.toJson))]

/-- The forms of a block as JSON.  The form of its parameters is chosen apart from its own. -/
inductive Block.IsForm (block : Block) : Json → Prop
  | record {role parameters json : Json} :
      Json.IsWord block.role.label role → block.parameters.IsForm parameters →
      Json.IsRecord [("id", block.id.toJson), ("role", role),
        ("fields", fieldsToJson block.fields), ("parameters", parameters)] json →
      IsForm block json

inductive Definition.IsForm (definition : Definition) : Json → Prop
  | record {parameters json : Json} :
      definition.parameters.IsForm parameters →
      Json.IsRecord [("id", definition.id.toJson), ("name", .string definition.name),
        ("parameters", parameters)] json →
      IsForm definition json

inductive CallSite.IsForm (call : CallSite) : Json → Prop
  | record {arguments json : Json} :
      call.arguments.IsForm arguments →
      Json.IsRecord [("id", call.id.toJson), ("name", .string call.name),
        ("bound_parameters", arguments)] json →
      IsForm call json

inductive Event.IsForm (event : Event) : Json → Prop
  | record {kind json : Json} :
      Json.IsWord event.kind.label kind →
      Json.IsRecord [("kind", kind), ("block_id", event.block.toJson)] json →
      IsForm event json

/-- What is written of a value is one of its forms, and from each of them, however its text is
spaced, the value is read. -/
structure Faithful {α : Type} (Fits : α → Prop) (IsForm : α → Json → Prop) (toJson : α → Json)
    (ofJson? : Json → Option α) : Prop where
  written : ∀ value, IsForm value (toJson value)
  read : ∀ value json text, Fits value → IsForm value json → json.IsWritten text →
    (Json.parse? text).bind ofJson? = some value
  rendered : ∀ value, Fits value → (Json.parse? (toJson value).render).bind ofJson? = some value

theorem Faithful.of_forms {α : Type} {Fits : α → Prop} {IsForm : α → Json → Prop}
    {toJson : α → Json} {ofJson? : Json → Option α}
    (hwritten : ∀ value, IsForm value (toJson value))
    (hread : ∀ value json, Fits value → IsForm value json → ofJson? json = some value) :
    Faithful Fits IsForm toJson ofJson? where
  written := hwritten
  read value json text hfits hform htext := by
    rw [htext.parse?_eq, Option.bind_some, hread value json hfits hform]
  rendered value hfits := by
    rw [Json.parse?_render, Option.bind_some, hread value _ hfits (hwritten value)]

/-! ## Ids, words and lists -/

theorem BlockId.ofJson?_toJson {id : BlockId} (h : id.Fits) : ofJson? id.toJson = some id := by
  rw [ofJson?, toJson, Json.naturalBelow?_natural h, Option.map_some]

theorem VariableId.ofJson?_toJson {id : VariableId} (h : id.Fits) :
    ofJson? id.toJson = some id := by
  rw [ofJson?, toJson, Json.naturalBelow?_natural h, Option.map_some]

theorem Role.ofJson?_eq {role : Role} {json : Json} (h : Json.IsWord role.label json) :
    ofJson? json = some role := by
  rw [ofJson?, Json.word?_of_isWord h]
  cases role <;> decide

theorem EventKind.ofJson?_eq {kind : EventKind} {json : Json} (h : Json.IsWord kind.label json) :
    ofJson? json = some kind := by
  rw [ofJson?, Json.word?_of_isWord h]
  cases kind <;> decide

theorem mapM_map_eq {α β : Type} {write : α → β} {read? : β → Option α} {values : List α}
    (h : ∀ value ∈ values, read? (write value) = some value) :
    (values.map write).mapM read? = some values := by
  induction values with
  | nil => rfl
  | cons value rest ih =>
      obtain ⟨hvalue, hrest⟩ := List.forall_mem_cons.mp h
      rw [List.map_cons, List.mapM_cons, hvalue, ih hrest]
      rfl

theorem Block.fieldsOfJson?_fieldsToJson (fields : OrderedMap String String) :
    fieldsOfJson? (fieldsToJson fields) = some fields := by
  have hentries : (fields.entries.map fun field => (some field.1, Json.string field.2)).mapM
      fieldOfMember? = some fields.entries := mapM_map_eq fun _ _ => rfl
  rw [fieldsToJson, Json.record, List.map_map, fieldsOfJson?]
  exact (congrArg _ hentries).trans (congrArg some fields.ofList_entries)

/-! ## Reading forms -/

theorem Parameters.ofJson?_eq {parameters : Parameters} {json : Json} (hfits : parameters.Fits)
    (hform : parameters.IsForm json) : ofJson? json = some parameters := by
  have hvalues : json.recordValues? ["labels", "identities"] =
      some [some (.array (parameters.labels.map .string)),
        some (.array (parameters.identities.map VariableId.toJson))] :=
    hform.recordValues?_eq rfl (by decide)
  have hlabels : (Json.array (parameters.labels.map .string)).arrayOf? Json.string? =
      some parameters.labels := mapM_map_eq fun _ _ => rfl
  have hidentities : (Json.array (parameters.identities.map VariableId.toJson)).arrayOf?
      VariableId.ofJson? = some parameters.identities :=
    mapM_map_eq fun identity hidentity => VariableId.ofJson?_toJson (hfits identity hidentity)
  simp [ofJson?, hvalues, hlabels, hidentities]

theorem Block.ofJson?_eq {block : Block} {json : Json} (hfits : block.Fits)
    (hform : block.IsForm json) : ofJson? json = some block := by
  obtain @⟨role, parameters, json, hrole, hparameters, hrecord⟩ := hform
  have hvalues : json.recordValues? ["id", "role", "fields", "parameters"] =
      some [some block.id.toJson, some role, some (fieldsToJson block.fields), some parameters] :=
    hrecord.recordValues?_eq rfl (by decide)
  simp [ofJson?, hvalues, BlockId.ofJson?_toJson hfits.1, Role.ofJson?_eq hrole,
    fieldsOfJson?_fieldsToJson, Parameters.ofJson?_eq hfits.2 hparameters]

theorem Definition.ofJson?_eq {definition : Definition} {json : Json} (hfits : definition.Fits)
    (hform : definition.IsForm json) : ofJson? json = some definition := by
  obtain @⟨parameters, json, hparameters, hrecord⟩ := hform
  have hvalues : json.recordValues? ["id", "name", "parameters"] =
      some [some definition.id.toJson, some (.string definition.name), some parameters] :=
    hrecord.recordValues?_eq rfl (by decide)
  simp [ofJson?, hvalues, BlockId.ofJson?_toJson hfits.1, Json.string?, Json.string,
    Parameters.ofJson?_eq hfits.2 hparameters]

theorem CallSite.ofJson?_eq {call : CallSite} {json : Json} (hfits : call.Fits)
    (hform : call.IsForm json) : ofJson? json = some call := by
  obtain @⟨arguments, json, harguments, hrecord⟩ := hform
  have hvalues : json.recordValues? ["id", "name", "bound_parameters"] =
      some [some call.id.toJson, some (.string call.name), some arguments] :=
    hrecord.recordValues?_eq rfl (by decide)
  simp [ofJson?, hvalues, BlockId.ofJson?_toJson hfits.1, Json.string?, Json.string,
    Parameters.ofJson?_eq hfits.2 harguments]

theorem Event.ofJson?_eq {event : Event} {json : Json} (hfits : event.Fits)
    (hform : event.IsForm json) : ofJson? json = some event := by
  obtain @⟨kind, json, hkind, hrecord⟩ := hform
  have hvalues : json.recordValues? ["kind", "block_id"] =
      some [some kind, some event.block.toJson] := hrecord.recordValues?_eq rfl (by decide)
  simp [ofJson?, hvalues, EventKind.ofJson?_eq hkind, BlockId.ofJson?_toJson hfits]

/-! ## Writing forms -/

theorem Parameters.isForm_toJson (parameters : Parameters) : parameters.IsForm parameters.toJson :=
  Json.isRecord_record _

theorem Block.isForm_toJson (block : Block) : block.IsForm block.toJson :=
  .record .text block.parameters.isForm_toJson (Json.isRecord_record _)

theorem Definition.isForm_toJson (definition : Definition) :
    definition.IsForm definition.toJson :=
  .record definition.parameters.isForm_toJson (Json.isRecord_record _)

theorem CallSite.isForm_toJson (call : CallSite) : call.IsForm call.toJson :=
  .record call.arguments.isForm_toJson (Json.isRecord_record _)

theorem Event.isForm_toJson (event : Event) : event.IsForm event.toJson :=
  .record .text (Json.isRecord_record _)

/-- Reading undoes writing for all data of the graph. -/
theorem graph_faithful :
    Faithful Block.Fits Block.IsForm Block.toJson Block.ofJson? ∧
    Faithful Parameters.Fits Parameters.IsForm Parameters.toJson Parameters.ofJson? ∧
    Faithful Definition.Fits Definition.IsForm Definition.toJson Definition.ofJson? ∧
    Faithful CallSite.Fits CallSite.IsForm CallSite.toJson CallSite.ofJson? ∧
    Faithful Event.Fits Event.IsForm Event.toJson Event.ofJson? :=
  ⟨.of_forms Block.isForm_toJson fun _ _ => Block.ofJson?_eq,
    .of_forms Parameters.isForm_toJson fun _ _ => Parameters.ofJson?_eq,
    .of_forms Definition.isForm_toJson fun _ _ => Definition.ofJson?_eq,
    .of_forms CallSite.isForm_toJson fun _ _ => CallSite.ofJson?_eq,
    .of_forms Event.isForm_toJson fun _ _ => Event.ofJson?_eq⟩

/-- A block with its keys turned round and others between them, its parameters as an array and
its role as an object. -/
theorem graph_faithful_of_reordered :
    let block : Block :=
      ⟨⟨4294967295⟩, .callSite, OrderedMap.ofList [("na\"me", "a\n"), ("", "\u03bb\u0001")],
        ⟨["x", "y"], [⟨7⟩]⟩⟩
    let parameters : Json :=
      .array [.array [.string "x", .string "y"], .array [.natural 7]]
    let role : Json := .object [(some "CallSite", .null)]
    let json : Json := .record [("parameters", parameters), ("other", .object [(none, .null)]),
      ("fields", Block.fieldsToJson block.fields), ("role", role), ("other", .number none),
      ("id", .natural 4294967295)]
    block.Fits ∧ block.IsForm json ∧
      (Json.parse? json.render).bind Block.ofJson? = some block := by
  intro block parameters role json
  have hfits : block.Fits := by
    refine ⟨by unfold BlockId.Fits; decide, fun identity hidentity => ?_⟩
    obtain rfl := List.mem_singleton.mp hidentity
    unfold VariableId.Fits
    decide
  have hform : block.IsForm json := by
    have hrole : Json.IsWord block.role.label role := .keyed
    have hparameters : block.parameters.IsForm parameters := .positional
    refine .record hrole hparameters (.keyed (List.Perm.trans ?_ (List.reverse_perm _)))
    exact .of_eq (by simp [block, BlockId.toJson])
  exact ⟨hfits, hform, graph_faithful.1.read block json _ hfits hform json.isWritten_render⟩

end CallBinding
