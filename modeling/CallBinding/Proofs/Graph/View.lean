import CallBinding.Editor.Command
import Mathlib.Data.List.Nodup

/-!
# Views of a graph

A program reads a graph by role: it sees the definitions and the call sites,
each in graph order, and nothing else.  Every command of a program acts on
these two lists in a simple way, provided that no two blocks share an id.  The
lemmas below state this action, so that later proofs about commands never look
at blocks again.
-/

namespace CallBinding
namespace Graph

/-- The definitions of a graph, in graph order. -/
def definitions (blocks : List Block) : List Definition :=
  blocks.filterMap fun block => block.asDefinition.toOption

/-- The call sites of a graph, in graph order. -/
def callSites (blocks : List Block) : List CallSite :=
  blocks.filterMap fun block => block.asCallSite.toOption

/-- No two blocks of a graph share an id. -/
def Distinct (blocks : List Block) : Prop :=
  (blocks.map (·.id)).Nodup

theorem toOption_asDefinition (block : Block) :
    block.asDefinition.toOption =
      if block.role = .definition then some ⟨block.id, block.name, block.parameters⟩ else none := by
  unfold Block.asDefinition
  split <;> rfl

theorem toOption_asCallSite (block : Block) :
    block.asCallSite.toOption =
      if block.role = .callSite then some ⟨block.id, block.name, block.parameters⟩ else none := by
  unfold Block.asCallSite
  split <;> rfl

theorem mem_definitions {blocks : List Block} {definition : Definition} :
    definition ∈ definitions blocks ↔
      ∃ block ∈ blocks, block.role = .definition ∧
        definition = ⟨block.id, block.name, block.parameters⟩ := by
  simp only [definitions, List.mem_filterMap, toOption_asDefinition]
  constructor
  · rintro ⟨block, hblock, h⟩
    split at h
    next hrole => exact ⟨block, hblock, hrole, (Option.some.inj h).symm⟩
    next => cases h
  · rintro ⟨block, hblock, hrole, rfl⟩
    exact ⟨block, hblock, by rw [if_pos hrole]⟩

theorem mem_callSites {blocks : List Block} {call : CallSite} :
    call ∈ callSites blocks ↔
      ∃ block ∈ blocks, block.role = .callSite ∧
        call = ⟨block.id, block.name, block.parameters⟩ := by
  simp only [callSites, List.mem_filterMap, toOption_asCallSite]
  constructor
  · rintro ⟨block, hblock, h⟩
    split at h
    next hrole => exact ⟨block, hblock, hrole, (Option.some.inj h).symm⟩
    next => cases h
  · rintro ⟨block, hblock, hrole, rfl⟩
    exact ⟨block, hblock, by rw [if_pos hrole]⟩

/-! ## Ids -/

theorem Distinct.eq_of_id {blocks : List Block} (hdistinct : Distinct blocks)
    {a b : Block} (ha : a ∈ blocks) (hb : b ∈ blocks) (hid : a.id = b.id) : a = b :=
  List.inj_on_of_nodup_map hdistinct ha hb hid

theorem map_id_definitions_sublist (blocks : List Block) :
    ((definitions blocks).map (·.id)).Sublist (blocks.map (·.id)) := by
  induction blocks with
  | nil => exact List.Sublist.refl _
  | cons block rest ih =>
      simp only [definitions, List.filterMap_cons, toOption_asDefinition] at ih ⊢
      by_cases hrole : block.role = .definition
      · simpa [hrole] using ih
      · simpa [hrole] using ih.cons block.id

theorem map_id_callSites_sublist (blocks : List Block) :
    ((callSites blocks).map (·.id)).Sublist (blocks.map (·.id)) := by
  induction blocks with
  | nil => exact List.Sublist.refl _
  | cons block rest ih =>
      simp only [callSites, List.filterMap_cons, toOption_asCallSite] at ih ⊢
      by_cases hrole : block.role = .callSite
      · simpa [hrole] using ih
      · simpa [hrole] using ih.cons block.id

theorem Distinct.nodup_definitions {blocks : List Block} (hdistinct : Distinct blocks) :
    ((definitions blocks).map (·.id)).Nodup :=
  hdistinct.sublist (map_id_definitions_sublist blocks)

theorem Distinct.nodup_callSites {blocks : List Block} (hdistinct : Distinct blocks) :
    ((callSites blocks).map (·.id)).Nodup :=
  hdistinct.sublist (map_id_callSites_sublist blocks)

/-- A definition is found by its id. -/
theorem Distinct.definition_eq {blocks : List Block} (hdistinct : Distinct blocks)
    {a b : Definition} (ha : a ∈ definitions blocks) (hb : b ∈ definitions blocks)
    (hid : a.id = b.id) : a = b :=
  List.inj_on_of_nodup_map hdistinct.nodup_definitions ha hb hid

/-- A call site is found by its id. -/
theorem Distinct.callSite_eq {blocks : List Block} (hdistinct : Distinct blocks)
    {a b : CallSite} (ha : a ∈ callSites blocks) (hb : b ∈ callSites blocks)
    (hid : a.id = b.id) : a = b :=
  List.inj_on_of_nodup_map hdistinct.nodup_callSites ha hb hid

/-- Looking an id up finds the one block of that id. -/
theorem Distinct.find?_eq_some_iff {blocks : List Block} (hdistinct : Distinct blocks)
    {id : BlockId} {block : Block} :
    (blocks.find? fun block => block.id = id) = some block ↔ block ∈ blocks ∧ block.id = id := by
  constructor
  · intro h
    exact ⟨List.mem_of_find?_eq_some h, by simpa using List.find?_some h⟩
  · rintro ⟨hblock, hid⟩
    cases h : blocks.find? fun block => block.id = id with
    | none => exact absurd hid (by simpa using List.find?_eq_none.mp h block hblock)
    | some found =>
        have hfound : found.id = id := by simpa using List.find?_some h
        rw [hdistinct.eq_of_id (List.mem_of_find?_eq_some h) hblock (hfound.trans hid.symm)]

/-! ## The action of a command -/

@[simp] theorem id_setField (block : Block) (key value : String) :
    (block.setField key value).id = block.id := rfl

@[simp] theorem role_setField (block : Block) (key value : String) :
    (block.setField key value).role = block.role := rfl

@[simp] theorem parameters_setField (block : Block) (key value : String) :
    (block.setField key value).parameters = block.parameters := rfl

@[simp] theorem name_setField (block : Block) (name : String) :
    (block.setField nameField name).name = name := by
  simp [Block.name, Block.field?, Block.setField, OrderedMap.get?_insert]

/-- A change of single blocks keeps the ids, if it keeps the id of each. -/
theorem map_id_map (blocks : List Block) (id : BlockId) {change : Block → Block}
    (hchange : ∀ block, (change block).id = block.id) :
    (blocks.map fun block => if block.id = id then change block else block).map (·.id) =
      blocks.map (·.id) := by
  rw [List.map_map]
  refine List.map_congr_left fun block _ => ?_
  rw [Function.comp_apply]
  split
  · exact hchange block
  · rfl

/-- Only to dispose of a block changes which ids there are. -/
theorem map_id_replay (blocks : List Block) {command : Command}
    (h : ∀ id, command ≠ .dispose id) :
    (command.replay blocks).map (·.id) = blocks.map (·.id) := by
  cases command with
  | setField id key value =>
      exact map_id_map blocks id fun block => id_setField block key value
  | setParameters id parameters =>
      exact @map_id_map blocks id (fun block => { block with parameters := parameters })
        fun _ => rfl
  | dispose id => exact absurd rfl (h id)

/-- A command keeps the ids of the blocks that it leaves. -/
theorem map_id_replay_sublist (blocks : List Block) (command : Command) :
    ((command.replay blocks).map (·.id)).Sublist (blocks.map (·.id)) := by
  cases command with
  | setField _ _ _ | setParameters _ _ => rw [map_id_replay blocks (by simp)]
  | dispose id => exact List.filter_sublist.map _

theorem Distinct.replay {blocks : List Block} (hdistinct : Distinct blocks)
    (command : Command) : Distinct (command.replay blocks) :=
  hdistinct.sublist (map_id_replay_sublist blocks command)

/-- A command on a call site leaves the definitions alone. -/
theorem definitions_replay_setField {blocks : List Block} (hdistinct : Distinct blocks)
    {call : CallSite} (hcall : call ∈ callSites blocks) (key value : String) :
    definitions (Command.replay blocks (.setField call.id key value)) = definitions blocks := by
  obtain ⟨target, htarget, hrole, rfl⟩ := mem_callSites.mp hcall
  simp only [definitions, Command.replay, List.filterMap_map]
  refine List.filterMap_congr fun block hblock => ?_
  simp only [Function.comp_apply]
  split
  next hid =>
    have heq : block = target := hdistinct.eq_of_id hblock htarget hid
    simp [toOption_asDefinition, heq, hrole]
  next => rfl

/-- Binding a call site leaves the definitions alone. -/
theorem definitions_replay_setParameters {blocks : List Block} (hdistinct : Distinct blocks)
    {call : CallSite} (hcall : call ∈ callSites blocks) (parameters : Parameters) :
    definitions (Command.replay blocks (.setParameters call.id parameters)) =
      definitions blocks := by
  obtain ⟨target, htarget, hrole, rfl⟩ := mem_callSites.mp hcall
  simp only [definitions, Command.replay, List.filterMap_map]
  refine List.filterMap_congr fun block hblock => ?_
  simp only [Function.comp_apply]
  split
  next hid =>
    have heq : block = target := hdistinct.eq_of_id hblock htarget hid
    simp [toOption_asDefinition, heq, hrole]
  next => rfl

theorem definitions_replay_dispose (blocks : List Block) (id : BlockId) :
    definitions (Command.replay blocks (.dispose id)) =
      (definitions blocks).filter fun definition => definition.id ≠ id := by
  simp only [definitions, Command.replay, List.filterMap_filter, List.filter_filterMap]
  refine List.filterMap_congr fun block _ => ?_
  rw [toOption_asDefinition]
  by_cases hid : block.id = id <;> by_cases hrole : block.role = .definition <;>
    simp [hid, hrole, Option.filter]

/-- Setting the name of a block renames the call site of that id. -/
theorem callSites_replay_setField (blocks : List Block) (id : BlockId) (name : String) :
    callSites (Command.replay blocks (.setField id nameField name)) =
      (callSites blocks).map fun call =>
        if call.id = id then { call with name := name } else call := by
  simp only [callSites, Command.replay, List.filterMap_map, List.map_filterMap]
  refine List.filterMap_congr fun block _ => ?_
  simp only [Function.comp_apply, toOption_asCallSite]
  by_cases hid : block.id = id <;> by_cases hrole : block.role = .callSite <;>
    simp [hid, hrole]

/-- Setting the parameters of a block binds the call site of that id. -/
theorem callSites_replay_setParameters (blocks : List Block) (id : BlockId)
    (parameters : Parameters) :
    callSites (Command.replay blocks (.setParameters id parameters)) =
      (callSites blocks).map fun call =>
        if call.id = id then { call with arguments := parameters } else call := by
  simp only [callSites, Command.replay, List.filterMap_map, List.map_filterMap]
  refine List.filterMap_congr fun block _ => ?_
  simp only [Function.comp_apply, toOption_asCallSite]
  by_cases hid : block.id = id <;> by_cases hrole : block.role = .callSite <;>
    simp [hid, hrole, Block.name, Block.field?]

/-- Disposing of a definition leaves the call sites alone. -/
theorem callSites_replay_dispose {blocks : List Block} (hdistinct : Distinct blocks)
    {definition : Definition} (hdefinition : definition ∈ definitions blocks) :
    callSites (Command.replay blocks (.dispose definition.id)) = callSites blocks := by
  obtain ⟨target, htarget, hrole, rfl⟩ := mem_definitions.mp hdefinition
  simp only [callSites, Command.replay, List.filterMap_filter]
  refine List.filterMap_congr fun block hblock => ?_
  by_cases hid : block.id = target.id
  · have heq : block = target := hdistinct.eq_of_id hblock htarget hid
    simp [toOption_asCallSite, heq, hrole]
  · simp [hid]

end Graph
end CallBinding
