import CallBinding.Proofs.Editor.Births
import CallBinding.Proofs.Editor.Edits
import CallBinding.Proofs.OrderedMap

/-!
# The store of an editor

What an editor keeps besides the numbers of its blocks: every block has a name,
the variables are numbered in the order of their declaration, and every reflex
waits to define a valid name.  `Furnished` collects this.  Everything that is
done to an editor keeps it, and no variable is forgotten or declared anew.
-/

namespace CallBinding

/-- The name of a block has been set, if only to the empty text. -/
def Block.HasName (block : Block) : Prop :=
  ∃ name, block.field? nameField = some name

theorem Block.hasName_named (id : BlockId) (role : Role) (name : String)
    (parameters : Parameters) : (Block.named id role name parameters).HasName :=
  ⟨name, by rw [field?, named, OrderedMap.get?_insert, if_pos rfl]⟩

/-- A field can be written anew, but not be taken away. -/
theorem Block.HasName.setField {block : Block} (h : block.HasName) (key value : String) :
    (block.setField key value).HasName := by
  obtain ⟨name, hname⟩ := h
  unfold HasName field? Block.setField
  rw [OrderedMap.get?_insert]
  split
  · exact ⟨value, rfl⟩
  · exact ⟨name, hname⟩

namespace Graph

/-- No command takes the name of a block away. -/
theorem hasName_replay {blocks : List Block} (h : ∀ block ∈ blocks, block.HasName)
    (command : Command) : ∀ block ∈ command.replay blocks, block.HasName := by
  intro block hblock
  cases command with
  | setField id key value =>
      obtain ⟨former, hformer, rfl⟩ := List.mem_map.mp hblock
      have hname : former.HasName := h former hformer
      split
      · exact hname.setField key value
      · exact hname
  | setParameters id parameters =>
      obtain ⟨former, hformer, rfl⟩ := List.mem_map.mp hblock
      have hname : former.HasName := h former hformer
      split <;> exact hname
  | dispose id => exact h block (List.mem_filter.mp hblock).1

theorem hasName_replayAll {blocks : List Block} (h : ∀ block ∈ blocks, block.HasName)
    (commands : List Command) : ∀ block ∈ Command.replayAll blocks commands, block.HasName := by
  induction commands generalizing blocks with
  | nil => exact h
  | cons command rest ih => exact ih (hasName_replay h command)

end Graph

namespace Editor

/-- What an editor keeps besides the numbers of its blocks. -/
structure Furnished (editor : Editor) : Prop where
  named : ∀ block ∈ editor.blocks, block.HasName
  /-- The variables are numbered in the order of their declaration. -/
  counted : editor.declarations.entries.map (·.2) =
    (List.range editor.declarations.entries.length).map VariableId.mk
  reflexes : ∀ name ∈ editor.reflexes, Name.isValid name = true

theorem furnished_new (autoDefine : Bool) : (new autoDefine).Furnished :=
  ⟨nofun, rfl, nofun⟩

/-- No identity has been given to two names. -/
theorem Furnished.injective {editor : Editor} (h : editor.Furnished) {name other : String}
    {identity : VariableId} (hname : editor.declarations.get? name = some identity)
    (hother : editor.declarations.get? other = some identity) : name = other := by
  have hnodup : (editor.declarations.entries.map (·.2)).Nodup := by
    rw [h.counted]
    exact List.nodup_range.map fun _ _ hnumber => VariableId.mk.inj hnumber
  have hsame := List.inj_on_of_nodup_map hnodup (OrderedMap.mem_entries_of_get? hname)
    (OrderedMap.mem_entries_of_get? hother) rfl
  exact (Prod.mk.inj hsame).1

/-- One editor is furnished if another is, and has all its variables. -/
structure Sustains (before after : Editor) : Prop where
  furnished : before.Furnished → after.Furnished
  declared : ∀ name identity, before.declarations.get? name = some identity →
    after.declarations.get? name = some identity

namespace Sustains

variable {first mid last before after : Editor}

theorem refl (editor : Editor) : Sustains editor editor :=
  ⟨id, fun _ _ h => h⟩

theorem trans (hfirst : Sustains first mid) (hlast : Sustains mid last) : Sustains first last :=
  ⟨fun h => hlast.furnished (hfirst.furnished h),
    fun name identity h => hlast.declared name identity (hfirst.declared name identity h)⟩

/-- No variable is declared and no reflex is queued. -/
theorem of_named (hdeclarations : after.declarations = before.declarations)
    (hreflexes : after.reflexes ⊆ before.reflexes)
    (hnamed : (∀ block ∈ before.blocks, block.HasName) → ∀ block ∈ after.blocks, block.HasName) :
    Sustains before after := by
  constructor
  · intro h
    exact ⟨hnamed h.named, by rw [hdeclarations]; exact h.counted,
      fun name hname => h.reflexes name (hreflexes hname)⟩
  · intro name identity h
    rw [hdeclarations]
    exact h

/-- The graph is replayed, whatever becomes of the log and the events. -/
theorem of_replayAll (commands : List Command)
    (hblocks : after.blocks = Command.replayAll before.blocks commands)
    (hdeclarations : after.declarations = before.declarations)
    (hreflexes : after.reflexes = before.reflexes) : Sustains before after := by
  refine .of_named hdeclarations (hreflexes ▸ List.Subset.refl _) fun h => ?_
  rw [hblocks]
  exact Graph.hasName_replayAll h commands

end Sustains

/-! ## Users -/

theorem sustains_declare (editor : Editor) (name : String) :
    Sustains editor (editor.declare name).2 := by
  unfold declare
  split
  · exact .refl editor
  next hnone =>
    constructor
    · intro h
      refine ⟨h.named, ?_, h.reflexes⟩
      dsimp only
      rw [OrderedMap.entries_insert_of_get?_eq_none hnone, List.map_append, h.counted,
        List.length_append, List.length_singleton, List.range_succ, List.map_append]
      rfl
    · intro other identity hother
      have hne : name ≠ other := fun hsame => by
        rw [← hsame, hnone] at hother
        cases hother
      dsimp only
      rw [OrderedMap.get?_insert, if_neg hne, hother]

theorem sustains_create (editor : Editor) (role : Role) (name : String)
    (parameters : Parameters) : Sustains editor (editor.create role name parameters).2 := by
  have hcreated : (editor.create role name parameters).2 =
      { editor with
        blocks := (editor.create role name parameters).2.blocks
        nextBlock := editor.nextBlock + 1
        outbox := (editor.create role name parameters).2.outbox } := by
    simp only [create, emit_eq]
  refine .of_named (by rw [hcreated]) (by rw [hcreated]; exact List.Subset.refl _) ?_
  intro h block hblock
  rcases mem_blocks_create hblock with hold | rfl
  · exact h block hold
  · exact Block.hasName_named _ role name parameters

/-- Only the valid names are queued. -/
theorem sustains_queueReflex (editor : Editor) (name : String) :
    Sustains editor (editor.queueReflex name) := by
  unfold queueReflex
  split
  next hdue =>
    have hvalid : Name.isValid name = true := by
      rw [Bool.and_eq_true, Bool.and_eq_true] at hdue
      exact hdue.1.2
    refine ⟨fun h => ⟨h.named, h.counted, fun other hother => ?_⟩, fun _ _ h => h⟩
    rcases List.mem_append.mp hother with hold | hnew
    · exact h.reflexes other hold
    · exact List.mem_singleton.mp hnew ▸ hvalid
  next => exact .refl editor

/-- Whatever a user does keeps the store furnished and the variables declared. -/
theorem sustains_act {editor after : Editor} {action : UserAction} {yield : Yield}
    (h : editor.act action = .ok (yield, after)) : Sustains editor after := by
  refine (edits_act h).lift .refl .trans fun hedit => ?_
  cases hedit with
  | declared name => exact sustains_declare _ name
  | queued name => exact sustains_queueReflex _ name
  | unqueued => exact .of_named rfl (List.nil_subset _) id
  | created role name parameters => exact sustains_create _ role name parameters
  | replayed command _ =>
      rw [emit_eq]
      exact .of_replayAll [command] rfl rfl rfl

end Editor
end CallBinding
