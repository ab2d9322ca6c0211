import CallBinding.Proofs.Editor.Progress

/-!
# Disciplined commands

Reconciling a graph takes three kinds of commands: a call site is given a name
or arguments, or a definition is disposed of.  A trail of such commands leaves
everything else as it finds it.  `Frame` says what this is, block by block.
-/

namespace CallBinding

namespace OrderedMap

variable {α β : Type} [DecidableEq α]

/-- Writing a key leaves the entries of the other keys, and their order, alone. -/
theorem filter_write (key : α) (value : β) (entries : List (α × β)) :
    (write key value entries).filter (fun entry => entry.1 ≠ key) =
      entries.filter fun entry => entry.1 ≠ key := by
  induction entries with
  | nil => simp [write]
  | cons entry rest ih =>
      by_cases h : entry.1 = key
      · simp [write, h]
      · simpa [write, h] using ih

end OrderedMap

namespace Block

/-- The fields of a block besides its name, in their order. -/
def otherFields (block : Block) : List (String × String) :=
  block.fields.entries.filter fun entry => entry.1 ≠ nameField

@[simp] theorem otherFields_setField (block : Block) (name : String) :
    (block.setField nameField name).otherFields = block.otherFields :=
  OrderedMap.filter_write nameField name block.fields.entries

end Block

namespace Graph

/-- The commands with which a graph is reconciled, where only some definitions may go. -/
inductive Reconciles (mayGo : BlockId → Prop) (blocks : List Block) : Command → Prop
  | rename {call : CallSite} (name : String) :
      call ∈ callSites blocks → Reconciles mayGo blocks (.setField call.id nameField name)
  | bind {call : CallSite} {parameters : Parameters} :
      call ∈ callSites blocks → parameters.isAligned →
      Reconciles mayGo blocks (.setParameters call.id parameters)
  | dispose {definition : Definition} :
      definition ∈ definitions blocks → mayGo definition.id →
      Reconciles mayGo blocks (.dispose definition.id)

/-- What reconciling leaves alone. -/
structure Frame (before after : List Block) : Prop where
  /-- No block is created. -/
  ids : (after.map (·.id)).Sublist (before.map (·.id))
  /-- A definition stays as it was, or goes. -/
  definitions : ∀ block ∈ before, block.role = .definition →
    block ∈ after ∨ block.id ∉ after.map (·.id)
  /-- Blocks of no particular role stay as they were. -/
  others : ∀ block ∈ before, block.role = .other → block ∈ after
  /-- A call site stays a call site, and only its name and its arguments may be new. -/
  callSites : ∀ block ∈ before, block.role = .callSite →
    ∃ live ∈ after, live.id = block.id ∧ live.role = .callSite ∧
      live.otherFields = block.otherFields

namespace Frame

variable {first mid last : List Block}

theorem refl (blocks : List Block) : Frame blocks blocks :=
  ⟨List.Sublist.refl _, fun _ h _ => Or.inl h, fun _ h _ => h,
    fun block h hrole => ⟨block, h, rfl, hrole, rfl⟩⟩

theorem trans (hfirst : Frame first mid) (hlast : Frame mid last) : Frame first last := by
  refine ⟨hlast.ids.trans hfirst.ids, ?_, ?_, ?_⟩
  · intro block hblock hrole
    rcases hfirst.definitions block hblock hrole with hmid | hgone
    · exact hlast.definitions block hmid hrole
    · exact Or.inr fun hlater => hgone (hlast.ids.subset hlater)
  · intro block hblock hrole
    exact hlast.others block (hfirst.others block hblock hrole) hrole
  · intro block hblock hrole
    obtain ⟨live, hlive, hid, hliveRole, hfields⟩ := hfirst.callSites block hblock hrole
    obtain ⟨later, hlater, hlaterId, hlaterRole, hlaterFields⟩ :=
      hlast.callSites live hlive hliveRole
    exact ⟨later, hlater, hlaterId.trans hid, hlaterRole, hlaterFields.trans hfields⟩

end Frame

variable {mayGo other : BlockId → Prop} {blocks : List Block} {command : Command}
variable {commands : List Command}

theorem Renames.reconciles {name : String} (h : Renames name blocks command) :
    Reconciles mayGo blocks command := by
  cases h with
  | intro hcall => exact .rename name hcall

theorem Binds.reconciles (h : Binds blocks command) : Reconciles mayGo blocks command := by
  cases h with
  | intro hcall haligned => exact .bind hcall haligned

theorem Reconciles.mono (hsub : ∀ id, mayGo id → other id) (h : Reconciles mayGo blocks command) :
    Reconciles other blocks command := by
  cases h with
  | rename name hcall => exact .rename name hcall
  | bind hcall haligned => exact .bind hcall haligned
  | dispose hdefinition hmay => exact .dispose hdefinition (hsub _ hmay)

/-- A change of one call site that keeps its role and its other fields. -/
theorem frame_map (hdistinct : Distinct blocks) {call : CallSite}
    (hcall : call ∈ Graph.callSites blocks) (change : Block → Block)
    (hid : ∀ block, (change block).id = block.id)
    (hrole : ∀ block, (change block).role = block.role)
    (hfields : ∀ block, (change block).otherFields = block.otherFields) :
    Frame blocks (blocks.map fun block => if block.id = call.id then change block else block) := by
  obtain ⟨target, htarget, htargetRole, rfl⟩ := mem_callSites.mp hcall
  have kept : ∀ block ∈ blocks, block.role ≠ .callSite →
      block ∈ blocks.map fun block => if block.id = target.id then change block else block := by
    intro block hblock hne
    refine List.mem_map.mpr ⟨block, hblock, if_neg fun hsame => hne ?_⟩
    rw [hdistinct.eq_of_id hblock htarget hsame]
    exact htargetRole
  refine ⟨?_, ?_, ?_, ?_⟩
  · rw [map_id_map blocks target.id hid]
  · intro block hblock hdefinition
    exact Or.inl (kept block hblock (by simp [hdefinition]))
  · intro block hblock hother
    exact kept block hblock (by simp [hother])
  · intro block hblock hsite
    refine ⟨_, List.mem_map_of_mem hblock, ?_⟩
    split
    · exact ⟨hid block, (hrole block).trans hsite, hfields block⟩
    · exact ⟨rfl, hsite, rfl⟩

theorem Reconciles.frame (hdistinct : Distinct blocks) (h : Reconciles mayGo blocks command) :
    Frame blocks (command.replay blocks) := by
  cases h with
  | rename name hcall =>
      exact frame_map hdistinct hcall (fun block => block.setField nameField name)
        (fun _ => rfl) (fun _ => rfl) fun block => block.otherFields_setField name
  | @bind call parameters hcall _ =>
      exact frame_map hdistinct hcall (fun block => { block with parameters := parameters })
        (fun _ => rfl) (fun _ => rfl) fun _ => rfl
  | dispose hdefinition _ =>
      obtain ⟨target, htarget, hrole, rfl⟩ := mem_definitions.mp hdefinition
      have kept : ∀ block ∈ blocks, block.role ≠ .definition →
          block ∈ Command.replay blocks (.dispose target.id) := by
        intro block hblock hne
        refine List.mem_filter.mpr ⟨hblock, ?_⟩
        have hid : block.id ≠ target.id := fun hsame =>
          hne (by rw [hdistinct.eq_of_id hblock htarget hsame]; exact hrole)
        simpa using hid
      refine ⟨List.filter_sublist.map _, ?_, ?_, ?_⟩
      · intro block hblock _
        by_cases hid : block.id = target.id
        · right
          simp [Command.replay, hid]
        · exact Or.inl (List.mem_filter.mpr ⟨hblock, by simpa using hid⟩)
      · intro block hblock hother
        exact kept block hblock (by simp [hother])
      · intro block hblock hsite
        exact ⟨block, kept block hblock (by simp [hsite]), rfl, hsite, rfl⟩

/-- A reconciled graph has no definitions but those that it had before. -/
theorem Reconciles.definitions_subset (hdistinct : Distinct blocks)
    (h : Reconciles mayGo blocks command) :
    definitions (command.replay blocks) ⊆ definitions blocks := by
  cases h with
  | rename name hcall => rw [definitions_replay_setField hdistinct hcall]; exact fun _ h => h
  | bind hcall _ => rw [definitions_replay_setParameters hdistinct hcall]; exact fun _ h => h
  | dispose _ _ =>
      rw [definitions_replay_dispose]
      exact List.filter_sublist.subset

theorem frame_of_reconciles (hdistinct : Distinct blocks)
    (htrail : Trail (Reconciles mayGo) blocks commands) :
    Frame blocks (Command.replayAll blocks commands) :=
  (htrail.preserves (fun later => Distinct later ∧ Frame blocks later)
    (fun _ command h hcommand => ⟨h.1.replay command, h.2.trans (hcommand.frame h.1)⟩)
    ⟨hdistinct, .refl blocks⟩).2

/-- What is disposed of was a definition that might go, and it is gone. -/
theorem exists_of_dispose_mem (hdistinct : Distinct blocks)
    (htrail : Trail (Reconciles mayGo) blocks commands) {id : BlockId}
    (hmem : .dispose id ∈ commands) :
    mayGo id ∧ (∃ definition ∈ definitions blocks, definition.id = id) ∧
      id ∉ (Command.replayAll blocks commands).map (·.id) := by
  induction htrail with
  | nil => cases hmem
  | @cons blocks command rest hcommand _ ih =>
      rcases List.mem_cons.mp hmem with rfl | hrest
      · cases hcommand with
        | @dispose definition hdefinition hmay =>
            refine ⟨hmay, ⟨definition, hdefinition, rfl⟩, fun hlater => ?_⟩
            have hnow := (map_id_replayAll_sublist _ rest).subset hlater
            obtain ⟨block, hblock, hid⟩ := List.mem_map.mp hnow
            exact absurd hid (by simpa using (List.mem_filter.mp hblock).2)
      · obtain ⟨hmay, ⟨definition, hdefinition, hid⟩, hgone⟩ := ih (hdistinct.replay command) hrest
        exact ⟨hmay, ⟨definition, hcommand.definitions_subset hdistinct hdefinition, hid⟩, hgone⟩

end Graph
end CallBinding
