import CallBinding.Proofs.Editor.Progress

/-!
# Births

An editor tells of each new block by an event, unless events are suppressed.
`Births` says that the events of an action come in the order in which the
blocks are numbered, so that no event tells of a block older than one that was
told of before.  A call site is the last block that an action creates.
-/

namespace CallBinding

/-- The block of whose creation an event tells. -/
def Event.created? (event : Event) : Option BlockId :=
  if event.kind = .create then some event.block else none

theorem Event.created?_eq_some_iff {event : Event} {id : BlockId} :
    event.created? = some id ↔ event = ⟨.create, id⟩ := by
  obtain ⟨kind, block⟩ := event
  cases kind <;> simp [created?]

theorem Event.filterMap_created?_eq_nil {events : List Event}
    (h : ∀ event ∈ events, event.kind ≠ .create) : events.filterMap Event.created? = [] :=
  List.filterMap_eq_nil_iff.mpr fun event hevent => if_neg (h event hevent)

namespace Editor

/-- Between two states of an editor it has told of some events, and the blocks of which they tell
that they are new have been numbered in the meantime. -/
structure Births (before after : Editor) (events : List Event) : Prop where
  outbox : after.outbox = before.outbox ++ events
  increasing : (events.filterMap Event.created?).Pairwise fun a b => a.number < b.number
  range : ∀ id ∈ events.filterMap Event.created?,
    before.nextBlock ≤ id.number ∧ id.number < after.nextBlock

namespace Births

variable {first mid last : Editor} {events more : List Event}

/-- Events of other changes only. -/
theorem of_kind_ne (houtbox : last.outbox = first.outbox ++ events)
    (hkinds : ∀ event ∈ events, event.kind ≠ .create) : Births first last events := by
  have hnone := Event.filterMap_created?_eq_nil hkinds
  refine ⟨houtbox, ?_, ?_⟩
  · rw [hnone]
    exact .nil
  · rw [hnone]
    exact fun _ h => by cases h

theorem trans (hfirst : Births first mid events) (hlast : Births mid last more)
    (hbefore : first.nextBlock ≤ mid.nextBlock) (hafter : mid.nextBlock ≤ last.nextBlock) :
    Births first last (events ++ more) := by
  refine ⟨?_, ?_, fun id hid => ?_⟩
  · rw [hlast.outbox, hfirst.outbox, List.append_assoc]
  · rw [List.filterMap_append, List.pairwise_append]
    refine ⟨hfirst.increasing, hlast.increasing, fun old hold new hnew => ?_⟩
    exact (hfirst.range old hold).2.trans_le (hlast.range new hnew).1
  · rw [List.filterMap_append, List.mem_append] at hid
    rcases hid with hold | hnew
    · obtain ⟨hlow, hhigh⟩ := hfirst.range id hold
      exact ⟨hlow, hhigh.trans_le hafter⟩
    · obtain ⟨hlow, hhigh⟩ := hlast.range id hnew
      exact ⟨hbefore.trans hlow, hhigh⟩

end Births

/-! ## Users -/

theorem births_create (editor : Editor) (role : Role) (name : String) (parameters : Parameters) :
    ∃ events, Births editor (editor.create role name parameters).2 events := by
  refine ⟨if editor.isSuppressed then [] else [⟨.create, ⟨editor.nextBlock⟩⟩], ?_, ?_, ?_⟩
  · simp only [create, emit_eq]
    rfl
  · split
    · exact .nil
    · exact List.pairwise_singleton _ _
  · intro id hid
    split at hid
    · cases hid
    · rw [List.mem_singleton.mp hid]
      simp [create]

/-- To declare a variable changes nothing else. -/
theorem exists_declare_eq (editor : Editor) (name : String) :
    ∃ declarations, (editor.declare name).2 = { editor with declarations := declarations } := by
  unfold declare
  split
  · exact ⟨editor.declarations, rfl⟩
  · exact ⟨_, rfl⟩

theorem exists_declareAll_eq (editor : Editor) (names : List String) :
    ∃ declarations,
      (editor.declareAll names).2 = { editor with declarations := declarations } := by
  induction names generalizing editor with
  | nil => exact ⟨editor.declarations, rfl⟩
  | cons name rest ih =>
      obtain ⟨first, hfirst⟩ := editor.exists_declare_eq name
      obtain ⟨last, hlast⟩ := ih (editor.declare name).2
      refine ⟨last, ?_⟩
      simp only [declareAll, hlast]
      rw [hfirst]

theorem exists_queueReflex_eq (editor : Editor) (name : String) :
    ∃ reflexes, editor.queueReflex name = { editor with reflexes := reflexes } := by
  unfold queueReflex
  split
  · exact ⟨_, rfl⟩
  · exact ⟨editor.reflexes, rfl⟩

/-- Nothing is told of. -/
theorem Births.of_outbox_eq {before after : Editor} (h : after.outbox = before.outbox) :
    Births before after [] :=
  .of_kind_ne (by rw [h, List.append_nil]) nofun

theorem Edit.births {before after : Editor} (h : Edit before after) :
    ∃ events, Births before after events := by
  cases h with
  | declared name =>
      obtain ⟨declarations, hdeclared⟩ := before.exists_declare_eq name
      rw [hdeclared]
      exact ⟨[], .of_outbox_eq rfl⟩
  | queued name =>
      obtain ⟨reflexes, hqueued⟩ := before.exists_queueReflex_eq name
      rw [hqueued]
      exact ⟨[], .of_outbox_eq rfl⟩
  | unqueued => exact ⟨[], .of_outbox_eq rfl⟩
  | created role name parameters => exact before.births_create role name parameters
  | replayed command _ =>
      refine ⟨if before.isSuppressed then [] else [command.event], .of_kind_ne ?_ ?_⟩
      · rw [emit_eq]
        rfl
      · split
        · exact nofun
        · simpa using command.kind_event_ne_create

/-- The events of an action come in the order in which the blocks are numbered. -/
theorem Edits.births {before after : Editor} (h : Edits before after) :
    ∃ events, Births before after events := by
  have hboth : Progress before after ∧ ∃ events, Births before after events := by
    refine @Edits.lift (fun before after =>
      Progress before after ∧ ∃ events, Births before after events) ?_ ?_ ?_ _ _ h
    · exact fun editor => ⟨.refl editor, [], .of_outbox_eq rfl⟩
    · rintro first mid last ⟨hfirst, events, hevents⟩ ⟨hlast, more, hmore⟩
      exact ⟨hfirst.trans hlast, events ++ more,
        hevents.trans hmore hfirst.evolves.nextBlock_le hlast.evolves.nextBlock_le⟩
    · exact fun hedit => ⟨hedit.progress, hedit.births⟩
  exact hboth.2

theorem mem_blocks_create {editor : Editor} {role : Role} {name : String} {parameters : Parameters}
    {block : Block} (h : block ∈ (editor.create role name parameters).2.blocks) :
    block ∈ editor.blocks ∨ block = .named ⟨editor.nextBlock⟩ role name parameters := by
  simpa [create] using h

theorem mem_blocks_define {editor : Editor} {name : String} {labels : List String} {block : Block}
    (h : block ∈ (editor.define name labels).2.blocks) :
    block ∈ editor.blocks ∨ block.role = .definition := by
  obtain ⟨declarations, hdeclared⟩ := editor.exists_declareAll_eq labels
  simp only [define, hdeclared] at h
  rcases mem_blocks_create h with hold | rfl
  · exact Or.inl hold
  · exact Or.inr rfl

/-- Reflexes create definitions only. -/
theorem mem_blocks_defineEach {editor : Editor} {names : List String} {block : Block}
    (h : block ∈ (editor.defineEach names).2.blocks) :
    block ∈ editor.blocks ∨ block.role = .definition := by
  induction names generalizing editor with
  | nil => exact Or.inl h
  | cons name rest ih =>
      have hrest : block ∈ (editor.define name []).2.blocks ∨ block.role = .definition := ih h
      rcases hrest with hfirst | hdefinition
      · exact mem_blocks_define hfirst
      · exact Or.inr hdefinition

/-- A call site that an action creates is the last block that it creates. -/
def CallsLast (before after : Editor) : Prop :=
  ∀ block ∈ after.blocks, before.nextBlock ≤ block.id.number → block.role = .callSite →
    after.nextBlock = block.id.number + 1

theorem CallsLast.of_nextBlock_eq {before after : Editor} (hafter : after.Numbered)
    (h : after.nextBlock = before.nextBlock) : CallsLast before after := by
  intro block hblock hnew _
  have hbelow := hafter.below block hblock
  omega

theorem CallsLast.of_definitions {before after : Editor} (hbefore : before.Numbered)
    (h : ∀ block ∈ after.blocks, block ∈ before.blocks ∨ block.role = .definition) :
    CallsLast before after := by
  intro block hblock hnew hrole
  rcases h block hblock with hold | hdefinition
  · exact absurd (hbefore.below block hold) (Nat.not_lt.mpr hnew)
  · cases hrole.symm.trans hdefinition

theorem callsLast_create {editor : Editor} (hnumbered : editor.Numbered) (role : Role)
    (name : String) (parameters : Parameters) :
    CallsLast editor (editor.create role name parameters).2 := by
  intro block hblock hnew _
  rcases mem_blocks_create hblock with hold | rfl
  · exact absurd (hnumbered.below block hold) (Nat.not_lt.mpr hnew)
  · simp [create, Block.named]

/-- What an action tells of new blocks. -/
theorem births_act {editor after : Editor} (hnumbered : editor.Numbered) {action : UserAction}
    {yield : Yield} (h : editor.act action = .ok (yield, after)) :
    (∃ events, Births editor after events) ∧ CallsLast editor after := by
  have hafter := (progress_act h).numbered hnumbered
  refine ⟨(edits_act h).births, ?_⟩
  cases action with
  | declare name =>
      obtain ⟨-, hsame : (editor.declare name).2 = after⟩ := Prod.mk.inj (Except.ok.inj h)
      obtain ⟨declarations, hdeclared⟩ := editor.exists_declare_eq name
      obtain rfl := hsame.symm.trans hdeclared
      exact .of_nextBlock_eq hafter rfl
  | define name labels =>
      obtain ⟨-, rfl⟩ := Prod.mk.inj (Except.ok.inj h)
      exact .of_definitions hnumbered fun _ => mem_blocks_define
  | defineWith name parameters =>
      obtain ⟨-, rfl⟩ := Prod.mk.inj (Except.ok.inj h)
      exact callsLast_create hnumbered _ _ _
  | call name =>
      obtain ⟨-, rfl⟩ := Prod.mk.inj (Except.ok.inj h)
      obtain ⟨reflexes, hqueued⟩ := editor.exists_queueReflex_eq name
      have hqueuedNumbered : Numbered { editor with reflexes := reflexes } :=
        ⟨hnumbered.increasing, hnumbered.below⟩
      simp only [hqueued]
      exact callsLast_create hqueuedNumbered .callSite name .empty
  | createOther =>
      obtain ⟨-, rfl⟩ := Prod.mk.inj (Except.ok.inj h)
      exact callsLast_create hnumbered _ _ _
  | rename id name =>
      simp only [act, rename] at h
      split at h
      · obtain ⟨-, rfl⟩ := Prod.mk.inj (Except.ok.inj h)
        exact .of_nextBlock_eq hafter (by simp [modify])
      · cases h
  | remove id =>
      simp only [act, remove] at h
      split at h
      · obtain ⟨-, rfl⟩ := Prod.mk.inj (Except.ok.inj h)
        exact .of_nextBlock_eq hafter (by simp [erase])
      · cases h
  | runReflexes =>
      obtain ⟨-, rfl⟩ := Prod.mk.inj (Except.ok.inj h)
      have horigin : ∀ block ∈ ({ editor with reflexes := [] }.defineEach editor.reflexes).2.blocks,
          block ∈ editor.blocks ∨ block.role = .definition := fun _ => mem_blocks_defineEach
      exact .of_definitions hnumbered horigin

end Editor
end CallBinding
