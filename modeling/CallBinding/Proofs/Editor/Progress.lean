import CallBinding.Proofs.Editor.Edits
import Mathlib.Data.Nat.Basic
import Mathlib.Order.Basic

/-!
# Progress of an editor

Blocks are numbered in the order of their creation, and neither users nor
programs can give a number twice or change the role of a block.  `Progress`
collects what every action and every command has in common: it keeps the
numbering, a block that was there before keeps its role, and unless events are
suppressed the graph does not change without an event.
-/

namespace CallBinding

namespace Graph

/-- A command leaves no block that was not there, and none in another role. -/
theorem origin_replay {blocks : List Block} {command : Command} {block : Block}
    (h : block ∈ command.replay blocks) :
    ∃ former ∈ blocks, former.id = block.id ∧ former.role = block.role := by
  cases command with
  | setField id key value =>
      obtain ⟨former, hformer, rfl⟩ := List.mem_map.mp h
      refine ⟨former, hformer, ?_⟩
      split <;> simp
  | setParameters id parameters =>
      obtain ⟨former, hformer, rfl⟩ := List.mem_map.mp h
      refine ⟨former, hformer, ?_⟩
      split <;> simp
  | dispose id => exact ⟨block, (List.mem_filter.mp h).1, rfl, rfl⟩

theorem origin_replayAll {blocks : List Block} {commands : List Command} {block : Block}
    (h : block ∈ Command.replayAll blocks commands) :
    ∃ former ∈ blocks, former.id = block.id ∧ former.role = block.role := by
  induction commands generalizing blocks with
  | nil => exact ⟨block, h, rfl, rfl⟩
  | cons command rest ih =>
      obtain ⟨mid, hmid, hmidId, hmidRole⟩ := ih h
      obtain ⟨former, hformer, hid, hrole⟩ := origin_replay hmid
      exact ⟨former, hformer, hid.trans hmidId, hrole.trans hmidRole⟩

theorem map_id_replayAll_sublist (blocks : List Block) (commands : List Command) :
    ((Command.replayAll blocks commands).map (·.id)).Sublist (blocks.map (·.id)) := by
  induction commands generalizing blocks with
  | nil => exact List.Sublist.refl _
  | cons command rest ih => exact (ih _).trans (map_id_replay_sublist blocks command)

end Graph

namespace Editor

/-- The blocks stand in the order of their numbers, and the next number is beyond them. -/
structure Numbered (editor : Editor) : Prop where
  increasing : (editor.blocks.map (·.id)).Pairwise fun a b => a.number < b.number
  below : ∀ block ∈ editor.blocks, block.id.number < editor.nextBlock

/-- Every block of one editor is a block of another one, in the same role, or younger. -/
structure Evolves (before after : Editor) : Prop where
  nextBlock_le : before.nextBlock ≤ after.nextBlock
  origin : ∀ block ∈ after.blocks,
    (∃ former ∈ before.blocks, former.id = block.id ∧ former.role = block.role) ∨
      before.nextBlock ≤ block.id.number

/-- Either the graph is the same and no event has been told, or some have been. -/
def Announces (before after : Editor) : Prop :=
  (after.blocks = before.blocks ∧ after.outbox = before.outbox) ∨
    ∃ events, events ≠ [] ∧ after.outbox = before.outbox ++ events

/-- What every action and every command has in common. -/
structure Progress (before after : Editor) : Prop where
  numbered : before.Numbered → after.Numbered
  evolves : Evolves before after
  suppression : after.suppression = before.suppression
  announces : before.suppression = 0 → Announces before after

theorem Numbered.distinct {editor : Editor} (h : editor.Numbered) :
    Graph.Distinct editor.blocks := by
  refine h.increasing.imp fun {a b} hlt heq => ?_
  rw [heq] at hlt
  exact lt_irrefl _ hlt

theorem numbered_new (autoDefine : Bool) : (new autoDefine).Numbered :=
  ⟨.nil, by simp [new]⟩

namespace Evolves

variable {first mid last : Editor}

theorem refl (editor : Editor) : Evolves editor editor :=
  ⟨le_refl _, fun block h => Or.inl ⟨block, h, rfl, rfl⟩⟩

theorem trans (hfirst : Evolves first mid) (hlast : Evolves mid last) : Evolves first last := by
  refine ⟨hfirst.nextBlock_le.trans hlast.nextBlock_le, fun block hblock => ?_⟩
  rcases hlast.origin block hblock with ⟨former, hformer, hid, hrole⟩ | hyoung
  · rcases hfirst.origin former hformer with ⟨older, holder, holderId, holderRole⟩ | hyoung
    · exact Or.inl ⟨older, holder, holderId.trans hid, holderRole.trans hrole⟩
    · exact Or.inr (hid ▸ hyoung)
  · exact Or.inr (hfirst.nextBlock_le.trans hyoung)

end Evolves

/-- An id that has been given to a block, and to no block but a call site. -/
def OnlyCallSite (editor : Editor) (id : BlockId) : Prop :=
  id.number < editor.nextBlock ∧ ∀ block ∈ editor.blocks, block.id = id → block.role = .callSite

theorem Evolves.onlyCallSite {before after : Editor} (hevolves : Evolves before after)
    {id : BlockId} (h : before.OnlyCallSite id) : after.OnlyCallSite id := by
  obtain ⟨hgiven, hrole⟩ := h
  refine ⟨hgiven.trans_le hevolves.nextBlock_le, fun block hblock hid => ?_⟩
  rcases hevolves.origin block hblock with ⟨former, hformer, hformerId, hformerRole⟩ | hyoung
  · rw [← hformerRole]
    exact hrole former hformer (hformerId.trans hid)
  · rw [hid] at hyoung
    omega

theorem Announces.trans {first mid last : Editor} (hfirst : Announces first mid)
    (hlast : Announces mid last) : Announces first last := by
  rcases hlast with ⟨hblocks, houtbox⟩ | ⟨more, hmore, houtbox⟩
  · rcases hfirst with ⟨hblocks', houtbox'⟩ | ⟨events, hevents, houtbox'⟩
    · exact Or.inl ⟨hblocks.trans hblocks', houtbox.trans houtbox'⟩
    · exact Or.inr ⟨events, hevents, houtbox.trans houtbox'⟩
  · rcases hfirst with ⟨-, houtbox'⟩ | ⟨events, -, houtbox'⟩
    · exact Or.inr ⟨more, hmore, by rw [houtbox, houtbox']⟩
    · exact Or.inr ⟨events ++ more, by simp [hmore], by rw [houtbox, houtbox', List.append_assoc]⟩

namespace Progress

variable {first mid last : Editor}

theorem trans (hfirst : Progress first mid) (hlast : Progress mid last) : Progress first last where
  numbered h := hlast.numbered (hfirst.numbered h)
  evolves := hfirst.evolves.trans hlast.evolves
  suppression := hlast.suppression.trans hfirst.suppression
  announces h := (hfirst.announces h).trans (hlast.announces (hfirst.suppression.trans h))

/-- A change of anything but the graph and the events. -/
theorem of_silent {before after : Editor} (hblocks : after.blocks = before.blocks)
    (hnext : after.nextBlock = before.nextBlock)
    (hsuppression : after.suppression = before.suppression)
    (houtbox : after.outbox = before.outbox) : Progress before after where
  numbered h := ⟨by rw [hblocks]; exact h.increasing, by rw [hblocks, hnext]; exact h.below⟩
  evolves := ⟨hnext.ge, fun block hblock => Or.inl ⟨block, hblocks ▸ hblock, rfl, rfl⟩⟩
  suppression := hsuppression
  announces _ := Or.inl ⟨hblocks, houtbox⟩

theorem refl (editor : Editor) : Progress editor editor :=
  of_silent rfl rfl rfl rfl

/-- A change of single blocks. -/
theorem of_origin {before after : Editor}
    (hids : (after.blocks.map (·.id)).Sublist (before.blocks.map (·.id)))
    (horigin : ∀ block ∈ after.blocks,
      ∃ former ∈ before.blocks, former.id = block.id ∧ former.role = block.role)
    (hnext : after.nextBlock = before.nextBlock)
    (hsuppression : after.suppression = before.suppression)
    (hannounces : before.suppression = 0 → Announces before after) : Progress before after where
  numbered h := by
    refine ⟨h.increasing.sublist hids, fun block hblock => ?_⟩
    obtain ⟨former, hformer, hid, -⟩ := horigin block hblock
    rw [hnext, ← hid]
    exact h.below former hformer
  evolves := ⟨hnext.ge, fun block hblock => Or.inl (horigin block hblock)⟩
  suppression := hsuppression
  announces := hannounces

end Progress

/-! ## Commands -/

theorem progress_issue (editor : Editor) (commands : List Command) :
    Progress editor (editor.issue commands) := by
  refine .of_origin (Graph.map_id_replayAll_sublist _ _) (fun _ => Graph.origin_replayAll) rfl rfl
    fun h => ?_
  cases commands with
  | nil => exact Or.inl (by simp)
  | cons command rest =>
      refine Or.inr ⟨(command :: rest).map Command.event, by simp, ?_⟩
      simp [issue, isSuppressed, h]

/-! ## Users -/

theorem progress_create (editor : Editor) (role : Role) (name : String)
    (parameters : Parameters) : Progress editor (editor.create role name parameters).2 := by
  simp only [create]
  constructor
  · intro h
    constructor
    · simp only [blocks_emit, List.map_append, List.map_cons, List.map_nil, List.pairwise_append,
        List.pairwise_singleton, List.mem_map, List.mem_singleton, true_and]
      refine ⟨h.increasing, ?_⟩
      rintro _ ⟨block, hblock, rfl⟩ _ rfl
      exact h.below block hblock
    · intro block hblock
      rw [blocks_emit] at hblock
      rw [nextBlock_emit]
      rcases List.mem_append.mp hblock with hold | hnew
      · exact (h.below block hold).trans (Nat.lt_succ_self _)
      · rw [List.mem_singleton.mp hnew]
        exact Nat.lt_succ_self _
  · refine ⟨by simp, fun block hblock => ?_⟩
    rw [blocks_emit] at hblock
    rcases List.mem_append.mp hblock with hold | hnew
    · exact Or.inl ⟨block, hold, rfl, rfl⟩
    · rw [List.mem_singleton.mp hnew]
      exact Or.inr (le_refl _)
  · simp
  · intro h
    refine Or.inr ⟨[⟨.create, ⟨editor.nextBlock⟩⟩], List.cons_ne_nil _ _, ?_⟩
    rw [outbox_emit]
    exact h

/-- A user changes or deletes a block as a command does, but leaves nothing in the log. -/
theorem progress_replay (editor : Editor) (command : Command) (kind : EventKind) (id : BlockId) :
    Progress editor ({ editor with blocks := command.replay editor.blocks }.emit kind id) := by
  refine .of_origin ?_ (fun block hblock => ?_) (by simp) (by simp) fun h => Or.inr ?_
  · rw [blocks_emit]
    exact Graph.map_id_replay_sublist _ _
  · rw [blocks_emit] at hblock
    exact Graph.origin_replay hblock
  · refine ⟨[⟨kind, id⟩], List.cons_ne_nil _ _, ?_⟩
    rw [outbox_emit]
    exact h

theorem Edit.progress {before after : Editor} (h : Edit before after) : Progress before after := by
  cases h with
  | declared name =>
      unfold declare
      split
      · exact .refl before
      · exact .of_silent rfl rfl rfl rfl
  | queued name =>
      unfold queueReflex
      split
      · exact .of_silent rfl rfl rfl rfl
      · exact .refl before
  | unqueued => exact .of_silent rfl rfl rfl rfl
  | created role name parameters => exact before.progress_create role name parameters
  | replayed command _ => exact before.progress_replay command _ _

theorem Edits.progress {before after : Editor} (h : Edits before after) : Progress before after :=
  h.lift .refl .trans Edit.progress

theorem progress_act {editor after : Editor} {action : UserAction} {yield : Yield}
    (h : editor.act action = .ok (yield, after)) : Progress editor after :=
  (edits_act h).progress

end Editor
end CallBinding
