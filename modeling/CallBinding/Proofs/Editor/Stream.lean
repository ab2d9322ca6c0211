import CallBinding.Proofs.Editor.Births
import CallBinding.Proofs.Editor.Edits
import CallBinding.Proofs.Host.Works
import Mathlib.Data.List.Nodup
import Mathlib.Data.List.Range

/-!
# Following an editor by its events

Someone who knows which blocks are live and hears of every event can keep
track of them: the creation of a block adds its id, a deletion takes it away,
and only what is live can change.  `Follows` says that this never fails and
ends with the ids that are live, and that each block numbered in the meantime
has been announced once.
-/

namespace CallBinding

open CallBinding.Graph (Reconciles Trail)

namespace Event

/-- The block of whose deletion an event tells. -/
def deleted? (event : Event) : Option BlockId :=
  if event.kind = .delete then some event.block else none

/-- The live ids after an event.  There are none if the event does not fit: only a new id can be
created, and only a live one can be changed or deleted. -/
def follow? (live : List BlockId) (event : Event) : Option (List BlockId) :=
  match event.kind with
  | .create => if event.block ∈ live then none else some (live ++ [event.block])
  | .change => if event.block ∈ live then some live else none
  | .delete => if event.block ∈ live then some (live.filter (· ≠ event.block)) else none

/-- Of what an event deletes, nothing is left. -/
theorem deleted_of_follow {live next : List BlockId} {event : Event} {id : BlockId}
    (h : event.follow? live = some next) (hdeleted : event.deleted? = some id) :
    id ∈ live ∧ next = live.filter (· ≠ id) := by
  obtain ⟨kind, block⟩ := event
  cases kind with
  | create | change => cases hdeleted
  | delete =>
      obtain rfl := Option.some.inj hdeleted
      simp only [follow?] at h
      split at h
      next hlive => exact ⟨hlive, (Option.some.inj h).symm⟩
      next => cases h

/-- What is live after an event was live before or has been created. -/
theorem sublist_of_follow {live next : List BlockId} {event : Event}
    (h : event.follow? live = some next) : next.Sublist (live ++ event.created?.toList) := by
  obtain ⟨kind, block⟩ := event
  cases kind with
  | create =>
      simp only [follow?] at h
      split at h
      · cases h
      · exact Option.some.inj h ▸ List.Sublist.refl _
  | change =>
      simp only [follow?] at h
      split at h
      · exact Option.some.inj h ▸ List.sublist_append_left _ _
      · cases h
  | delete =>
      simp only [follow?] at h
      split at h
      · exact Option.some.inj h ▸ List.filter_sublist.trans (List.sublist_append_left _ _)
      · cases h

theorem filterMap_cons_toList {α β : Type} (f : α → Option β) (a : α) (rest : List α) :
    (a :: rest).filterMap f = (f a).toList ++ rest.filterMap f := by
  cases h : f a <;> simp [h]

variable {live next : List BlockId} {events : List Event}

/-- Only what was live or has been created can be deleted. -/
theorem deleted_subset (h : events.foldlM follow? live = some next) :
    events.filterMap deleted? ⊆ live ++ events.filterMap created? := by
  induction events generalizing live with
  | nil => exact List.nil_subset _
  | cons event rest ih =>
      rw [List.foldlM_cons] at h
      obtain ⟨mid, hmid, hrest⟩ := Option.bind_eq_some_iff.mp h
      have hsub := sublist_of_follow hmid
      rw [filterMap_cons_toList, filterMap_cons_toList created?, ← List.append_assoc]
      refine List.append_subset.mpr ⟨fun id hid => ?_, fun id hid => ?_⟩
      · have hlive := (deleted_of_follow hmid (Option.mem_toList.mp hid)).1
        exact List.mem_append_left _ (List.mem_append_left _ hlive)
      · rcases List.mem_append.mp (ih hrest hid) with hold | hnew
        · exact List.mem_append_left _ (hsub.subset hold)
        · exact List.mem_append_right _ hnew

/-- If no id is created that was live or created before, no id is deleted twice. -/
theorem nodup_deleted (h : events.foldlM follow? live = some next)
    (hnodup : (live ++ events.filterMap created?).Nodup) :
    (events.filterMap deleted?).Nodup := by
  induction events generalizing live with
  | nil => exact List.nodup_nil
  | cons event rest ih =>
      rw [List.foldlM_cons] at h
      obtain ⟨mid, hmid, hrest⟩ := Option.bind_eq_some_iff.mp h
      rw [filterMap_cons_toList, ← List.append_assoc] at hnodup
      have hmidNodup : (mid ++ rest.filterMap created?).Nodup :=
        hnodup.sublist ((sublist_of_follow hmid).append_right _)
      have hrestNodup := ih hrest hmidNodup
      cases hdeleted : event.deleted? with
      | none =>
          rw [List.filterMap_cons_none hdeleted]
          exact hrestNodup
      | some id =>
          obtain ⟨hlive, rfl⟩ := deleted_of_follow hmid hdeleted
          rw [List.filterMap_cons_some hdeleted, List.nodup_cons]
          refine ⟨fun hagain => ?_, hrestNodup⟩
          rcases List.mem_append.mp (deleted_subset hrest hagain) with hstill | hcreated
          · simp at hstill
          · have hbefore : id ∈ live ++ event.created?.toList := List.mem_append_left _ hlive
            exact (List.nodup_append.mp hnodup).2.2 id hbefore id hcreated rfl

end Event

/-! ## Commands -/

namespace Graph

variable {blocks : List Block} {command : Command} {commands : List Command}

/-- The ids after a command, as its event tells of them. -/
theorem follow_replay (h : OnLive blocks command) :
    command.event.follow? (blocks.map (·.id)) = some ((command.replay blocks).map (·.id)) := by
  obtain ⟨block, hblock, hid⟩ := h
  have hlive : command.event.block ∈ blocks.map (·.id) := List.mem_map.mpr ⟨block, hblock, hid⟩
  cases command with
  | setField id key value | setParameters id parameters =>
      rw [map_id_replay blocks (by simp)]
      exact if_pos hlive
  | dispose id =>
      refine (if_pos hlive).trans (congrArg some ?_)
      rw [Command.replay, List.filter_map]
      rfl

theorem follow_replayAll (htrail : Trail OnLive blocks commands) :
    (commands.map Command.event).foldlM Event.follow? (blocks.map (·.id)) =
      some ((Command.replayAll blocks commands).map (·.id)) := by
  induction htrail with
  | nil => rfl
  | cons hcommand _ ih =>
      rw [List.map_cons, List.foldlM_cons, follow_replay hcommand]
      exact ih

/-- Where nothing may go, the same blocks stay. -/
theorem map_id_replayAll_of_reconciles (htrail : Trail (Reconciles fun _ => False) blocks commands) :
    (Command.replayAll blocks commands).map (·.id) = blocks.map (·.id) := by
  refine htrail.preserves (fun later => later.map (·.id) = blocks.map (·.id)) ?_ rfl
  intro later command hsame hcommand
  cases hcommand with
  | rename _ _ | bind _ _ => exact (map_id_replay later (by simp)).trans hsame
  | dispose _ hnever => exact hnever.elim

end Graph

namespace Editor

/-- The ids of the live blocks. -/
def ids (editor : Editor) : List BlockId :=
  editor.blocks.map (·.id)

/-- Someone who hears of these events knows what has become of the blocks. -/
structure Follows (before after : Editor) (events : List Event) : Prop where
  live : events.foldlM Event.follow? before.ids = some after.ids
  /-- The blocks that have been numbered are announced one by one. -/
  created : ∃ count, after.nextBlock = before.nextBlock + count ∧
    events.filterMap Event.created? = (List.range' before.nextBlock count).map BlockId.mk

namespace Follows

variable {first mid last : Editor} {events more : List Event}

/-- Nothing happens to any block. -/
theorem of_silent (hids : last.ids = first.ids) (hnext : last.nextBlock = first.nextBlock) :
    Follows first last [] :=
  ⟨congrArg some hids.symm, 0, hnext, rfl⟩

theorem trans (hfirst : Follows first mid events) (hlast : Follows mid last more) :
    Follows first last (events ++ more) := by
  obtain ⟨count, hmid, hcreated⟩ := hfirst.created
  obtain ⟨further, hnext, hmore⟩ := hlast.created
  constructor
  · rw [List.foldlM_append, hfirst.live]
    exact hlast.live
  · refine ⟨count + further, by omega, ?_⟩
    rw [List.filterMap_append, hcreated, hmore, hmid, ← List.map_append, List.range'_append_1]

theorem nodup_created (h : Follows first last events) :
    (events.filterMap Event.created?).Nodup := by
  obtain ⟨count, -, hcreated⟩ := h.created
  rw [hcreated]
  exact List.Nodup.map (fun _ _ hnumber => BlockId.mk.inj hnumber) List.nodup_range'

theorem nodup_deleted (h : Follows first last events) (hnumbered : first.Numbered) :
    (events.filterMap Event.deleted?).Nodup := by
  refine Event.nodup_deleted h.live ?_
  refine List.nodup_append.mpr ⟨hnumbered.distinct, h.nodup_created, ?_⟩
  rintro id hid _ hnew rfl
  obtain ⟨count, -, hcreated⟩ := h.created
  rw [hcreated] at hnew
  obtain ⟨number, hnumber, rfl⟩ := List.mem_map.mp hnew
  obtain ⟨block, hblock, hblockId⟩ := List.mem_map.mp hid
  have hbelow := hnumbered.below block hblock
  have hlow := (List.mem_range'_1.mp hnumber).1
  rw [hblockId] at hbelow
  exact absurd hbelow (Nat.not_lt.mpr hlow)

end Follows

/-- Unless it is suppressed, an editor tells of everything that happens to its blocks. -/
structure Narrates (before after : Editor) : Prop where
  progress : Progress before after
  follows : before.Numbered → before.suppression = 0 →
    ∃ events, after.outbox = before.outbox ++ events ∧ Follows before after events

namespace Narrates

variable {first mid last : Editor}

theorem refl (editor : Editor) : Narrates editor editor :=
  ⟨.refl editor, fun _ _ => ⟨[], (List.append_nil _).symm, .of_silent rfl rfl⟩⟩

theorem trans (hfirst : Narrates first mid) (hlast : Narrates mid last) : Narrates first last := by
  refine ⟨hfirst.progress.trans hlast.progress, fun hnumbered hopen => ?_⟩
  obtain ⟨events, houtbox, hevents⟩ := hfirst.follows hnumbered hopen
  obtain ⟨more, hmoreOutbox, hmore⟩ := hlast.follows (hfirst.progress.numbered hnumbered)
    (hfirst.progress.suppression.trans hopen)
  refine ⟨events ++ more, ?_, hevents.trans hmore⟩
  rw [hmoreOutbox, houtbox, List.append_assoc]

/-- A change of anything but the blocks and the events. -/
theorem of_silent {before after : Editor} (hblocks : after.blocks = before.blocks)
    (hnext : after.nextBlock = before.nextBlock)
    (hsuppression : after.suppression = before.suppression)
    (houtbox : after.outbox = before.outbox) : Narrates before after := by
  refine ⟨.of_silent hblocks hnext hsuppression houtbox, fun _ _ => ⟨[], ?_, ?_⟩⟩
  · rw [houtbox, List.append_nil]
  · have hids : after.ids = before.ids := by rw [ids, hblocks, ids]
    exact .of_silent hids hnext

end Narrates

theorem narrates_create (editor : Editor) (role : Role) (name : String)
    (parameters : Parameters) : Narrates editor (editor.create role name parameters).2 := by
  refine ⟨editor.progress_create role name parameters, fun hnumbered hopen => ?_⟩
  refine ⟨[⟨.create, ⟨editor.nextBlock⟩⟩], ?_, ?_, 1, ?_, rfl⟩
  · rw [create, outbox_emit]
    exact hopen
  · have hnew : (⟨editor.nextBlock⟩ : BlockId) ∉ editor.ids := by
      intro hlive
      obtain ⟨block, hblock, hid⟩ := List.mem_map.mp hlive
      have hbelow := hnumbered.below block hblock
      rw [hid] at hbelow
      exact lt_irrefl _ hbelow
    have hids : (editor.create role name parameters).2.ids =
        editor.ids ++ [⟨editor.nextBlock⟩] := by
      simp [ids, create, Block.named]
    rw [List.foldlM_cons, hids]
    simp [Event.follow?, hnew]
  · simp [create]

theorem narrates_replay (editor : Editor) {command : Command}
    (hlive : editor.contains command.event.block = true) :
    Narrates editor ({ editor with blocks := command.replay editor.blocks }.emit
      command.event.kind command.event.block) := by
  refine ⟨editor.progress_replay command _ _, fun _ hopen => ?_⟩
  refine ⟨[command.event], ?_, ?_, 0, ?_, ?_⟩
  · rw [outbox_emit]
    exact hopen
  · have hfollow := Graph.follow_replay (contains_eq_true_iff.mp hlive)
    rw [List.foldlM_cons, ids, hfollow, ids, blocks_emit]
    rfl
  · rw [nextBlock_emit, Nat.add_zero]
  · exact Event.filterMap_created?_eq_nil (by simpa using command.kind_event_ne_create)

theorem narrates_act {editor after : Editor} {action : UserAction} {yield : Yield}
    (h : editor.act action = .ok (yield, after)) : Narrates editor after := by
  refine (edits_act h).lift .refl .trans fun {before after} hedit => ?_
  cases hedit with
  | declared name =>
      obtain ⟨declarations, hdeclared⟩ := before.exists_declare_eq name
      rw [hdeclared]
      exact .of_silent rfl rfl rfl rfl
  | queued name =>
      obtain ⟨reflexes, hqueued⟩ := before.exists_queueReflex_eq name
      rw [hqueued]
      exact .of_silent rfl rfl rfl rfl
  | unqueued => exact .of_silent rfl rfl rfl rfl
  | created role name parameters => exact before.narrates_create role name parameters
  | replayed _ hlive => exact before.narrates_replay hlive

end Editor

/-- Work on a host that leaves no suppression open is told of, event by event. -/
theorem Host.Worked.follows {host after : Host} (h : host.Worked after)
    (hnumbered : host.editor.Numbered) (hopen : host.editor.suppression = 0)
    (hstill : after.editor.suppression = 0) :
    ∃ events, after.editor.outbox = host.editor.outbox ++ events ∧
      Editor.Follows host.editor after.editor events := by
  cases h with
  | acted hact => exact (Editor.narrates_act hact).follows hnumbered hopen
  | issued hissues =>
      obtain ⟨commands, htrail, rfl⟩ := hissues
      refine ⟨commands.map Command.event, ?_, Graph.follow_replayAll htrail, 0, rfl, ?_⟩
      · simp [Host.issue, Host.withEditor, Editor.issue, Editor.isSuppressed, hopen]
      · apply Event.filterMap_created?_eq_nil
        intro event hevent
        obtain ⟨command, -, rfl⟩ := List.mem_map.mp hevent
        exact command.kind_event_ne_create
  | hushed hissues =>
      obtain ⟨commands, htrail, rfl⟩ := hissues
      refine ⟨[], rfl, .of_silent ?_ rfl⟩
      exact Graph.map_id_replayAll_of_reconciles htrail
  | forgot => exact ⟨[], (List.append_nil _).symm, .of_silent rfl rfl⟩
  | suppressed => cases hstill
  | resumed => exact ⟨[], (List.append_nil _).symm, .of_silent rfl rfl⟩

end CallBinding
