import CallBinding.Editor.Action
import CallBinding.Proofs.Editor.Progress

/-!
# What reflexes define

Running the reflexes appends definitions without parameters to the graph, in the
order in which their names were queued.  A command on an older block does the
same to the other blocks whether the reflexes have run or not, and so the two
can be exchanged.
-/

namespace CallBinding
namespace Editor

/-- The definitions that reflexes create for some names, numbered from a given number on. -/
def newborns (first : Nat) : List String → List Block
  | [] => []
  | name :: rest => .named ⟨first⟩ .definition name .empty :: newborns (first + 1) rest

/-- The events that tell of new blocks, unless events are suppressed. -/
def birthsOf (editor : Editor) (blocks : List Block) : List Event :=
  if editor.isSuppressed then [] else blocks.map fun block => ⟨.create, block.id⟩

/-- The editor with more blocks. -/
def bear (editor : Editor) (blocks : List Block) : Editor :=
  { editor with
    blocks := editor.blocks ++ blocks
    nextBlock := editor.nextBlock + blocks.length
    outbox := editor.outbox ++ editor.birthsOf blocks }

/-- The editor with more blocks, of which the listeners have been told, and without reflexes. -/
def spawn (editor : Editor) (blocks : List Block) : Editor :=
  { editor with
    blocks := editor.blocks ++ blocks
    nextBlock := editor.nextBlock + blocks.length
    reflexes := [] }

/-! ## Newborn definitions -/

theorem of_mem_newborns {first : Nat} {names : List String} {block : Block}
    (h : block ∈ newborns first names) : first ≤ block.id.number ∧ block.role = .definition := by
  induction names generalizing first with
  | nil => cases h
  | cons name rest ih =>
      rcases List.mem_cons.mp h with rfl | hrest
      · exact ⟨le_refl _, rfl⟩
      · obtain ⟨hle, hrole⟩ := ih hrest
        exact ⟨(Nat.le_succ first).trans hle, hrole⟩

theorem bear_nil (editor : Editor) : editor.bear [] = editor := by
  simp [bear, birthsOf]

theorem bear_append (editor : Editor) (first second : List Block) :
    editor.bear (first ++ second) = (editor.bear first).bear second := by
  have hbirths : editor.birthsOf (first ++ second) =
      editor.birthsOf first ++ (editor.bear first).birthsOf second := by
    have hsuppressed : (editor.bear first).isSuppressed = editor.isSuppressed := rfl
    rw [birthsOf, birthsOf, birthsOf, hsuppressed]
    split
    · rfl
    · exact List.map_append
  simp only [bear, List.append_assoc, List.length_append, Nat.add_assoc, hbirths]

theorem define_nil_eq (editor : Editor) (name : String) :
    editor.define name [] =
      (⟨editor.nextBlock⟩, editor.bear (newborns editor.nextBlock [name])) := by
  simp only [define, declareAll, create, emit_eq]
  rfl

theorem defineEach_eq (editor : Editor) (names : List String) :
    editor.defineEach names =
      ((newborns editor.nextBlock names).map (·.id),
        editor.bear (newborns editor.nextBlock names)) := by
  induction names generalizing editor with
  | nil => simp [defineEach, newborns, bear_nil]
  | cons name rest ih =>
      have hnext : (editor.bear (newborns editor.nextBlock [name])).nextBlock =
          editor.nextBlock + 1 := rfl
      have hsplit : newborns editor.nextBlock (name :: rest) =
          newborns editor.nextBlock [name] ++ newborns (editor.nextBlock + 1) rest := rfl
      simp only [defineEach, define_nil_eq, ih, hnext, hsplit, bear_append]
      rfl

/-- All reflexes are run, and their events are delivered. -/
theorem runReflexes_eq {editor : Editor} (houtbox : editor.outbox = []) :
    (editor.runReflexes).1 = (newborns editor.nextBlock editor.reflexes).map (·.id) ∧
      (editor.runReflexes).2.outbox =
        editor.birthsOf (newborns editor.nextBlock editor.reflexes) ∧
      (editor.runReflexes).2.delivered =
        editor.spawn (newborns editor.nextBlock editor.reflexes) := by
  rw [runReflexes, defineEach_eq]
  refine ⟨rfl, ?_, ?_⟩
  · rw [bear, houtbox]
    rfl
  · simp only [bear, delivered, spawn, houtbox]

/-! ## Commands on older blocks -/

variable {editor : Editor} {id : BlockId} {blocks more : List Block}

theorem block?_spawn (hid : ∀ block ∈ more, block.id ≠ id) :
    (editor.spawn more).block? id = editor.block? id := by
  have hnone : more.find? (fun block => block.id = id) = none :=
    List.find?_eq_none.mpr fun block hblock => by simpa using hid block hblock
  simp only [block?, spawn, List.find?_append, hnone, Option.or_none]

theorem contains_spawn (hid : ∀ block ∈ more, block.id ≠ id) :
    (editor.spawn more).contains id = editor.contains id := by
  have hnone : more.any (fun block => block.id = id) = false :=
    List.any_eq_false.mpr fun block hblock => by simpa using hid block hblock
  simp only [contains, spawn, List.any_append, hnone, Bool.or_false]

theorem replay_append {command : Command} (hid : ∀ block ∈ more, block.id ≠ command.event.block) :
    command.replay (blocks ++ more) = command.replay blocks ++ more := by
  cases command with
  | setField id key value =>
      have hsame : Command.replay more (.setField id key value) = more :=
        (List.map_congr_left fun block hblock => if_neg (hid block hblock)).trans (List.map_id _)
      rw [Command.replay, List.map_append]
      exact congrArg _ hsame
  | setParameters id parameters =>
      have hsame : Command.replay more (.setParameters id parameters) = more :=
        (List.map_congr_left fun block hblock => if_neg (hid block hblock)).trans (List.map_id _)
      rw [Command.replay, List.map_append]
      exact congrArg _ hsame
  | dispose id =>
      have hsame : Command.replay more (.dispose id) = more :=
        List.filter_eq_self.mpr fun block hblock => decide_eq_true (hid block hblock)
      rw [Command.replay, List.filter_append]
      exact congrArg _ hsame

/-- A command that names no new block can be exchanged with their creation. -/
theorem issue_spawn {command : Command} (hid : ∀ block ∈ more, block.id ≠ command.event.block) :
    (editor.spawn more).issue [command] = (editor.issue [command]).spawn more := by
  have hreplay : Command.replayAll (editor.blocks ++ more) [command] =
      Command.replayAll editor.blocks [command] ++ more := replay_append hid
  unfold issue spawn
  dsimp only
  rw [hreplay]
  rfl

end Editor
end CallBinding
