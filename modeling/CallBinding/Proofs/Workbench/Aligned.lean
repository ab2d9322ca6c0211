import CallBinding.Proofs.Editor.Births
import CallBinding.Proofs.Reconcile.Outcomes
import CallBinding.Proofs.Workbench.Reshapes

/-!
# Aligned call sites

A call site is created without arguments, and whatever reconciles the graph
writes arguments with one identity for each label or leaves them alone.  So
once all call sites are aligned they stay so, in whatever order users, programs
and the controller take turns; only a program that sets misaligned arguments
itself can make it otherwise.
-/

namespace CallBinding

/-- A command that writes aligned arguments, or none at all. -/
def Command.WritesAligned : Command → Prop
  | .setParameters _ parameters => parameters.isAligned = true
  | _ => True

/-- A move other than a request to set misaligned arguments. -/
def Move.WritesAligned : Move → Prop
  | .request (.command command) => command.WritesAligned
  | _ => True

namespace Graph

/-- Every call site has one identity for each label of its arguments. -/
def Aligned (blocks : List Block) : Prop :=
  ∀ call ∈ callSites blocks, call.arguments.isAligned = true

instance (blocks : List Block) : Decidable (Aligned blocks) :=
  inferInstanceAs (Decidable (∀ call ∈ callSites blocks, call.arguments.isAligned = true))

namespace Aligned

variable {before after blocks : List Block}

/-- Each call site has its arguments from before, or aligned ones. -/
theorem of_origin (h : Aligned before)
    (horigin : ∀ block ∈ after, block.role = .callSite → block.parameters.isAligned = true ∨
      ∃ former ∈ before, former.role = .callSite ∧ former.parameters = block.parameters) :
    Aligned after := by
  intro call hcall
  obtain ⟨block, hblock, hrole, rfl⟩ := mem_callSites.mp hcall
  rcases horigin block hblock hrole with haligned | ⟨former, hformer, hformerRole, hsame⟩
  · exact haligned
  · have haligned := h _ (mem_callSites.mpr ⟨former, hformer, hformerRole, rfl⟩)
    rwa [hsame] at haligned

/-- Only definitions and other blocks are new. -/
theorem of_new (h : Aligned before)
    (horigin : ∀ block ∈ after, block ∈ before ∨ block.role ≠ .callSite) : Aligned after :=
  h.of_origin fun block hblock hrole =>
    .inr ⟨block, (horigin block hblock).resolve_right (not_not.mpr hrole), hrole, rfl⟩

theorem replay (h : Aligned blocks) (command : Command) (hcommand : command.WritesAligned) :
    Aligned (command.replay blocks) := by
  refine h.of_origin fun block hblock hrole => ?_
  cases command with
  | setField id key value =>
      obtain ⟨former, hformer, rfl⟩ := List.mem_map.mp hblock
      refine .inr ⟨former, hformer, ?_, ?_⟩
      · split at hrole <;> exact hrole
      · split <;> rfl
  | setParameters id parameters =>
      obtain ⟨former, hformer, rfl⟩ := List.mem_map.mp hblock
      split at hrole
      next hid =>
        rw [if_pos hid]
        exact .inl hcommand
      next hid =>
        rw [if_neg hid]
        exact .inr ⟨former, hformer, hrole, rfl⟩
  | dispose id => exact .inr ⟨block, List.mem_of_mem_filter hblock, hrole, rfl⟩

end Aligned

theorem Reconciles.writesAligned {mayGo : BlockId → Prop} {blocks : List Block}
    {command : Command} (h : Reconciles mayGo blocks command) : command.WritesAligned := by
  cases h with
  | bind _ haligned => exact haligned
  | rename _ _ | dispose _ _ => trivial

end Graph

open CallBinding.Graph (Aligned)

/-- What is carried out on a host keeps its call sites aligned, unless it writes misaligned
arguments. -/
theorem Host.Replays.aligned {condition : List Block → Command → Prop} {host after : Host}
    (h : Host.Replays condition host after)
    (hwrites : ∀ blocks command, condition blocks command → command.WritesAligned)
    (haligned : Aligned host.editor.blocks) : Aligned after.editor.blocks := by
  obtain ⟨commands, outbox, htrail, rfl⟩ := h
  refine htrail.preserves Aligned (fun blocks command hblocks hcommand => ?_) haligned
  exact hblocks.replay command (hwrites blocks command hcommand)

/-! ## Users -/

/-- A user creates call sites without arguments, and changes those of no call site. -/
theorem Editor.aligned_act {editor after : Editor} {action : UserAction} {yield : Yield}
    (h : editor.act action = .ok (yield, after)) (haligned : Aligned editor.blocks) :
    Aligned after.blocks := by
  cases action with
  | declare name =>
      obtain ⟨-, hsame : (editor.declare name).2 = after⟩ := Prod.mk.inj (Except.ok.inj h)
      obtain ⟨declarations, hdeclared⟩ := editor.exists_declare_eq name
      obtain rfl := hsame.symm.trans hdeclared
      exact haligned
  | define name labels =>
      obtain ⟨-, rfl⟩ := Prod.mk.inj (Except.ok.inj h)
      refine haligned.of_new fun block hblock => ?_
      exact (mem_blocks_define hblock).imp_right fun hrole => by simp [hrole]
  | defineWith name parameters =>
      obtain ⟨-, rfl⟩ := Prod.mk.inj (Except.ok.inj h)
      refine haligned.of_new fun block hblock => ?_
      exact (mem_blocks_create hblock).imp_right fun hnew => by simp [hnew, Block.named]
  | call name =>
      obtain ⟨-, rfl⟩ := Prod.mk.inj (Except.ok.inj h)
      have hqueued : (editor.queueReflex name).blocks = editor.blocks := by
        obtain ⟨reflexes, hsame⟩ := editor.exists_queueReflex_eq name
        rw [hsame]
      refine haligned.of_origin fun block hblock hrole => ?_
      rcases mem_blocks_create hblock with hold | rfl
      · exact .inr ⟨block, hqueued ▸ hold, hrole, rfl⟩
      · exact .inl rfl
  | createOther =>
      obtain ⟨-, rfl⟩ := Prod.mk.inj (Except.ok.inj h)
      refine haligned.of_new fun block hblock => ?_
      exact (mem_blocks_create hblock).imp_right fun hnew => by simp [hnew, Block.named]
  | rename id name =>
      simp only [act, rename] at h
      split at h
      · obtain ⟨-, rfl⟩ := Prod.mk.inj (Except.ok.inj h)
        rw [blocks_emit]
        exact haligned.replay (.setField id nameField name) trivial
      · cases h
  | remove id =>
      simp only [act, remove] at h
      split at h
      · obtain ⟨-, rfl⟩ := Prod.mk.inj (Except.ok.inj h)
        rw [blocks_emit]
        exact haligned.replay (.dispose id) trivial
      · cases h
  | runReflexes =>
      obtain ⟨-, rfl⟩ := Prod.mk.inj (Except.ok.inj h)
      have horigin : ∀ block ∈ ({ editor with reflexes := [] }.defineEach editor.reflexes).2.blocks,
          block ∈ editor.blocks ∨ block.role = .definition := fun _ => mem_blocks_defineEach
      refine haligned.of_new fun block hblock => ?_
      exact (horigin block hblock).imp_right fun hrole => by simp [hrole]

/-! ## Moves -/

namespace Workbench

variable {bench : Workbench} {move : Move}

/-- No operation leaves a call site misaligned. -/
theorem Ordered.aligned_operation (h : Ordered bench) {after : Host}
    (hafter : Operation bench after) (haligned : Aligned bench.host.editor.blocks) :
    Aligned after.editor.blocks :=
  (h.operates hafter).replays.aligned (fun _ _ hcommand => hcommand.writesAligned) haligned

theorem Ordered.aligned_move (h : Ordered bench) (hmove : move.WritesAligned)
    (haligned : Aligned bench.host.editor.blocks) :
    Aligned (bench.move move).host.editor.blocks := by
  have hreshapes := bench.reshapes_move move
  generalize (bench.move move).host.editor = editor at hreshapes ⊢
  cases hreshapes with
  | kept _ | forgot | suppressed | resumed => exact haligned
  | acted editor hact =>
      have hkept : Aligned editor.blocks := Editor.aligned_act hact haligned
      exact hkept
  | performed _ hperform =>
      refine (Host.Replays.of_issues (Host.perform_issues_only hperform)).aligned ?_ haligned
      rintro _ _ rfl
      exact hmove
  | operated _ _ hafter => exact h.aligned_operation hafter haligned

theorem Ordered.aligned_leads (h : Ordered bench) (haligned : Aligned bench.host.editor.blocks)
    {later : Workbench} (hleads : Leads Move.WritesAligned bench later) :
    Aligned later.host.editor.blocks :=
  (hleads.preserves (fun bench => Ordered bench ∧ Aligned bench.host.editor.blocks)
    (fun _ move hbench hmove => ⟨hbench.1.move move, hbench.1.aligned_move hmove hbench.2⟩)
    ⟨h, haligned⟩).2

/-- Synchronisation is all or nothing and idempotent, on every host and for any two blocks.  So
call sites that are aligned stay so, whatever is reconciled and however often. -/
theorem sync_lawful_and_aligned :
    (∀ (host : Host) (call definition : BlockId), Host.SyncLaws host call definition
      (host.sync call definition).1 (host.sync call definition).2) ∧
    ∀ bench, Reachable (fun _ => True) bench → Aligned bench.host.editor.blocks →
      (∀ after, Operation bench after → Aligned after.editor.blocks) ∧
      ∀ later, Leads Move.WritesAligned bench later → Aligned later.host.editor.blocks := by
  refine ⟨Host.syncLaws_sync, fun bench hreachable haligned => ?_⟩
  have hordered := hreachable.ordered
  exact ⟨fun _ hafter => hordered.aligned_operation hafter haligned,
    fun _ hleads => hordered.aligned_leads haligned hleads⟩

/-- Of two definitions without identities one repeats a declared label, and the other has a label
that is not declared. -/
theorem sync_lawful_and_aligned_of_lagging :
    let bench := ((new false).run
      [.user (.declare "x"), .user (.defineWith "f" ⟨["x", "x"], []⟩), .user (.call "f"),
        .user (.defineWith "g" ⟨["x", "y"], []⟩)]).2
    let later := bench.move (.reconcile .sweep)
    (Reachable (fun _ => True) bench ∧ Aligned bench.host.editor.blocks ∧
      (bench.host.sync ⟨1⟩ ⟨0⟩).1 = .updated ∧ (bench.host.sync ⟨1⟩ ⟨2⟩).1 = .ambiguous 1 2) ∧
      Host.SyncLaws bench.host ⟨1⟩ ⟨0⟩ (bench.host.sync ⟨1⟩ ⟨0⟩).1 (bench.host.sync ⟨1⟩ ⟨0⟩).2 ∧
      Aligned (bench.host.sync ⟨1⟩ ⟨0⟩).2.editor.blocks ∧ Aligned later.host.editor.blocks := by
  intro bench later
  have hreachable : Reachable (fun _ => True) bench :=
    ⟨false, leads_run (fun _ _ => trivial) _ _ fun _ _ _ _ => trivial⟩
  have haligned : Aligned bench.host.editor.blocks := by decide +kernel
  obtain ⟨hlaws, hkeeps⟩ := sync_lawful_and_aligned
  obtain ⟨hoperation, hleads⟩ := hkeeps bench hreachable haligned
  exact ⟨⟨hreachable, haligned, by decide +kernel, by decide +kernel⟩, hlaws bench.host ⟨1⟩ ⟨0⟩,
    hoperation _ (.sync ⟨1⟩ ⟨0⟩), hleads later (.single bench trivial)⟩

end Workbench
end CallBinding
