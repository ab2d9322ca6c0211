import CallBinding.Proofs.Controller.Snapshots
import CallBinding.Proofs.Workbench.Regular

/-!
# Snapshots stay true

Whatever the moves and the faults, all that a controller has been told of older
definitions, in messages that wait and for sessions that are open, are snapshots
of the graph as it is.
-/

namespace CallBinding
namespace Workbench

variable {bench : Workbench} {controller : Controller} {call : BlockId} {prior : List BlockId}

/-- What a controller recounts after a move it has recounted before, or it has been told of it by
an event of this move. -/
theorem Ordered.recounts_cases (h : Ordered bench) {move : Move}
    (hseat : (bench.move move).seat = .running controller)
    (hrecounts : controller.Recounts call prior) :
    (∃ former, bench.seat = .running former ∧ former.Recounts call prior) ∨
      ∃ events event, Bears bench (bench.move move) events ∧ event ∈ events ∧
        Message.ofEvent (bench.move move).host event = .callSiteCreated call prior := by
  cases seats_move hseat with
  | installed cleanup settings => exact absurd hrecounts (Controller.not_recounts_new _ _)
  | @told former _ events hformer hinner htrace =>
      rcases hrecounts with hnews | hopened
      · rcases List.mem_append.mp hnews with hold | hheard
        · exact Or.inl ⟨former, hformer, Or.inl hold⟩
        · obtain ⟨event, hevent, hmessage⟩ := List.mem_map.mp hheard
          exact Or.inr ⟨events, event, bears_move h hinner htrace, hevent, hmessage⟩
      · exact Or.inl ⟨former, hformer, Or.inr hopened⟩
  | idled hformer _ | ticked _ hformer => exact Or.inl ⟨_, hformer, hrecounts⟩
  | @turned former next message rest hformer hmailbox hfate =>
      have hbecomes := Controller.becomes_of_handle hfate
      refine Or.inl ⟨former, hformer, Controller.Recounts.of_becomes ?_ hmailbox hbecomes⟩
      refine hrecounts.of_mem rfl ?_
      rintro _ hmem rfl
      refine (List.mem_append.mp hmem).resolve_right fun hheard => ?_
      -- A turn creates no block, so its events are no news of call sites.
      obtain ⟨event, hevent, hmessage⟩ := List.mem_map.mp hheard
      obtain ⟨rfl, -⟩ := Message.exists_of_ofEvent hmessage
      exact h.kind_of_mem_turn hformer hmailbox hevent rfl
  | woken time hformer =>
      refine Or.inl ⟨_, hformer, hrecounts.of_mem rfl ?_⟩
      rintro _ hmem rfl
      simpa [Controller.wake] using hmem
  | dismissed hformer =>
      refine Or.inl ⟨_, hformer, hrecounts.of_mem rfl ?_⟩
      rintro _ hmem rfl
      simpa using hmem

/-- The list that goes with the news of a call site is a snapshot when the news is told. -/
theorem Bears.snapshot {next : Workbench} {events : List Event} (h : Bears bench next events)
    (hnumbered : next.host.editor.Numbered) {event : Event} (hevent : event ∈ events)
    (hmessage : Message.ofEvent next.host event = .callSiteCreated call prior) :
    next.host.editor.Snapshot call prior := by
  obtain ⟨worked, hbirths, hcalls, hhost⟩ := h
  have hlast : next.host.editor.nextBlock = call.number + 1 := by
    rw [hhost]
    exact Controller.nextBlock_of_ofEvent hbirths hcalls hhost hevent hmessage
  obtain ⟨-, rfl, block, hblock, rfl, hrole⟩ := Message.exists_of_ofEvent hmessage
  rw [Host.definitions_eq]
  refine ⟨by omega, fun id hid => ?_, fun _ hdefinition _ => List.mem_map_of_mem hdefinition⟩
  obtain ⟨definition, hdefinition, rfl⟩ := List.mem_map.mp hid
  obtain ⟨other, hother, hotherRole, rfl⟩ := Graph.mem_definitions.mp hdefinition
  have hbelow := hnumbered.below other hother
  have hne : other.id.number ≠ block.id.number := by
    intro hsame
    have hid : other.id = block.id := congrArg BlockId.mk hsame
    rw [hnumbered.distinct.eq_of_id hother hblock hid, hrole] at hotherRole
    cases hotherRole
  show other.id.number < block.id.number
  omega

/-- Whatever the faults, what a controller has been told with a call site is a snapshot. -/
theorem Reachable.snapshot {allowed : Move → Prop} (h : Reachable allowed bench)
    (hseat : bench.seat = .running controller) (hrecounts : controller.Recounts call prior) :
    bench.host.editor.Snapshot call prior := by
  obtain ⟨autoDefine, hleads⟩ := h
  let invariant (bench : Workbench) : Prop :=
    Ordered bench ∧ ∀ controller call prior, bench.seat = .running controller →
      controller.Recounts call prior → bench.host.editor.Snapshot call prior
  have hinvariant : invariant bench := by
    refine hleads.preserves invariant ?_ ⟨ordered_new autoDefine, fun _ _ _ h => by cases h⟩
    rintro bench move ⟨hordered, hsnapshots⟩ -
    refine ⟨hordered.move move, fun later call prior hseat hrecounts => ?_⟩
    obtain ⟨hnumbered, hevolves⟩ :=
      evolves_move hordered.consistent.numbered hordered.turnReplays move
    rcases hordered.recounts_cases hseat hrecounts with
      ⟨former, hformer, hformerly⟩ | ⟨events, event, hbears, hevent, hmessage⟩
    · exact (hsnapshots former call prior hformer hformerly).evolves hevolves
    · exact hbears.snapshot hnumbered hevent hmessage
  exact hinvariant.2 controller call prior hseat hrecounts

end Workbench
end CallBinding
