import CallBinding.Proofs.Reconcile.Stale
import CallBinding.Proofs.Workbench.Sound

/-!
# Carrying out a stale plan

A plan is made at one time and carried out at another, and users and programs
may work on the graph in between.  Only the definitions that the plan removes
are looked up again, so a family may lose its last member, and a call site the
definition that it calls.  This does not happen as long as every pending
resolution finds the definition that it removes, and one to take its place,
under the names that the plan has recorded.
-/

namespace CallBinding
namespace Workbench

/-- What carrying out a plan does, however the graph has changed since the planning. -/
theorem appliesLate_of_reachable {bench later : Workbench} (h : Reachable Move.IsFaultless bench)
    (hlater : Leads Move.IsFaultless bench later) :
    Host.AppliesLate (CallBinding.plan bench.host.members) later.host
      (later.host.apply (CallBinding.plan bench.host.members)).2 := by
  obtain ⟨autoDefine, hbench⟩ := h
  have hsound : Sound later := Reachable.sound ⟨autoDefine, hbench.trans hlater⟩
  have hplanned : Sound bench := Reachable.sound ⟨autoDefine, hbench⟩
  exact Host.appliesLate_apply hsound.faultless hsound.numbered.distinct
    (feasible_plan (Host.nodup_members hplanned.numbered.distinct))

/-- Since the planning, one of the definitions that have to go is gone, another variant has been
created, and a call site has been renamed.  The plan is still fresh. -/
theorem appliesLate_of_reachable_fresh :
    let bench := ((new false).run
      [.user (.define "f2" ["x"]), .user (.define "f" []), .user (.define "f" ["x", "y"]),
        .user (.define "g" []), .user (.define "g" []), .user (.call "f2"), .user (.call "g")]).2
    let steps : List Step := [.user (.remove ⟨1⟩), .user (.define "f3" ["z"]),
      .user (.rename ⟨6⟩ "f3")]
    let later := (bench.run steps).2
    Reachable Move.IsFaultless bench ∧ Leads Move.IsFaultless bench later ∧
      (pending later.host.members (CallBinding.plan bench.host.members)).length + 1 =
        (CallBinding.plan bench.host.members).length ∧
      Fresh later.host.members (CallBinding.plan bench.host.members) ∧
      ∀ call ∈ later.host.callSites,
        (∃ definition ∈ later.host.definitions, definition.name = call.name) →
          ∃ live ∈ (later.host.apply (CallBinding.plan bench.host.members)).2.callSites,
            live.id = call.id ∧ ∃ definition ∈
              (later.host.apply (CallBinding.plan bench.host.members)).2.definitions,
              definition.name = live.name := by
  intro bench steps later
  have hreachable : Reachable Move.IsFaultless bench := reachable_run _ _ (by decide)
  have hsteps : ∀ step ∈ steps, step.IsFaultless := by decide
  have hlater : Leads Move.IsFaultless bench later :=
    leads_run (fun _ => Move.IsInner.isFaultless) bench steps hsteps
  have hpending : (pending later.host.members (CallBinding.plan bench.host.members)).length + 1 =
      (CallBinding.plan bench.host.members).length := by decide +kernel
  have hfresh : Fresh later.host.members (CallBinding.plan bench.host.members) := by decide +kernel
  exact ⟨hreachable, hlater, hpending, hfresh,
    (appliesLate_of_reachable hreachable hlater).keeps hfresh⟩

/-- The second of two namesakes has to go, and the user removes the first one.  The plan removes
the second one all the same, so the family and the caller lose their last definition. -/
theorem exists_family_lost :
    let bench := ((new false).run
      [.user (.define "f" []), .user (.define "f" []), .user (.call "f")]).2
    let later := (bench.run [.user (.remove ⟨0⟩)]).2
    let after := (later.host.apply (CallBinding.plan bench.host.members)).2
    Reachable Move.IsFaultless bench ∧
      (∃ definition ∈ later.host.definitions, Name.base? definition.name = some "f") ∧
      (∀ definition ∈ after.definitions, Name.base? definition.name ≠ some "f") ∧
      ∃ call ∈ later.host.callSites, Name.isValid call.name = true ∧
        (∃ definition ∈ later.host.definitions, definition.name = call.name) ∧
        ∃ live ∈ after.callSites, live.id = call.id ∧
          ∀ definition ∈ after.definitions, definition.name ≠ live.name :=
  ⟨reachable_run _ _ (by decide), by decide +kernel⟩

end Workbench
end CallBinding
