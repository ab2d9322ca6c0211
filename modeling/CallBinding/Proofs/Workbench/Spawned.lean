import CallBinding.Proofs.Family.Newcomers
import CallBinding.Proofs.Workbench.Sound

/-!
# The callers of older definitions

A plan for a spawned definition leaves every definition that is older than the
session, but not always the callers of these.  Callers are rebound by name: if
a newcomer carries the name of an older definition, has more parameters, and
yet yields to a member of another name, it takes the callers of the older
definition with it.  The theorem below says exactly when a caller stays.
-/

namespace CallBinding

/-- What a plan for a spawned definition makes of a call site. -/
structure KeepsCaller (members : List Member) (name : String) (prior : List BlockId)
    (call live : CallSite) : Prop where
  id : live.id = call.id
  /-- The caller keeps its name exactly if the plan leads this name nowhere else. -/
  iff_follow : live.name = call.name ↔
    follow (planSpawned members name prior) call.name = call.name
  /-- The plan concerns one family only. -/
  of_base_ne : Name.base? call.name ≠ Name.base? name → live.name = call.name
  /-- A caller keeps its name if no newcomer of this name is richer than all older namesakes. -/
  of_spared : Spared prior members call.name → live.name = call.name
  /-- And only then, if no newcomer of the family is richer than all its older members. -/
  iff_spared : ∀ base, Name.base? name = some base → Name.base? call.name = some base →
    Outranked prior (familyOf base members) →
      (live.name = call.name ↔ Spared prior members call.name)

/-- The outcome of a plan for a spawned definition. -/
structure SpawnChecked (before after : Host) (name : String) (prior : List BlockId) : Prop where
  /-- Older definitions stay. -/
  definitions : ∀ definition ∈ before.definitions, definition.id ∈ prior →
    definition ∈ after.definitions
  callers : ∀ call ∈ before.callSites, ∃ live ∈ after.callSites,
    KeepsCaller before.members name prior call live

namespace Host

variable {host : Host}

theorem spawnChecked_apply (hfaultless : host.Faultless)
    (hdistinct : Graph.Distinct host.editor.blocks) (name : String) (prior : List BlockId) :
    SpawnChecked host (host.apply (planSpawned host.members name prior)).2 name prior := by
  have happly := carriesOut_apply hfaultless hdistinct
    (feasible_planSpawned (nodup_members hdistinct) name prior)
  constructor
  · intro definition hdefinition hprior
    refine happly.mem_definitions hdefinition fun hremoved => ?_
    obtain ⟨resolution, hresolution, hid⟩ := List.mem_map.mp hremoved
    exact removed_not_mem_prior host.members name prior resolution hresolution (hid ▸ hprior)
  · intro call hcall
    obtain ⟨live, hlive, hid, hname⟩ := happly.exists_callSite hcall
    refine ⟨live, hlive, hid, ?_, ?_, ?_, ?_⟩
    · rw [hname]
    · intro hbase
      exact hname.trans (follow_planSpawned_of_base_ne hbase)
    · intro hspared
      exact hname.trans (follow_planSpawned_of_spared name hspared)
    · intro base hbase hcallBase houtranked
      rw [hname]
      exact follow_planSpawned_eq_self_iff hbase hcallBase houtranked

end Host

namespace Workbench

/-- A plan for a spawned definition leaves the older ones, and their callers keep calling them under
exactly the conditions of `KeepsCaller`. -/
theorem spawnChecked_of_reachable {bench : Workbench} (h : Reachable Move.IsFaultless bench)
    (name : String) (prior : List BlockId) :
    SpawnChecked bench.host (bench.host.apply (planSpawned bench.host.members name prior)).2
      name prior :=
  Host.spawnChecked_apply h.sound.faultless h.sound.numbered.distinct name prior

/-- An older `f` that is richer than the newcomer `f2` draws the callers of an older `f2`. -/
theorem spawnChecked_of_reachable_richer_namesake :
    let bench := ((new false).run
      [.user (.define "f2" []), .user (.define "f" ["x"]), .user (.call "f2"),
        .user (.define "f2" ["y"])]).2
    let after := (bench.host.apply (planSpawned bench.host.members "f2" [⟨0⟩, ⟨1⟩])).2
    Reachable Move.IsFaultless bench ∧ SpawnChecked bench.host after "f2" [⟨0⟩, ⟨1⟩] := by
  intro bench after
  have hreachable : Reachable Move.IsFaultless bench := reachable_run _ _ (by decide)
  exact ⟨hreachable, spawnChecked_of_reachable hreachable "f2" [⟨0⟩, ⟨1⟩]⟩

/-- So not every caller of an older definition keeps its name. -/
theorem exists_caller_of_prior_renamed :
    ¬∀ bench : Workbench, Reachable Move.IsFaultless bench →
      ∀ (name : String) (prior : List BlockId), ∀ call ∈ bench.host.callSites,
        (∃ definition ∈ bench.host.definitions, definition.id ∈ prior ∧
          definition.name = call.name) →
        ∃ live ∈ (bench.host.apply (planSpawned bench.host.members name prior)).2.callSites,
          live.id = call.id ∧ live.name = call.name := by
  intro h
  have hkept := h _ (reachable_run false
    [.user (.define "f2" []), .user (.define "f" ["x"]), .user (.call "f2"),
      .user (.define "f2" ["y"])] (by decide)) "f2" [⟨0⟩, ⟨1⟩]
  revert hkept
  decide +kernel

end Workbench
end CallBinding
