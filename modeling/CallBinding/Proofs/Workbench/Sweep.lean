import CallBinding.Proofs.Reconcile.Arguments
import CallBinding.Proofs.Workbench.Sound

/-!
# The outcome of a sweep

What a sweep makes of any graph that users and programs can build, in terms of
what can be read from the host before and after it.

Arguments deserve a second look.  Those of a survivor are given to its callers
only if they are known in full, and if they are not, a caller may be left with
the arguments of a definition that the sweep has removed.
-/

namespace CallBinding

/-- The outcome of a sweep. -/
structure Swept (before after : Host) : Prop where
  /-- Placeholders stay. -/
  placeholders : ∀ definition ∈ before.definitions, Name.isPlaceholder definition.name = true →
    definition ∈ after.definitions
  /-- Of every family the survivor stays, and no other member. -/
  families : ∀ definition ∈ before.definitions, ∀ base, Name.base? definition.name = some base →
    ∃ survivor ∈ before.definitions,
      IsSurvivor base (familyOf base before.members) survivor.asMember ∧
      (after.definitions.filter fun other => Name.base? other.name = some base) = [survivor]
  /-- Call sites stay, and no other ones appear. -/
  callSites : after.callSites.map (·.id) = before.callSites.map (·.id)
  /-- A call site of a validly named definition calls the survivor of the family. -/
  bound : ∀ call ∈ before.callSites, ∀ definition ∈ before.definitions,
    Name.isValid definition.name = true → definition.name = call.name →
      ∃ base, Name.base? call.name = some base ∧ ∃ survivor ∈ after.definitions,
        IsSurvivor base (familyOf base before.members) survivor.asMember ∧
        ∃ live ∈ after.callSites, live.id = call.id ∧ live.name = survivor.name
  /-- Any other call site keeps its name. -/
  unbound : ∀ call ∈ before.callSites,
    (∀ definition ∈ before.definitions, Name.isValid definition.name = true →
      definition.name ≠ call.name) →
      ∃ live ∈ after.callSites, live.id = call.id ∧ live.name = call.name
  /-- Arguments are the labels of the first definition of the name, each with its identity, if all
  of these are known. -/
  arguments : ∀ call ∈ after.callSites, ∀ definition,
    after.definitionNamed? call.name = some definition → after.Resolves definition.parameters →
      call.arguments = after.resolved definition.parameters

namespace Host

variable {host : Host}

theorem swept_sweep (hfaultless : host.Faultless)
    (hdistinct : Graph.Distinct host.editor.blocks) : Swept host host.sweep.2 := by
  constructor
  · intro definition hdefinition hplaceholder
    rw [definitions_eq] at hdefinition ⊢
    exact mem_definitions_sweep_of_placeholder hfaultless hdistinct hdefinition
      (Name.base?_eq_none_iff.mpr hplaceholder)
  · intro definition hdefinition base hbase
    rw [definitions_eq] at hdefinition
    obtain ⟨survivor, hmem, hsurvivor, hfamily⟩ := family_sweep hfaultless hdistinct
      (Graph.mem_family.mpr ⟨hdefinition, hbase⟩)
    rw [definitions_eq, definitions_eq]
    exact ⟨survivor, hmem, hsurvivor, hfamily⟩
  · have hids := congrArg (List.map Prod.fst) (carriesOut_sweep hfaultless hdistinct).callSites
    simp only [List.map_map] at hids
    rw [callSites_eq, callSites_eq]
    exact hids
  · intro call hcall definition hdefinition hvalid hname
    rw [definitions_eq] at hdefinition
    obtain ⟨base, hbase⟩ := Option.ne_none_iff_exists'.mp (Name.base?_ne_none_iff.mpr hvalid)
    have hmem := Graph.mem_family.mpr ⟨hdefinition, hbase⟩
    obtain ⟨survivor, -, hsurvivor, hfamily⟩ := family_sweep hfaultless hdistinct hmem
    obtain ⟨live, hlive, hid, hlater⟩ :=
      (carriesOut_sweep hfaultless hdistinct).exists_callSite hcall
    have hlast : survivor ∈ Graph.family base host.sweep.2.editor.blocks := by simp [hfamily]
    refine ⟨base, hname ▸ hbase, survivor, ?_, hsurvivor, live, hlive, hid, ?_⟩
    · rw [definitions_eq]
      exact (Graph.mem_family.mp hlast).1
    · rw [hlater, ← hname]
      exact follow_plan_of_carried hdistinct hmem hsurvivor
  · intro call hcall hnone
    rw [definitions_eq] at hnone
    obtain ⟨live, hlive, hid, hlater⟩ :=
      (carriesOut_sweep hfaultless hdistinct).exists_callSite hcall
    refine ⟨live, hlive, hid, hlater.trans ?_⟩
    exact follow_plan_of_not_carried hdistinct fun definition hdefinition hbase =>
      hnone definition hdefinition (Name.base?_ne_none_iff.mp hbase)
  · intro call hcall definition hnamed hresolves
    rw [callSites_eq] at hcall
    rw [arguments_sweep hfaultless hdistinct hcall, dueArguments, hnamed]
    exact if_pos hresolves

end Host

namespace Workbench

/-- The outcome of a sweep of any graph that users and programs can build. -/
theorem swept_of_reachable {bench : Workbench} (h : Reachable Move.IsFaultless bench) :
    Swept bench.host bench.host.sweep.2 :=
  Host.swept_sweep h.sound.faultless h.sound.numbered.distinct

theorem swept_of_reachable_variants :
    let bench := ((new false).run
      [.user (.define "f2" ["x"]), .user (.define "f" []), .user (.define "f" ["x", "y"]),
        .user (.define "unnamed" []), .user (.call "f2"), .user (.call "g")]).2
    Reachable Move.IsFaultless bench ∧ Swept bench.host bench.host.sweep.2 := by
  intro bench
  have hreachable : Reachable Move.IsFaultless bench := reachable_run _ _ (by decide)
  exact ⟨hreachable, swept_of_reachable hreachable⟩

/-- The arguments of every call site after a sweep are those of the definition that it names, if
these are known in full.  Otherwise they are its own former ones, or, if it names a definition,
possibly those of a removed one of the same family that it named on the way. -/
theorem supplied_of_reachable {bench : Workbench} (h : Reachable Move.IsFaultless bench) :
    ∀ call ∈ bench.host.callSites, ∃ live ∈ bench.host.sweep.2.callSites, live.id = call.id ∧
      Host.Supplied bench.host bench.host.sweep.2 call live :=
  fun _ hcall => Host.supplied_sweep h.sound.faultless h.sound.numbered.distinct hcall

theorem supplied_of_reachable_variant :
    let bench := ((new false).run
      [.user (.define "f" []), .user (.define "f" ["x"]), .user (.define "f2" ["x", "y"]),
        .user (.call "f"), .user (.call "f2"), .user (.call "g")]).2
    Reachable Move.IsFaultless bench ∧
      ∀ call ∈ bench.host.callSites, ∃ live ∈ bench.host.sweep.2.callSites, live.id = call.id ∧
        Host.Supplied bench.host bench.host.sweep.2 call live := by
  intro bench
  have hreachable : Reachable Move.IsFaultless bench := reachable_run _ _ (by decide)
  exact ⟨hreachable, supplied_of_reachable hreachable⟩

/-- A variant takes the place of its namesake and gives its argument to the caller, and then yields
to the definition of the base name, whose label has no identity.  The caller is left with the
argument of the variant, which is gone, although that is neither its own nor that of the
definition that it names. -/
theorem exists_arguments_of_removed :
    let bench := ((new false).run
      [.user (.define "f2" []), .user (.define "f2" ["x"]), .user (.defineWith "f" ⟨["y"], []⟩),
        .user (.call "f2")]).2
    let after := bench.host.sweep.2
    Reachable Move.IsFaultless bench ∧
      ∃ call ∈ bench.host.callSites, ∃ live ∈ after.callSites, live.id = call.id ∧
        live.arguments ≠ call.arguments ∧
        (∀ definition ∈ after.definitionNamed? live.name,
          ¬after.Resolves definition.parameters ∧
            live.arguments ≠ after.resolved definition.parameters) ∧
        ∃ removed ∈ bench.host.definitions, removed ∉ after.definitions ∧
          live.arguments = bench.host.resolved removed.parameters := by
  exact ⟨reachable_run _ _ (by decide), by decide +kernel⟩

end Workbench
end CallBinding
