import CallBinding.Proofs.Reconcile.Idempotence
import CallBinding.Proofs.Reconcile.Reports
import CallBinding.Proofs.Workbench.Ordered
import CallBinding.Proofs.Workbench.Timers

/-!
# Sweeping a clean graph

A host is clean if no two definitions share a family and no call site lacks
arguments that could be given to it.  On the hosts that users and programs can
build, a sweep issues no command exactly if the host is clean, and one sweep
makes it clean: a second one changes nothing and tells of nothing.
-/

namespace CallBinding
namespace Host

/-- No two definitions share a family, and no call site lacks arguments that it could have. -/
structure Clean (host : Host) : Prop where
  families : ∀ base,
    (host.definitions.filter fun definition => Name.base? definition.name = some base).length ≤ 1
  arguments : ∀ call ∈ host.callSites, ∀ definition,
    host.definitionNamed? call.name = some definition →
      call.arguments = host.resolved definition.parameters ∨
        ¬host.Resolves definition.parameters

open CallBinding.Graph (Distinct family)

variable {host : Host}

theorem InOrder.clean (h : host.InOrder) : host.Clean := by
  constructor
  · intro base
    rw [definitions_eq]
    change (family base host.editor.blocks).length ≤ 1
    cases hfamily : family base host.editor.blocks with
    | nil => exact Nat.zero_le 1
    | cons definition rest =>
        have hmem : definition ∈ family base host.editor.blocks := by simp [hfamily]
        obtain ⟨hlive, hbase⟩ := Graph.mem_family.mp hmem
        have hsingle := h.tidy.families definition hlive base hbase
        exact (congrArg List.length (hfamily.symm.trans hsingle)).le
  · intro call hcall definition hnamed
    rw [callSites_eq] at hcall
    have hdue := h.arguments call hcall
    rw [dueArguments, hnamed] at hdue
    by_cases hresolves : host.Resolves definition.parameters
    · exact Or.inl (hdue.trans (if_pos hresolves))
    · exact Or.inr hresolves

theorem Clean.inOrder (h : host.Clean) : host.InOrder := by
  have hdue : ∀ call ∈ Graph.callSites host.editor.blocks,
      call.arguments = host.dueArguments call := by
    intro call hcall
    rw [dueArguments]
    cases hnamed : host.definitionNamed? call.name with
    | none => rfl
    | some definition =>
        have hcall' : call ∈ host.callSites := by rwa [callSites_eq]
        dsimp only
        rw [argumentsFrom]
        split
        next hresolves =>
          exact (h.arguments call hcall' definition hnamed).resolve_right (not_not.mpr hresolves)
        next => rfl
  refine ⟨⟨fun definition hlive base hbase => ?_, fun call hcall definition hnamed haligned => ?_⟩,
    hdue⟩
  · have hone : (family base host.editor.blocks).length ≤ 1 := by
      have hfamilies := h.families base
      rwa [definitions_eq] at hfamilies
    have hmem := Graph.mem_family.mpr ⟨hlive, hbase⟩
    obtain ⟨only, honly⟩ := List.length_eq_one_iff.mp
      (Nat.le_antisymm hone (List.length_pos_of_mem hmem))
    rw [honly, List.mem_singleton] at hmem
    rw [honly, hmem]
  · rw [hdue call hcall, dueArguments, definitionNamed?_eq, hnamed]
    have hresolves := host.resolves_of_isAligned haligned
    exact (if_pos hresolves).trans (host.resolved_of_isAligned haligned)

/-- A sweep leaves the log as it is exactly if the host is clean. -/
theorem commands_sweep_eq_iff (hfaultless : host.Faultless)
    (hdistinct : Distinct host.editor.blocks) :
    host.sweep.2.editor.commands = host.editor.commands ↔ host.Clean := by
  constructor
  · intro hsame
    obtain ⟨commands, -, hissued⟩ := host.sweep_issues
    rw [hissued] at hsame
    have hnil : commands = [] := List.append_right_eq_self.mp hsame
    rw [hnil, issue_nil] at hissued
    have hinOrder : host.sweep.2.InOrder := inOrder_sweep hfaultless hdistinct
    rw [hissued] at hinOrder
    exact hinOrder.clean
  · intro hclean
    rw [hclean.inOrder.sweep_eq_self hfaultless hdistinct]

end Host

namespace Workbench

open CallBinding.Graph (Distinct)

variable {bench : Workbench}

/-- A sweep step sweeps the host and delivers the events. -/
theorem step_sweep (bench : Workbench) :
    bench.step (.reconcile .sweep) =
      (.swept bench.host.sweep.1, bench.adopt bench.host.sweep.2) := by
  simp only [step, reconcile]

/-- The log that a sweep step leaves is the one that the sweep of the host leaves. -/
theorem commands_stepReport_sweep (bench : Workbench) :
    (bench.stepReport (.reconcile .sweep)).1.commands = [] ↔
      bench.host.sweep.2.editor.commands = bench.host.editor.commands := by
  obtain ⟨commands, -, hissued⟩ := bench.host.sweep_issues
  have hcommands : bench.host.sweep.2.editor.commands = bench.host.editor.commands ++ commands :=
    congrArg (fun host => host.editor.commands) hissued
  have hadopted (host : Host) :
      (bench.adopt host).host.editor.commands = host.editor.commands := rfl
  rw [stepReport, step_sweep]
  dsimp only
  rw [hadopted, hcommands, List.drop_left, List.append_right_eq_self]

/-- A sweep of a host in order changes nothing at the workbench, and its report is clean. -/
theorem stepReport_sweep_of_inOrder (h : bench.host.InOrder) (hfaultless : bench.host.Faultless)
    (hdistinct : Distinct bench.host.editor.blocks) (houtbox : bench.host.editor.outbox = []) :
    ∃ report, report.isClean = true ∧
      bench.stepReport (.reconcile .sweep) = (⟨.swept report, [], []⟩, bench) := by
  have hself : bench.host.sweep.2 = bench.host := h.sweep_eq_self hfaultless hdistinct
  have hclean : bench.host.sweep.1.isClean = true :=
    (Host.isClean_sweep_iff hfaultless.disposes hdistinct).mpr (by rw [hself])
  have hstep : bench.step (.reconcile .sweep) = (.swept bench.host.sweep.1, bench) := by
    rw [step_sweep, hself, adopt_host houtbox]
  refine ⟨bench.host.sweep.1, hclean, ?_⟩
  simp only [stepReport, hstep, Nat.sub_self, List.take_zero, List.reverse_nil, List.drop_length]

/-- A second sweep step changes nothing, and its report is clean. -/
theorem stepReport_sweep_twice (h : Reachable Move.IsFaultless bench) :
    ∃ report, report.isClean = true ∧
      (bench.stepReport (.reconcile .sweep)).2.stepReport (.reconcile .sweep) =
        (⟨.swept report, [], []⟩, (bench.stepReport (.reconcile .sweep)).2) := by
  have hfaultless := h.sound.faultless
  have hdistinct := h.sound.numbered.distinct
  have hissues := bench.host.sweep_issues
  have hinOrder := Host.inOrder_sweep hfaultless hdistinct
  have hlater := hissues.faultless hfaultless
  have hdistinctLater := hissues.distinct hdistinct
  have hnext : (bench.stepReport (.reconcile .sweep)).2 = bench.adopt bench.host.sweep.2 := by
    rw [stepReport, step_sweep]
  rw [hnext]
  generalize bench.host.sweep.2 = host at hinOrder hlater hdistinctLater
  exact stepReport_sweep_of_inOrder hinOrder.delivered hlater hdistinctLater rfl

/-- In every reachable state without faults, a sweep issues no command exactly if the host is
clean.  After a sweep, a second one changes nothing, issues no command, tells of no event and
reports that it was clean. -/
theorem sweep_silent_of_reachable (h : Reachable Move.IsFaultless bench) :
    let first := bench.stepReport (.reconcile .sweep)
    let second := first.2.stepReport (.reconcile .sweep)
    (first.1.commands = [] ↔ bench.host.Clean) ∧
      second.2 = first.2 ∧ second.1.commands = [] ∧ second.1.rows = [] ∧
      ∃ report, second.1.answer = .swept report ∧ report.isClean = true := by
  intro first second
  have hsilent : first.1.commands = [] ↔ bench.host.Clean :=
    (commands_stepReport_sweep bench).trans
      (Host.commands_sweep_eq_iff h.sound.faultless h.sound.numbered.distinct)
  obtain ⟨report, hclean, hsecond⟩ := stepReport_sweep_twice h
  have hpair : second = (⟨.swept report, [], []⟩, first.2) := hsecond
  rw [hpair]
  exact ⟨hsilent, rfl, rfl, rfl, report, rfl, hclean⟩

/-- Two definitions of a family, one of them with a label of no identity, a placeholder that two
definitions share, and call sites of all of them: the first sweep is not silent, the second is. -/
theorem sweep_silent_of_reachable_shared_placeholder :
    let bench := ((new false).run
      [.user (.define "f2" ["x"]), .user (.defineWith "f" ⟨["y"], []⟩),
        .user (.define "unnamed" []), .user (.define "unnamed" ["z"]),
        .user (.call "f2"), .user (.call "unnamed"), .user (.call "g")]).2
    Reachable Move.IsFaultless bench ∧ ¬bench.host.Clean ∧
      (bench.stepReport (.reconcile .sweep)).1.commands ≠ [] ∧
      ((bench.stepReport (.reconcile .sweep)).2.stepReport (.reconcile .sweep)).2 =
        (bench.stepReport (.reconcile .sweep)).2 ∧
      ((bench.stepReport (.reconcile .sweep)).2.stepReport (.reconcile .sweep)).1.commands = [] := by
  intro bench
  have hreachable : Reachable Move.IsFaultless bench := reachable_run _ _ (by decide)
  have hcommands : (bench.stepReport (.reconcile .sweep)).1.commands ≠ [] := by decide +kernel
  obtain ⟨hsilent, hsame, hnone, -⟩ := sweep_silent_of_reachable hreachable
  exact ⟨hreachable, fun hclean => hcommands (hsilent.mpr hclean), hcommands, hsame, hnone⟩

end Workbench
end CallBinding
