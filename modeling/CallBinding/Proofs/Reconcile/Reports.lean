import CallBinding.Proofs.Reconcile.Sweep

/-!
# What reports account for

A report counts the commands of each kind: a disposal for every resolution that
was carried out, a field for every call site that was given another name, and
parameters for every update.  On a host that ignores no disposal the counts are
those of the commands that were added to the log, whatever its other faults, so
a sweep is clean exactly if it has issued no command.
-/

namespace CallBinding

/-- What a command asks for. -/
inductive Command.Kind where
  | field
  | parameters
  | disposal
  deriving DecidableEq, Repr

def Command.kind : Command → Command.Kind
  | setField _ _ _ => .field
  | setParameters _ _ => .parameters
  | dispose _ => .disposal

/-- The number of commands of a kind. -/
def Command.Kind.countIn (kind : Command.Kind) (commands : List Command) : Nat :=
  commands.countP fun command => command.kind = kind

/-- The number of commands of a kind that a tally tells of. -/
def Tally.count (tally : Tally) : Command.Kind → Nat
  | .parameters => tally.updated
  | .field | .disposal => 0

/-- The number of commands of a kind that a report tells of. -/
def ApplyReport.count (report : ApplyReport) : Command.Kind → Nat
  | .field => report.rebound
  | .parameters => report.sync.updated
  | .disposal => report.disposed.length

/-- The number of commands of a kind that a report tells of. -/
def SweepReport.count (report : SweepReport) : Command.Kind → Nat
  | .field => report.rebound
  | .parameters => report.sync.updated
  | .disposal => report.disposed.length

theorem Command.Kind.countIn_singleton (kind : Command.Kind) (command : Command) :
    kind.countIn [command] = if kind = command.kind then 1 else 0 := by
  simp [countIn, List.countP_cons, eq_comm]

theorem Tally.count_record_updated (tally : Tally) (kind : Command.Kind) :
    (tally.record .updated).count kind =
      tally.count kind + if kind = .parameters then 1 else 0 := by
  cases kind <;> rfl

/-- Only an update is counted as a command. -/
theorem Tally.count_record_of_ne {tally : Tally} {outcome : SyncOutcome} {kind : Command.Kind}
    (h : outcome ≠ .updated) : (tally.record outcome).count kind = tally.count kind := by
  cases outcome with
  | updated => exact absurd rfl h
  | unchanged | ambiguous _ _ | moot => cases kind <;> rfl

/-- Without commands of any kind there are no commands. -/
theorem Command.eq_nil_of_countIn {commands : List Command}
    (h : ∀ kind : Command.Kind, kind.countIn commands = 0) : commands = [] := by
  refine List.eq_nil_iff_forall_not_mem.mpr fun command hmem => ?_
  have hnone := List.countP_eq_zero.mp (h command.kind) command hmem
  simp at hnone

theorem SweepReport.isClean_iff (report : SweepReport) :
    report.isClean = true ↔ ∀ kind, report.count kind = 0 := by
  simp only [isClean, Bool.and_eq_true, List.isEmpty_iff, decide_eq_true_eq,
    ← List.length_eq_zero_iff]
  constructor
  · rintro ⟨⟨hdisposed, hrebound⟩, hupdated⟩ kind
    cases kind with
    | field => exact hrebound
    | parameters => exact hupdated
    | disposal => exact hdisposed
  · exact fun h => ⟨⟨h .disposal, h .field⟩, h .parameters⟩

namespace Host

open CallBinding.Graph (Distinct)

variable {host : Host}

/-- The number of commands of a kind in the log. -/
def logged (host : Host) (kind : Command.Kind) : Nat :=
  kind.countIn host.editor.commands

@[simp] theorem logged_issue (host : Host) (commands : List Command) (kind : Command.Kind) :
    (host.issue commands).logged kind = host.logged kind + kind.countIn commands :=
  List.countP_append

/-! ## Tallies -/

/-- A synchronisation is an update exactly if it has issued a command. -/
theorem count_sync (host : Host) (call definition : BlockId) (tally : Tally)
    (kind : Command.Kind) :
    (tally.record (host.sync call definition).1).count kind + host.logged kind =
      tally.count kind + (host.sync call definition).2.logged kind := by
  unfold sync
  cases host.parameters definition with
  | error _ => rw [Tally.count_record_of_ne (by simp)]
  | ok parameters =>
      dsimp only
      split
      · rw [Tally.count_record_of_ne (by simp)]
      · cases host.parameters call with
        | error _ => rw [Tally.count_record_of_ne (by simp)]
        | ok current =>
            dsimp only
            split
            · rw [Tally.count_record_of_ne (by simp)]
            · split
              next written hwritten =>
                rw [(setParameters_ok hwritten).1, logged_issue, Tally.count_record_updated,
                  Command.Kind.countIn_singleton]
                exact (Nat.add_right_comm _ _ _).trans (Nat.add_assoc _ _ _)
              next => rw [Tally.count_record_of_ne (by simp)]

theorem count_syncEach (host : Host) (definition : BlockId) (calls : List CallSite)
    (tally : Tally) (kind : Command.Kind) :
    (host.syncEach definition calls tally).1.count kind + host.logged kind =
      tally.count kind + (host.syncEach definition calls tally).2.logged kind := by
  induction calls generalizing host tally with
  | nil => rfl
  | cons call rest ih =>
      have hfirst := host.count_sync call.id definition tally kind
      have hrest := ih (host.sync call.id definition).2
        (tally.record (host.sync call.id definition).1)
      simp only [syncEach]
      omega

theorem count_syncNamed (host : Host) (calls : List CallSite) (tally : Tally)
    (kind : Command.Kind) :
    (host.syncNamed calls tally).1.count kind + host.logged kind =
      tally.count kind + (host.syncNamed calls tally).2.logged kind := by
  induction calls generalizing host tally with
  | nil => rfl
  | cons call rest ih =>
      unfold syncNamed
      split
      · exact ih host tally
      next definition _ =>
        have hfirst := host.count_sync call.id definition.id tally kind
        have hrest := ih (host.sync call.id definition.id).2
          (tally.record (host.sync call.id definition.id).1)
        dsimp only
        omega

theorem count_syncSurvivor (host : Host) (resolution : Resolution) (kind : Command.Kind) :
    (host.syncSurvivor resolution).1.count kind + host.logged kind =
      (host.syncSurvivor resolution).2.logged kind := by
  have hzero : Tally.zero.count kind = 0 := by cases kind <;> rfl
  unfold syncSurvivor
  split
  · rw [hzero, Nat.zero_add]
  next survivor _ =>
    have hsynced := host.count_syncEach survivor.id (host.callersOf survivor.name) .zero kind
    rwa [hzero, Nat.zero_add] at hsynced

/-! ## Carrying out plans -/

theorem count_renameEach (host : Host) (name : String) (calls : List CallSite) (renamed : Nat)
    (kind : Command.Kind) :
    (if kind = .field then (host.renameEach name calls renamed).1 else 0) + host.logged kind =
      (if kind = .field then renamed else 0) + (host.renameEach name calls renamed).2.logged kind := by
  induction calls generalizing host renamed with
  | nil => rfl
  | cons call rest ih =>
      cases hwritten : host.setField call.id nameField name with
      | error _ =>
          simp only [renameEach, hwritten]
          exact ih host renamed
      | ok written =>
          have hrest := ih written (renamed + 1)
          have hlogged : written.logged kind = host.logged kind + if kind = .field then 1 else 0 := by
            rw [setField_ok hwritten, logged_issue, Command.Kind.countIn_singleton]
            rfl
          simp only [renameEach, hwritten]
          split_ifs at hrest hlogged ⊢ <;> omega

theorem count_rebindCallers (host : Host) (resolution : Resolution) (kind : Command.Kind) :
    (if kind = .field then (host.rebindCallers resolution).1 else 0) + host.logged kind =
      (host.rebindCallers resolution).2.logged kind := by
  by_cases hsame : resolution.removedName = resolution.keptName
  · rw [rebindCallers, if_pos hsame, ite_self, Nat.zero_add]
  · have hrenamed := host.count_renameEach resolution.keptName
      (host.callersOf resolution.removedName) 0 kind
    rw [rebindCallers, if_neg hsame, hrenamed, ite_self, Nat.zero_add]

/-- Every command of a resolution is in its report, unless its disposal is ignored. -/
theorem count_resolve (hdisposes : host.Disposes) (hdistinct : Distinct host.editor.blocks)
    (resolution : Resolution) (report : ApplyReport) (kind : Command.Kind) :
    (host.resolve resolution report).1.count kind + host.logged kind =
      report.count kind + (host.resolve resolution report).2.logged kind := by
  unfold resolve
  split
  · cases kind <;> rfl
  next removed hfound =>
    obtain ⟨hremoved, hid⟩ := mem_of_definition? hfound
    have hrebound := host.count_rebindCallers resolution kind
    have hwithdrawn : (host.withdraw resolution).logged kind =
        (host.rebindCallers resolution).2.logged kind + if kind = .disposal then 1 else 0 := by
      rw [withdraw_of_mem hdisposes hdistinct hremoved hid.symm, logged_issue,
        Command.Kind.countIn_singleton]
      rfl
    have hsynced := (host.withdraw resolution).count_syncSurvivor resolution kind
    dsimp only
    rw [← withdraw]
    cases kind <;>
      simp only [ApplyReport.count, Tally.count, Tally.merge, List.length_append,
        List.length_singleton, reduceCtorEq, if_true, if_false] at hrebound hwithdrawn hsynced ⊢ <;>
      omega

theorem count_resolveAll (hdisposes : host.Disposes) (hdistinct : Distinct host.editor.blocks)
    (plan : List Resolution) (report : ApplyReport) (kind : Command.Kind) :
    (host.resolveAll plan report).1.count kind + host.logged kind =
      report.count kind + (host.resolveAll plan report).2.logged kind := by
  induction plan generalizing host report with
  | nil => rfl
  | cons first rest ih =>
      have hissues := host.resolve_issues first report
      have hfirst := count_resolve hdisposes hdistinct first report kind
      have hrest := ih (hissues.disposes hdisposes) (hissues.distinct hdistinct)
        (host.resolve first report).1
      simp only [resolveAll]
      omega

theorem count_apply (hdisposes : host.Disposes) (hdistinct : Distinct host.editor.blocks)
    (plan : List Resolution) (kind : Command.Kind) :
    (host.apply plan).1.count kind + host.logged kind = (host.apply plan).2.logged kind := by
  have hblank : ApplyReport.blank.count kind = 0 := by cases kind <;> rfl
  have hall := count_resolveAll hdisposes hdistinct plan .blank kind
  rwa [hblank, Nat.zero_add] at hall

/-- What a plan has issued, kind by kind, is in its report. -/
theorem issued_apply (hdisposes : host.Disposes) (hdistinct : Distinct host.editor.blocks)
    (plan : List Resolution) : ∃ commands, (host.apply plan).2 = host.issue commands ∧
      ∀ kind, (host.apply plan).1.count kind = kind.countIn commands := by
  obtain ⟨commands, -, hissued⟩ := host.apply_issues plan
  refine ⟨commands, hissued, fun kind => ?_⟩
  have hcount := count_apply hdisposes hdistinct plan kind
  rw [hissued, logged_issue] at hcount
  omega

/-- Every resolution of a plan is carried out or skipped, in order. -/
theorem disposed_resolveAll (host : Host) (plan : List Resolution) (report : ApplyReport) :
    ∃ done, (host.resolveAll plan report).1.disposed = report.disposed ++ done ∧
      done.Sublist plan ∧
      done.length + (host.resolveAll plan report).1.skipped = plan.length + report.skipped := by
  induction plan generalizing host report with
  | nil => exact ⟨[], (List.append_nil _).symm, .slnil, rfl⟩
  | cons first rest ih =>
      obtain ⟨done, hdisposed, hsub, hlength⟩ :=
        ih (host.resolve first report).2 (host.resolve first report).1
      simp only [resolveAll]
      cases hfound : host.definition? first.removed with
      | none =>
          refine ⟨done, ?_, hsub.cons first, ?_⟩
          · rw [hdisposed, resolve, hfound]
          · rw [hlength, resolve, hfound, List.length_cons]
            dsimp only
            omega
      | some removed =>
          refine ⟨first :: done, ?_, hsub.cons_cons first, ?_⟩
          · rw [hdisposed, resolve, hfound]
            simp
          · rw [List.length_cons, List.length_cons, Nat.add_right_comm, hlength, resolve, hfound]
            dsimp only
            omega

theorem disposed_apply (host : Host) (plan : List Resolution) :
    (host.apply plan).1.disposed.Sublist plan ∧
      (host.apply plan).1.disposed.length + (host.apply plan).1.skipped = plan.length := by
  obtain ⟨done, hdisposed, hsub, hlength⟩ := host.disposed_resolveAll plan .blank
  have hdone : (host.apply plan).1.disposed = done := hdisposed
  rw [hdone]
  exact ⟨hsub, hlength⟩

/-- Without faults nothing of a feasible plan is skipped. -/
theorem skipped_resolveAll (hfaultless : host.Faultless) (hdistinct : Distinct host.editor.blocks)
    {plan : List Resolution} (hplan : Feasible host.members plan) (report : ApplyReport) :
    (host.resolveAll plan report).1.skipped = report.skipped := by
  generalize hlive : host.members = live at hplan
  induction hplan generalizing host report with
  | nil => rfl
  | @cons live _ kept rule plan hremovedMem _ _ _ _ _ ih =>
      subst hlive
      obtain ⟨removed, hremoved, rfl⟩ := mem_members hremovedMem
      set step := resolution removed.asMember (rule, kept)
      have hfound : host.definition? step.removed = some removed :=
        (definition?_eq_some_iff hfaultless hdistinct).mpr ⟨hremoved, rfl⟩
      have hissues := host.resolve_issues step report
      have henacts := enacts_resolve hfaultless hdistinct hremoved (rfl : step.removed = removed.id)
        report
      have hskipped : (host.resolve step report).1.skipped = report.skipped := by
        rw [resolve, hfound]
      rw [resolveAll, ← hskipped]
      exact ih (hissues.faultless hfaultless) (hissues.distinct hdistinct) _ henacts.members_single

/-- A fresh plan is carried out as a whole. -/
theorem disposed_apply_plan (hfaultless : host.Faultless) (hdistinct : Distinct host.editor.blocks) :
    (host.apply (plan host.members)).1.skipped = 0 ∧
      (host.apply (plan host.members)).1.disposed = plan host.members := by
  have hskipped : (host.apply (plan host.members)).1.skipped = 0 :=
    skipped_resolveAll hfaultless hdistinct (feasible_plan (nodup_members hdistinct)) .blank
  obtain ⟨hsub, hlength⟩ := host.disposed_apply (plan host.members)
  exact ⟨hskipped, hsub.eq_of_length (by omega)⟩

/-! ## Sweeps -/

theorem count_sweep (hdisposes : host.Disposes) (hdistinct : Distinct host.editor.blocks)
    (kind : Command.Kind) :
    host.sweep.1.count kind + host.logged kind = host.sweep.2.logged kind := by
  have happlied := count_apply hdisposes hdistinct (plan host.members) kind
  have hsynced := (host.apply (plan host.members)).2.count_syncNamed
    (host.apply (plan host.members)).2.callSites (host.apply (plan host.members)).1.sync kind
  cases kind <;>
    simp only [sweep, SweepReport.count, ApplyReport.count, Tally.count] at happlied hsynced ⊢ <;>
    omega

/-- What a sweep has issued, kind by kind, is in its report. -/
theorem issued_sweep (hdisposes : host.Disposes) (hdistinct : Distinct host.editor.blocks) :
    ∃ commands, host.sweep.2 = host.issue commands ∧
      ∀ kind, host.sweep.1.count kind = kind.countIn commands := by
  obtain ⟨commands, -, hissued⟩ := host.sweep_issues
  refine ⟨commands, hissued, fun kind => ?_⟩
  have hcount := count_sweep hdisposes hdistinct kind
  rw [hissued, logged_issue] at hcount
  omega

/-- A sweep is clean exactly if it has left the log as it was. -/
theorem isClean_sweep_iff (hdisposes : host.Disposes) (hdistinct : Distinct host.editor.blocks) :
    host.sweep.1.isClean = true ↔ host.sweep.2.editor.commands = host.editor.commands := by
  obtain ⟨commands, hissued, hcount⟩ := issued_sweep hdisposes hdistinct
  have hlog : host.sweep.2.editor.commands = host.editor.commands ++ commands :=
    congrArg (fun after => after.editor.commands) hissued
  rw [SweepReport.isClean_iff, hlog, List.append_right_eq_self]
  simp only [hcount]
  constructor
  · exact Command.eq_nil_of_countIn
  · rintro rfl kind
    rfl

/-- What the reports on plans and on sweeps tell of a host. -/
structure Accounted (host : Host) : Prop where
  /-- The resolutions carried out are among those of the plan, in order; the others are skipped. -/
  disposed : ∀ plan, (host.apply plan).1.disposed.Sublist plan ∧
    (host.apply plan).1.disposed.length + (host.apply plan).1.skipped = plan.length
  apply : ∀ plan, ∃ commands,
    (host.apply plan).2.editor.commands = host.editor.commands ++ commands ∧
      ∀ kind, (host.apply plan).1.count kind = kind.countIn commands
  sweep : ∃ commands, host.sweep.2.editor.commands = host.editor.commands ++ commands ∧
    ∀ kind, host.sweep.1.count kind = kind.countIn commands
  isClean_iff : host.sweep.1.isClean = true ↔
    host.sweep.2.editor.commands = host.editor.commands
  /-- A clean sweep has changed nothing at all. -/
  clean : host.sweep.1.isClean = true → host.sweep.2 = host
  fresh : host.Faultless → (host.apply (plan host.members)).1.skipped = 0 ∧
    (host.apply (plan host.members)).1.disposed = plan host.members

/-- Reports account for every command, of any plan and on any host that ignores no disposal. -/
theorem accounted_of_disposes (hdistinct : Distinct host.editor.blocks)
    (hdisposes : host.Disposes) : host.Accounted := by
  obtain ⟨swept, hsweep, hswept⟩ := issued_sweep hdisposes hdistinct
  have hlog : host.sweep.2.editor.commands = host.editor.commands ++ swept :=
    congrArg (fun after => after.editor.commands) hsweep
  have hclean := isClean_sweep_iff hdisposes hdistinct
  constructor
  case disposed => exact host.disposed_apply
  case apply =>
    intro plan
    obtain ⟨commands, hissued, hcount⟩ := issued_apply hdisposes hdistinct plan
    exact ⟨commands, congrArg (fun after => after.editor.commands) hissued, hcount⟩
  case sweep => exact ⟨swept, hlog, hswept⟩
  case isClean_iff => exact hclean
  case clean =>
    intro h
    have hnone : swept = [] := List.append_right_eq_self.mp (hlog.symm.trans (hclean.mp h))
    rw [hsweep, hnone, issue_nil]
  case fresh => exact fun hfaultless => disposed_apply_plan hfaultless hdistinct

theorem accounted_of_disposes_unwritable :
    let editor := (((((Editor.new false).define "f2" ["x"]).2.define "f" ["y"]).2.call "f2").2.call
      "f2").2
    let host := (faithful editor).setFaults ⟨3⟩ [.setFieldGone]
    Distinct host.editor.blocks ∧ host.Disposes ∧
      host.sweep.1 = ⟨[⟨⟨0⟩, "f2", ⟨1⟩, "f", .numberedVariant⟩], 1, ⟨1, 1, 0, 0⟩⟩ ∧
      host.Accounted := by
  intro editor host
  have hdistinct : Distinct host.editor.blocks := by unfold Distinct; decide +kernel
  have hdisposes : host.Disposes := (disposes_faithful editor).setFaults ⟨3⟩ (by decide)
  exact ⟨hdistinct, hdisposes, by decide +kernel, accounted_of_disposes hdistinct hdisposes⟩

end Host
end CallBinding
