import CallBinding.Proofs.Controller.Leaky
import CallBinding.Proofs.Workbench.Moves

/-!
# Leaky and exact workbenches

Whatever is done at a workbench, apart from asking its host for the blocks of a
role outright, comes to the same whether the host is leaky or exact: the same
answers, the same trace and commands, and in the end the same editor, listeners
and controller.
-/

namespace CallBinding

/-- A step that asks for the blocks of a role by typed queries only, and leaves the host as leaky
as it is. -/
def Step.IsTyped : Step → Prop
  | host (.blocksOfRole _) | setLeaky _ => False
  | _ => True

instance : DecidablePred Step.IsTyped := fun step => by
  unfold Step.IsTyped
  split <;> infer_instance

namespace Workbench

/-- The workbench with a host that is leaky or not. -/
def withLeaky (bench : Workbench) (leaky : Bool) : Workbench :=
  { bench with host := bench.host.withLeaky leaky }

variable (bench : Workbench) (leaky : Bool)

/-! ## The controller's work -/

theorem deliver_withLeaky (events : List Event) :
    (bench.withLeaky leaky).deliver events = (bench.deliver events).withLeaky leaky := by
  have hmessages : Message.ofEvent (bench.withLeaky leaky).host = Message.ofEvent bench.host :=
    funext (Message.ofEvent_withLeaky bench.host leaky)
  rw [deliver, deliver, hmessages]
  rfl

theorem adopt_withLeaky (host : Host) :
    (bench.withLeaky leaky).adopt (host.withLeaky leaky) = (bench.adopt host).withLeaky leaky :=
  deliver_withLeaky { bench with host := host.withEditor host.editor.delivered } leaky _

theorem takeTurn_withLeaky (turn : Turn) :
    (bench.withLeaky leaky).takeTurn (turn.withLeaky leaky) =
      (bench.takeTurn turn).withLeaky leaky := by
  rw [takeTurn, takeTurn, ← adopt_withLeaky]
  obtain ⟨host, fate, cleanup⟩ := turn
  cases fate <;> rfl

theorem handleNext_withLeaky :
    (bench.withLeaky leaky).handleNext = bench.handleNext.withLeaky leaky := by
  have hcontroller : (bench.withLeaky leaky).controller? = bench.controller? := rfl
  rw [handleNext, handleNext, hcontroller]
  cases bench.controller? with
  | none => rfl
  | some controller =>
      cases hmailbox : controller.mailbox with
      | nil => simp only [hmailbox]
      | cons message rest =>
          simp only [hmailbox]
          rw [← takeTurn_withLeaky, ← Controller.handle_withLeaky]
          rfl

theorem handleMany_withLeaky (n : Nat) :
    handleMany n (bench.withLeaky leaky) = (handleMany n bench).withLeaky leaky := by
  induction n generalizing bench with
  | zero => rfl
  | succ n ih => rw [handleMany, handleNext_withLeaky, ih, handleMany]

theorem round_withLeaky : (bench.withLeaky leaky).round = bench.round.withLeaky leaky :=
  bench.handleMany_withLeaky leaky bench.waiting

theorem drain_withLeaky : (bench.withLeaky leaky).drain = bench.drain.withLeaky leaky := by
  rw [drain, round_withLeaky, round_withLeaky, drain]

theorem wake_withLeaky (time : Nat) :
    (bench.withLeaky leaky).wake time = (bench.wake time).withLeaky leaky := by
  have hcontroller : (bench.withLeaky leaky).controller? = bench.controller? := rfl
  rw [wake, wake, hcontroller]
  cases bench.controller? <;> rfl

theorem advanceWithin_withLeaky (wakes target : Nat) :
    advanceWithin wakes target (bench.withLeaky leaky) =
      (advanceWithin wakes target bench).withLeaky leaky := by
  induction wakes generalizing bench with
  | zero => rfl
  | succ wakes ih =>
      have hdeadline : (bench.drain.withLeaky leaky).nextDeadline? = bench.drain.nextDeadline? :=
        rfl
      rw [advanceWithin, advanceWithin, drain_withLeaky, hdeadline]
      cases bench.drain.nextDeadline? with
      | none => rfl
      | some deadline =>
          simp only [wake_withLeaky, ih]
          split <;> rfl

theorem advanceTo_withLeaky (target : Nat) :
    (bench.withLeaky leaky).advanceTo target = (bench.advanceTo target).withLeaky leaky :=
  bench.advanceWithin_withLeaky leaky (bench.wakeLimit target) target

theorem settle_withLeaky : (bench.withLeaky leaky).settle = bench.settle.withLeaky leaky :=
  bench.advanceTo_withLeaky leaky bench.clock

theorem dismiss_withLeaky : (bench.withLeaky leaky).dismiss = bench.dismiss.withLeaky leaky :=
  drain_withLeaky { bench with seat := Seat.post [.detach] bench.seat } leaky

/-! ## Steps -/

theorem act_withLeaky (action : UserAction) :
    (bench.withLeaky leaky).act action = (bench.act action).map id (·.withLeaky leaky) := by
  have heditor : (bench.withLeaky leaky).host.editor = bench.host.editor := rfl
  rw [act, act, heditor]
  cases bench.host.editor.act action with
  | error _ => rfl
  | ok result =>
      have hadopted := bench.adopt_withLeaky leaky (bench.host.withEditor result.2)
      exact Prod.ext rfl hadopted

theorem inspect_withLeaky (inspection : Inspection) :
    (bench.withLeaky leaky).inspect inspection =
      (bench.inspect inspection).map id (·.withLeaky leaky) := by
  cases inspection with
  | clearCommands =>
      have hadopted := bench.adopt_withLeaky leaky
        (bench.host.withEditor bench.host.editor.clearCommands)
      exact Prod.ext rfl hadopted
  | _ => rfl

theorem request_withLeaky {request : HostRequest} (hrequest : (Step.host request).IsTyped) :
    (bench.withLeaky leaky).request request =
      (bench.request request).map id (·.withLeaky leaky) := by
  cases request with
  | blocksOfRole role => exact absurd hrequest id
  | command command =>
      have hperform : (bench.withLeaky leaky).host.perform command =
          (bench.host.perform command).map (·.withLeaky leaky) :=
        bench.host.perform_withLeaky leaky command
      rw [Workbench.request, Workbench.request, hperform]
      cases bench.host.perform command with
      | error _ => rfl
      | ok host => exact Prod.ext rfl (bench.adopt_withLeaky leaky host)
  | field id key =>
      have hfield : (bench.withLeaky leaky).host.field id key = bench.host.field id key := rfl
      rw [Workbench.request, Workbench.request, hfield]
      cases bench.host.field id key <;> rfl
  | parameters id =>
      have hparameters : (bench.withLeaky leaky).host.parameters id = bench.host.parameters id :=
        rfl
      rw [Workbench.request, Workbench.request, hparameters]
      cases bench.host.parameters id <;> rfl
  | suppress => exact Prod.ext rfl (bench.adopt_withLeaky leaky bench.host.suppress)
  | resume => exact Prod.ext rfl (bench.adopt_withLeaky leaky bench.host.resume)
  | block _ | declared _ | subscribe | heard _ | unsubscribe _ => rfl

theorem answer_withLeaky (query : Query) :
    (bench.withLeaky leaky).answer query = bench.answer query := by
  have hhost : (bench.withLeaky leaky).host = bench.host.withLeaky leaky := rfl
  cases query with
  | definitions => rw [answer, answer, hhost, Host.definitions_withLeaky]
  | callSites => rw [answer, answer, hhost, Host.callSites_withLeaky]
  | callersOf name => rw [answer, answer, hhost, Host.callersOf_withLeaky]
  | definitionNamed name => rw [answer, answer, hhost, Host.definitionNamed?_withLeaky]
  | definition _ | callSite _ | nameOf _ | parameterCount _ => rfl

theorem reconcile_withLeaky (reconciliation : Reconciliation) :
    (bench.withLeaky leaky).reconcile reconciliation =
      (bench.reconcile reconciliation).map id (·.withLeaky leaky) := by
  have hhost : (bench.withLeaky leaky).host = bench.host.withLeaky leaky := rfl
  have hadopt {α : Type} (result : α × Host) (answer : α → Answer) :
      (answer (result.map id (·.withLeaky leaky)).1,
          (bench.withLeaky leaky).adopt (result.map id (·.withLeaky leaky)).2) =
        Prod.map id (·.withLeaky leaky) (answer result.1, bench.adopt result.2) :=
    Prod.ext rfl (bench.adopt_withLeaky leaky result.2)
  cases reconciliation with
  | identitiesOf _ => rfl
  | sync call definition =>
      rw [reconcile, reconcile, hhost, Host.sync_withLeaky]
      exact hadopt _ .outcome
  | syncCallers definition =>
      rw [reconcile, reconcile, hhost, Host.definition?_withLeaky]
      cases bench.host.definition? definition with
      | none => rfl
      | some found =>
          dsimp only
          rw [Host.syncCallers_withLeaky]
          exact hadopt _ fun tally => .tally (some tally)
  | members => rw [reconcile, reconcile, hhost, Host.members_withLeaky]; rfl
  | plan => rw [reconcile, reconcile, hhost, Host.members_withLeaky]; rfl
  | planFamily name => rw [reconcile, reconcile, hhost, Host.members_withLeaky]; rfl
  | planSpawned name prior => rw [reconcile, reconcile, hhost, Host.members_withLeaky]; rfl
  | apply plan =>
      have hplan : (bench.withLeaky leaky).plan = bench.plan := rfl
      rw [reconcile, reconcile, carryOut, carryOut, hhost, hplan, Host.apply_withLeaky]
      have hadopted := adopt_withLeaky { bench with plan := plan.getD bench.plan } leaky
        (bench.host.apply (plan.getD bench.plan)).2
      exact Prod.ext rfl hadopted
  | sweep =>
      rw [reconcile, reconcile, hhost, Host.sweep_withLeaky]
      exact hadopt bench.host.sweep .swept

theorem attach_withLeaky (cleanup : Cleanup) (settings : Settings) :
    (bench.withLeaky leaky).attach cleanup settings =
      (bench.attach cleanup settings).map id (·.withLeaky leaky) := by
  have hseat : (bench.settle.withLeaky leaky).seat = bench.settle.seat := rfl
  rw [attach, attach, settle_withLeaky, hseat]
  cases bench.settle.seat <;> rfl

theorem status_withLeaky :
    (bench.withLeaky leaky).status = bench.status.map id (·.withLeaky leaky) := by
  have hseat : (bench.withLeaky leaky).seat = bench.seat := rfl
  have hcontroller : (bench.settle.withLeaky leaky).controller? = bench.settle.controller? := rfl
  rw [status, status, hseat, settle_withLeaky]
  dsimp only
  rw [hcontroller]
  cases bench.seat with
  | vacant => rfl
  | running _ | crashed => cases bench.settle.controller? <;> rfl

theorem detach_withLeaky :
    (bench.withLeaky leaky).detach = bench.detach.map id (·.withLeaky leaky) := by
  have hseat : (bench.withLeaky leaky).seat = bench.seat := rfl
  have hdismissed : (bench.dismiss.withLeaky leaky).seat = bench.dismiss.seat := rfl
  rw [detach, detach, hseat, dismiss_withLeaky]
  dsimp only
  rw [hdismissed]
  cases bench.seat with
  | vacant => rfl
  | running _ | crashed => cases bench.dismiss.seat <;> rfl

theorem drop_withLeaky :
    (bench.withLeaky leaky).drop = bench.drop.map id (·.withLeaky leaky) := by
  have hseat : (bench.withLeaky leaky).seat = bench.seat := rfl
  rw [drop, drop, hseat, dismiss_withLeaky]
  cases bench.seat <;> rfl

theorem step_withLeaky {step : Step} (hstep : step.IsTyped) :
    (bench.withLeaky leaky).step step = (bench.step step).map id (·.withLeaky leaky) := by
  cases step with
  | user action => exact bench.act_withLeaky leaky action
  | inspect inspection => exact bench.inspect_withLeaky leaky inspection
  | host request => exact bench.request_withLeaky leaky hstep
  | query query =>
      have hanswer := bench.answer_withLeaky leaky query
      exact Prod.ext hanswer rfl
  | reconcile reconciliation => exact bench.reconcile_withLeaky leaky reconciliation
  | setFaults id faults => rfl
  | setLeaky leaky => exact absurd hstep id
  | attach cleanup settings => exact bench.attach_withLeaky leaky cleanup settings
  | advance milliseconds =>
      exact Prod.ext rfl (bench.advanceTo_withLeaky leaky (bench.clock + milliseconds))
  | status => exact bench.status_withLeaky leaky
  | detach => exact bench.detach_withLeaky leaky
  | drop => exact bench.drop_withLeaky leaky

theorem stepReport_withLeaky {step : Step} (hstep : step.IsTyped) :
    (bench.withLeaky leaky).stepReport step =
      (bench.stepReport step).map id (·.withLeaky leaky) := by
  rw [stepReport, stepReport, step_withLeaky bench leaky hstep]
  rfl

/-! ## Runs -/

theorem run_withLeaky {steps : List Step} (hsteps : ∀ step ∈ steps, step.IsTyped) :
    (bench.withLeaky leaky).run steps = (bench.run steps).map id (·.withLeaky leaky) := by
  induction steps generalizing bench with
  | nil => rfl
  | cons step rest ih =>
      have hstep : step.IsTyped := hsteps step List.mem_cons_self
      have hrest (next : Workbench) := ih next fun other hother =>
        hsteps other (List.mem_cons_of_mem step hother)
      rw [run, run, bench.stepReport_withLeaky leaky hstep]
      exact congrArg (Prod.map (List.cons (bench.stepReport step).1) id)
        (hrest (bench.stepReport step).2)

theorem move_withLeaky {move : Move} (hmove : ∀ leaky, move ≠ .setLeaky leaky) :
    (bench.withLeaky leaky).move move = (bench.move move).withLeaky leaky := by
  cases move with
  | act action => exact congrArg Prod.snd (bench.act_withLeaky leaky action)
  | inspect inspection => exact congrArg Prod.snd (bench.inspect_withLeaky leaky inspection)
  | request request =>
      by_cases hrequest : (Step.host request).IsTyped
      · exact congrArg Prod.snd (bench.request_withLeaky leaky hrequest)
      · cases request with
        | blocksOfRole role => rfl
        | _ => exact absurd trivial hrequest
  | reconcile reconciliation =>
      exact congrArg Prod.snd (bench.reconcile_withLeaky leaky reconciliation)
  | setFaults id faults => rfl
  | setLeaky leaky => exact absurd rfl (hmove leaky)
  | attach cleanup settings =>
      have hseat : (bench.withLeaky leaky).seat = bench.seat := rfl
      rw [Workbench.move, Workbench.move, install, install, hseat]
      cases bench.seat <;> rfl
  | handle => exact bench.handleNext_withLeaky leaky
  | wake time => exact bench.wake_withLeaky leaky time
  | tick time | dismiss | vacate => rfl

theorem moves_withLeaky {moves : List Move} (hmoves : ∀ leaky, .setLeaky leaky ∉ moves) :
    moves.foldl move (bench.withLeaky leaky) = (moves.foldl move bench).withLeaky leaky := by
  induction moves generalizing bench with
  | nil => rfl
  | cons move rest ih =>
      have hmove (other : Bool) : move ≠ .setLeaky other := fun h =>
        hmoves other (h ▸ List.mem_cons_self)
      have hrest (other : Bool) : .setLeaky other ∉ rest := fun h =>
        hmoves other (List.mem_cons_of_mem move h)
      rw [List.foldl_cons, List.foldl_cons, bench.move_withLeaky leaky hmove, ih _ hrest]

/-- A leaky host changes nothing: a run at it gives the reports that it gives at an exact host and
ends in the same state, and so do any moves, in whatever order they come. -/
theorem run_leaky_eq_run_exact (bench : Workbench) {steps : List Step} {moves : List Move}
    (hsteps : ∀ step ∈ steps, step.IsTyped) (hmoves : ∀ leaky, .setLeaky leaky ∉ moves) :
    let leaky := (bench.withLeaky true).run steps
    let strict := (bench.withLeaky false).run steps
    leaky.1 = strict.1 ∧ leaky.2 = strict.2.withLeaky true ∧
      moves.foldl move (bench.withLeaky true) =
        (moves.foldl move (bench.withLeaky false)).withLeaky true := by
  intro leaky strict
  have hrun : leaky = strict.map id (·.withLeaky true) :=
    run_withLeaky (bench.withLeaky false) true hsteps
  refine ⟨?_, ?_, moves_withLeaky (bench.withLeaky false) true hmoves⟩
  · rw [hrun, Prod.map_fst, id]
  · rw [hrun, Prod.map_snd]

/-- A leaky host passes off a block of no role and a definition as callers.  Only the real caller
is bound, as at an exact host. -/
theorem run_leaky_eq_run_exact_other :
    let bench := ((new true).run [.user .createOther, .user (.define "f" ["x"]),
      .user (.call "f"), .attach .sweep .default]).2
    let steps : List Step := [.host (.command (.setField ⟨0⟩ nameField "f")),
      .query (.callersOf "f"), .user (.define "f" []), .reconcile .plan, .advance 1000,
      .reconcile .sweep]
    let moves : List Move := [.act (.call "f"), .handle, .act (.remove ⟨1⟩), .handle]
    let leaky := (bench.withLeaky true).run steps
    let strict := (bench.withLeaky false).run steps
    leaky.1 = strict.1 ∧ leaky.2.host.editor = strict.2.host.editor ∧
      leaky.2.trace = strict.2.trace ∧
      (leaky.2.host.blocksCalling "f").map (·.id) = [⟨0⟩, ⟨1⟩, ⟨2⟩] ∧
      (strict.2.host.blocksCalling "f").map (·.id) = [⟨2⟩] ∧
      (moves.foldl move (bench.withLeaky true)).trace =
        (moves.foldl move (bench.withLeaky false)).trace := by
  intro bench steps moves leaky strict
  have hsteps : ∀ step ∈ steps, step.IsTyped := by decide
  have hmoves : ∀ leaky, .setLeaky leaky ∉ moves := by decide
  obtain ⟨hreports, hlast, hmoved⟩ := run_leaky_eq_run_exact bench hsteps hmoves
  have hheld (other : Workbench) : (other.withLeaky true).host.editor = other.host.editor := rfl
  have htraced (other : Workbench) : (other.withLeaky true).trace = other.trace := rfl
  refine ⟨hreports, ?_, ?_, ?_, ?_, ?_⟩
  · rw [hlast, hheld]
  · rw [hlast, htraced]
  · decide +kernel
  · decide +kernel
  · rw [hmoved, htraced]

end Workbench
end CallBinding
