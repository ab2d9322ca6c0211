import CallBinding.Proofs.Controller.Chronicle
import CallBinding.Proofs.Workbench.Ordered

/-!
# Regular workbenches

Only users create blocks, and a controller is told of new blocks in the order
in which they are numbered.  With this every workbench that moves make of a new
one is regular, whatever faults are scripted: the alarms of its controller are
accounted for, and its controller recalls no block that is yet to be told of.
-/

namespace CallBinding

open Editor (Births CallsLast)

namespace Workbench

/-! ## The news of a move -/

/-- The listed events tell of the blocks that have been created between two workbenches. -/
def Bears (bench next : Workbench) (events : List Event) : Prop :=
  ∃ worked, Births bench.host.editor worked events ∧ CallsLast bench.host.editor worked ∧
    next.host.editor = worked.delivered

variable {bench next : Workbench} {events : List Event}

theorem eq_of_trace_eq {time : Nat} {others : List Event} {trace : List TraceRow}
    (h : (events.map (.heard time)).reverse ++ trace =
      (others.map (TraceRow.heard time)).reverse ++ trace) : events = others := by
  have hrows := List.reverse_injective (List.append_cancel_right h)
  exact List.map_injective_iff.mpr (fun _ _ hrow => (TraceRow.heard.inj hrow).2) hrows

theorem Bears.of_same (h : Ordered bench) (hhost : next.host.editor = bench.host.editor)
    (hsame : next.trace = bench.trace)
    (htrace : next.trace = (events.map (.heard bench.clock)).reverse ++ bench.trace) :
    Bears bench next events := by
  obtain rfl : events = [] := by
    refine eq_of_trace_eq (htrace.symm.trans ?_)
    rw [hsame]
    rfl
  refine ⟨bench.host.editor, .of_kind_ne (by simp) (by simp),
    .of_nextBlock_eq h.consistent.numbered rfl, ?_⟩
  rw [hhost, Editor.delivered, ← h.outbox]

theorem Bears.of_adopt (host : Host) (plan : List Resolution)
    (hnext : next = { bench with plan := plan }.adopt host)
    (htrace : next.trace = (events.map (.heard bench.clock)).reverse ++ bench.trace)
    (hbirths : Births bench.host.editor host.editor host.editor.outbox)
    (hcalls : CallsLast bench.host.editor host.editor) : Bears bench next events := by
  subst hnext
  obtain rfl : host.editor.outbox = events := eq_of_trace_eq htrace
  exact ⟨host.editor, hbirths, hcalls, rfl⟩

/-- Programs create no blocks. -/
theorem Bears.of_kind_ne (h : Ordered bench) (host : Host) (plan : List Resolution)
    (hnext : next = { bench with plan := plan }.adopt host)
    (htrace : next.trace = (events.map (.heard bench.clock)).reverse ++ bench.trace)
    (hkinds : ∀ event ∈ host.editor.outbox, event.kind ≠ .create)
    (hnumbered : host.editor.Numbered)
    (hnextBlock : host.editor.nextBlock = bench.host.editor.nextBlock) :
    Bears bench next events := by
  refine .of_adopt host plan hnext htrace (.of_kind_ne ?_ hkinds)
    (.of_nextBlock_eq hnumbered hnextBlock)
  rw [h.outbox, List.nil_append]

theorem Bears.of_issues (h : Ordered bench) {host : Host} (plan : List Resolution)
    {condition : List Block → Command → Prop} (hissues : Host.Issues condition bench.host host)
    (hnext : next = { bench with plan := plan }.adopt host)
    (htrace : next.trace = (events.map (.heard bench.clock)).reverse ++ bench.trace) :
    Bears bench next events := by
  have hnumbered := hissues.progress.numbered h.consistent.numbered
  refine .of_kind_ne h host plan hnext htrace (fun event hevent => ?_) hnumbered ?_
  · refine (hissues.kind_of_mem_outbox hevent).resolve_left ?_
    rw [h.outbox]
    exact List.not_mem_nil
  · obtain ⟨commands, -, rfl⟩ := hissues
    rfl

variable (h : Ordered bench)

include h

theorem bears_act {action : UserAction}
    (htrace : (bench.act action).2.trace =
      (events.map (.heard bench.clock)).reverse ++ bench.trace) :
    Bears bench (bench.act action).2 events := by
  unfold act at htrace ⊢
  cases hact : bench.host.editor.act action with
  | error error =>
      rw [hact] at htrace
      exact .of_same h rfl rfl htrace
  | ok result =>
      obtain ⟨yield, editor⟩ := result
      rw [hact] at htrace
      obtain ⟨⟨told, hbirths⟩, hcalls⟩ := Editor.births_act h.consistent.numbered hact
      obtain rfl : editor.outbox = told := by rw [hbirths.outbox, h.outbox, List.nil_append]
      exact .of_adopt (bench.host.withEditor editor) bench.plan rfl htrace hbirths hcalls

theorem bears_request {request : HostRequest}
    (htrace : (bench.request request).2.trace =
      (events.map (.heard bench.clock)).reverse ++ bench.trace) :
    Bears bench (bench.request request).2 events := by
  have hnumbered := h.consistent.numbered
  have hsilent : ∀ event ∈ bench.host.editor.outbox, event.kind ≠ .create := by
    rw [h.outbox]
    exact fun _ hevent => by cases hevent
  cases request with
  | command command =>
      simp only [Workbench.request] at htrace ⊢
      cases hperform : bench.host.perform command with
      | ok after =>
          rw [hperform] at htrace
          exact .of_issues h bench.plan (perform_issues hperform) rfl htrace
      | error _ =>
          rw [hperform] at htrace
          exact .of_same h rfl rfl htrace
  | field id key =>
      simp only [Workbench.request] at htrace ⊢
      split at htrace <;> exact .of_same h rfl rfl htrace
  | parameters id =>
      simp only [Workbench.request] at htrace ⊢
      split at htrace <;> exact .of_same h rfl rfl htrace
  | suppress =>
      exact .of_kind_ne h bench.host.suppress bench.plan rfl htrace hsilent
        ⟨hnumbered.increasing, hnumbered.below⟩ rfl
  | resume =>
      exact .of_kind_ne h bench.host.resume bench.plan rfl htrace hsilent
        ⟨hnumbered.increasing, hnumbered.below⟩ rfl
  | subscribe | unsubscribe _ | block _ | blocksOfRole _ | declared _ | heard _ =>
      exact .of_same h rfl rfl htrace

theorem bears_reconcile {reconciliation : Reconciliation}
    (htrace : (bench.reconcile reconciliation).2.trace =
      (events.map (.heard bench.clock)).reverse ++ bench.trace) :
    Bears bench (bench.reconcile reconciliation).2 events := by
  cases reconciliation with
  | sync call definition =>
      simp only [reconcile] at htrace ⊢
      exact .of_issues h bench.plan (bench.host.sync_issues call definition) rfl htrace
  | syncCallers definition =>
      simp only [reconcile] at htrace ⊢
      split at htrace
      · exact .of_same h rfl rfl htrace
      next found _ =>
        exact .of_issues h bench.plan (bench.host.syncCallers_issues found) rfl htrace
  | apply plan =>
      simp only [reconcile, carryOut] at htrace ⊢
      exact .of_issues h (plan.getD bench.plan)
        (bench.host.apply_issues (plan.getD bench.plan)) rfl htrace
  | sweep =>
      simp only [reconcile] at htrace ⊢
      exact .of_issues h bench.plan bench.host.sweep_issues rfl htrace
  | plan | planFamily _ | planSpawned _ _ =>
      simp only [reconcile, keepPlan] at htrace ⊢
      exact .of_same h rfl rfl htrace
  | identitiesOf _ | members => exact .of_same h rfl rfl htrace

/-- What a controller is told of after a move are the births of that move. -/
theorem bears_move {move : Move} (hinner : ¬move.IsInner)
    (htrace : (bench.move move).trace =
      (events.map (.heard bench.clock)).reverse ++ bench.trace) :
    Bears bench (bench.move move) events := by
  cases move with
  | act action => exact bears_act h htrace
  | request request => exact bears_request h htrace
  | reconcile reconciliation => exact bears_reconcile h htrace
  | inspect inspection =>
      cases inspection with
      | clearCommands =>
          have hnumbered := h.consistent.numbered
          refine .of_kind_ne h (bench.host.withEditor bench.host.editor.clearCommands) bench.plan
            rfl htrace (fun event hevent => ?_) ⟨hnumbered.increasing, hnumbered.below⟩ rfl
          have hnone : event ∈ bench.host.editor.outbox := hevent
          rw [h.outbox] at hnone
          cases hnone
      | pendingReflexes | commands | contains _ | listeners | isSuppressed | state =>
          exact .of_same h rfl rfl htrace
  | setFaults id faults => exact .of_same h rfl rfl htrace
  | setLeaky leaky => exact .of_same h rfl rfl htrace
  | attach cleanup settings =>
      have hinstall : (bench.install cleanup settings).host.editor = bench.host.editor ∧
          (bench.install cleanup settings).trace = bench.trace := by
        unfold install
        split <;> exact ⟨rfl, rfl⟩
      exact .of_same h hinstall.1 hinstall.2 htrace
  | handle | wake _ | tick _ | dismiss | vacate => exact absurd trivial hinner

end Workbench

/-! ## Hearing of births -/

namespace Controller

variable {controller : Controller}

theorem not_due_of_mem_hear {host : Host} {events : List Event} {message : Message}
    (h : message ∈ events.map (Message.ofEvent host)) (alarm : Alarm) : message ≠ .due alarm := by
  obtain ⟨event, -, rfl⟩ := List.mem_map.mp h
  exact Message.ofEvent_ne_due host event alarm

theorem Accounted.hear (h : controller.Accounted) (host : Host) (events : List Event) :
    (controller.hear host events).Accounted :=
  h.post fun _ => not_due_of_mem_hear

theorem alarms_hear (controller : Controller) (host : Host) (events : List Event) :
    (controller.hear host events).alarms = controller.alarms :=
  alarms_post fun _ => not_due_of_mem_hear

/-- The events of a turn tell of no new block. -/
theorem Chronological.hear_turn {nextBlock : Nat} (h : controller.Chronological nextBlock)
    (host : Host) {events : List Event} (hkinds : ∀ event ∈ events, event.kind ≠ .create) :
    (controller.hear host events).Chronological nextBlock := by
  refine h.append_silent rfl (fun alarm halarm => ?_) rfl ?_
  · rwa [alarms_hear] at halarm
  · intro message hmessage
    obtain ⟨event, hevent, rfl⟩ := List.mem_map.mp hmessage
    simp [Message.ofEvent, hkinds event hevent, Message.shows, Event.created?]

/-- A call site of which a controller is told is the last block that has been created. -/
theorem nextBlock_of_ofEvent {before worked : Editor} {host : Host} {events : List Event}
    (hbirths : Births before worked events) (hcalls : CallsLast before worked)
    (hhost : host.editor = worked.delivered) {event : Event} (hevent : event ∈ events)
    {call : BlockId} {prior : List BlockId}
    (h : Message.ofEvent host event = .callSiteCreated call prior) :
    worked.nextBlock = call.number + 1 := by
  obtain ⟨rfl, -, block, hblock, rfl, hrole⟩ := Message.exists_of_ofEvent h
  rw [hhost] at hblock
  have hrange := hbirths.range block.id (List.mem_filterMap.mpr ⟨_, hevent, rfl⟩)
  exact hcalls block hblock hrange.1 hrole

/-- A call site is told of last, and what goes with it has been numbered before it. -/
theorem Chronological.hear_births {before worked : Editor} {host : Host} {events : List Event}
    (h : controller.Chronological before.nextBlock) (hnumbered : host.editor.Numbered)
    (hbirths : Births before worked events) (hcalls : CallsLast before worked)
    (hhost : host.editor = worked.delivered) (hle : before.nextBlock ≤ worked.nextBlock) :
    (controller.hear host events).Chronological worked.nextBlock := by
  have hrange {event : Event} (hevent : event ∈ events) {id : BlockId}
      (hid : event.created? = some id) :
      before.nextBlock ≤ id.number ∧ id.number < worked.nextBlock :=
    hbirths.range id (List.mem_filterMap.mpr ⟨event, hevent, hid⟩)
  have hnextBlock : worked.nextBlock = host.editor.nextBlock := by rw [hhost, Editor.delivered]
  refine h.append hle rfl (fun alarm halarm => alarms_hear controller host events ▸ halarm) rfl
    ?_ ?_ ?_
  · intro message hmessage new hnew
    obtain ⟨event, hevent, rfl⟩ := List.mem_map.mp hmessage
    exact (hrange hevent (Message.created?_of_ofEvent hnew)).1
  · intro message hmessage id hid
    obtain ⟨event, hevent, rfl⟩ := List.mem_map.mp hmessage
    unfold Message.ofEvent at hid
    split at hid
    · obtain ⟨definition, hdefinition, rfl⟩ := List.mem_map.mp hid
      rw [Host.definitions_eq] at hdefinition
      obtain ⟨block, hblock, -, rfl⟩ := Graph.mem_definitions.mp hdefinition
      exact hnextBlock ▸ hnumbered.below block hblock
    · exact (hrange hevent (Option.mem_toList.mp hid)).2
  · rw [List.pairwise_map]
    refine (List.pairwise_filterMap.mp hbirths.increasing).imp_of_mem ?_
    intro earlier later hearlier hlater hordered id hid new hnew
    have hnewEvent := Message.created?_of_ofEvent hnew
    cases hmessage : Message.ofEvent host earlier with
    | callSiteCreated call prior =>
        -- After a call site there is no other new block to be told of.
        have hlast := nextBlock_of_ofEvent hbirths hcalls hhost hearlier hmessage
        obtain ⟨rfl, -⟩ := Message.exists_of_ofEvent hmessage
        have hafter := hordered call rfl new hnewEvent
        have hbelow := (hrange hlater hnewEvent).2
        omega
    | event change =>
        rw [hmessage] at hid
        have hsame : (Message.ofEvent host earlier).created? = some id := by
          rw [hmessage]
          exact Option.mem_toList.mp hid
        exact hordered id (Message.created?_of_ofEvent hsame) new hnewEvent
    | due alarm => exact absurd hmessage (Message.ofEvent_ne_due host earlier alarm)
    | detach =>
        rw [hmessage] at hid
        cases hid

end Controller

namespace Workbench

/-! ## Regularity -/

/-- What holds of a workbench between any two moves, whatever the faults of its host. -/
structure Regular (bench : Workbench) : Prop where
  ordered : Ordered bench
  accounted : ∀ controller, bench.seat = .running controller → controller.Accounted
  chronological : ∀ controller, bench.seat = .running controller →
    controller.Chronological bench.host.editor.nextBlock

variable {bench : Workbench}

theorem regular_new (autoDefine : Bool) : Regular (new autoDefine) :=
  ⟨ordered_new autoDefine, fun _ h => (by cases h), fun _ h => (by cases h)⟩

/-! ## Keeping the seat -/

section

variable {move : Move} {former later : Controller}

namespace Seats

/-- What is over stays over while the controller keeps its seat. -/
theorem isOver (h : Seats bench move later) (hseat : bench.seat = .running former)
    {alarm : Alarm} (hover : former.IsOver alarm) : later.IsOver alarm := by
  obtain ⟨next, agenda, mailbox, rfl, rfl | ⟨message, rest, -, -, hbecomes⟩⟩ :=
    h.eq_or_becomes hseat
  · exact hover.of_same rfl rfl rfl
  · have hpopped : Controller.IsOver { former with mailbox := rest } alarm :=
      hover.of_same rfl rfl rfl
    exact (hbecomes.isOver hpopped).of_same rfl rfl rfl

/-- Sessions that are opened meanwhile are numbered after those that have been opened. -/
theorem ids (h : Seats bench move later) (hseat : bench.seat = .running former) :
    former.nextSession ≤ later.nextSession ∧
      ∀ id ∈ later.sessions.map (·.id), id ∈ former.sessions.map (·.id) ∨
        id.number = former.nextSession := by
  obtain ⟨next, agenda, mailbox, rfl, rfl | ⟨message, rest, -, -, hbecomes⟩⟩ :=
    h.eq_or_becomes hseat
  · exact ⟨le_refl _, fun _ hid => Or.inl hid⟩
  · exact hbecomes.ids

/-- A session stays open until its end is handled, and meanwhile it may be bound for the second
time. -/
theorem exists_session (h : Seats bench move later) (hseat : bench.seat = .running former)
    {session : Session} (hsession : session ∈ former.sessions)
    (hwindow : ∀ rest, move = .handle → former.mailbox ≠ .due (.window session.id) :: rest) :
    ∃ current ∈ later.sessions, current.id = session.id ∧ (current.phase = session.phase ∨
      (∃ rest, move = .handle ∧ former.mailbox = .due (.recheck session.id) :: rest) ∧
        current.phase = .settling) := by
  obtain ⟨next, agenda, mailbox, rfl, rfl | ⟨message, rest, hmove, hmailbox, hbecomes⟩⟩ :=
    h.eq_or_becomes hseat
  · exact ⟨session, hsession, rfl, Or.inl rfl⟩
  · obtain ⟨current, hcurrent, hid, -, hphase, -⟩ := hbecomes.exists_session hsession
      fun hmessage => hwindow rest hmove (hmessage ▸ hmailbox)
    refine ⟨current, hcurrent, hid, hphase.imp_right ?_⟩
    rintro ⟨hmessage, hsettled⟩
    exact ⟨⟨rest, hmove, hmessage ▸ hmailbox⟩, hsettled⟩

end Seats

end

namespace Regular

/-- The news of a definition comes before anything that recalls it. -/
theorem not_mem_alarms (h : Regular bench) {controller : Controller}
    (hseat : bench.seat = .running controller) {definition : BlockId}
    (hmem : .event ⟨.create, definition⟩ ∈ controller.mailbox) (id : SessionId) :
    .spawnCheck id definition ∉ controller.alarms := fun halarm =>
  (h.chronological controller hseat).not_recalls hmem (Or.inr ⟨id, halarm⟩)

theorem move (h : Regular bench) (move : Move) : Regular (bench.move move) := by
  have hordered := h.ordered.move move
  have hle : bench.host.editor.nextBlock ≤ (bench.move move).host.editor.nextBlock :=
    (evolves_move h.ordered.consistent.numbered h.ordered.turnReplays move).2.nextBlock_le
  refine ⟨hordered, fun later hseat => ?accounted, fun later hseat => ?chronological⟩
  case accounted =>
    cases seats_move hseat with
    | installed cleanup settings => exact .new settings cleanup
    | told events hformer _ _ => exact (h.accounted _ hformer).hear _ events
    | idled hformer _ | ticked _ hformer => exact h.accounted _ hformer
    | turned hformer hmailbox hfate =>
        refine Controller.Accounted.hear ?_ _ _
        refine (h.accounted _ hformer).becomes (h.ordered.orderly _ hformer) hmailbox ?_
          (Controller.becomes_of_handle hfate)
        rintro definition rfl
        exact h.not_mem_alarms hformer (hmailbox ▸ List.mem_cons_self)
    | woken time hformer => exact (h.accounted _ hformer).wake time
    | dismissed hformer => exact (h.accounted _ hformer).post (by simp)
  case chronological =>
    cases seats_move hseat with
    | installed cleanup settings => exact .new settings cleanup _
    | told events hformer hinner htrace =>
        obtain ⟨worked, hbirths, hcalls, hhost⟩ := bears_move h.ordered hinner htrace
        have hworked : worked.nextBlock = (bench.move move).host.editor.nextBlock := by
          rw [hhost, Editor.delivered]
        rw [← hworked] at hle ⊢
        exact (h.chronological _ hformer).hear_births hordered.consistent.numbered hbirths hcalls
          hhost hle
    | idled hformer _ | ticked _ hformer => exact (h.chronological _ hformer).mono hle
    | turned hformer hmailbox hfate =>
        have hbecomes := Controller.becomes_of_handle hfate
        refine (((h.chronological _ hformer).becomes hmailbox hbecomes).mono hle).hear_turn _ ?_
        exact fun event => h.ordered.kind_of_mem_turn hformer hmailbox
    | woken time hformer => exact ((h.chronological _ hformer).mono hle).wake time
    | dismissed hformer =>
        refine ((h.chronological _ hformer).mono hle).append_silent rfl (fun alarm halarm => ?_) rfl
          (by simp [Message.shows])
        rwa [Controller.alarms_post (by simp)] at halarm

end Regular

theorem Reachable.regular {allowed : Move → Prop} (h : Reachable allowed bench) :
    Regular bench := by
  obtain ⟨autoDefine, hleads⟩ := h
  exact hleads.preserves Regular (fun _ move hregular _ => hregular.move move)
    (regular_new autoDefine)

end Workbench
end CallBinding
