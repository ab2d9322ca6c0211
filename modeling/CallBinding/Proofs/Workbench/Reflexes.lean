import CallBinding.Proofs.Controller.Reflexes
import CallBinding.Proofs.Workbench.Timers

/-!
# Reflexes before or after a turn

A call site whose name nobody has defined queues a reflex, which defines that
name some time later.  Whether this happens before or after the controller
handles the news of the call site makes no difference: the list that goes with
the news was made when it was told, so that the handler takes no notice of
younger definitions, and the news of these waits in the mailbox behind.
-/

namespace CallBinding

/-- The creation of a definition is told as it is. -/
theorem Message.ofEvent_of_definition {host : Host} {id : BlockId}
    (h : ∀ block ∈ host.editor.blocks, block.id = id → block.role = .definition) :
    Message.ofEvent host ⟨.create, id⟩ = .event ⟨.create, id⟩ := by
  refine if_neg fun hsite => ?_
  have hany := (Bool.and_eq_true_iff.mp hsite).2
  obtain ⟨block, hblock, hrole⟩ := (Option.any_eq_true _ _).mp hany
  unfold Host.block? at hblock
  split at hblock
  · cases hblock
  · have hid : block.id = id := by simpa using List.find?_some hblock
    have hdefinition := h block (List.mem_of_find?_eq_some hblock) hid
    simp [Block.isCallSite, hdefinition] at hrole

namespace Workbench

variable {bench : Workbench} {controller next : Controller} {rest : List Message} {after : Host}

/-- The workbench with some names for which reflexes are queued. -/
def queueing (bench : Workbench) (names : List String) : Workbench :=
  { bench with host := bench.host.withEditor { bench.host.editor with reflexes := names } }

/-- The workbench once some blocks have been created and told of. -/
def spawn (bench : Workbench) (blocks : List Block) : Workbench :=
  { bench with
    host := bench.host.spawn blocks
    trace := ((bench.host.editor.birthsOf blocks).map (.heard bench.clock)).reverse ++ bench.trace
    taps := bench.taps.map (Tap.hear (bench.host.editor.birthsOf blocks))
    seat := Seat.post ((bench.host.editor.birthsOf blocks).map .event) bench.seat }

/-- The definitions that are created by reflexes which are run now. -/
def newborns (bench : Workbench) : List Block :=
  Editor.newborns bench.host.editor.nextBlock bench.host.editor.reflexes

theorem of_mem_newborns (hnumbered : bench.host.editor.Numbered) {born : Block}
    (hborn : born ∈ bench.newborns) :
    ∀ block ∈ (bench.host.spawn bench.newborns).editor.blocks, block.id = born.id →
      block.role = .definition := by
  intro block hblock hid
  rcases List.mem_append.mp hblock with hold | hnew
  · have hbelow := hnumbered.below block hold
    have hnotBelow := (Editor.of_mem_newborns hborn).1
    rw [hid] at hbelow
    exact absurd hbelow (Nat.not_lt.mpr hnotBelow)
  · exact (Editor.of_mem_newborns hnew).2

theorem act_runReflexes (houtbox : bench.host.editor.outbox = [])
    (hnumbered : bench.host.editor.Numbered) :
    bench.act .runReflexes =
      (.yielded (.blocks (bench.newborns.map (·.id))), bench.spawn bench.newborns) := by
  obtain ⟨hids, hevents, hdelivered⟩ := Editor.runReflexes_eq houtbox
  have hhost : bench.host.withEditor (bench.host.editor.runReflexes).2.delivered =
      bench.host.spawn bench.newborns := congrArg bench.host.withEditor hdelivered
  have hmessages : (bench.host.editor.birthsOf bench.newborns).map
      (Message.ofEvent (bench.host.spawn bench.newborns)) =
        (bench.host.editor.birthsOf bench.newborns).map .event := by
    refine List.map_congr_left fun event hevent => ?_
    unfold Editor.birthsOf at hevent
    split at hevent
    · cases hevent
    · obtain ⟨born, hborn, rfl⟩ := List.mem_map.mp hevent
      exact Message.ofEvent_of_definition (of_mem_newborns hnumbered hborn)
  have hadopted : bench.adoptEditor (bench.host.editor.runReflexes).2 =
      bench.spawn bench.newborns := by
    have hadopt : bench.adoptEditor (bench.host.editor.runReflexes).2 =
        Workbench.deliver
          { bench with
            host := bench.host.withEditor (bench.host.editor.runReflexes).2.delivered }
          (bench.host.editor.runReflexes).2.outbox := rfl
    rw [hadopt, hhost, hevents, deliver]
    dsimp only
    rw [← newborns, hmessages]
    rfl
  have hact : bench.act .runReflexes = (.yielded (.blocks (bench.host.editor.runReflexes).1),
      bench.adoptEditor (bench.host.editor.runReflexes).2) := rfl
  rw [hact, hids, hadopted]
  rfl

/-- The news of a call site is handled in a turn after which the controller goes on. -/
theorem handleNext_of_silent {call : BlockId} {prior : List BlockId}
    (hseat : bench.seat = .running controller)
    (hmailbox : controller.mailbox = .callSiteCreated call prior :: rest)
    (hturn : ({ controller with mailbox := rest } : Controller).onCallSiteCreated bench.clock
      bench.host call prior = (next, after)) (houtbox : after.editor.outbox = []) :
    bench.handleNext = { bench with host := after, seat := .running next } := by
  have hproceed : ({ controller with mailbox := rest } : Controller).handle bench.clock bench.host
      (.callSiteCreated call prior) = .proceed next after := by
    rw [Controller.handle, hturn]
  have hdelivered : after.withEditor after.editor.delivered = after := by
    rw [Editor.delivered, ← houtbox]
    rfl
  have htaken : bench.takeTurn (.proceed next after) =
      Workbench.deliver
        { bench with host := after.withEditor after.editor.delivered, seat := .running next }
        after.editor.outbox := rfl
  rw [handleNext_eq hseat hmailbox, hproceed, htaken, hdelivered, houtbox]
  exact deliver_nil _

theorem not_mem_newborns {id : BlockId} (hold : id.number < bench.host.editor.nextBlock) :
    ∀ born ∈ bench.newborns, born.id ≠ id := by
  rintro born hborn rfl
  exact absurd hold (Nat.not_lt.mpr (Editor.of_mem_newborns hborn).1)

section

variable {call : BlockId} {prior : List BlockId} (houtbox : bench.host.editor.outbox = [])
variable (hseat : bench.seat = .running controller)
variable (hmailbox : controller.mailbox = .callSiteCreated call prior :: rest)
variable (honly : bench.host.editor.OnlyCallSite call)

include houtbox hseat hmailbox honly

/-- The news of a call site is handled by commands of which nobody is told. -/
theorem exists_handleNext_eq :
    ∃ (commands : List Command) (next : Controller),
      bench.handleNext =
        { bench with
          host := bench.host.withEditor
            { bench.host.editor.issue commands with outbox := bench.host.editor.outbox }
          seat := .running next } := by
  obtain ⟨commands, next, -, hturn⟩ :=
    Controller.exists_onCallSiteCreated_eq honly { controller with mailbox := rest } bench.clock
      prior
  exact ⟨commands, next, handleNext_of_silent hseat hmailbox hturn houtbox⟩

/-- Blocks that do not go with the news of a call site may be created before or after it is
handled.  The messages about them wait behind the news. -/
theorem handleNext_spawn {blocks : List Block} (hcall : ∀ block ∈ blocks, block.id ≠ call)
    (hprior : ∀ block ∈ blocks, block.id ∉ prior) :
    (bench.spawn blocks).handleNext = bench.handleNext.spawn blocks := by
  let popped : Controller := { controller with mailbox := rest }
  let messages := (bench.host.editor.birthsOf blocks).map Message.event
  obtain ⟨commands, next, hrest, hturn⟩ :=
    Controller.exists_onCallSiteCreated_eq honly popped bench.clock prior
  have hhandled := handleNext_of_silent hseat hmailbox hturn houtbox
  have hdelayedTurn :
      ({ popped with mailbox := rest ++ messages } : Controller).onCallSiteCreated bench.clock
          (bench.host.spawn blocks) call prior =
        ({ next with mailbox := rest ++ messages },
          (bench.host.withEditor
            { bench.host.editor.issue commands with outbox := bench.host.editor.outbox }).spawn
              blocks) := by
    rw [Controller.onCallSiteCreated_mailbox,
      Controller.onCallSiteCreated_spawn hcall hprior popped, hturn]
  have hseated : (bench.spawn blocks).seat =
      .running { controller with mailbox := controller.mailbox ++ messages } := by
    rw [spawn, hseat]
    rfl
  have hwaiting : controller.mailbox ++ messages =
      .callSiteCreated call prior :: (rest ++ messages) := by
    rw [hmailbox, List.cons_append]
  have hdelayed := handleNext_of_silent hseated hwaiting hdelayedTurn houtbox
  have hposted : Seat.post messages (.running next) =
      .running { next with mailbox := rest ++ messages } := by
    rw [Seat.post, hrest]
  rw [hdelayed, hhandled, ← hposted]
  rfl

/-- Reflexes may run before or after the news of a call site is handled, if all that goes with the
news is older than what they define. -/
theorem act_runReflexes_handleNext (hnumbered : bench.host.editor.Numbered)
    (hprior : ∀ id ∈ prior, id.number < bench.host.editor.nextBlock) :
    bench.handleNext.act .runReflexes =
      ((bench.act .runReflexes).1, (bench.act .runReflexes).2.handleNext) := by
  obtain ⟨commands, next, hhandled⟩ := exists_handleNext_eq houtbox hseat hmailbox honly
  have hissued := (bench.host.editor.progress_issue commands).numbered hnumbered
  have hlater : bench.handleNext.act .runReflexes =
      (.yielded (.blocks (bench.handleNext.newborns.map (·.id))),
        bench.handleNext.spawn bench.handleNext.newborns) := by
    refine act_runReflexes ?_ ?_
    · rw [hhandled]
      exact houtbox
    · rw [hhandled]
      exact ⟨hissued.increasing, hissued.below⟩
  -- No command of the handler creates a block or queues a reflex.
  have hnewborns : bench.handleNext.newborns = bench.newborns := by
    rw [hhandled]
    rfl
  have hpriorOld : ∀ born ∈ bench.newborns, born.id ∉ prior := fun born hborn hmem =>
    not_mem_newborns (hprior born.id hmem) born hborn rfl
  have hexchanged := handleNext_spawn houtbox hseat hmailbox honly
    (bench.not_mem_newborns honly.1) hpriorOld
  rw [hlater, hnewborns, act_runReflexes houtbox hnumbered, hexchanged]

end

/-- Handling the news of a call site and then running the reflexes comes to the same as running the
reflexes first and then handling the news: the same graph, commands, events, messages and
controller, and the same definitions are given back. -/
theorem runReflexes_comm_of_reachable (h : Reachable (fun _ => True) bench)
    (hseat : bench.seat = .running controller) {call : BlockId} {prior : List BlockId}
    (hmailbox : controller.mailbox = .callSiteCreated call prior :: rest) (names : List String) :
    (bench.queueing names).handleNext.act .runReflexes =
      (((bench.queueing names).act .runReflexes).1,
        ((bench.queueing names).act .runReflexes).2.handleNext) := by
  have hregular := h.regular
  have hnumbered := hregular.ordered.consistent.numbered
  have hnews : .callSiteCreated call prior ∈ controller.mailbox := hmailbox ▸ List.mem_cons_self
  have honly := (hregular.ordered.consistent.knows controller hseat).messages call prior hnews
  have hprior := (hregular.chronological controller hseat).shown _ hnews
  have hqueueing : (bench.queueing names).host.editor.Numbered :=
    ⟨hnumbered.increasing, hnumbered.below⟩
  exact act_runReflexes_handleNext hregular.ordered.outbox hseat hmailbox honly hqueueing hprior

/-- A call site is given the name of the older definition and its parameter, whether the name which
it had is defined before or after that. -/
theorem runReflexes_comm_of_reachable_undefined :
    let bench := ((new true).run [.user (.define "f" ["x"]), .attach .count .default,
      .user (.call "g")]).2
    let opener := { Controller.new .default .count with mailbox := [.callSiteCreated ⟨1⟩ [⟨0⟩]] }
    let queued := bench.queueing ["g", "f"]
    (Reachable (fun _ => True) bench ∧ bench.seat = .running opener ∧
        bench.host.editor.reflexes = ["g"]) ∧
      queued.handleNext.act .runReflexes =
        ((queued.act .runReflexes).1, (queued.act .runReflexes).2.handleNext) ∧
      (queued.act .runReflexes).1 = .yielded (.blocks [⟨2⟩, ⟨3⟩]) ∧
      (queued.act .runReflexes).2.handleNext.host.callSites.map (·.name) = ["f"] := by
  intro bench opener queued
  have hreachable : Reachable (fun _ => True) bench :=
    ⟨true, leads_run (fun _ _ => trivial) _ _ fun _ _ _ _ => trivial⟩
  have hseat : bench.seat = .running opener := by decide +kernel
  exact ⟨⟨hreachable, hseat, by decide +kernel⟩,
    runReflexes_comm_of_reachable hreachable hseat rfl ["g", "f"], by decide +kernel,
    by decide +kernel⟩

end Workbench
end CallBinding
