import CallBinding.Proofs.Controller.Disposal
import CallBinding.Proofs.Workbench.Schedule

/-!
# Every disposal is justified

When a controller disposes of a definition, it has been woken for a check, for
the end of a session or for a cleanup.  A check and the end of a session spare
the definitions that were live when the session's call site was created, and
`Told` follows these from the event of the creation, through the mailbox, into
the session.  The family of the definition goes on, or nobody calls it.  A
request for the status disposes of nothing: it reads a settled workbench.
-/

namespace CallBinding

open CallBinding.Graph (Reconciles)

namespace Workbench

/-- The creation of a call site was announced at some moment of a run, and the listed definitions
are those that were live at that moment. -/
inductive Told (call : BlockId) (prior : List BlockId) (bench : Workbench) : Prop
  | intro (earlier : Workbench) (move : Move) (events : List Event) :
      Reachable Move.IsFaultless earlier → move.IsFaultless →
      (earlier.move move).trace = (events.map (.heard earlier.clock)).reverse ++ earlier.trace →
      ⟨.create, call⟩ ∈ events → prior = (earlier.move move).host.definitions.map (·.id) →
      Leads Move.IsFaultless (earlier.move move) bench → Told call prior bench

/-- What a controller remembers of the creation of call sites is what it was told. -/
structure Remembers (bench : Workbench) (controller : Controller) : Prop where
  messages : ∀ call prior, .callSiteCreated call prior ∈ controller.mailbox →
    Told call prior bench
  sessions : ∀ session ∈ controller.sessions, Told session.callSite session.prior bench

variable {bench : Workbench} {controller next : Controller} {message : Message}
variable {rest : List Message}

theorem Told.move {call : BlockId} {prior : List BlockId} (h : Told call prior bench) {move : Move}
    (hmove : move.IsFaultless) : Told call prior (bench.move move) := by
  obtain ⟨earlier, former, events, hearlier, hformer, htrace, hevent, hprior, hleads⟩ := h
  exact .intro earlier former events hearlier hformer htrace hevent hprior (hleads.move hmove)

namespace Remembers

theorem new (settings : Settings) (cleanup : Cleanup) :
    Remembers bench (.new settings cleanup) :=
  ⟨fun _ _ h => (by cases h), fun _ h => (by cases h)⟩

theorem move (h : Remembers bench controller) {move : Move} (hmove : move.IsFaultless) :
    Remembers (bench.move move) controller :=
  ⟨fun call prior hmem => (h.messages call prior hmem).move hmove,
    fun session hsession => (h.sessions session hsession).move hmove⟩

/-- More messages, of which none is about a new call site but those that were told. -/
theorem post (h : Remembers bench controller) {messages : List Message}
    (hmessages : ∀ call prior, .callSiteCreated call prior ∈ messages → Told call prior bench) :
    Remembers bench { controller with mailbox := controller.mailbox ++ messages } := by
  refine ⟨fun call prior hmem => ?_, h.sessions⟩
  rcases List.mem_append.mp hmem with hold | hnew
  · exact h.messages call prior hold
  · exact hmessages call prior hnew

theorem wake (h : Remembers bench controller) (time : Nat) :
    Remembers bench (controller.wake time) := by
  have hposted : Remembers bench { controller with
      mailbox := controller.mailbox ++ (controller.agenda.dueBy time).map .due } := by
    apply h.post
    intro call prior hmem
    simp at hmem
  exact ⟨hposted.messages, hposted.sessions⟩

theorem handle (h : Remembers bench controller) (hmailbox : controller.mailbox = message :: rest)
    (hbecomes : Controller.Becomes { controller with mailbox := rest } bench.clock bench.host
      message next) : Remembers bench next := by
  constructor
  · intro call prior hmem
    rw [hbecomes.keeps.1] at hmem
    exact h.messages call prior (hmailbox ▸ List.mem_cons_of_mem message hmem)
  · intro session hsession
    rcases hbecomes.origin session hsession with ⟨former, hformer, -, hcall, hprior⟩ | hmessage
    · exact hcall ▸ hprior ▸ h.sessions former hformer
    · exact h.messages _ _ (hmailbox ▸ hmessage ▸ List.mem_cons_self)

end Remembers

theorem remembers_move (hreachable : Reachable Move.IsFaultless bench)
    (h : ∀ controller, bench.seat = .running controller → Remembers bench controller)
    {move : Move} (hmove : move.IsFaultless) {later : Controller}
    (hseat : (bench.move move).seat = .running later) : Remembers (bench.move move) later := by
  cases seats_move hseat with
  | installed cleanup settings => exact .new settings cleanup
  | idled hformer _ | ticked _ hformer => exact (h _ hformer).move hmove
  | told events hformer _ htrace =>
      apply ((h _ hformer).move hmove).post
      intro call prior hmem
      obtain ⟨event, hevent, hmessage⟩ := List.mem_map.mp hmem
      obtain ⟨rfl, hprior, -⟩ := Message.exists_of_ofEvent hmessage
      exact .intro bench move events hreachable hmove htrace hevent hprior .refl
  | turned hformer hmailbox hfate =>
      have hnext := (h _ hformer).handle hmailbox (Controller.becomes_of_handle hfate)
      apply (hnext.move hmove).post
      intro call prior hmem
      obtain ⟨event, hevent, hmessage⟩ := List.mem_map.mp hmem
      have hkind := hreachable.ordered.kind_of_mem_turn hformer hmailbox hevent
      rw [(Message.exists_of_ofEvent hmessage).1] at hkind
      exact absurd rfl hkind
  | woken time hformer => exact ((h _ hformer).move hmove).wake time
  | dismissed hformer => exact ((h _ hformer).move hmove).post (by simp)

theorem Reachable.remembers (h : Reachable Move.IsFaultless bench)
    (hseat : bench.seat = .running controller) : Remembers bench controller := by
  obtain ⟨autoDefine, hleads⟩ := h
  have hinvariant : Reachable Move.IsFaultless bench ∧
      ∀ controller, bench.seat = .running controller → Remembers bench controller := by
    refine hleads.preserves (fun bench => Reachable Move.IsFaultless bench ∧
      ∀ controller, bench.seat = .running controller → Remembers bench controller) ?_
      ⟨⟨autoDefine, .refl⟩, fun _ hseat => by cases hseat⟩
    rintro bench move ⟨⟨autoDefine, hreached⟩, hremembers⟩ hmove
    exact ⟨⟨autoDefine, hreached.move hmove⟩,
      fun later hseat => remembers_move ⟨autoDefine, hreached⟩ hremembers hmove hseat⟩
  exact hinvariant.2 controller hseat

/-! ## Disposals -/

/-- Why a controller disposes of a definition when it handles a message. -/
structure Justified (controller : Controller) (message : Message) (after : Host)
    (definition : Definition) : Prop where
  gone : ∀ other ∈ after.definitions, other.id ≠ definition.id
  /-- It was woken, and not for a second binding. -/
  woken : ∃ alarm, message = .due alarm ∧ ∀ id, alarm ≠ .recheck id
  /-- The definition is not older than the session that the alarm is of. -/
  newcomer : ∀ alarm id, message = .due alarm → alarm.session? = some id →
    ∃ session, controller.session? id = some session ∧ definition.id ∉ session.prior
  /-- Another member of its family stays, or a session ends and nobody calls the definition. -/
  covered : Name.isValid definition.name = true →
    Controller.Covered message after definition

/-- A request for the status lets pending work run first, and then it only reads. -/
theorem step_status (hseat : bench.seat = .running controller) :
    (bench.step .status).2 = bench.settle ∧
      ∀ settled, bench.settle.seat = .running settled →
        bench.step .status = (.status settled.status, bench.settle) := by
  simp only [Workbench.step, status, hseat]
  constructor
  · split <;> rfl
  · intro settled hsettled
    simp only [controller?, hsettled]

/-- A request for the status leaves a settled workbench as it is. -/
theorem step_status_of_isSettled (h : bench.IsSettled) (hseat : bench.seat = .running controller) :
    bench.step .status = (.status controller.status, bench) := by
  have hsame := settle_of_isSettled h
  have hread := (step_status hseat).2 controller (hsame.symm ▸ hseat)
  rwa [hsame] at hread

/-- In a run without scripted faults each disposal is justified, and the older definitions of a
session are those that were live when its call site was created.  A request for the status lets
pending work run, as an advance of no time does, and it leaves a settled workbench as it is. -/
theorem justified_of_reachable (h : Reachable Move.IsFaultless bench)
    (hseat : bench.seat = .running controller) (hmailbox : controller.mailbox = message :: rest) :
    let turn := { controller with mailbox := rest }.handle bench.clock bench.host message
    (∀ session ∈ controller.sessions, Told session.callSite session.prior bench) ∧
    (bench.step .status).2 = (bench.step (.advance 0)).2 ∧
    (∀ settled, bench.settle.seat = .running settled →
      bench.step .status = (.status settled.status, bench.settle) ∧
      (bench.settle.IsSettled →
        bench.settle.step .status = (.status settled.status, bench.settle))) ∧
    ∃ issued,
      turn.host.editor.commands = bench.host.editor.commands ++ issued ∧
      turn.host.editor.blocks = Command.replayAll bench.host.editor.blocks issued ∧
      ∀ id, .dispose id ∈ issued → ∃ definition ∈ bench.host.definitions, definition.id = id ∧
        Justified controller message turn.host definition := by
  intro turn
  have hordered := h.ordered
  have hdistinct := hordered.consistent.numbered.distinct
  obtain ⟨issued, outbox, htrail, hissued⟩ := (hordered.handle_reconciles hseat hmailbox).replays
  have hturn : turn.host =
      bench.host.withEditor { bench.host.editor.issue issued with outbox := outbox } := hissued
  obtain ⟨hwaits, hreads⟩ := step_status hseat
  have hreading : ∀ settled, bench.settle.seat = .running settled →
      bench.step .status = (.status settled.status, bench.settle) ∧
      (bench.settle.IsSettled →
        bench.settle.step .status = (.status settled.status, bench.settle)) :=
    fun settled hsettled =>
      ⟨hreads settled hsettled, fun hstill => step_status_of_isSettled hstill hsettled⟩
  refine ⟨(h.remembers hseat).sessions, hwaits, hreading, issued, by rw [hturn]; rfl,
    by rw [hturn]; rfl, ?_⟩
  intro id hdispose
  obtain ⟨hmay, ⟨definition, hdefinition, hid⟩, hgone⟩ :=
    Graph.exists_of_dispose_mem hdistinct htrail hdispose
  have hlive : definition ∈ bench.host.definitions := by rwa [Host.definitions_eq]
  refine ⟨definition, hlive, hid, ?_, ?_, ?_, ?_⟩
  · intro other hother hsame
    rw [Host.definitions_eq, hturn] at hother
    obtain ⟨block, hblock, -, rfl⟩ := Graph.mem_definitions.mp hother
    exact hgone (List.mem_map.mpr ⟨block, hblock, hsame.trans hid⟩)
  · cases message with
    | due alarm =>
        refine ⟨alarm, rfl, ?_⟩
        rintro session rfl
        exact hmay
    | event _ | callSiteCreated _ _ | detach => exact hmay.elim
  · rintro alarm session rfl hsession
    cases alarm with
    | spawnCheck other _ | window other =>
        obtain rfl := Option.some.inj hsession
        rw [hid]
        exact hmay
    | recheck other => exact hmay.elim
    | debounce generation => cases hsession
  · intro hvalid
    cases message with
    | due alarm =>
        apply Controller.covered_of_onAlarm h.sound.faultless hdistinct bench.clock alarm hlive hvalid
        rintro session rfl
        exact hmay
    | event _ | callSiteCreated _ _ | detach => exact hmay.elim

/-- A newcomer that duplicates an older definition is due for its check.  A request for the status
comes after this check, and asking again changes nothing. -/
theorem justified_of_reachable_duplicate :
    let settings := { Settings.default with spawnCheckDelay := 100 }
    let bench := ((new false).run
      [.user (.define "f" ["x"]), .attach .sweep settings, .user (.call "f"), .advance 0,
        .user (.define "f" ["x"]), .advance 50]).2.move (.wake 100)
    let controller := { Controller.new settings .sweep with
      sessions := [⟨⟨0⟩, ⟨1⟩, [⟨0⟩], .settling, [⟨2⟩], []⟩]
      nextSession := 1
      lastGoodName := some "f"
      agenda := [⟨3500, .window ⟨0⟩⟩]
      mailbox := [.due (.spawnCheck ⟨0⟩ ⟨2⟩)] }
    let settled := { controller with
      sessions := [⟨⟨0⟩, ⟨1⟩, [⟨0⟩], .settling, [], []⟩]
      mailbox := [] }
    (Reachable Move.IsFaultless bench ∧ bench.seat = .running controller) ∧
      let turn := { controller with mailbox := [] }.handle bench.clock bench.host
        (.due (.spawnCheck ⟨0⟩ ⟨2⟩))
      (∀ session ∈ controller.sessions, Told session.callSite session.prior bench) ∧
      (bench.step .status).2 = (bench.step (.advance 0)).2 ∧
      (bench.step .status = (.status settled.status, bench.settle) ∧
        bench.settle.step .status = (.status settled.status, bench.settle)) ∧
      ∃ issued,
        turn.host.editor.commands = bench.host.editor.commands ++ issued ∧
        turn.host.editor.blocks = Command.replayAll bench.host.editor.blocks issued ∧
        ∀ id, .dispose id ∈ issued → ∃ definition ∈ bench.host.definitions, definition.id = id ∧
          Justified controller (.due (.spawnCheck ⟨0⟩ ⟨2⟩)) turn.host definition := by
  intro settings bench controller settled
  have hreachable : Reachable Move.IsFaultless bench := by
    obtain ⟨autoDefine, hleads⟩ := reachable_run false
      [.user (.define "f" ["x"]), .attach .sweep settings, .user (.call "f"), .advance 0,
        .user (.define "f" ["x"]), .advance 50] (by decide)
    exact ⟨autoDefine, hleads.move trivial⟩
  have hseat : bench.seat = .running controller := by decide +kernel
  have hsettled : bench.settle.seat = .running settled := by decide +kernel
  have hstill : bench.settle.IsSettled := by decide +kernel
  obtain ⟨htold, hwaits, hreads, hissued⟩ := justified_of_reachable hreachable hseat rfl
  obtain ⟨hread, hagain⟩ := hreads settled hsettled
  exact ⟨⟨hreachable, hseat⟩, htold, hwaits, ⟨hread, hagain hstill⟩, hissued⟩

end Workbench
end CallBinding
