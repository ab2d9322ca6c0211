import CallBinding.Proofs.Workbench.Sound

/-!
# Quiescence

A controller that sweeps leaves no change of the graph unattended: from the
first event that it hears, there is at every moment a change of which a message
still waits, or a session or the wait for a quiet graph is on, or some call
site has no name yet, or the graph is tidy.  When the first three are excluded
the graph is tidy, in whatever order users, programs and the clock have come
between the messages.
-/

namespace CallBinding

open CallBinding.Graph (Tidy)

/-- A row about an event. -/
def TraceRow.isHeard : TraceRow → Bool
  | heard _ _ => true
  | cleanup _ _ => false

/-- The moves of a run without scripted faults in which events reach the listeners. -/
def Move.IsUndisturbed : Move → Prop
  | .request .suppress => False
  | move => move.IsFaultless

/-- The moves of such a run while a controller is attached. -/
def Move.IsAttended : Move → Prop
  | .attach _ _ => False
  | move => move.IsUndisturbed

theorem Move.IsAttended.isUndisturbed {move : Move} (h : move.IsAttended) :
    move.IsUndisturbed := by
  cases move with
  | attach _ _ => cases h
  | _ => exact h

theorem Move.IsInner.isAttended {move : Move} (h : move.IsInner) : move.IsAttended := by
  cases move with
  | handle | wake _ | tick _ | dismiss | vacate => trivial
  | _ => cases h

theorem Move.IsUndisturbed.isFaultless {move : Move} (h : move.IsUndisturbed) :
    move.IsFaultless := by
  cases move with
  | request request =>
      cases request with
      | suppress => cases h
      | _ => exact h
  | _ => exact h

namespace Workbench

/-- The number of events in the trace. -/
def heardCount (bench : Workbench) : Nat :=
  bench.trace.countP TraceRow.isHeard

/-- No event is held back between two moves. -/
structure Undisturbed (bench : Workbench) : Prop where
  sound : Sound bench
  suppression : bench.host.editor.suppression = 0
  outbox : bench.host.editor.outbox = []

theorem undisturbed_new (autoDefine : Bool) : Undisturbed (new autoDefine) :=
  ⟨sound_new autoDefine, rfl, rfl⟩

/-- A program's requests leave the host alone or replace its editor by one that has made progress;
closing a suppression when none is open does nothing. -/
theorem Undisturbed.adopts_request {bench : Workbench} (h : Undisturbed bench)
    {request : HostRequest} (hrequest : (Move.request request).IsUndisturbed) :
    Adopts bench (bench.request request).2 := by
  by_cases hresume : request = .resume
  · subst hresume
    refine .adopt bench.host.resume bench.plan rfl (.of_silent rfl rfl ?_ rfl) rfl
    simp [Host.resume, Host.withEditor, Editor.resume, h.suppression]
  · refine bench.adopts_request (fun hsuppress => ?_) hresume
    subst hsuppress
    exact hrequest

theorem Undisturbed.move {bench : Workbench} (h : Undisturbed bench) {move : Move}
    (hmove : move.IsUndisturbed) : Undisturbed (bench.move move) := by
  suffices hopen : (bench.move move).host.editor.suppression = 0 ∧
      (bench.move move).host.editor.outbox = [] from
    ⟨h.sound.move hmove.isFaultless, hopen.1, hopen.2⟩
  have hhosts := bench.hosts_move move
  generalize (bench.move move).host = after at hhosts ⊢
  cases hhosts with
  | kept _ | scripted _ _ | leaked _ => exact ⟨h.suppression, h.outbox⟩
  | adopted _ _ _ hprogress => exact ⟨hprogress.suppression.trans h.suppression, rfl⟩
  | suppressed => cases hmove
  | resumed =>
      have hresume : bench.host.resume.editor.suppression = 0 := by
        simp [Host.resume, Host.withEditor, Editor.resume, h.suppression]
      exact ⟨hresume, rfl⟩
  | turned hseat hmailbox hafter =>
      subst hafter
      have hreplays := h.sound.handle_keeps hseat hmailbox
      exact ⟨hreplays.suppression.trans h.suppression, rfl⟩

/-! ## The invariant -/

/-- The graph is tidy, or something stands between the controller and its cleanup. -/
inductive Attends (heard : Nat) (bench : Workbench) (controller : Controller) : Prop
  /-- No event has been heard yet. -/
  | unheard : bench.heardCount ≤ heard → Attends heard bench controller
  | awaits : controller.Awaits → Attends heard bench controller
  /-- A change waits to be heard of. -/
  | news (message : Message) : message ∈ controller.mailbox → message.IsNews →
      Attends heard bench controller
  /-- A call site has no name yet. -/
  | unnamed (call : CallSite) : call ∈ Graph.callSites bench.host.editor.blocks →
      Name.isPlaceholder call.name = true → Attends heard bench controller
  | tidy : Tidy bench.host.editor.blocks → Attends heard bench controller

/-- What holds between any two moves of a run with one controller that sweeps. -/
structure Attended (heard : Nat) (bench : Workbench) : Prop where
  undisturbed : Undisturbed bench
  attends : ∀ controller, bench.seat = .running controller →
    controller.cleanup = .sweep ∧ Attends heard bench controller

variable {heard : Nat} {bench : Workbench}

/-- More messages, or another time, make no difference. -/
theorem Attends.mono {next : Workbench} {controller later : Controller}
    (h : Attends heard bench controller) (hcount : next.heardCount = bench.heardCount)
    (hblocks : next.host.editor.blocks = bench.host.editor.blocks)
    (hawaits : controller.Awaits → later.Awaits)
    (hmailbox : ∀ message ∈ controller.mailbox, message.IsNews → message ∈ later.mailbox) :
    Attends heard next later := by
  cases h with
  | unheard hle => exact .unheard (hcount ▸ hle)
  | awaits h => exact .awaits (hawaits h)
  | news message hmem hnews => exact .news message (hmailbox message hmem hnews) hnews
  | unnamed call hcall hname => exact .unnamed call (hblocks ▸ hcall) hname
  | tidy htidy => exact .tidy (hblocks ▸ htidy)

/-- Events that are delivered leave news in the mailbox. -/
theorem attends_adopt {host : Host} {controller : Controller}
    (hseat : (bench.adopt host).seat = .running controller) (houtbox : host.editor.outbox ≠ []) :
    Attends heard (bench.adopt host) controller := by
  obtain ⟨former, -, rfl⟩ := post_eq_running hseat
  obtain ⟨event, hevent⟩ := List.exists_mem_of_ne_nil _ houtbox
  exact .news _ (List.mem_append_right _ (List.mem_map_of_mem hevent)) (Message.isNews_ofEvent _ _)

theorem heardCount_adopt_of_outbox {host : Host} (houtbox : host.editor.outbox = []) :
    (bench.adopt host).heardCount = bench.heardCount := by
  simp [heardCount, adopt, deliver, houtbox]

/-- A turn without events adds at most a cleanup to the trace. -/
theorem heardCount_takeTurn {turn : Turn} (houtbox : turn.host.editor.outbox = []) :
    (bench.takeTurn turn).heardCount = bench.heardCount := by
  rw [Workbench.takeTurn, heardCount_adopt_of_outbox houtbox]
  cases turn.fate <;> cases turn.cleanup <;> simp [heardCount, seatFate, TraceRow.isHeard]

namespace Attended

theorem of_same (h : Attended heard bench) {next : Workbench} (hundisturbed : Undisturbed next)
    (hseat : next.seat = bench.seat) (hcount : next.heardCount = bench.heardCount)
    (hblocks : next.host.editor.blocks = bench.host.editor.blocks) : Attended heard next := by
  refine ⟨hundisturbed, fun controller hcontroller => ?_⟩
  obtain ⟨hcleanup, hattends⟩ := h.attends controller (hseat ▸ hcontroller)
  exact ⟨hcleanup, hattends.mono hcount hblocks id fun _ hmem _ => hmem⟩

/-- If nothing was delivered, the graph is as it was, and so is the controller. -/
theorem adopts (h : Attended heard bench) {next : Workbench} (hadopts : Adopts bench next)
    (hundisturbed : Undisturbed next) : Attended heard next := by
  cases hadopts with
  | same hhost hseat htrace =>
      refine h.of_same hundisturbed hseat ?_ (by rw [hhost])
      rw [heardCount, htrace, heardCount]
  | adopt host plan hfaults hprogress hnext =>
      subst hnext
      refine ⟨hundisturbed, fun controller hseat => ?_⟩
      obtain ⟨former, hformer, heq⟩ := post_eq_running hseat
      obtain ⟨hcleanup, hattends⟩ := h.attends former hformer
      refine ⟨by rw [heq]; exact hcleanup, ?_⟩
      rcases hprogress.announces h.undisturbed.suppression with ⟨hblocks, houtbox⟩ | hevents
      · rw [h.undisturbed.outbox] at houtbox
        refine hattends.mono (heardCount_adopt_of_outbox houtbox) hblocks ?_ ?_
        · rw [heq]
          exact id
        · rw [heq]
          exact fun message hmem _ => List.mem_append_left _ hmem
      · obtain ⟨events, hnonempty, houtbox⟩ := hevents
        refine attends_adopt hseat ?_
        rw [houtbox, h.undisturbed.outbox]
        exact hnonempty

/-- A turn leaves the controller waiting, or the graph as it was, or a swept graph. -/
theorem takeTurn (h : Attended heard bench) {controller : Controller} {message : Message}
    {rest : List Message} (hseat : bench.seat = .running controller)
    (hmailbox : controller.mailbox = message :: rest) {turn : Turn}
    (hturn : ∀ next, turn.fate = .running next → next.cleanup = .sweep ∧
      (next.Awaits ∨ (∃ alarm, message = .due alarm) ∧
        Controller.Settles { controller with mailbox := rest } next bench.host turn.host))
    {later : Controller} (hlater : (bench.takeTurn turn).seat = .running later) :
    later.cleanup = .sweep ∧ Attends heard (bench.takeTurn turn) later := by
  obtain ⟨next, hnext, heq⟩ := post_eq_running hlater
  obtain ⟨hcleanup, hsettles⟩ := hturn next (seatFate_eq_running hnext)
  refine ⟨by rw [heq]; exact hcleanup, ?_⟩
  rcases hsettles with hawaits | ⟨⟨alarm, rfl⟩, hsettles⟩
  · exact .awaits (by rw [heq]; exact hawaits)
  · cases hsettles with
    | stale hsame hhost =>
        have hrest : ∀ news ∈ controller.mailbox, news.IsNews → news ∈ later.mailbox := by
          intro news hnews hisNews
          rw [hmailbox] at hnews
          rw [heq, hsame]
          rcases List.mem_cons.mp hnews with rfl | hrest
          · cases hisNews
          · exact List.mem_append_left _ hrest
        refine (h.attends controller hseat).2.mono ?_ ?_ ?_ hrest
        · rw [heardCount_takeTurn (by rw [hhost]; exact h.undisturbed.outbox)]
        · exact congrArg (fun host => host.editor.blocks) hhost
        · rw [heq, hsame]
          exact id
    | unnamed call hcall hname hhost =>
        rw [Host.callSites_eq, ← hhost] at hcall
        exact .unnamed call hcall hname
    | swept hhost =>
        have htidy := Host.tidy_sweep h.undisturbed.sound.faultless
          h.undisturbed.sound.numbered.distinct
        rw [← hhost] at htidy
        exact .tidy htidy

theorem move (h : Attended heard bench) {move : Move} (hmove : move.IsAttended) :
    Attended heard (bench.move move) := by
  have hundisturbed := h.undisturbed.move hmove.isUndisturbed
  cases move with
  | act action => exact h.adopts (bench.adopts_act action) hundisturbed
  | inspect inspection => exact h.adopts (bench.adopts_inspect inspection) hundisturbed
  | request request => exact h.adopts (h.undisturbed.adopts_request hmove) hundisturbed
  | reconcile reconciliation => exact h.adopts (bench.adopts_reconcile reconciliation) hundisturbed
  | setFaults block faults => exact h.of_same hundisturbed rfl rfl rfl
  | setLeaky leaky => exact h.of_same hundisturbed rfl rfl rfl
  | attach cleanup settings => cases hmove
  | handle =>
      refine ⟨hundisturbed, fun later hseat => ?_⟩
      simp only [Workbench.move, Workbench.handleNext] at hseat ⊢
      split at hseat
      · exact h.attends later hseat
      next controller hcontroller =>
        split at hseat
        · exact h.attends later hseat
        next message rest hmailbox =>
          have hrunning := controller?_eq_some_iff.mp hcontroller
          have hcleanup := (h.attends controller hrunning).1
          refine h.takeTurn hrunning hmailbox (fun next hfate => ⟨?_, ?_⟩) hseat
          · exact (Controller.handle_running hfate).2.1.trans hcleanup
          · exact Controller.handle_settles hcleanup hfate
  | wake time =>
      simp only [Workbench.move, wake] at hundisturbed ⊢
      split at hundisturbed
      next hnone => exact h.of_same hundisturbed rfl rfl rfl
      next controller hcontroller =>
        refine ⟨hundisturbed, fun later hseat => ?_⟩
        obtain rfl := Seat.running.inj hseat
        obtain ⟨hcleanup, hattends⟩ := h.attends controller
          (controller?_eq_some_iff.mp hcontroller)
        exact ⟨hcleanup, hattends.mono rfl rfl id fun _ hmem _ => List.mem_append_left _ hmem⟩
  | tick time => exact h.of_same hundisturbed rfl rfl rfl
  | dismiss =>
      refine ⟨hundisturbed, fun later hseat => ?_⟩
      obtain ⟨former, hformer, rfl⟩ := post_eq_running hseat
      obtain ⟨hcleanup, hattends⟩ := h.attends former hformer
      exact ⟨hcleanup, hattends.mono rfl rfl id fun _ hmem _ => List.mem_append_left _ hmem⟩
  | vacate => exact ⟨hundisturbed, fun _ hseat => by cases hseat⟩

end Attended

/-! ## Quiescent controllers -/

theorem Reachable.undisturbed {start : Workbench} (h : Reachable Move.IsUndisturbed start) :
    Undisturbed start := by
  obtain ⟨autoDefine, hleads⟩ := h
  exact hleads.preserves Undisturbed (fun _ _ hundisturbed hmove => hundisturbed.move hmove)
    (undisturbed_new autoDefine)

/-- Right after its attachment a controller has heard of nothing. -/
theorem attended_attach {start : Workbench} (h : Undisturbed start) (hvacant : start.seat = .vacant)
    (settings : Settings) :
    Attended start.heardCount (start.move (.attach .sweep settings)) := by
  have hinstall : start.move (.attach .sweep settings) =
      { start with seat := .running (.new settings .sweep) } := by
    simp only [Workbench.move, install, hvacant]
  have hundisturbed : Undisturbed (start.move (.attach .sweep settings)) := h.move trivial
  rw [hinstall] at hundisturbed ⊢
  refine ⟨hundisturbed, fun controller hseat => ?_⟩
  obtain rfl := Seat.running.inj hseat
  exact ⟨rfl, .unheard (le_refl _)⟩

theorem not_awaits_of_isQuiescent {controller : Controller}
    (h : controller.status.isQuiescent = true) : ¬controller.Awaits := by
  have hsessions : controller.sessions.length = 0 := of_decide_eq_true (Bool.and_eq_true_iff.mp h).1
  have halarms : Session.pendingAlarmsOf controller.sessions +
      (if controller.debounce.isPending then 1 else 0) = 0 :=
    of_decide_eq_true (Bool.and_eq_true_iff.mp h).2
  rintro (hbusy | hpending)
  · rw [Controller.isBusy, List.length_eq_zero_iff.mp hsessions] at hbusy
    cases hbusy
  · rw [hpending, if_pos rfl] at halarms
    omega

/-- Whenever a controller that sweeps has heard of some event, has no message left, waits for
nothing, and every call site has a name, the graph is tidy. -/
theorem tidy_of_isQuiescent {start bench : Workbench} {settings : Settings}
    (hstart : Reachable Move.IsUndisturbed start) (hvacant : start.seat = .vacant)
    (hrun : Leads Move.IsAttended (start.move (.attach .sweep settings)) bench)
    {controller : Controller} (hseat : bench.seat = .running controller)
    (hmailbox : controller.mailbox = []) (hquiescent : controller.status.isQuiescent = true)
    (hheard : start.heardCount < bench.heardCount)
    (hnamed : ∀ call ∈ bench.host.callSites, Name.isPlaceholder call.name = false) :
    Tidy bench.host.editor.blocks := by
  have hattended : Attended start.heardCount bench :=
    hrun.preserves (Attended start.heardCount) (fun _ _ h hmove => h.move hmove)
      (attended_attach hstart.undisturbed hvacant settings)
  cases (hattended.attends controller hseat).2 with
  | unheard hle => exact absurd hheard (not_lt.mpr hle)
  | awaits hawaits => exact absurd hawaits (not_awaits_of_isQuiescent hquiescent)
  | news message hmem _ =>
      rw [hmailbox] at hmem
      cases hmem
  | unnamed call hcall hname =>
      rw [← Host.callSites_eq] at hcall
      rw [hnamed call hcall] at hname
      cases hname
  | tidy htidy => exact htidy

theorem tidy_of_isQuiescent_after_variants :
    let bench := (((new false).move (.attach .sweep .default)).run
      [.user (.define "f" ["x"]), .user (.define "f2" []), .user (.call "f2"), .advance 5000]).2
    (0 < bench.heardCount ∧
      ∀ call ∈ bench.host.callSites, Name.isPlaceholder call.name = false) ∧
      Tidy bench.host.editor.blocks := by
  intro bench
  have hstart : Reachable Move.IsUndisturbed (new false) := ⟨false, .refl⟩
  have hrun : Leads Move.IsAttended ((new false).move (.attach .sweep .default)) bench :=
    leads_run (fun _ => Move.IsInner.isAttended) _ _ (by simp [Step.move?]; tauto)
  have hseat : bench.seat = .running { Controller.new .default .sweep with
      nextSession := 1
      lastGoodName := some "f2"
      debounce := ⟨6, false⟩
      cleanups := 2 } := by decide +kernel
  have hheard : (new false).heardCount < bench.heardCount := by decide +kernel
  have hnamed : ∀ call ∈ bench.host.callSites, Name.isPlaceholder call.name = false := by
    decide +kernel
  exact ⟨⟨hheard, hnamed⟩,
    tidy_of_isQuiescent hstart rfl hrun hseat rfl (by decide) hheard hnamed⟩

end Workbench
end CallBinding
