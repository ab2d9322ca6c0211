import CallBinding.Proofs.Controller.Transactions
import CallBinding.Proofs.Workbench.Names
import CallBinding.Proofs.Workbench.Snapshots

/-!
# Transactions bind call sites

In runs without scripted faults a transaction about a live call site leaves it
with the name of a live definition and with the arguments of the first one of
that name, provided that there is a definition to bind it to.  A name that is
good already is kept.
-/

namespace CallBinding

namespace Workbench

variable {bench : Workbench} {controller next : Controller} {message : Message}
variable {rest : List Message} {after : Host}

/-- What a turn has established is found at the workbench. -/
theorem exists_established (hseat : bench.seat = .running controller)
    (hmailbox : controller.mailbox = message :: rest)
    (hturn : { controller with mailbox := rest }.handle bench.clock bench.host message =
      .proceed next after) {former : CallSite} {name : String}
    (h : ∃ live ∈ Graph.callSites after.editor.blocks,
      live.name = name ∧ after.Established former live) :
    ∃ live ∈ bench.handleNext.host.callSites,
      live.name = name ∧ bench.handleNext.host.Established former live := by
  obtain ⟨live, hlive, hname, hestablished⟩ := h
  obtain ⟨hhost, -⟩ := handleNext_of_proceed hseat hmailbox hturn
  rw [hhost, Host.callSites_eq]
  exact ⟨live, hlive, hname, hestablished.congr rfl rfl⟩

theorem exists_established_opening (h : Reachable Move.IsFaultless bench)
    (hseat : bench.seat = .running controller) {call : BlockId} {prior : List BlockId}
    (hmailbox : controller.mailbox = .callSiteCreated call prior :: rest)
    (hcontains : bench.host.editor.contains call = true) (husable : bench.host.usable prior ≠ []) :
    ∃ former ∈ bench.host.callSites, former.id = call ∧
      ∃ live ∈ bench.handleNext.host.callSites, bench.handleNext.host.Established former live ∧
        (former.IsNamedIn (bench.host.usable prior) → live.name = former.name) := by
  have hsound := h.sound
  have hnews : .callSiteCreated call prior ∈ controller.mailbox := hmailbox ▸ List.mem_cons_self
  obtain ⟨former, hformer, rfl⟩ :=
    ((hsound.knows controller hseat).messages call prior hnews).exists_callSite hcontains
  have hbound := Controller.established_onCallSiteCreated hsound.faultless hsound.numbered hformer
    (h.snapshot hseat (Or.inl hnews)) { controller with mailbox := rest } bench.clock husable
  obtain ⟨live, hlive, hname, hestablished⟩ := exists_established hseat hmailbox rfl hbound
  refine ⟨former, by rwa [Host.callSites_eq], rfl, live, hlive, hestablished, fun hknown => ?_⟩
  rw [hname, Controller.nameFor_of_isNamedIn hknown]

theorem exists_established_recheck (h : Reachable Move.IsFaultless bench)
    (hseat : bench.seat = .running controller) {session : Session}
    (hsession : session ∈ controller.sessions)
    (hmailbox : controller.mailbox = .due (.recheck session.id) :: rest)
    (hcontains : bench.host.editor.contains session.callSite = true) :
    ∃ former ∈ bench.host.callSites, former.id = session.callSite ∧
      (former.IsNamedIn bench.host.definitions ∨ bench.host.usable session.prior ≠ [] →
        ∃ live ∈ bench.handleNext.host.callSites, bench.handleNext.host.Established former live ∧
          (former.IsNamedIn bench.host.definitions → live.name = former.name)) := by
  have hsound := h.sound
  obtain ⟨former, hformer, hid⟩ :=
    ((hsound.knows controller hseat).sessions session hsession).exists_callSite hcontains
  refine ⟨former, by rwa [Host.callSites_eq], hid, fun hchoices => ?_⟩
  have hopen : { controller with mailbox := rest }.session? session.id = some session :=
    (h.ordered.orderly controller hseat).session?_eq hsession
  obtain ⟨definition, hchoice, hkept⟩ := Host.exists_secondChoice? hchoices
  have hbound := Controller.established_onRecheck hsound.faultless hsound.numbered hformer
    (h.snapshot hseat (Or.inr ⟨session, hsession, hid.symm, rfl⟩)) hid.symm rfl hopen hchoice
  obtain ⟨live, hlive, hname, hestablished⟩ := exists_established hseat hmailbox rfl hbound
  exact ⟨live, hlive, hestablished, fun hknown => hname.trans (hkept hknown)⟩

/-- A transaction binds its live call site whenever there is a definition to bind it to: at the
first time a usable one among those that are older, and at the second time one that carries its
valid name, or else a usable one among those that are older. -/
theorem established_of_reachable (h : Reachable Move.IsFaultless bench)
    (hseat : bench.seat = .running controller) :
    (∀ call prior rest, controller.mailbox = .callSiteCreated call prior :: rest →
      bench.host.editor.contains call = true → bench.host.usable prior ≠ [] →
      ∃ former ∈ bench.host.callSites, former.id = call ∧
        ∃ live ∈ bench.handleNext.host.callSites, bench.handleNext.host.Established former live ∧
          (former.IsNamedIn (bench.host.usable prior) → live.name = former.name)) ∧
    (∀ session ∈ controller.sessions, ∀ rest,
      controller.mailbox = .due (.recheck session.id) :: rest →
      bench.host.editor.contains session.callSite = true →
      ∃ former ∈ bench.host.callSites, former.id = session.callSite ∧
        (former.IsNamedIn bench.host.definitions ∨ bench.host.usable session.prior ≠ [] →
          ∃ live ∈ bench.handleNext.host.callSites,
            bench.handleNext.host.Established former live ∧
              (former.IsNamedIn bench.host.definitions → live.name = former.name))) :=
  ⟨fun _ _ _ hmailbox hcontains husable =>
      exists_established_opening h hseat hmailbox hcontains husable,
    fun _ hsession _ hmailbox hcontains =>
      exists_established_recheck h hseat hsession hmailbox hcontains⟩

/-- A call site keeps the name of an older definition.  That is deleted before the second binding,
which finds the other older definition. -/
theorem established_of_reachable_deleted :
    let bench := ((new false).run [.user (.define "f" ["x"]), .user (.define "g" ["y"]),
      .attach .count .default, .user (.call "f")]).2
    let opener := { Controller.new .default .count with
      mailbox := [.callSiteCreated ⟨2⟩ [⟨0⟩, ⟨1⟩]] }
    let waiting :=
      ((bench.handleNext.move (.act (.remove ⟨0⟩))).move .handle).move (.wake 50)
    let session : Session := ⟨⟨0⟩, ⟨2⟩, [⟨0⟩, ⟨1⟩], .delayedRecheck, [], []⟩
    let waiter := { Controller.new .default .count with
      sessions := [session]
      nextSession := 1
      lastGoodName := some "f"
      agenda := [⟨3500, .window ⟨0⟩⟩]
      mailbox := [.due (.recheck ⟨0⟩)] }
    ((Reachable Move.IsFaultless bench ∧ bench.seat = .running opener ∧
        bench.host.editor.contains ⟨2⟩ = true ∧ bench.host.usable [⟨0⟩, ⟨1⟩] ≠ []) ∧
      ∃ former ∈ bench.host.callSites, former.id = ⟨2⟩ ∧
        ∃ live ∈ bench.handleNext.host.callSites,
          bench.handleNext.host.Established former live ∧ live.name = former.name) ∧
    (Reachable Move.IsFaultless waiting ∧ waiting.seat = .running waiter ∧
        waiting.host.editor.contains ⟨2⟩ = true ∧ waiting.host.usable session.prior ≠ []) ∧
      ∃ former ∈ waiting.host.callSites, former.id = ⟨2⟩ ∧
        ∃ live ∈ waiting.handleNext.host.callSites,
          waiting.handleNext.host.Established former live := by
  intro bench opener waiting session waiter
  have hreachable : Reachable Move.IsFaultless bench := reachable_run _ _ (by decide)
  have hseat : bench.seat = .running opener := by decide +kernel
  have hcontains : bench.host.editor.contains ⟨2⟩ = true := by decide +kernel
  have husable : bench.host.usable [⟨0⟩, ⟨1⟩] ≠ [] := by decide +kernel
  have hsites : bench.host.callSites = [⟨⟨2⟩, "f", .empty⟩] := by decide +kernel
  have hcarries : ∃ definition ∈ bench.host.usable [⟨0⟩, ⟨1⟩], definition.name = "f" := by
    decide +kernel
  have hlater : Reachable Move.IsFaultless waiting := by
    obtain ⟨autoDefine, hleads⟩ := hreachable
    have hbound := hleads.move (show Move.IsFaultless .handle from trivial)
    have hdeleted := hbound.move (show Move.IsFaultless (.act (.remove ⟨0⟩)) from trivial)
    have hheard := hdeleted.move (show Move.IsFaultless .handle from trivial)
    exact ⟨autoDefine, hheard.move (show Move.IsFaultless (.wake 50) from trivial)⟩
  have hwaiter : waiting.seat = .running waiter := by decide +kernel
  have hlive : waiting.host.editor.contains ⟨2⟩ = true := by decide +kernel
  have hremaining : waiting.host.usable session.prior ≠ [] := by decide +kernel
  obtain ⟨former, hformer, hid, live, hmem, hestablished, hkept⟩ :=
    (established_of_reachable hreachable hseat).1 ⟨2⟩ [⟨0⟩, ⟨1⟩] [] rfl hcontains husable
  obtain ⟨waited, hwaited, hwaitedId, hbinds⟩ :=
    (established_of_reachable hlater hwaiter).2 session List.mem_cons_self [] rfl hlive
  obtain ⟨rebound, hrebound, hreboundSite, -⟩ := hbinds (Or.inr hremaining)
  have hnamed : former.name = "f" := by
    rw [hsites] at hformer
    rw [List.mem_singleton.mp hformer]
  have hknown : former.IsNamedIn (bench.host.usable [⟨0⟩, ⟨1⟩]) := by
    rw [CallSite.IsNamedIn, hnamed]
    exact ⟨by decide +kernel, hcarries⟩
  exact ⟨⟨⟨hreachable, hseat, hcontains, husable⟩, former, hformer, hid, live, hmem, hestablished,
    hkept hknown⟩, ⟨hlater, hwaiter, hlive, hremaining⟩, waited, hwaited, hwaitedId, rebound,
    hrebound, hreboundSite⟩

end Workbench
end CallBinding
