import CallBinding.Proofs.Workbench.Reflexes
import CallBinding.Proofs.Workbench.Silence

/-!
# Suppressions of a run

A controller suppresses events while it binds a new call site, and closes this
suppression whichever of its commands the host refuses.  So the suppressions
that are open are those of the users, and the binding of a new call site is
heard by nobody, not even by the controller itself.
-/

namespace CallBinding
namespace Workbench

variable {bench : Workbench} {controller : Controller} {rest : List Message}

/-- The news of a call site is handled unheard: but for the host and the controller nothing
changes, and no message is posted. -/
theorem Ordered.exists_handleNext_of_news (h : Ordered bench)
    (hseat : bench.seat = .running controller) {call : BlockId} {prior : List BlockId}
    (hmailbox : controller.mailbox = .callSiteCreated call prior :: rest) :
    ∃ (host : Host) (next : Controller), next.mailbox = rest ∧
      bench.move .handle = { bench with host := host, seat := .running next } := by
  have hnews : .callSiteCreated call prior ∈ controller.mailbox := hmailbox ▸ List.mem_cons_self
  have honly := (h.consistent.knows controller hseat).messages call prior hnews
  obtain ⟨commands, next, hrest, hturn⟩ :=
    Controller.exists_onCallSiteCreated_eq honly { controller with mailbox := rest } bench.clock
      prior
  exact ⟨_, next, hrest, handleNext_of_silent hseat hmailbox hturn h.outbox⟩

/-- Between any two moves of a run as many suppressions are open as the steps have opened and not
closed.  The controller leaves them as it finds them when it handles a message, and when this is
the news of a call site, neither the recording listener nor any other hears of an event. -/
theorem suppression_of_run (autoDefine : Bool) (steps : List Step)
    (hbench : Leads Move.IsInner ((new autoDefine).run steps).2 bench) :
    let next := bench.move .handle
    bench.host.editor.suppression = steps.foldl Step.resuppress 0 ∧
      next.host.editor.suppression = bench.host.editor.suppression ∧
      ∀ controller call prior rest, bench.seat = .running controller →
        controller.mailbox = .callSiteCreated call prior :: rest →
        next.trace = bench.trace ∧ next.taps = bench.taps ∧
          ∃ later, next.seat = .running later ∧ later.mailbox = rest := by
  intro next
  have hrun : Ordered ((new autoDefine).run steps).2 := (ordered_new autoDefine).run steps
  have hordered : Ordered bench := hrun.leads hbench
  have hdepth : bench.host.editor.suppression = steps.foldl Step.resuppress 0 :=
    (suppression_of_inner hrun hbench).trans (suppression_run (ordered_new autoDefine) steps)
  refine ⟨hdepth, suppression_move hordered .handle, ?_⟩
  intro controller call prior rest hseat hmailbox
  obtain ⟨host, later, hrest, hnext⟩ := hordered.exists_handleNext_of_news hseat hmailbox
  have hunheard : next = { bench with host := host, seat := .running later } := hnext
  rw [hunheard]
  exact ⟨rfl, rfl, later, rfl, hrest⟩

/-- A suppression is closed once too often, and a call site is renamed and bound unheard. -/
theorem suppression_of_run_renamed :
    let steps : List Step := [.host .suppress, .host .resume, .host .resume,
      .attach .sweep .default, .user (.define "f" ["x"]), .user (.call "unnamed")]
    let bench := ((new false).run steps).2.move .handle
    let next := bench.move .handle
    next.host.editor.commands =
        [.setField ⟨1⟩ nameField "f", .setParameters ⟨1⟩ ⟨["x"], [⟨0⟩]⟩] ∧
      next.host.editor.suppression = 0 ∧ next.trace = bench.trace ∧ next.taps = bench.taps := by
  intro steps bench next
  let opener : Controller :=
    { Controller.new .default .sweep with
      debounce := ⟨1, true⟩
      agenda := [⟨300, .debounce 1⟩]
      mailbox := [.callSiteCreated ⟨1⟩ [⟨0⟩]] }
  have hbench : Leads Move.IsInner ((new false).run steps).2 bench := .single _ trivial
  have hseat : bench.seat = .running opener := by decide +kernel
  obtain ⟨hdepth, hkept, hsilent⟩ := suppression_of_run false steps hbench
  obtain ⟨htrace, htaps, -⟩ := hsilent opener ⟨1⟩ [⟨0⟩] [] hseat rfl
  have hcommands : next.host.editor.commands =
      [.setField ⟨1⟩ nameField "f", .setParameters ⟨1⟩ ⟨["x"], [⟨0⟩]⟩] := by decide +kernel
  exact ⟨hcommands, hkept.trans hdepth, htrace, htaps⟩

end Workbench
end CallBinding
