import CallBinding.Proofs.Controller.Scaffolds
import CallBinding.Proofs.Workbench.Ordered

/-!
# No scaffold outlives its session

In runs without scripted faults the end of a session leaves none of the
definitions that were spawned in it without a caller: whichever is not gone has
a valid name by which a live call site calls it.  The other sessions stay open
as they are.
-/

namespace CallBinding

namespace Controller

variable {controller : Controller} {session : Session} {now : Nat} {host : Host}

/-- The end of an open session. -/
theorem handle_window (hopen : controller.session? session.id = some session) :
    controller.handle now host (.due (.window session.id)) =
      .proceed ((controller.closeSession session.id).rearmWhenIdle now)
        (host.settleSpawned session) := by
  simp only [handle, onAlarm, onWindow, hopen]

/-- A session that is closed is taken out from among the others. -/
theorem Orderly.sessions_closeSession (h : controller.Orderly)
    (hsession : session ∈ controller.sessions) :
    ∃ older younger, controller.sessions = older ++ session :: younger ∧
      (controller.closeSession session.id).sessions = older ++ younger ∧
      ∀ other ∈ older ++ younger, other.id ≠ session.id := by
  obtain ⟨older, younger, hsplit⟩ := List.append_of_mem hsession
  have hids := h.ids
  rw [hsplit, List.map_append, List.map_cons, List.nodup_middle] at hids
  have hothers : ∀ other ∈ older ++ younger, other.id ≠ session.id := by
    intro other hother hid
    rw [← List.map_append] at hids
    exact (List.nodup_cons.mp hids).1 (hid ▸ List.mem_map_of_mem hother)
  have hkept : (older ++ younger).filter (fun other => other.id ≠ session.id) =
      older ++ younger :=
    List.filter_eq_self.mpr fun other hother => decide_eq_true (hothers other hother)
  refine ⟨older, younger, hsplit, ?_, hothers⟩
  rw [List.filter_append] at hkept
  rw [Controller.closeSession, hsplit, List.filter_append, List.filter_cons_of_neg (by simp)]
  exact hkept

end Controller

namespace Workbench

variable {bench : Workbench} {controller : Controller} {session : Session} {rest : List Message}

/-- When the end of a session has been handled, every definition that was recorded as spawned in it,
or whose check was still due, is gone or has a valid name that a call site calls.  The session is
closed, and the others are as before, in the same order. -/
theorem unscaffolded_of_reachable (h : Reachable Move.IsFaultless bench)
    (hseat : bench.seat = .running controller) (hsession : session ∈ controller.sessions)
    (hmailbox : controller.mailbox = .due (.window session.id) :: rest) :
    (∀ id ∈ session.spawned ++ session.spawnChecks,
      bench.handleNext.host.definition? id = none ∨
        ∃ definition, bench.handleNext.host.definition? id = some definition ∧
          Name.isValid definition.name = true ∧
          ∃ call ∈ bench.handleNext.host.callSites, call.name = definition.name) ∧
    ∃ next older younger, bench.handleNext.seat = .running next ∧
      controller.sessions = older ++ session :: younger ∧ next.sessions = older ++ younger ∧
      ∀ other ∈ older ++ younger, other.id ≠ session.id := by
  have hsound := h.sound
  have horderly := h.ordered.orderly controller hseat
  have hopen : { controller with mailbox := rest }.session? session.id = some session :=
    horderly.session?_eq hsession
  obtain ⟨hhost, hnext⟩ :=
    handleNext_of_proceed hseat hmailbox (Controller.handle_window hopen)
  constructor
  · intro id hid
    have hchecks : ∀ id ∈ session.spawnChecks, id ∉ session.prior := fun id hid =>
      horderly.spares session hsession id (List.mem_append_left _ hid)
    have hcalled : bench.handleNext.host.IsCalled id := by
      rw [hhost]
      exact Host.isCalled_settleSpawned hsound.faultless hsound.numbered.distinct hchecks id hid
    cases hfound : bench.handleNext.host.definition? id with
    | none => exact Or.inl rfl
    | some definition =>
        obtain ⟨hlive, hdefinitionId⟩ := Host.mem_of_definition? hfound
        rw [Host.callSites_eq]
        exact Or.inr ⟨definition, rfl, hcalled definition hlive hdefinitionId⟩
  · obtain ⟨older, younger, hsplit, hclosed, hothers⟩ := horderly.sessions_closeSession hsession
    refine ⟨_, older, younger, hnext, hsplit, ?_, hothers⟩
    exact (Controller.sessions_rearmWhenIdle _ bench.clock).trans hclosed

/-- A definition that survived its check, and one whose check is due at the end of the session.
Somebody calls the first one, and the other one goes. -/
theorem unscaffolded_of_reachable_two_spawned :
    let settings := { Settings.default with spawnCheckDelay := 3400 }
    let bench := ((new false).run
      [.attach .count settings, .user (.call "f"), .advance 50, .user (.define "f" ["x"]),
        .advance 150, .user (.define "g" []), .advance 3290]).2.move (.wake 3500)
    let session : Session := ⟨⟨0⟩, ⟨0⟩, [], .settling, [⟨2⟩], [⟨1⟩]⟩
    let controller := { Controller.new settings .count with
      sessions := [session]
      nextSession := 1
      lastGoodName := some "f"
      agenda := [⟨3600, .spawnCheck ⟨0⟩ ⟨2⟩⟩]
      mailbox := [.due (.window ⟨0⟩)] }
    (Reachable Move.IsFaultless bench ∧ bench.seat = .running controller ∧
        session ∈ controller.sessions) ∧
      (∀ id ∈ session.spawned ++ session.spawnChecks,
        bench.handleNext.host.definition? id = none ∨
          ∃ definition, bench.handleNext.host.definition? id = some definition ∧
            Name.isValid definition.name = true ∧
            ∃ call ∈ bench.handleNext.host.callSites, call.name = definition.name) ∧
      ∃ next older younger, bench.handleNext.seat = .running next ∧
        controller.sessions = older ++ session :: younger ∧ next.sessions = older ++ younger ∧
        ∀ other ∈ older ++ younger, other.id ≠ session.id := by
  intro settings bench session controller
  have hreachable : Reachable Move.IsFaultless bench := by
    obtain ⟨autoDefine, hleads⟩ := reachable_run false [.attach .count settings,
      .user (.call "f"), .advance 50, .user (.define "f" ["x"]), .advance 150,
      .user (.define "g" []), .advance 3290] (by decide)
    exact ⟨autoDefine, hleads.move (show Move.IsFaultless (.wake 3500) from trivial)⟩
  have hseat : bench.seat = .running controller := by decide +kernel
  have hsession : session ∈ controller.sessions := List.mem_cons_self
  exact ⟨⟨hreachable, hseat, hsession⟩,
    unscaffolded_of_reachable hreachable hseat hsession rfl⟩

end Workbench
end CallBinding
