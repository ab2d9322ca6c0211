import CallBinding.Proofs.Controller.Orderly

/-!
# The wait for a quiet graph

Some messages disturb the quiet: those that tell of a change of the graph, and
the end of a session.  Only they start the wait anew, and only the end of the
wait that is on starts a cleanup.
-/

namespace CallBinding

theorem Agenda.nextDeadline?_eq_some_iff {agenda : Agenda} {time : Nat} :
    agenda.nextDeadline? = some time ↔
      (∃ timer ∈ agenda, timer.deadline = time) ∧ ∀ timer ∈ agenda, time ≤ timer.deadline := by
  simp [nextDeadline?, List.min?_eq_some_iff]

namespace Controller

/-- A message that tells of a change, or closes a session. -/
def StirredBy (controller : Controller) : Message → Prop
  | .event _ | .callSiteCreated _ _ => True
  | .due (.window id) => controller.heeds (.window id) = true
  | .due _ | .detach => False

variable {controller next : Controller} {now : Nat} {host : Host} {message : Message}

theorem mem_agenda_rearmDebounce {timer : Timer}
    (h : timer ∈ (controller.rearmDebounce now).agenda) :
    timer ∈ controller.agenda ∨
      timer = ⟨now + min controller.settings.debounce.toNat Agenda.longestWait,
        .debounce (controller.debounce.generation + 1)⟩ := by
  rcases List.mem_append.mp h with hold | hnew
  · exact Or.inl (List.mem_filter.mp hold).1
  · exact Or.inr (List.mem_singleton.mp hnew)

/-- The wait starts anew, unless a session is open. -/
theorem pending_rearmWhenIdle (hexclusive : controller.debounce.isPending = true →
      controller.sessions = [])
    (hpending : (controller.rearmWhenIdle now).debounce.isPending = true) :
    controller.rearmWhenIdle now = controller.rearmDebounce now := by
  cases hbusy : controller.isBusy with
  | false => exact rearmWhenIdle_of_not_isBusy hbusy now
  | true =>
      rw [rearmWhenIdle_of_isBusy hbusy] at hpending
      rw [isBusy_eq_false_iff.mpr (hexclusive hpending)] at hbusy
      cases hbusy

namespace Becomes

/-- When the quiet is not disturbed, the wait that is on has been on. -/
theorem debounce_of_not_stirredBy (h : Becomes controller now host message next)
    (hcalm : ¬controller.StirredBy message) (hpending : next.debounce.isPending = true) :
    next.debounce = controller.debounce ∧ next.agenda = controller.agenda := by
  cases h with
  | heard _ | spawned _ _ _ | gone _ _ | opened _ _ _ => exact absurd trivial hcalm
  | closed hheeds => exact absurd hheeds hcalm
  | stale _ | checked _ _ _ | settled _ _ => exact ⟨rfl, rfl⟩
  | deferred _ | cleaned _ => cases hpending

/-- When the quiet is disturbed, the wait that is on has just been started. -/
theorem debounce_of_stirredBy (h : Becomes controller now host message next)
    (hexclusive : controller.debounce.isPending = true → controller.sessions = [])
    (hstirred : controller.StirredBy message) (hpending : next.debounce.isPending = true) :
    next.debounce = ⟨controller.debounce.generation + 1, true⟩ ∧
      ∀ timer ∈ next.agenda, timer ∈ controller.agenda ∨
        timer = ⟨now + min controller.settings.debounce.toNat Agenda.longestWait,
          .debounce (controller.debounce.generation + 1)⟩ := by
  cases h with
  | heard _ | gone _ _ =>
      rw [pending_rearmWhenIdle hexclusive hpending]
      exact ⟨rfl, fun timer => mem_agenda_rearmDebounce⟩
  | spawned _ hlast _ =>
      have hopen := List.mem_of_getLast? hlast
      rw [hexclusive hpending] at hopen
      cases hopen
  | opened _ _ _ => cases hpending
  | @stale alarm hstale =>
      cases alarm with
      | window id => exact absurd hstirred (by simp [StirredBy, hstale])
      | spawnCheck _ _ | recheck _ | debounce _ => exact hstirred.elim
  | @closed id hheeds =>
      have hclosed : (controller.closeSession id).debounce.isPending = true →
          (controller.closeSession id).sessions = [] := by
        intro hold
        simp [closeSession, hexclusive hold]
      rw [pending_rearmWhenIdle hclosed hpending]
      refine ⟨rfl, fun timer htimer => ?_⟩
      refine (mem_agenda_rearmDebounce htimer).imp_left fun hkept => ?_
      exact (List.mem_filter.mp hkept).1
  | checked _ _ _ | settled _ _ | deferred _ | cleaned _ => exact hstirred.elim

end Becomes

/-- A cleanup is started by the end of the wait that is on, and only when no session is open and
every call site has a name. -/
theorem exists_of_cleanup (h : (controller.handle now host message).cleanup ≠ none) :
    ∃ generation, message = .due (.debounce generation) ∧
      controller.heeds (.debounce generation) = true ∧ controller.MayCleanUp host := by
  cases message with
  | event _ | callSiteCreated _ _ | detach => exact absurd rfl h
  | due alarm =>
      cases alarm with
      | spawnCheck _ _ | recheck _ | window _ => exact absurd rfl h
      | debounce generation =>
          have hends := controller.endsWait_onDebounce host generation
          simp only [handle, onAlarm] at h
          generalize controller.onDebounce host generation = turn at hends h
          cases hends with
          | stale _ | deferred _ _ => exact absurd rfl h
          | swept hheeds hmay _ | counted hheeds hmay _ | crashed hheeds hmay _ =>
              exact ⟨generation, rfl, hheeds, hmay⟩

end Controller
end CallBinding
