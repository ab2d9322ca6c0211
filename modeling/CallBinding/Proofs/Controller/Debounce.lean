import CallBinding.Controller.Handle

/-!
# The end of a wait

An alarm for a quiet graph ends the wait that it was armed for, unless that one
has been given up or started anew.  `EndsWait` lists what the turn on such an
alarm can be, so that no other proof opens the handler or the cleanups.
-/

namespace CallBinding
namespace Controller

/-- The wait for a quiet graph has ended. -/
def takeDebounce (controller : Controller) : Controller :=
  { controller with debounce := { controller.debounce with isPending := false } }

/-- One more cleanup has been started. -/
def countCleanup (controller : Controller) : Controller :=
  { controller with cleanups := controller.cleanups + 1 }

/-- An alarm is heeded as long as its session is open, or the wait that it ends is on. -/
def heeds (controller : Controller) : Alarm → Bool
  | .spawnCheck session _ | .recheck session | .window session =>
      (controller.session? session).isSome
  | .debounce generation =>
      generation = controller.debounce.generation && controller.debounce.isPending

/-- No session is open and every call site has a name. -/
def MayCleanUp (controller : Controller) (host : Host) : Prop :=
  controller.isBusy = false ∧ ∀ call ∈ host.callSites, Name.isPlaceholder call.name = false

/-- The turns on the alarm for a quiet graph. -/
inductive EndsWait (controller : Controller) (host : Host) (generation : Nat) : Turn → Prop
  | stale : controller.heeds (.debounce generation) = false →
      EndsWait controller host generation (.proceed controller host)
  | deferred : controller.heeds (.debounce generation) = true → ¬controller.MayCleanUp host →
      EndsWait controller host generation (.proceed controller.takeDebounce host)
  | swept : controller.heeds (.debounce generation) = true → controller.MayCleanUp host →
      controller.cleanup = .sweep → EndsWait controller host generation
        ⟨host.sweep.2, .running controller.takeDebounce.countCleanup, some .sweep⟩
  | counted : controller.heeds (.debounce generation) = true → controller.MayCleanUp host →
      controller.cleanup = .count → EndsWait controller host generation
        ⟨host, .running controller.takeDebounce.countCleanup, some .count⟩
  | crashed : controller.heeds (.debounce generation) = true → controller.MayCleanUp host →
      controller.cleanup = .panic → EndsWait controller host generation
        ⟨host, .crashed, some .panic⟩

theorem endsWait_onDebounce (controller : Controller) (host : Host) (generation : Nat) :
    EndsWait controller host generation (controller.onDebounce host generation) := by
  unfold onDebounce
  split
  next hstale =>
    refine .stale ?_
    simp only [Bool.or_eq_true, decide_eq_true_eq, Bool.not_eq_eq_eq_not, Bool.not_true] at hstale
    rcases hstale with hold | hidle
    · simp [heeds, hold]
    · simp [heeds, hidle]
  next hcurrent =>
    have hheeds : controller.heeds (.debounce generation) = true := by simpa [heeds] using hcurrent
    dsimp only
    split
    next hwaits =>
      refine .deferred hheeds fun hmay => ?_
      rcases Bool.or_eq_true_iff.mp hwaits with hbusy | hunnamed
      · exact Bool.false_ne_true (hmay.1.symm.trans hbusy)
      · obtain ⟨call, hcall, hname⟩ := List.any_eq_true.mp hunnamed
        exact Bool.false_ne_true ((hmay.2 call hcall).symm.trans hname)
    next hquiet =>
      simp only [Bool.or_eq_true, not_or, Bool.not_eq_true, List.any_eq_false] at hquiet
      have hmay : controller.MayCleanUp host := hquiet
      unfold runCleanup
      dsimp only
      split
      next hsweep => exact .swept hheeds hmay hsweep
      next hcount => exact .counted hheeds hmay hcount
      next hpanic => exact .crashed hheeds hmay hpanic

end Controller
end CallBinding
