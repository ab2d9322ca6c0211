import CallBinding.Proofs.Controller.Debounce
import CallBinding.Proofs.Family.Newcomers
import CallBinding.Proofs.Reconcile.Sweep

/-!
# Handlers keep call sites bound

A handler gives a call site another name only if the call site is not bound, or
if the name is a valid one that a definition carries, and it disposes of a
definition only if no call site can mean it or another one carries its name.
So none of its commands unbinds a call site.  All of this supposes that the
host has no faults and that the id of a session's call site is not the id of
any other block.
-/

namespace CallBinding
namespace Host

open CallBinding.Graph (Renames Binds Keeps Carries IsBound Distinct)

variable {host named : Host} {prior : List BlockId}

/-! ## Names -/

theorem callSite_of_nameOf? (hfaultless : host.Faultless) {call : BlockId} {current : String}
    (honly : host.editor.OnlyCallSite call) (h : host.nameOf? call = some current) :
    ∃ site ∈ Graph.callSites host.editor.blocks, site.id = call ∧ site.name = current := by
  unfold nameOf? field at h
  rw [hfaultless, hfaultless, if_neg Bool.false_ne_true, if_neg Bool.false_ne_true] at h
  cases hblock : host.editor.block? call with
  | none =>
      rw [hblock] at h
      cases h
  | some block =>
      rw [hblock] at h
      have hmem := List.mem_of_find?_eq_some hblock
      have hid : block.id = call := by simpa using List.find?_some hblock
      have hrole := honly.2 block hmem hid
      exact ⟨_, Graph.mem_callSites.mpr ⟨block, hmem, hrole, rfl⟩, hid, Option.some.inj h⟩

/-- Giving a name unbinds no call site, if the name is a valid one that a definition carries or
the call site is not bound. -/
theorem giveName_keeps (hdistinct : Distinct host.editor.blocks) {call : CallSite}
    (hcall : call ∈ Graph.callSites host.editor.blocks) {current name : String}
    (hname : (Name.isValid name = true ∧ Carries host.editor.blocks name) ∨
      ¬IsBound host.editor.blocks call.id)
    (h : host.giveName call.id current name = .ok named) : Issues Keeps host named := by
  unfold giveName at h
  split at h
  · obtain rfl := Except.ok.inj h
    exact .refl host
  · obtain rfl := setField_ok h
    refine .single ?_
    rcases hname with ⟨hvalid, hcarries⟩ | hfree
    · exact Renames.keeps hdistinct hvalid hcarries (.intro hcall)
    · exact Graph.keeps_of_not_isBound hdistinct hcall hfree

theorem mem_usable {definition : Definition} (h : definition ∈ host.usable prior) :
    definition ∈ Graph.definitions host.editor.blocks ∧ Name.isValid definition.name = true := by
  unfold usable at h
  rw [definitions_eq] at h
  obtain ⟨hmem, hspec⟩ := List.mem_filter.mp h
  exact ⟨hmem, (Bool.and_eq_true_iff.mp hspec).2⟩

theorem mem_prior_of_mem_usable {definition : Definition}
    (h : definition ∈ host.usable prior) : definition.id ∈ prior := by
  have hspec := (List.mem_filter.mp h).2
  simpa using (Bool.and_eq_true_iff.mp hspec).1

/-- At its second binding a call site keeps its name or takes a valid one of a definition. -/
theorem secondChoice?_spec {current : String} {definition : Definition}
    (h : host.secondChoice? prior current = some definition) :
    definition ∈ Graph.definitions host.editor.blocks ∧ Name.isValid definition.name = true := by
  rcases Option.or_eq_some_iff.mp h with hnamed | ⟨-, hfirst⟩
  · split at hnamed
    next hvalid =>
      obtain ⟨hmem, rfl⟩ := mem_of_definitionNamed? hnamed
      exact ⟨hmem, hvalid⟩
    next => cases hnamed
  · exact mem_usable (List.mem_of_head? hfirst)

/-! ## Spawned definitions -/

theorem checkSpawned_keeps (hfaultless : host.Faultless) (hdistinct : Distinct host.editor.blocks)
    (definition : BlockId) (prior : List BlockId) :
    Issues Keeps host (host.checkSpawned definition prior).2 := by
  unfold checkSpawned
  split
  · exact .refl host
  next found _ =>
    exact (carriesOut_apply hfaultless hdistinct
      (feasible_planSpawned (nodup_members hdistinct) found.name prior)).issues

/-- A scaffold is not the only definition of the name of any bound call site. -/
theorem disposeIfScaffold_keeps (hfaultless : host.Faultless)
    (hdistinct : Distinct host.editor.blocks) (definition : BlockId) :
    Issues Keeps host (host.disposeIfScaffold definition) := by
  unfold disposeIfScaffold
  split
  · exact .refl host
  next found hfound =>
    obtain ⟨hmem, rfl⟩ := mem_of_definition? hfound
    split
    · exact .refl host
    next hscaffold =>
      rw [dispose_of_mem hfaultless.disposes hmem]
      refine .single (Graph.keeps_dispose hdistinct hmem fun call hcall hvalid hname => ?_)
      have hcaller : call ∈ host.callersOf found.name := by
        rw [callersOf_eq]
        exact List.mem_filter.mpr ⟨hcall, by simpa using hname⟩
      have hnonempty : (host.callersOf found.name).isEmpty = false :=
        List.isEmpty_eq_false_iff_exists_mem.mpr ⟨call, hcaller⟩
      rw [hname] at hvalid
      simp [hvalid, hnonempty] at hscaffold

theorem settleUnchecked_keeps (hfaultless : host.Faultless)
    (hdistinct : Distinct host.editor.blocks) (prior : List BlockId) (definition : BlockId) :
    Issues Keeps host (settleUnchecked prior host definition) := by
  have hchecked := checkSpawned_keeps hfaultless hdistinct definition prior
  simp only [settleUnchecked]
  split
  · exact hchecked.trans (disposeIfScaffold_keeps (hchecked.faultless hfaultless)
      (hchecked.distinct hdistinct) definition)
  · exact hchecked

/-- What each of several steps keeps, all of them keep in turn. -/
theorem foldl_keeps {step : Host → BlockId → Host}
    (hstep : ∀ host id, host.Faultless → Distinct host.editor.blocks →
      Issues Keeps host (step host id))
    (hfaultless : host.Faultless) (hdistinct : Distinct host.editor.blocks) (ids : List BlockId) :
    Issues Keeps host (ids.foldl step host) := by
  induction ids generalizing host with
  | nil => exact .refl host
  | cons id rest ih =>
      have hfirst := hstep host id hfaultless hdistinct
      exact hfirst.trans (ih (hfirst.faultless hfaultless) (hfirst.distinct hdistinct))

theorem settleSpawned_keeps (hfaultless : host.Faultless)
    (hdistinct : Distinct host.editor.blocks) (session : Session) :
    Issues Keeps host (host.settleSpawned session) := by
  have hchecked : Issues Keeps host
      (session.spawnChecks.foldl (settleUnchecked session.prior) host) :=
    foldl_keeps (fun _ id hfaultless hdistinct =>
      settleUnchecked_keeps hfaultless hdistinct session.prior id) hfaultless hdistinct _
  exact hchecked.trans (foldl_keeps (fun _ id hfaultless hdistinct =>
    disposeIfScaffold_keeps hfaultless hdistinct id) (hchecked.faultless hfaultless)
    (hchecked.distinct hdistinct) _)

end Host

namespace Controller

open Host (Issues Replays)
open CallBinding.Graph (Binds Keeps Carries IsBound Distinct)

variable {controller : Controller} {host : Host}

/-! ## Binding -/

/-- A new call site keeps its name, or takes that of a usable definition, or has a placeholder
and finds no usable definition. -/
theorem nameFor_cases (controller : Controller) (usable : List Definition) (current : String) :
    controller.nameFor usable current = current ∨
      (∃ definition ∈ usable, definition.name = controller.nameFor usable current) ∨
        Name.isPlaceholder current = true := by
  unfold nameFor
  dsimp only
  split
  next hrenamed =>
    cases usable with
    | nil => exact Or.inr (Or.inr (by simpa using hrenamed))
    | cons first rest => exact Or.inr (Or.inl ⟨first, List.mem_cons_self, by simp⟩)
  next => exact Or.inl rfl

theorem nameCallSite_keeps (hfaultless : host.Faultless) (hdistinct : Distinct host.editor.blocks)
    {call : BlockId} (honly : host.editor.OnlyCallSite call) (controller : Controller)
    (prior : List BlockId) : Issues Keeps host (controller.nameCallSite host call prior).2.2 := by
  unfold nameCallSite
  split
  · exact .refl host
  next current hcurrent =>
    obtain ⟨site, hsite, rfl, rfl⟩ := Host.callSite_of_nameOf? hfaultless honly hcurrent
    dsimp only
    split
    · exact .refl host
    next named hnamed =>
      rcases controller.nameFor_cases (host.usable prior) site.name with hsame | hother | hfree
      · rw [hsame, Host.giveName, if_pos rfl] at hnamed
        obtain rfl := Except.ok.inj hnamed
        exact .refl host
      · obtain ⟨definition, hmem, hname⟩ := hother
        obtain ⟨hlive, hvalid⟩ := Host.mem_usable hmem
        exact Host.giveName_keeps hdistinct hsite
          (Or.inl ⟨hname ▸ hvalid, definition, hlive, hname⟩) hnamed
      · refine Host.giveName_keeps hdistinct hsite (Or.inr fun hbound => ?_) hnamed
        have hvalid := ((Graph.isBound_iff hdistinct hsite).mp hbound).1
        simp [Name.isValid, hfree] at hvalid

theorem bindCallSite_keeps (hfaultless : host.Faultless) (hdistinct : Distinct host.editor.blocks)
    {call : BlockId} (honly : host.editor.OnlyCallSite call) (controller : Controller)
    (prior : List BlockId) : Replays Keeps host (controller.bindCallSite host call prior).2 := by
  have hsuppressed : host.suppress.Faultless := hfaultless
  have hnamed := nameCallSite_keeps hsuppressed hdistinct honly controller prior
  refine Replays.suppressed (hnamed.trans ?_)
  split
  · exact .refl _
  next definition _ =>
    exact (Host.sync_issues _ call definition).keeps_of_binds (hnamed.distinct hdistinct)

theorem onCallSiteCreated_keeps (hfaultless : host.Faultless)
    (hdistinct : Distinct host.editor.blocks) {call : BlockId}
    (honly : host.editor.OnlyCallSite call) (controller : Controller) (now : Nat)
    (prior : List BlockId) :
    Replays Keeps host (controller.onCallSiteCreated now host call prior).2 := by
  unfold onCallSiteCreated
  split
  · exact .refl host
  · exact bindCallSite_keeps hfaultless hdistinct honly controller prior

theorem onRecheck_keeps (hfaultless : host.Faultless) (hdistinct : Distinct host.editor.blocks)
    (honly : ∀ session ∈ controller.sessions, host.editor.OnlyCallSite session.callSite)
    (id : SessionId) : Issues Keeps host (controller.onRecheck host id).2 := by
  unfold onRecheck
  split
  · exact .refl host
  next session hsession =>
    dsimp only
    split
    · exact .refl host
    next current hcurrent =>
      split
      · exact .refl host
      next definition hchoice =>
        obtain ⟨site, hsite, hid, rfl⟩ := Host.callSite_of_nameOf? hfaultless
          (honly session (List.mem_of_find?_eq_some hsession)) hcurrent
        obtain ⟨hlive, hvalid⟩ := Host.secondChoice?_spec hchoice
        unfold rebind
        split
        · exact .refl host
        next named hnamed =>
          rw [← hid] at hnamed ⊢
          have hkeeps := Host.giveName_keeps hdistinct hsite
            (Or.inl ⟨hvalid, definition, hlive, rfl⟩) hnamed
          exact hkeeps.trans ((named.sync_issues site.id definition.id).keeps_of_binds
            (hkeeps.distinct hdistinct))

/-! ## Messages -/

theorem onAlarm_keeps (hfaultless : host.Faultless) (hdistinct : Distinct host.editor.blocks)
    (honly : ∀ session ∈ controller.sessions, host.editor.OnlyCallSite session.callSite)
    (now : Nat) (alarm : Alarm) :
    Issues Keeps host (controller.onAlarm now host alarm).host := by
  cases alarm with
  | spawnCheck session definition =>
      simp only [onAlarm, Turn.proceed, onSpawnCheck]
      split
      · exact .refl host
      · exact Host.checkSpawned_keeps hfaultless hdistinct definition _
  | recheck session => exact onRecheck_keeps hfaultless hdistinct honly session
  | window session =>
      simp only [onAlarm, Turn.proceed, onWindow]
      split
      · exact .refl host
      · exact Host.settleSpawned_keeps hfaultless hdistinct _
  | debounce generation =>
      have hends := controller.endsWait_onDebounce host generation
      simp only [onAlarm]
      generalize controller.onDebounce host generation = turn at hends ⊢
      cases hends with
      | stale _ | deferred _ _ | counted _ _ _ | crashed _ _ _ => exact .refl host
      | swept _ _ _ => exact (Host.carriesOut_sweep hfaultless hdistinct).issues

/-- No command that the handling of a message issues unbinds a call site. -/
theorem handle_keeps (hfaultless : host.Faultless) (hdistinct : Distinct host.editor.blocks)
    (honly : ∀ session ∈ controller.sessions, host.editor.OnlyCallSite session.callSite)
    (now : Nat) {message : Message}
    (hcall : ∀ call prior, message = .callSiteCreated call prior →
      host.editor.OnlyCallSite call) :
    Replays Keeps host (controller.handle now host message).host := by
  cases message with
  | event event => exact .refl host
  | callSiteCreated call prior =>
      exact onCallSiteCreated_keeps hfaultless hdistinct (hcall call prior rfl) controller now prior
  | due alarm => exact .of_issues (onAlarm_keeps hfaultless hdistinct honly now alarm)
  | detach => exact .refl host

end Controller
end CallBinding
