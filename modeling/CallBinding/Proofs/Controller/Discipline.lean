import CallBinding.Proofs.Controller.Binding
import CallBinding.Proofs.Reconcile.Discipline

/-!
# Disciplined handlers

Whatever the faults of the host, a handler renames and binds call sites and
disposes of definitions, and does nothing else.  Which definitions may go
depends on the message: a check and the end of a session spare the definitions
that are older than the session, a cleanup may take any, and all other messages
take none.
-/

namespace CallBinding

open CallBinding.Graph (Reconciles Distinct)

/-- No definition that is spawned during a session is older than it. -/
def Session.SparesPrior (session : Session) : Prop :=
  ∀ id ∈ session.spawnChecks ++ session.spawned, id ∉ session.prior

namespace Host

variable {host named : Host} {prior : List BlockId} {mayGo : BlockId → Prop}

theorem giveName_reconciles {call : BlockId} (honly : host.editor.OnlyCallSite call)
    {current name : String} (h : host.giveName call current name = .ok named) :
    Issues (Reconciles mayGo) host named := by
  unfold giveName at h
  split at h
  · obtain rfl := Except.ok.inj h
    exact .refl host
  · obtain ⟨block, hblock, rfl⟩ := exists_of_setField_ok h
    obtain rfl := setField_ok h
    have hrole : block.role = .callSite := honly.2 block hblock rfl
    have hcall : (⟨block.id, block.name, block.parameters⟩ : CallSite) ∈
        Graph.callSites host.editor.blocks :=
      Graph.mem_callSites.mpr ⟨block, hblock, hrole, rfl⟩
    exact .single (.rename name hcall)

theorem checkSpawned_reconciles (hdistinct : Distinct host.editor.blocks) (definition : BlockId)
    (prior : List BlockId) :
    Issues (Reconciles (· ∉ prior)) host (host.checkSpawned definition prior).2 := by
  unfold checkSpawned
  split
  · exact .refl host
  next found _ =>
    exact apply_reconciles hdistinct (removed_not_mem_prior host.members found.name prior)

theorem disposeIfScaffold_reconciles {definition : BlockId} (hmay : mayGo definition) :
    Issues (Reconciles mayGo) host (host.disposeIfScaffold definition) := by
  unfold disposeIfScaffold
  split
  · exact .refl host
  next found hfound =>
    obtain ⟨hmem, rfl⟩ := mem_of_definition? hfound
    split
    · exact .refl host
    · exact dispose_reconciles hmem hmay

theorem settleUnchecked_reconciles (hdistinct : Distinct host.editor.blocks)
    {definition : BlockId} (hnew : definition ∉ prior) :
    Issues (Reconciles (· ∉ prior)) host (settleUnchecked prior host definition) := by
  have hchecked := checkSpawned_reconciles hdistinct definition prior
  simp only [settleUnchecked]
  split
  · exact hchecked.trans (disposeIfScaffold_reconciles hnew)
  · exact hchecked

/-- Several steps, each on a definition that may go. -/
theorem foldl_reconciles {step : Host → BlockId → Host} {ids : List BlockId}
    (hstep : ∀ host, ∀ id ∈ ids, Distinct host.editor.blocks →
      Issues (Reconciles mayGo) host (step host id))
    (hdistinct : Distinct host.editor.blocks) :
    Issues (Reconciles mayGo) host (ids.foldl step host) := by
  induction ids generalizing host with
  | nil => exact .refl host
  | cons id rest ih =>
      have hfirst := hstep host id List.mem_cons_self hdistinct
      refine hfirst.trans (ih ?_ (hfirst.distinct hdistinct))
      intro later other hother
      exact hstep later other (List.mem_cons_of_mem id hother)

theorem settleSpawned_reconciles (hdistinct : Distinct host.editor.blocks) {session : Session}
    (hspares : session.SparesPrior) :
    Issues (Reconciles (· ∉ session.prior)) host (host.settleSpawned session) := by
  have hchecked : Issues (Reconciles (· ∉ session.prior)) host
      (session.spawnChecks.foldl (settleUnchecked session.prior) host) := by
    apply foldl_reconciles _ hdistinct
    intro later id hid hlater
    exact settleUnchecked_reconciles hlater (hspares id (List.mem_append_left _ hid))
  apply hchecked.trans
  apply foldl_reconciles _ (hchecked.distinct hdistinct)
  intro later id hid _
  exact disposeIfScaffold_reconciles (hspares id (List.mem_append_right _ hid))

end Host

namespace Controller

open Host (Issues Operates)

/-- The definitions that a controller may dispose of when it handles a message. -/
def MayDispose (controller : Controller) : Message → BlockId → Prop
  | .due (.spawnCheck id _), block | .due (.window id), block =>
      ∃ session, controller.session? id = some session ∧ block ∉ session.prior
  | .due (.debounce _), _ => True
  | _, _ => False

variable {controller : Controller} {host : Host} {mayGo : BlockId → Prop}

/-! ## Binding -/

theorem nameCallSite_reconciles {call : BlockId} (honly : host.editor.OnlyCallSite call)
    (controller : Controller) (prior : List BlockId) :
    Issues (Reconciles mayGo) host (controller.nameCallSite host call prior).2.2 := by
  unfold nameCallSite
  split
  · exact .refl host
  · dsimp only
    split
    · exact .refl host
    next named hnamed => exact Host.giveName_reconciles honly hnamed

theorem onCallSiteCreated_reconciles {call : BlockId} (honly : host.editor.OnlyCallSite call)
    (controller : Controller) (now : Nat) (prior : List BlockId) :
    Operates (Reconciles mayGo) host (controller.onCallSiteCreated now host call prior).2 := by
  unfold onCallSiteCreated
  split
  · exact .refl host
  · have hsuppressed : host.suppress.editor.OnlyCallSite call := honly
    have hnamed : Issues (Reconciles mayGo) host.suppress
        (controller.nameCallSite host.suppress call prior).2.2 :=
      nameCallSite_reconciles hsuppressed controller prior
    apply Operates.suppressed
    apply hnamed.trans
    split
    · exact .refl _
    next definition _ => exact (Host.sync_issues _ call definition).reconciles_of_binds

theorem rebind_reconciles {call : BlockId} (honly : host.editor.OnlyCallSite call)
    (controller : Controller) (current : String) (definition : Definition) :
    Issues (Reconciles mayGo) host (controller.rebind host call current definition).2 := by
  unfold rebind
  split
  · exact .refl host
  next named hnamed =>
    have hrenamed : Issues (Reconciles mayGo) host named := Host.giveName_reconciles honly hnamed
    exact hrenamed.trans (named.sync_issues call definition.id).reconciles_of_binds

theorem onRecheck_reconciles
    (honly : ∀ session ∈ controller.sessions, host.editor.OnlyCallSite session.callSite)
    (id : SessionId) : Issues (Reconciles mayGo) host (controller.onRecheck host id).2 := by
  unfold onRecheck
  split
  · exact .refl host
  next session hsession =>
    dsimp only
    split
    · exact .refl host
    · split
      · exact .refl host
      next definition _ =>
        exact rebind_reconciles (honly session (List.mem_of_find?_eq_some hsession)) _ _ definition

/-! ## Messages -/

theorem onDebounce_reconciles (hdistinct : Distinct host.editor.blocks) (generation : Nat) :
    Issues (Reconciles fun _ => True) host (controller.onDebounce host generation).host := by
  have hends := controller.endsWait_onDebounce host generation
  generalize controller.onDebounce host generation = turn at hends ⊢
  cases hends with
  | stale _ | deferred _ _ | counted _ _ _ | crashed _ _ _ => exact .refl host
  | swept _ _ _ => exact Host.sweep_reconciles hdistinct

theorem onAlarm_reconciles (hdistinct : Distinct host.editor.blocks)
    (honly : ∀ session ∈ controller.sessions, host.editor.OnlyCallSite session.callSite)
    (hspares : ∀ session ∈ controller.sessions, session.SparesPrior) (now : Nat) (alarm : Alarm) :
    Issues (Reconciles (controller.MayDispose (.due alarm))) host
      (controller.onAlarm now host alarm).host := by
  -- Of a session that is open, the definitions that are not older may go.
  have spared {id : SessionId} {session : Session} (hsession : controller.session? id = some session)
      {after : Host} (h : Issues (Reconciles (· ∉ session.prior)) host after) :
      Issues (Reconciles fun block =>
        ∃ session, controller.session? id = some session ∧ block ∉ session.prior) host after :=
    h.mono fun _ _ hcommand => hcommand.mono fun _ hnew => ⟨session, hsession, hnew⟩
  cases alarm with
  | spawnCheck id definition =>
      simp only [onAlarm, Turn.proceed, onSpawnCheck]
      split
      · exact .refl host
      next session hsession =>
        exact spared hsession (Host.checkSpawned_reconciles hdistinct definition session.prior)
  | recheck id => exact onRecheck_reconciles honly id
  | window id =>
      simp only [onAlarm, Turn.proceed, onWindow]
      split
      · exact .refl host
      next session hsession =>
        have hsettled := Host.settleSpawned_reconciles hdistinct
          (hspares session (List.mem_of_find?_eq_some hsession))
        exact spared hsession hsettled
  | debounce generation => exact onDebounce_reconciles hdistinct generation

/-- Handling a message reconciles the graph, at the cost of definitions that may go. -/
theorem handle_reconciles (hdistinct : Distinct host.editor.blocks)
    (honly : ∀ session ∈ controller.sessions, host.editor.OnlyCallSite session.callSite)
    (hspares : ∀ session ∈ controller.sessions, session.SparesPrior) (now : Nat)
    {message : Message} (hcall : ∀ call prior, message = .callSiteCreated call prior →
      host.editor.OnlyCallSite call) :
    Operates (Reconciles (controller.MayDispose message)) host
      (controller.handle now host message).host := by
  cases message with
  | event event => exact .refl host
  | callSiteCreated call prior =>
      exact onCallSiteCreated_reconciles (hcall call prior rfl) controller now prior
  | due alarm => exact .openly (onAlarm_reconciles hdistinct honly hspares now alarm)
  | detach => exact .refl host

end Controller
end CallBinding
