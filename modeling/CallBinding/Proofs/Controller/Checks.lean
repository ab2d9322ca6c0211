import CallBinding.Proofs.Controller.Chronicle
import CallBinding.Proofs.Reconcile.Outcomes

/-!
# Checks of spawned definitions

A turn checks a definition at its own alarm, or it checks all that are still
due in a session that it closes.  `checks` lists these checks, each with the
definitions that it spares.  A turn runs them first, and `EndsTurn` says all
that it does besides: it checks nothing more.  A definition that is due stays
due until one of the two alarms is handled.
-/

namespace CallBinding

/-- A definition is checked against its family. -/
structure Check where
  /-- The alarm at which it happens. -/
  alarm : Alarm
  definition : BlockId
  /-- The definitions that are spared. -/
  prior : List BlockId
  deriving DecidableEq, Repr

/-- What a check does to a host.  At the end of a session, a scaffold goes even if it survives. -/
def Check.perform (host : Host) (check : Check) : Host :=
  match check.alarm with
  | .window _ => host.settleUnchecked check.prior check.definition
  | .spawnCheck _ _ | .recheck _ | .debounce _ =>
      (host.checkSpawned check.definition check.prior).2

/-- A command that writes to one block, and disposes of none. -/
def Command.WritesTo (id : BlockId) : Command → Prop
  | setField target _ _ | setParameters target _ => target = id
  | dispose _ => False

namespace Host

theorem giveName_writesTo {host named : Host} {call : BlockId} {current name : String}
    (h : host.giveName call current name = .ok named) :
    Issues (fun _ command => command.WritesTo call) host named := by
  unfold giveName at h
  split at h
  · exact Except.ok.inj h ▸ .refl host
  · exact setField_ok h ▸ .single rfl

theorem sync_writesTo (host : Host) (call definition : BlockId) :
    Issues (fun _ command => command.WritesTo call) host (host.sync call definition).2 := by
  have hsyncs := host.syncs_sync call definition
  generalize (host.sync call definition).2 = after at hsyncs ⊢
  generalize (host.sync call definition).1 = outcome at hsyncs
  cases hsyncs with
  | written _ _ _ _ _ => exact .single rfl
  | _ => exact .refl host

end Host

namespace Controller

/-- The checks that happen when an alarm is handled. -/
def checks (controller : Controller) (alarm : Alarm) : List Check :=
  match alarm with
  | .spawnCheck id definition =>
      (controller.session? id).toList.map fun session => ⟨alarm, definition, session.prior⟩
  | .window id =>
      (controller.session? id).toList.flatMap fun session =>
        session.spawnChecks.map fun definition => ⟨alarm, definition, session.prior⟩
  | .recheck _ | .debounce _ => []

/-- The checks that happen when a message is handled. -/
def checksOf (controller : Controller) : Message → List Check
  | .due alarm => controller.checks alarm
  | .event _ | .callSiteCreated _ _ | .detach => []

/-- What a turn makes of the host once its checks are done.  At the end of a session scaffolds go,
the alarm for a quiet graph may sweep, and a binding writes to its call site alone. -/
inductive EndsTurn (controller : Controller) (host : Host) : Message → Host → Prop
  | heard {event : Event} : EndsTurn controller host (.event event) host
  | bound {call : BlockId} {prior : List BlockId} {after : Host} :
      Host.Operates (fun _ command => command.WritesTo call) host after →
      EndsTurn controller host (.callSiteCreated call prior) after
  | checked {id : SessionId} {definition : BlockId} :
      EndsTurn controller host (.due (.spawnCheck id definition)) host
  | rebound {id : SessionId} {after : Host} :
      Host.Issues (fun _ command => ∃ session, controller.session? id = some session ∧
        command.WritesTo session.callSite) host after →
      EndsTurn controller host (.due (.recheck id)) after
  | closed {id : SessionId} :
      EndsTurn controller host (.due (.window id))
        (((controller.session? id).toList.flatMap (·.spawned)).foldl Host.disposeIfScaffold host)
  | waited {generation : Nat} : EndsTurn controller host (.due (.debounce generation)) host
  | swept {generation : Nat} :
      EndsTurn controller host (.due (.debounce generation)) host.sweep.2
  | dismissed : EndsTurn controller host .detach host

variable {controller next : Controller} {now : Nat} {host : Host} {message : Message}
variable {session : Session} {definition : BlockId}

/-! ## Turns -/

theorem onCallSiteCreated_writesTo (controller : Controller) (now : Nat) (host : Host)
    (call : BlockId) (prior : List BlockId) :
    Host.Operates (fun _ command => command.WritesTo call) host
      (controller.onCallSiteCreated now host call prior).2 := by
  unfold onCallSiteCreated
  split
  · exact .refl host
  · have hnamed : Host.Issues (fun _ command => command.WritesTo call) host.suppress
        (controller.nameCallSite host.suppress call prior).2.2 := by
      unfold nameCallSite
      split
      · exact .refl _
      · dsimp only
        split
        · exact .refl _
        next named hgiven => exact Host.giveName_writesTo hgiven
    refine .suppressed (hnamed.trans ?_)
    split
    · exact .refl _
    next definition _ => exact Host.sync_writesTo _ call definition

theorem onRecheck_writesTo (controller : Controller) (host : Host) (id : SessionId) :
    Host.Issues (fun _ command => ∃ session, controller.session? id = some session ∧
      command.WritesTo session.callSite) host (controller.onRecheck host id).2 := by
  unfold onRecheck
  split
  · exact .refl host
  next session hsession =>
    dsimp only
    split
    · exact .refl host
    · split
      · exact .refl host
      next definition _ =>
        refine Host.Issues.mono (fun _ _ hwrites => ⟨session, hsession, hwrites⟩) ?_
        unfold rebind
        split
        · exact .refl host
        next named hgiven =>
          exact (Host.giveName_writesTo hgiven).trans
            (named.sync_writesTo session.callSite definition.id)

/-- At the end of a session all definitions are checked that are due, and then scaffolds go. -/
theorem host_onAlarm_window (controller : Controller) (now : Nat) (host : Host) (id : SessionId) :
    (controller.onAlarm now host (.window id)).host =
      ((controller.session? id).toList.flatMap (·.spawned)).foldl Host.disposeIfScaffold
        ((controller.checks (.window id)).foldl Check.perform host) := by
  simp only [onAlarm, Turn.proceed, onWindow, checks]
  cases controller.session? id with
  | none => rfl
  | some session =>
      simp only [Option.toList_some, List.flatMap_cons, List.flatMap_nil, List.append_nil,
        List.foldl_map, Host.settleSpawned, Check.perform]

theorem endsTurn_onAlarm (controller : Controller) (now : Nat) (host : Host) (alarm : Alarm) :
    controller.EndsTurn ((controller.checks alarm).foldl Check.perform host) (.due alarm)
      (controller.onAlarm now host alarm).host := by
  cases alarm with
  | spawnCheck id definition =>
      simp only [onAlarm, Turn.proceed, onSpawnCheck, checks]
      cases controller.session? id <;> exact .checked
  | recheck id => exact .rebound (controller.onRecheck_writesTo host id)
  | window id =>
      rw [host_onAlarm_window]
      exact .closed
  | debounce generation =>
      have hends := controller.endsWait_onDebounce host generation
      simp only [onAlarm, checks, List.foldl_nil]
      generalize controller.onDebounce host generation = turn at hends ⊢
      cases hends with
      | stale _ | deferred _ _ | counted _ _ _ | crashed _ _ _ => exact .waited
      | swept _ _ _ => exact .swept

/-- A turn runs the checks of its message, and then it ends. -/
theorem endsTurn_handle (controller : Controller) (now : Nat) (host : Host) (message : Message) :
    controller.EndsTurn ((controller.checksOf message).foldl Check.perform host) message
      (controller.handle now host message).host := by
  cases message with
  | event event => exact .heard
  | callSiteCreated call prior =>
      exact .bound (controller.onCallSiteCreated_writesTo now host call prior)
  | due alarm => exact controller.endsTurn_onAlarm now host alarm
  | detach => exact .dismissed

/-! ## Definitions that are due -/

/-- A definition that is checked was due for it in an open session. -/
theorem exists_of_mem_checks (h : controller.Accounted) {alarm : Alarm}
    (halarm : alarm ∈ controller.alarms) {check : Check}
    (hcheck : check ∈ controller.checks alarm) :
    ∃ session ∈ controller.sessions, .spawnCheck session.id check.definition ∈ controller.alarms ∧
      (alarm = .spawnCheck session.id check.definition ∨ alarm = .window session.id) := by
  have hopen {id : SessionId} {session : Session}
      (hsession : session ∈ (controller.session? id).toList) :
      session ∈ controller.sessions ∧ session.id = id := by
    have hfound : controller.session? id = some session := Option.mem_toList.mp hsession
    exact ⟨List.mem_of_find?_eq_some hfound, by simpa using List.find?_some hfound⟩
  cases alarm with
  | spawnCheck id definition =>
      obtain ⟨session, hsession, rfl⟩ := List.mem_map.mp hcheck
      obtain ⟨hmem, rfl⟩ := hopen hsession
      exact ⟨session, hmem, halarm, Or.inl rfl⟩
  | window id =>
      obtain ⟨session, hsession, hdue⟩ := List.mem_flatMap.mp hcheck
      obtain ⟨hmem, rfl⟩ := hopen hsession
      obtain ⟨definition, hdefinition, rfl⟩ := List.mem_map.mp hdue
      exact ⟨session, hmem, h.spawnCheck_mem hmem hdefinition, Or.inr rfl⟩
  | recheck _ | debounce _ => cases hcheck

/-- A new definition that is younger than the session opened last is entered into it. -/
theorem onEvent_create (hshown : (host.block? definition).any Block.isDefinition = true)
    (hlast : controller.sessions.getLast? = some session) (hprior : definition ∉ session.prior) :
    controller.onEvent now host ⟨.create, definition⟩ =
      controller.awaitCheck now session.id definition := by
  have hbusy : (controller.awaitCheck now session.id definition).isBusy = true :=
    isBusy_of_mem (List.mem_map_of_mem (List.mem_of_getLast? hlast))
  have hentered : controller.onDefinitionCreated now definition =
      controller.awaitCheck now session.id definition := by
    simp [onDefinitionCreated, hlast, hprior, awaitCheck]
  simp only [onEvent, hshown, hentered, decide_true, Bool.and_self, if_true]
  exact rearmWhenIdle_of_isBusy hbusy now

/-- A definition is due for its check in a session that has the id and the older definitions of the
given one. -/
def Due (controller : Controller) (session : Session) (definition : BlockId) : Prop :=
  ∃ current ∈ controller.sessions, current.id = session.id ∧ current.prior = session.prior ∧
    definition ∈ current.spawnChecks

theorem due_awaitCheck (hsession : session ∈ controller.sessions) (now : Nat)
    (definition : BlockId) :
    (controller.awaitCheck now session.id definition).Due session definition := by
  refine ⟨_, List.mem_map_of_mem hsession, ?_⟩
  rw [if_pos rfl]
  exact ⟨rfl, rfl, List.mem_append_right _ List.mem_cons_self⟩

namespace Due

theorem mem_alarms (h : controller.Due session definition) (haccounted : controller.Accounted) :
    .spawnCheck session.id definition ∈ controller.alarms := by
  obtain ⟨current, hcurrent, hid, -, hcheck⟩ := h
  rw [← hid]
  exact haccounted.spawnCheck_mem hcurrent hcheck

/-- No other session is concerned with the definition. -/
theorem id_eq (h : controller.Due session definition) (haccounted : controller.Accounted)
    {id : SessionId} (halarm : .spawnCheck id definition ∈ controller.alarms) : id = session.id :=
  haccounted.once id session.id definition halarm (h.mem_alarms haccounted)

theorem filter_checks_spawnCheck (h : controller.Due session definition)
    (horderly : controller.Orderly) :
    (controller.checks (.spawnCheck session.id definition)).filter
        (fun check => check.definition = definition) =
      [⟨.spawnCheck session.id definition, definition, session.prior⟩] := by
  obtain ⟨current, hcurrent, hid, hprior, -⟩ := h
  have hfound := horderly.session?_eq hcurrent
  rw [hid] at hfound
  simp [checks, hfound, hprior]

theorem filter_checks_window (h : controller.Due session definition)
    (haccounted : controller.Accounted) (horderly : controller.Orderly) :
    (controller.checks (.window session.id)).filter (fun check => check.definition = definition) =
      [⟨.window session.id, definition, session.prior⟩] := by
  obtain ⟨current, hcurrent, hid, hprior, hdue⟩ := h
  have hfound := horderly.session?_eq hcurrent
  rw [hid] at hfound
  have honce : current.spawnChecks.filter (fun other => other = definition) = [definition] := by
    rw [List.filter_eq, List.count_eq_one_of_mem (haccounted.checks current hcurrent) hdue]
    rfl
  simp only [checks, hfound, Option.toList_some, List.flatMap_cons, List.flatMap_nil,
    List.append_nil, List.filter_map, Function.comp_def, honce, hprior, List.map_cons, List.map_nil]

theorem filter_checks_eq_nil (h : controller.Due session definition)
    (haccounted : controller.Accounted) {alarm : Alarm} (halarm : alarm ∈ controller.alarms)
    (hwindow : alarm ≠ .window session.id) (hcheck : alarm ≠ .spawnCheck session.id definition) :
    (controller.checks alarm).filter (fun check => check.definition = definition) = [] := by
  refine List.filter_eq_nil_iff.mpr fun check hmem => ?_
  simp only [decide_eq_true_eq]
  rintro rfl
  obtain ⟨other, -, hother, hcases⟩ := exists_of_mem_checks haccounted halarm hmem
  rw [h.id_eq haccounted hother] at hcases
  exact hcases.elim hcheck hwindow

/-- A definition stays due until its own alarm or the end of its session is handled. -/
theorem becomes (h : controller.Due session definition)
    (hbecomes : Becomes controller now host message next)
    (hwindow : message ≠ .due (.window session.id))
    (hcheck : message ≠ .due (.spawnCheck session.id definition)) :
    next.Due session definition := by
  obtain ⟨former, hformer, hid, hprior, hdue⟩ := h
  obtain ⟨current, hcurrent, hcurrentId, hcurrentPrior, -, hchecks⟩ :=
    hbecomes.exists_session hformer (hid ▸ hwindow)
  exact ⟨current, hcurrent, hcurrentId.trans hid, hcurrentPrior.trans hprior,
    hchecks definition hdue (hid ▸ hcheck)⟩

end Due

end Controller
end CallBinding
