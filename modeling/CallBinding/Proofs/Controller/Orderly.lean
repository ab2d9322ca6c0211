import CallBinding.Proofs.Controller.Becomes
import CallBinding.Proofs.Controller.Discipline

/-!
# Orderly controllers

Between two messages the sessions of a controller, its wait for a quiet graph,
its agenda and its mailbox agree.  Alarms of two kinds matter to this: those
that are still armed, and those that have gone off and wait in the mailbox,
perhaps behind messages that make them stale.  `Orderly` says what is true of
both, and every message keeps it.
-/

namespace CallBinding

/-- The armed alarms that belong to no session. -/
def Agenda.quietTimers (agenda : Agenda) : List Timer :=
  agenda.filter fun timer => timer.alarm.session?.isNone

theorem Agenda.mem_quietTimers {agenda : Agenda} {timer : Timer} :
    timer ∈ agenda.quietTimers ↔ timer ∈ agenda ∧ timer.alarm.session? = none := by
  simp [quietTimers]

theorem Agenda.quietTimers_arm (agenda : Agenda) (now : Nat) (delay : UInt64) (alarm : Alarm) :
    (agenda.arm now delay alarm).quietTimers = agenda.quietTimers ++
      if alarm.session? = none then [⟨now + min delay.toNat longestWait, alarm⟩] else [] := by
  cases alarm <;> simp [arm, quietTimers, Alarm.session?]

theorem Message.ofEvent_ne_due (host : Host) (event : Event) (alarm : Alarm) :
    Message.ofEvent host event ≠ .due alarm := by
  unfold Message.ofEvent
  split <;> simp

namespace Controller

/-- An alarm is armed, or it has gone off and waits in the mailbox. -/
def Outstanding (controller : Controller) (alarm : Alarm) : Prop :=
  (∃ timer ∈ controller.agenda, timer.alarm = alarm) ∨ .due alarm ∈ controller.mailbox

/-- An alarm was armed for a session that has been opened, or for a wait that has been started;
and a definition that is due for its check is not older than its session. -/
def Expects (controller : Controller) : Alarm → Prop
  | .spawnCheck id definition =>
      id.number < controller.nextSession ∧
        ∀ session ∈ controller.sessions, session.id = id → definition ∉ session.prior
  | .recheck id | .window id => id.number < controller.nextSession
  | .debounce generation => generation ≤ controller.debounce.generation

/-- The wait for a quiet graph has one alarm, which is armed or has gone off. -/
inductive Debouncing (debounce : Debounce) (agenda : Agenda) (mailbox : List Message) : Prop
  | idle : debounce.isPending = false → agenda.quietTimers = [] →
      Debouncing debounce agenda mailbox
  | armed (deadline : Nat) : debounce.isPending = true →
      agenda.quietTimers = [⟨deadline, .debounce debounce.generation⟩] →
      .due (.debounce debounce.generation) ∉ mailbox → Debouncing debounce agenda mailbox
  | due : debounce.isPending = true → agenda.quietTimers = [] →
      .due (.debounce debounce.generation) ∈ mailbox → Debouncing debounce agenda mailbox

/-- What holds of a controller between two messages. -/
structure Orderly (controller : Controller) : Prop where
  ids : (controller.sessions.map (·.id)).Nodup
  numbers : ∀ session ∈ controller.sessions, session.id.number < controller.nextSession
  spares : ∀ session ∈ controller.sessions, session.SparesPrior
  expected : ∀ alarm, controller.Outstanding alarm → controller.Expects alarm
  /-- The alarms of a session are cancelled with it. -/
  active : ∀ timer ∈ controller.agenda, ∀ id, timer.alarm.session? = some id →
    id ∈ controller.sessions.map (·.id)
  /-- Every open session will be closed. -/
  windows : ∀ session ∈ controller.sessions, controller.Outstanding (.window session.id)
  exclusive : controller.debounce.isPending = true → controller.sessions = []
  debouncing : Debouncing controller.debounce controller.agenda controller.mailbox

variable {controller next : Controller} {now : Nat} {host : Host} {message : Message}

theorem session?_isSome_iff {id : SessionId} :
    (controller.session? id).isSome = true ↔ id ∈ controller.sessions.map (·.id) := by
  simp [session?, List.find?_isSome]

/-! ## What opening a session arms -/

/-- What holds of the open sessions and of the new one. -/
theorem forall_sessions_openSession {call : BlockId} {prior : List BlockId} {p : Session → Prop}
    (hold : ∀ session ∈ controller.sessions, p session)
    (hnew : p ⟨⟨controller.nextSession⟩, call, prior, .delayedRecheck, [], []⟩) :
    ∀ session ∈ (controller.openSession now call prior).sessions, p session := by
  intro session hsession
  rw [sessions_openSession] at hsession
  rcases List.mem_append.mp hsession with hmem | hmem
  · exact hold session hmem
  · exact List.mem_singleton.mp hmem ▸ hnew

/-- Besides alarms that are kept, two are armed, both for the new session. -/
theorem mem_agenda_openSession {call : BlockId} {prior : List BlockId} {timer : Timer}
    (h : timer ∈ (controller.openSession now call prior).agenda) :
    timer ∈ controller.cancelDebounce.agenda ∨
      timer.alarm = .recheck ⟨controller.nextSession⟩ ∨
      timer.alarm = .window ⟨controller.nextSession⟩ := by
  obtain ⟨hmem, hother⟩ := List.mem_filter.mp h
  simp only [arm, Agenda.arm, List.mem_append, List.mem_singleton] at hmem
  rcases hmem with (hold | rfl) | rfl
  · exact Or.inl (List.mem_filter.mpr ⟨hold, hother⟩)
  · exact Or.inr (Or.inl rfl)
  · exact Or.inr (Or.inr rfl)

/-- The alarms of the other sessions stay armed. -/
theorem mem_agenda_openSession_of_mem {call : BlockId} {prior : List BlockId} {timer : Timer}
    {id : SessionId} (h : timer ∈ controller.agenda) (hid : timer.alarm.session? = some id) :
    timer ∈ (controller.openSession now call prior).agenda := by
  refine List.mem_filter.mpr ⟨List.mem_append_left _ (List.mem_append_left _ h), ?_⟩
  simp only [decide_eq_true_eq]
  intro halarm
  rw [halarm] at hid
  cases hid

/-- The new session will be closed. -/
theorem outstanding_window_openSession {call : BlockId} {prior : List BlockId} :
    (controller.openSession now call prior).Outstanding (.window ⟨controller.nextSession⟩) := by
  refine Or.inl ⟨⟨now + min controller.settings.suppressionWindow.toNat Agenda.longestWait,
    .window ⟨controller.nextSession⟩⟩, ?_, rfl⟩
  simp [openSession, cancelDebounce, arm, Agenda.arm, Agenda.cancel]

/-- No alarm was armed for a session before it was opened. -/
theorem Expects.openSession {call : BlockId} {prior : List BlockId} {alarm : Alarm}
    (h : controller.Expects alarm) : (controller.openSession now call prior).Expects alarm := by
  cases alarm with
  | spawnCheck id definition =>
      refine ⟨Nat.lt_succ_of_lt h.1, forall_sessions_openSession h.2 fun hid => ?_⟩
      have hlt := h.1
      simp [← hid] at hlt
  | recheck id | window id => exact Nat.lt_succ_of_lt h
  | debounce generation => exact h

namespace Orderly

theorem new (settings : Settings) (cleanup : Cleanup) :
    (Controller.new settings cleanup).Orderly where
  ids := List.nodup_nil
  numbers := fun _ h => by cases h
  spares := fun _ h => by cases h
  expected := fun alarm h => by simp [Outstanding, Controller.new] at h
  active := fun _ h => by cases h
  windows := fun _ h => by cases h
  exclusive := fun _ => rfl
  debouncing := .idle rfl rfl

/-- Sessions have ids of their own. -/
theorem eq_of_id (h : controller.Orderly) {session other : Session}
    (hsession : session ∈ controller.sessions) (hother : other ∈ controller.sessions)
    (hid : session.id = other.id) : session = other :=
  List.inj_on_of_nodup_map h.ids hsession hother hid

/-- An open session is found by its id. -/
theorem session?_eq (h : controller.Orderly) {session : Session}
    (hsession : session ∈ controller.sessions) :
    controller.session? session.id = some session := by
  cases hfound : controller.session? session.id with
  | none =>
      have hopen := session?_isSome_iff.mpr (List.mem_map_of_mem (f := (·.id)) hsession)
      simp [hfound] at hopen
  | some found =>
      have hid : found.id = session.id := by simpa using List.find?_some hfound
      rw [h.eq_of_id (List.mem_of_find?_eq_some hfound) hsession hid]

/-! ## The mailbox -/

/-- More messages, none of which is an alarm. -/
theorem post (h : controller.Orderly) {messages : List Message}
    (hmessages : ∀ message ∈ messages, ∀ alarm, message ≠ .due alarm) :
    Orderly { controller with mailbox := controller.mailbox ++ messages } := by
  have hdue (alarm : Alarm) :
      .due alarm ∈ controller.mailbox ++ messages ↔ .due alarm ∈ controller.mailbox := by
    rw [List.mem_append]
    exact or_iff_left fun hmem => hmessages _ hmem alarm rfl
  refine ⟨h.ids, h.numbers, h.spares, ?expected, h.active, ?windows, h.exclusive, ?debouncing⟩
  case expected =>
    intro alarm houtstanding
    exact h.expected alarm (houtstanding.imp_right (hdue alarm).mp)
  case windows =>
    intro session hsession
    exact (h.windows session hsession).imp_right (hdue _).mpr
  case debouncing =>
    cases h.debouncing with
    | idle hidle hquiet => exact .idle hidle hquiet
    | armed deadline hpending hquiet hnone =>
        exact .armed deadline hpending hquiet fun hmem => hnone ((hdue _).mp hmem)
    | due hpending hquiet hmem => exact .due hpending hquiet ((hdue _).mpr hmem)

/-- A message that is taken out of the mailbox makes no difference, unless it is the end of an
open session or of the wait that is on. -/
theorem pop (h : controller.Orderly) {rest : List Message}
    (hmailbox : controller.mailbox = message :: rest)
    (hwindow : ∀ session ∈ controller.sessions, message ≠ .due (.window session.id))
    (hdebounce : controller.debounce.isPending = true →
      message ≠ .due (.debounce controller.debounce.generation)) :
    Orderly { controller with mailbox := rest } := by
  have hrest {other : Message} (hne : message ≠ other) (hmem : other ∈ controller.mailbox) :
      other ∈ rest := by
    rw [hmailbox] at hmem
    exact (List.mem_cons.mp hmem).resolve_left hne.symm
  have hold {other : Message} (hmem : other ∈ rest) : other ∈ controller.mailbox := by
    rw [hmailbox]
    exact List.mem_cons_of_mem message hmem
  refine ⟨h.ids, h.numbers, h.spares, ?expected, h.active, ?windows, h.exclusive, ?debouncing⟩
  case expected =>
    intro alarm houtstanding
    exact h.expected alarm (houtstanding.imp_right hold)
  case windows =>
    intro session hsession
    exact (h.windows session hsession).imp_right (hrest (hwindow session hsession))
  case debouncing =>
    cases h.debouncing with
    | idle hidle hquiet => exact .idle hidle hquiet
    | armed deadline hpending hquiet hnone =>
        exact .armed deadline hpending hquiet fun hmem => hnone (hold hmem)
    | due hpending hquiet hmem => exact .due hpending hquiet (hrest (hdebounce hpending) hmem)

/-! ## Sessions -/

theorem memorize (h : controller.Orderly) (name : Option String) : (controller.memorize name).Orderly :=
  ⟨h.ids, h.numbers, h.spares, h.expected, h.active, h.windows, h.exclusive, h.debouncing⟩

theorem countCleanup (h : controller.Orderly) : controller.countCleanup.Orderly :=
  ⟨h.ids, h.numbers, h.spares, h.expected, h.active, h.windows, h.exclusive, h.debouncing⟩

/-- A change of what happened during a session. -/
theorem modifySession (h : controller.Orderly) {id : SessionId} {change : Session → Session}
    (hid : ∀ session, (change session).id = session.id)
    (hprior : ∀ session, (change session).prior = session.prior)
    (hspares : ∀ session ∈ controller.sessions, session.id = id →
      (change session).SparesPrior) : (controller.modifySession id change).Orderly := by
  have hmem {session : Session} (hsession : session ∈ (controller.modifySession id change).sessions) :
      ∃ former ∈ controller.sessions, former.id = session.id ∧ former.prior = session.prior := by
    obtain ⟨former, hformer, rfl⟩ := List.mem_map.mp hsession
    refine ⟨former, hformer, ?_⟩
    split
    · exact ⟨(hid former).symm, (hprior former).symm⟩
    · exact ⟨rfl, rfl⟩
  have hids : (controller.modifySession id change).sessions.map (·.id) =
      controller.sessions.map (·.id) := by
    simp only [Controller.modifySession, List.map_map]
    refine List.map_congr_left fun session _ => ?_
    simp only [Function.comp_apply]
    split
    · exact hid session
    · rfl
  refine ⟨hids ▸ h.ids, ?numbers, ?spares, ?expected, hids ▸ h.active, ?windows, ?exclusive,
    h.debouncing⟩
  case numbers =>
    intro session hsession
    obtain ⟨former, hformer, hformerId, -⟩ := hmem hsession
    exact hformerId ▸ h.numbers former hformer
  case spares =>
    intro session hsession
    obtain ⟨former, hformer, rfl⟩ := List.mem_map.mp hsession
    split
    next hformerId => exact hspares former hformer hformerId
    next => exact h.spares former hformer
  case expected =>
    intro alarm houtstanding
    have hexpected := h.expected alarm houtstanding
    cases alarm with
    | spawnCheck other definition =>
        refine ⟨hexpected.1, fun session hsession hother => ?_⟩
        obtain ⟨former, hformer, hformerId, hformerPrior⟩ := hmem hsession
        exact hformerPrior ▸ hexpected.2 former hformer (hformerId.trans hother)
    | recheck _ | window _ | debounce _ => exact hexpected
  case windows =>
    intro session hsession
    obtain ⟨former, hformer, hformerId, -⟩ := hmem hsession
    exact hformerId ▸ h.windows former hformer
  case exclusive =>
    intro hpending
    have hnone : controller.sessions = [] := h.exclusive hpending
    simp [Controller.modifySession, hnone]

/-- The alarm for the check of a definition that is not older than its session. -/
theorem armCheck (h : controller.Orderly) {session : Session}
    (hsession : session ∈ controller.sessions) {definition : BlockId}
    (hnew : definition ∉ session.prior) (now : Nat) (delay : UInt64) :
    (controller.arm now delay (.spawnCheck session.id definition)).Orderly := by
  have hquiet : (controller.arm now delay (.spawnCheck session.id definition)).agenda.quietTimers =
      controller.agenda.quietTimers := by
    simp [Controller.arm, Agenda.quietTimers_arm, Alarm.session?]
  refine ⟨h.ids, h.numbers, h.spares, ?expected, ?active, ?windows, h.exclusive, ?debouncing⟩
  case expected =>
    rintro alarm (⟨timer, htimer, rfl⟩ | hdue)
    · rcases List.mem_append.mp htimer with hold | harmed
      · exact h.expected _ (Or.inl ⟨timer, hold, rfl⟩)
      · rw [List.mem_singleton.mp harmed]
        refine ⟨h.numbers session hsession, fun other hother hid => ?_⟩
        exact h.eq_of_id hsession hother hid.symm ▸ hnew
    · exact h.expected alarm (Or.inr hdue)
  case active =>
    intro timer htimer id hid
    rcases List.mem_append.mp htimer with hold | harmed
    · exact h.active timer hold id hid
    · rw [List.mem_singleton.mp harmed] at hid
      exact Option.some.inj hid ▸ List.mem_map_of_mem hsession
  case windows =>
    intro other hother
    refine (h.windows other hother).imp_left ?_
    rintro ⟨timer, htimer, halarm⟩
    exact ⟨timer, List.mem_append_left _ htimer, halarm⟩
  case debouncing =>
    cases h.debouncing with
    | idle hidle hnone => exact .idle hidle (hquiet.trans hnone)
    | armed deadline hpending hone hfree =>
        exact .armed deadline hpending (hquiet.trans hone) hfree
    | due hpending hnone hmem => exact .due hpending (hquiet.trans hnone) hmem

theorem awaitCheck (h : controller.Orderly) {session : Session}
    (hsession : session ∈ controller.sessions) {definition : BlockId}
    (hnew : definition ∉ session.prior) (now : Nat) :
    (controller.awaitCheck now session.id definition).Orderly := by
  have harmed := h.armCheck hsession hnew now controller.settings.spawnCheckDelay
  refine harmed.modifySession (fun _ => rfl) (fun _ => rfl) ?_
  intro other hother hid id hmem
  obtain rfl := h.eq_of_id hother hsession hid
  simp only [List.append_assoc, List.mem_append, List.mem_singleton] at hmem
  rcases hmem with hcheck | rfl | hspawned
  · exact h.spares other hsession id (List.mem_append_left _ hcheck)
  · exact hnew
  · exact h.spares other hsession id (List.mem_append_right _ hspawned)

theorem noteCheck (h : controller.Orderly) {id : SessionId} {definition : BlockId}
    (hexpects : controller.Expects (.spawnCheck id definition)) (survived : Bool) :
    (controller.noteCheck id definition survived).Orderly := by
  refine h.modifySession (fun _ => rfl) (fun _ => rfl) ?_
  intro session hsession hid other hmem
  have hnew : definition ∉ session.prior := hexpects.2 session hsession hid
  have hspares := h.spares session hsession
  rcases List.mem_append.mp hmem with hcheck | hspawned
  · exact hspares other (List.mem_append_left _ (List.mem_filter.mp hcheck).1)
  · cases survived with
    | false => exact hspares other (List.mem_append_right _ hspawned)
    | true =>
        rcases List.mem_append.mp hspawned with hold | hsurvivor
        · exact hspares other (List.mem_append_right _ hold)
        · exact List.mem_singleton.mp hsurvivor ▸ hnew

theorem settle (h : controller.Orderly) (id : SessionId) : (controller.settle id).Orderly :=
  h.modifySession (fun _ => rfl) (fun _ => rfl) fun session hsession _ => h.spares session hsession

/-! ## The wait for a quiet graph -/

theorem quietTimers_cancelDebounce (h : controller.Orderly) :
    controller.cancelDebounce.agenda.quietTimers = [] := by
  have hcancel : controller.cancelDebounce.agenda.quietTimers =
      controller.agenda.quietTimers.filter fun timer =>
        timer.alarm ≠ .debounce controller.debounce.generation := by
    simp only [cancelDebounce, Agenda.cancel, Agenda.quietTimers]
    exact List.filter_comm _ _ _
  rw [hcancel]
  cases h.debouncing with
  | idle _ hquiet => simp [hquiet]
  | armed deadline _ hquiet _ => simp [hquiet]
  | due _ hquiet _ => simp [hquiet]

theorem cancelDebounce (h : controller.Orderly) : controller.cancelDebounce.Orderly := by
  refine ⟨h.ids, h.numbers, h.spares, ?expected, ?active, ?windows, ?exclusive,
    .idle rfl h.quietTimers_cancelDebounce⟩
  case expected =>
    rintro alarm (⟨timer, htimer, rfl⟩ | hdue)
    · exact h.expected _ (Or.inl ⟨timer, (List.mem_filter.mp htimer).1, rfl⟩)
    · exact h.expected alarm (Or.inr hdue)
  case active =>
    intro timer htimer id hid
    exact h.active timer (List.mem_filter.mp htimer).1 id hid
  case windows =>
    intro session hsession
    refine (h.windows session hsession).imp_left ?_
    rintro ⟨timer, htimer, halarm⟩
    exact ⟨timer, List.mem_filter.mpr ⟨htimer, by simp [halarm]⟩, halarm⟩
  case exclusive =>
    intro hpending
    cases hpending

theorem rearmDebounce (h : controller.Orderly) (hidle : controller.sessions = []) (now : Nat) :
    (controller.rearmDebounce now).Orderly := by
  have hcancelled := h.cancelDebounce
  refine ⟨h.ids, h.numbers, h.spares, ?expected, ?active, ?windows, fun _ => hidle, ?debouncing⟩
  case expected =>
    rintro alarm (⟨timer, htimer, rfl⟩ | hdue)
    · rcases List.mem_append.mp htimer with hold | harmed
      · have hexpected := hcancelled.expected _ (Or.inl ⟨timer, hold, rfl⟩)
        generalize timer.alarm = alarm at hexpected
        cases alarm with
        | debounce generation => exact Nat.le_succ_of_le hexpected
        | spawnCheck _ _ | recheck _ | window _ => exact hexpected
      · rw [List.mem_singleton.mp harmed]
        exact le_refl _
    · have hexpected := h.expected alarm (Or.inr hdue)
      cases alarm with
      | debounce generation => exact Nat.le_succ_of_le hexpected
      | spawnCheck _ _ | recheck _ | window _ => exact hexpected
  case active =>
    intro timer htimer id hid
    rcases List.mem_append.mp htimer with hold | harmed
    · exact hcancelled.active timer hold id hid
    · rw [List.mem_singleton.mp harmed] at hid
      cases hid
  case windows =>
    intro session hsession
    have hsession : session ∈ controller.sessions := hsession
    simp [hidle] at hsession
  case debouncing =>
    refine .armed (now + min controller.settings.debounce.toNat Agenda.longestWait) rfl ?_ ?_
    · have hquiet := Agenda.quietTimers_arm controller.cancelDebounce.agenda now
        controller.settings.debounce (.debounce (controller.debounce.generation + 1))
      rw [h.quietTimers_cancelDebounce] at hquiet
      exact hquiet
    · intro hdue
      have hle : controller.debounce.generation + 1 ≤ controller.debounce.generation :=
        h.expected (.debounce (controller.debounce.generation + 1)) (Or.inr hdue)
      omega

theorem rearmWhenIdle (h : controller.Orderly) (now : Nat) :
    (controller.rearmWhenIdle now).Orderly := by
  unfold Controller.rearmWhenIdle
  split
  · exact h
  next hidle => exact h.rearmDebounce (isBusy_eq_false_iff.mp (by simpa using hidle)) now

/-- The wait has ended, and its alarm is out of the mailbox. -/
theorem takeDebounce (h : controller.Orderly) {rest : List Message}
    (hmailbox : controller.mailbox = .due (.debounce controller.debounce.generation) :: rest)
    (hpending : controller.debounce.isPending = true) :
    (Controller.takeDebounce { controller with mailbox := rest }).Orderly := by
  have hnone : controller.sessions = [] := h.exclusive hpending
  refine ⟨h.ids, h.numbers, h.spares, ?expected, h.active, ?windows, fun _ => hnone, ?debouncing⟩
  case expected =>
    intro alarm houtstanding
    refine h.expected alarm (houtstanding.imp_right fun hmem => ?_)
    rw [hmailbox]
    exact List.mem_cons_of_mem _ hmem
  case windows =>
    intro session hsession
    have hsession : session ∈ controller.sessions := hsession
    simp [hnone] at hsession
  case debouncing =>
    cases h.debouncing with
    | idle _ hquiet => exact .idle rfl hquiet
    | armed deadline _ _ hfree => exact absurd (hmailbox ▸ List.mem_cons_self) hfree
    | due _ hquiet _ => exact .idle rfl hquiet

/-! ## Opening and closing -/

theorem openSession (h : controller.Orderly) (now : Nat) (call : BlockId) (prior : List BlockId) :
    (controller.openSession now call prior).Orderly where
  ids := by
    rw [sessions_openSession, List.map_append]
    refine List.Nodup.append h.ids (List.nodup_singleton _) ?_
    intro id hold hnew
    obtain ⟨session, hsession, rfl⟩ := List.mem_map.mp hold
    have hlt := h.numbers session hsession
    simp [List.mem_singleton.mp hnew] at hlt
  numbers := forall_sessions_openSession
    (fun session hsession => Nat.lt_succ_of_lt (h.numbers session hsession)) (Nat.lt_succ_self _)
  spares := forall_sessions_openSession h.spares fun _ hid => by cases hid
  expected := by
    rintro alarm (⟨timer, htimer, rfl⟩ | hdue)
    · rcases mem_agenda_openSession htimer with hold | hrecheck | hwindow
      · exact (h.expected _ (Or.inl ⟨timer, (List.mem_filter.mp hold).1, rfl⟩)).openSession
      · rw [hrecheck]
        exact Nat.lt_succ_self _
      · rw [hwindow]
        exact Nat.lt_succ_self _
    · exact (h.expected alarm (Or.inr hdue)).openSession
  active := by
    intro timer htimer id hid
    rw [sessions_openSession, List.map_append, List.mem_append]
    rcases mem_agenda_openSession htimer with hold | hrecheck | hwindow
    · exact Or.inl (h.cancelDebounce.active timer hold id hid)
    · rw [hrecheck] at hid
      exact Or.inr (List.mem_singleton.mpr (Option.some.inj hid).symm)
    · rw [hwindow] at hid
      exact Or.inr (List.mem_singleton.mpr (Option.some.inj hid).symm)
  windows := by
    refine forall_sessions_openSession (fun session hsession => ?_) outstanding_window_openSession
    refine (h.windows session hsession).imp_left ?_
    rintro ⟨timer, htimer, halarm⟩
    exact ⟨timer, mem_agenda_openSession_of_mem htimer (by rw [halarm]; rfl), halarm⟩
  exclusive := fun hpending => by cases hpending
  debouncing := by
    refine .idle rfl (List.eq_nil_iff_forall_not_mem.mpr fun timer htimer => ?_)
    obtain ⟨hmem, hnone⟩ := Agenda.mem_quietTimers.mp htimer
    rcases mem_agenda_openSession hmem with hold | hrecheck | hwindow
    · have hcancelled := Agenda.mem_quietTimers.mpr ⟨hold, hnone⟩
      rw [h.quietTimers_cancelDebounce] at hcancelled
      cases hcancelled
    · rw [hrecheck] at hnone
      cases hnone
    · rw [hwindow] at hnone
      cases hnone

/-- The session whose end is taken out of the mailbox is closed. -/
theorem closeSession (h : controller.Orderly) {id : SessionId} {rest : List Message}
    (hmailbox : controller.mailbox = .due (.window id) :: rest)
    (hopen : id ∈ controller.sessions.map (·.id)) :
    (Controller.closeSession { controller with mailbox := rest } id).Orderly := by
  have hidle : ¬controller.debounce.isPending = true := by
    intro hpending
    rw [h.exclusive hpending] at hopen
    cases hopen
  refine ⟨?ids, ?numbers, ?spares, ?expected, ?active, ?windows,
    fun hpending => absurd hpending hidle, ?debouncing⟩
  case ids =>
    exact h.ids.sublist (List.filter_sublist.map _)
  case numbers =>
    intro session hsession
    exact h.numbers session (List.mem_filter.mp hsession).1
  case spares =>
    intro session hsession
    exact h.spares session (List.mem_filter.mp hsession).1
  case expected =>
    intro alarm houtstanding
    have hexpected : controller.Expects alarm := by
      apply h.expected
      rcases houtstanding with ⟨timer, htimer, rfl⟩ | hdue
      · exact Or.inl ⟨timer, (List.mem_filter.mp htimer).1, rfl⟩
      · exact Or.inr (hmailbox ▸ List.mem_cons_of_mem _ hdue)
    cases alarm with
    | spawnCheck other definition =>
        exact ⟨hexpected.1, fun session hsession hid =>
          hexpected.2 session (List.mem_filter.mp hsession).1 hid⟩
    | recheck _ | window _ | debounce _ => exact hexpected
  case active =>
    intro timer htimer other hother
    obtain ⟨hmem, hne⟩ := List.mem_filter.mp htimer
    obtain ⟨session, hsession, rfl⟩ := List.mem_map.mp (h.active timer hmem other hother)
    rw [hother] at hne
    refine List.mem_map_of_mem (List.mem_filter.mpr ⟨hsession, ?_⟩)
    simpa using hne
  case windows =>
    intro session hsession
    obtain ⟨hmem, hne⟩ := List.mem_filter.mp hsession
    have hid : session.id ≠ id := by simpa using hne
    rcases h.windows session hmem with ⟨timer, htimer, halarm⟩ | hdue
    · refine Or.inl ⟨timer, List.mem_filter.mpr ⟨htimer, ?_⟩, halarm⟩
      simp [halarm, Alarm.session?, hid]
    · rw [hmailbox] at hdue
      refine Or.inr ((List.mem_cons.mp hdue).resolve_left fun hsame => ?_)
      simp only [Message.due.injEq, Alarm.window.injEq] at hsame
      exact hid hsame
  case debouncing =>
    refine .idle (Bool.eq_false_iff.mpr hidle) ?_
    have hquiet : controller.agenda.quietTimers = [] := by
      cases h.debouncing with
      | idle _ hquiet => exact hquiet
      | armed _ hpending _ _ => exact absurd hpending hidle
      | due hpending _ _ => exact absurd hpending hidle
    refine List.eq_nil_iff_forall_not_mem.mpr fun timer htimer => ?_
    obtain ⟨hmem, hnone⟩ := Agenda.mem_quietTimers.mp htimer
    have hkept : timer ∈ controller.agenda.quietTimers :=
      Agenda.mem_quietTimers.mpr ⟨(List.mem_filter.mp hmem).1, hnone⟩
    rw [hquiet] at hkept
    cases hkept

/-! ## Waking and handling -/

theorem wake (h : controller.Orderly) (time : Nat) : (controller.wake time).Orderly := by
  have hlater {timer : Timer} (htimer : timer ∈ (controller.wake time).agenda) :
      timer ∈ controller.agenda := (List.mem_filter.mp htimer).1
  have hmailbox {message : Message} : message ∈ (controller.wake time).mailbox ↔
      message ∈ controller.mailbox ∨
        ∃ timer ∈ controller.agenda, timer.deadline ≤ time ∧ .due timer.alarm = message := by
    simp only [Controller.wake, Agenda.dueBy, List.map_map, List.mem_append, List.mem_map,
      List.mem_filter, decide_eq_true_eq, Function.comp_apply, and_assoc]
  refine ⟨h.ids, h.numbers, h.spares, ?expected,
    fun timer htimer => h.active timer (hlater htimer), ?windows, h.exclusive, ?debouncing⟩
  case expected =>
    rintro alarm (⟨timer, htimer, rfl⟩ | hdue)
    · exact h.expected _ (Or.inl ⟨timer, hlater htimer, rfl⟩)
    · rcases hmailbox.mp hdue with hold | ⟨timer, htimer, -, halarm⟩
      · exact h.expected alarm (Or.inr hold)
      · exact h.expected alarm (Or.inl ⟨timer, htimer, Message.due.inj halarm⟩)
  case windows =>
    intro session hsession
    rcases h.windows session hsession with ⟨timer, htimer, halarm⟩ | hdue
    · by_cases hdeadline : timer.deadline ≤ time
      · exact Or.inr (hmailbox.mpr (Or.inr ⟨timer, htimer, hdeadline, congrArg _ halarm⟩))
      · exact Or.inl ⟨timer, List.mem_filter.mpr ⟨htimer, by simpa using hdeadline⟩, halarm⟩
    · exact Or.inr (hmailbox.mpr (Or.inl hdue))
  case debouncing =>
    have hquiet : (controller.wake time).agenda.quietTimers =
        controller.agenda.quietTimers.filter fun timer => time < timer.deadline := by
      simp only [Controller.wake, Agenda.laterThan, Agenda.quietTimers]
      exact List.filter_comm _ _ _
    cases h.debouncing with
    | idle hidle hnone => exact .idle hidle (by simp [hquiet, hnone])
    | due hpending hnone hmem =>
        exact .due hpending (by simp [hquiet, hnone]) (hmailbox.mpr (Or.inl hmem))
    | armed deadline hpending hone hfree =>
        by_cases hdeadline : deadline ≤ time
        · have htimer : (⟨deadline, .debounce controller.debounce.generation⟩ : Timer) ∈
              controller.agenda := by
            refine (Agenda.mem_quietTimers.mp ?_).1
            rw [hone]
            exact List.mem_cons_self
          refine .due hpending ?_ (hmailbox.mpr (Or.inr ⟨_, htimer, hdeadline, rfl⟩))
          simp [hquiet, hone, hdeadline]
        · refine .armed deadline hpending ?_ ?_
          · simp [hquiet, hone, not_le.mp hdeadline]
            rfl
          · intro hdue
            rcases hmailbox.mp hdue with hold | ⟨timer, htimer, hle, halarm⟩
            · exact hfree hold
            · have hmem : timer ∈ controller.agenda.quietTimers :=
                Agenda.mem_quietTimers.mpr ⟨htimer, by rw [Message.due.inj halarm]; rfl⟩
              rw [hone] at hmem
              rw [List.mem_singleton.mp hmem] at hle
              exact hdeadline hle

/-- Handling a message keeps a controller orderly. -/
theorem becomes (h : controller.Orderly) {rest : List Message}
    (hmailbox : controller.mailbox = message :: rest)
    (hbecomes : Becomes { controller with mailbox := rest } now host message next) :
    next.Orderly := by
  -- Messages other than alarms can always be taken out.
  have popped (hnews : ∀ alarm, message ≠ .due alarm) :
      Orderly { controller with mailbox := rest } :=
    h.pop hmailbox (fun _ _ => hnews _) fun _ => hnews _
  cases hbecomes with
  | heard event => exact (popped (by simp)).rearmWhenIdle now
  | spawned _ hlast hnew =>
      exact (popped (by simp)).awaitCheck (List.mem_of_getLast? hlast) hnew now
  | gone prior _ => exact (popped (by simp)).rearmWhenIdle now
  | opened prior name _ => exact ((popped (by simp)).memorize name).openSession now _ prior
  | @stale alarm hstale =>
      refine h.pop hmailbox ?_ ?_
      · rintro session hsession hmessage
        obtain rfl := Message.due.inj hmessage
        have hopen := session?_isSome_iff.mpr (List.mem_map_of_mem hsession)
        exact Bool.false_ne_true (hstale.symm.trans hopen)
      · intro hpending hmessage
        obtain rfl := Message.due.inj hmessage
        simp [heeds, hpending] at hstale
  | @checked id definition survived _ =>
      have hexpects : controller.Expects (.spawnCheck id definition) :=
        h.expected _ (Or.inr (hmailbox ▸ List.mem_cons_self))
      have horderly : Orderly { controller with mailbox := rest } :=
        h.pop hmailbox (by simp) (by simp)
      exact horderly.noteCheck hexpects survived
  | settled name _ =>
      have horderly : Orderly { controller with mailbox := rest } :=
        h.pop hmailbox (by simp) (by simp)
      exact (horderly.settle _).memorize name
  | closed hopen =>
      exact (h.closeSession hmailbox (session?_isSome_iff.mp hopen)).rearmWhenIdle now
  | deferred hheeds =>
      simp only [heeds, Bool.and_eq_true, decide_eq_true_eq] at hheeds
      obtain ⟨rfl, hpending⟩ := hheeds
      exact h.takeDebounce hmailbox hpending
  | cleaned hheeds =>
      simp only [heeds, Bool.and_eq_true, decide_eq_true_eq] at hheeds
      obtain ⟨rfl, hpending⟩ := hheeds
      exact (h.takeDebounce hmailbox hpending).countCleanup

end Orderly

end Controller
end CallBinding
