import CallBinding.Proofs.Controller.Orderly

/-!
# The alarms of a controller

An alarm is armed, goes off into the mailbox and is handled there.  `alarms`
lists those that are somewhere on this way, and `awaited` lists those that the
open sessions and the wait for a quiet graph account for.  Alarms may outlive
what they were armed for, but not as armed ones: once the mailbox is empty, the
two lists are the same.
-/

namespace CallBinding

/-- The alarm that a message tells of. -/
def Message.alarm? : Message → Option Alarm
  | due alarm => some alarm
  | event _ | callSiteCreated _ _ | detach => none

theorem Message.alarm?_eq_some_iff {message : Message} {alarm : Alarm} :
    message.alarm? = some alarm ↔ message = .due alarm := by
  cases message <;> simp [alarm?]

/-- The alarms that a session waits for. -/
def Session.awaited (session : Session) : List Alarm :=
  .window session.id ::
    ((if session.phase = .delayedRecheck then [.recheck session.id] else []) ++
      session.spawnChecks.map (.spawnCheck session.id))

theorem Session.length_awaited (session : Session) :
    session.awaited.length = session.pendingAlarms := by
  simp only [awaited, pendingAlarms, List.length_cons, List.length_append, List.length_map]
  split <;> simp <;> omega

theorem Session.session?_of_mem_awaited {session : Session} {alarm : Alarm}
    (h : alarm ∈ session.awaited) : alarm.session? = some session.id := by
  simp only [awaited, List.mem_cons, List.mem_append, List.mem_map] at h
  rcases h with rfl | hrecheck | ⟨definition, -, rfl⟩
  · rfl
  · split at hrecheck
    · rw [List.mem_singleton.mp hrecheck]
      rfl
    · cases hrecheck
  · rfl

theorem Session.length_flatMap_awaited (sessions : List Session) :
    (sessions.flatMap Session.awaited).length = pendingAlarmsOf sessions := by
  induction sessions with
  | nil => rfl
  | cons session rest ih =>
      rw [List.flatMap_cons, List.length_append, session.length_awaited, ih, pendingAlarmsOf]

namespace Controller

/-- The alarms that a controller waits for. -/
def awaited (controller : Controller) : List Alarm :=
  controller.sessions.flatMap Session.awaited ++
    if controller.debounce.isPending then [.debounce controller.debounce.generation] else []

/-- The alarms that have gone off and wait in the mailbox, and those that are armed. -/
def alarms (controller : Controller) : List Alarm :=
  controller.mailbox.filterMap Message.alarm? ++ controller.agenda.map (·.alarm)

/-- The alarms of a controller are accounted for: none is there twice, and those of an open
session are the ones that the session waits for. -/
structure Accounted (controller : Controller) : Prop where
  nodup : controller.alarms.Nodup
  own : ∀ session ∈ controller.sessions, ∀ alarm, alarm.session? = some session.id →
    (alarm ∈ controller.alarms ↔ alarm ∈ session.awaited)
  checks : ∀ session ∈ controller.sessions, session.spawnChecks.Nodup
  /-- A definition is due for the check of one session at most. -/
  once : ∀ first second definition, .spawnCheck first definition ∈ controller.alarms →
    .spawnCheck second definition ∈ controller.alarms → first = second
  phases : ∀ session ∈ controller.sessions,
    session.phase = .delayedRecheck ∨ session.phase = .settling

variable {controller next : Controller} {now : Nat} {host : Host} {message : Message}
variable {rest : List Message} {alarm : Alarm} {id : SessionId}

/-- An alarm of a session is heeded as long as the session is open. -/
theorem heeds_iff (hid : alarm.session? = some id) :
    controller.heeds alarm = true ↔ id ∈ controller.sessions.map (·.id) := by
  cases alarm with
  | spawnCheck other _ | recheck other | window other =>
      rw [← Option.some.inj hid]
      exact session?_isSome_iff
  | debounce _ => cases hid

theorem mem_alarms : alarm ∈ controller.alarms ↔ controller.Outstanding alarm := by
  simp [alarms, Outstanding, Message.alarm?_eq_some_iff, or_comm]

/-- The sessions that outstanding alarms belong to have been opened. -/
theorem Orderly.number_lt (h : controller.Orderly) (hmem : alarm ∈ controller.alarms)
    (hid : alarm.session? = some id) : id.number < controller.nextSession := by
  have hexpects := h.expected alarm (mem_alarms.mp hmem)
  cases alarm with
  | spawnCheck _ _ => exact Option.some.inj hid ▸ hexpects.1
  | recheck _ | window _ => exact Option.some.inj hid ▸ hexpects
  | debounce _ => cases hid

/-! ## What operations do to the alarms -/

theorem length_awaited (controller : Controller) :
    controller.awaited.length = controller.status.pendingAlarms := by
  simp only [awaited, status, List.length_append, Session.length_flatMap_awaited]
  split <;> simp

theorem alarms_eq_cons (hmailbox : controller.mailbox = .due alarm :: rest) :
    controller.alarms = alarm :: alarms { controller with mailbox := rest } := by
  simp [alarms, hmailbox, Message.alarm?]

theorem alarms_eq_of_news (hmailbox : controller.mailbox = message :: rest)
    (hnews : ∀ alarm, message ≠ .due alarm) :
    controller.alarms = alarms { controller with mailbox := rest } := by
  have hnone : message.alarm? = none := by
    rw [Option.eq_none_iff_forall_ne_some]
    exact fun alarm halarm => hnews alarm (Message.alarm?_eq_some_iff.mp halarm)
  simp [alarms, hmailbox, hnone]

theorem alarms_pop_sublist (hmailbox : controller.mailbox = message :: rest) :
    (alarms { controller with mailbox := rest }).Sublist controller.alarms := by
  refine List.Sublist.append_right (List.Sublist.filterMap _ ?_) _
  rw [hmailbox]
  exact List.sublist_cons_self message rest

theorem mem_alarms_of_pop (hmailbox : controller.mailbox = message :: rest)
    (h : alarm ∈ alarms { controller with mailbox := rest }) : alarm ∈ controller.alarms :=
  (alarms_pop_sublist hmailbox).subset h

theorem alarms_post {messages : List Message}
    (hmessages : ∀ message ∈ messages, ∀ alarm, message ≠ .due alarm) :
    alarms { controller with mailbox := controller.mailbox ++ messages } = controller.alarms := by
  have hnone : messages.filterMap Message.alarm? = [] := by
    refine List.filterMap_eq_nil_iff.mpr fun message hmessage => ?_
    rw [Option.eq_none_iff_forall_ne_some]
    exact fun alarm halarm =>
    hmessages message hmessage alarm (Message.alarm?_eq_some_iff.mp halarm)
  simp [alarms, List.filterMap_append, hnone]

/-- The alarms that go off stand before those that stay armed. -/
theorem alarms_wake_eq (controller : Controller) (time : Nat) :
    (controller.wake time).alarms = controller.mailbox.filterMap Message.alarm? ++
      ((controller.agenda.filter fun timer => timer.deadline ≤ time) ++
        controller.agenda.filter fun timer => !decide (timer.deadline ≤ time)).map (·.alarm) := by
  have hdue : ((controller.agenda.dueBy time).map Message.due).filterMap Message.alarm? =
      controller.agenda.dueBy time := by
    rw [List.filterMap_map]
    exact List.filterMap_some
  have hnot : ∀ timer : Timer, decide (time < timer.deadline) =
      !decide (timer.deadline ≤ time) := fun timer => by rw [← decide_not]; simp only [not_le]
  simp only [alarms, wake, List.filterMap_append, hdue, List.append_assoc, List.map_append]
  simp only [Agenda.dueBy, Agenda.laterThan, hnot]

/-- Alarms that go off are moved to the mailbox. -/
theorem alarms_wake (controller : Controller) (time : Nat) :
    (controller.wake time).alarms.Perm controller.alarms := by
  rw [alarms_wake_eq]
  exact ((List.filter_append_perm _ _).map _).append_left _

theorem alarms_arm (controller : Controller) (now : Nat) (delay : UInt64) (alarm : Alarm) :
    (controller.arm now delay alarm).alarms = controller.alarms ++ [alarm] := by
  simp [alarms, arm, Agenda.arm]

/-- Fewer armed alarms. -/
theorem alarms_sublist (controller : Controller) {agenda : Agenda}
    (h : agenda.Sublist controller.agenda) :
    (alarms { controller with agenda := agenda }).Sublist controller.alarms :=
  (h.map _).append_left _

theorem alarms_cancelDebounce_sublist (controller : Controller) :
    controller.cancelDebounce.alarms.Sublist controller.alarms :=
  alarms_sublist controller List.filter_sublist

theorem alarms_closeSession_sublist (controller : Controller) (id : SessionId) :
    (controller.closeSession id).alarms.Sublist controller.alarms :=
  alarms_sublist controller List.filter_sublist

/-- To give up the wait for a quiet graph takes no alarm from a session. -/
theorem mem_alarms_cancelDebounce (hid : alarm.session? = some id) :
    alarm ∈ controller.cancelDebounce.alarms ↔ alarm ∈ controller.alarms := by
  refine ⟨fun h => (alarms_cancelDebounce_sublist controller).subset h, fun h => ?_⟩
  rcases List.mem_append.mp h with hrung | harmed
  · exact List.mem_append_left _ hrung
  · obtain ⟨timer, htimer, rfl⟩ := List.mem_map.mp harmed
    refine List.mem_append_right _ (List.mem_map_of_mem (List.mem_filter.mpr ⟨htimer, ?_⟩))
    simp only [decide_eq_true_eq]
    intro hdebounce
    rw [hdebounce] at hid
    cases hid

/-- The end of a session takes no alarm from another one. -/
theorem mem_alarms_closeSession {other : SessionId} (hid : alarm.session? = some other)
    (hne : other ≠ id) :
    alarm ∈ (controller.closeSession id).alarms ↔ alarm ∈ controller.alarms := by
  refine ⟨fun h => (alarms_closeSession_sublist controller id).subset h, fun h => ?_⟩
  rcases List.mem_append.mp h with hrung | harmed
  · exact List.mem_append_left _ hrung
  · obtain ⟨timer, htimer, rfl⟩ := List.mem_map.mp harmed
    refine List.mem_append_right _ (List.mem_map_of_mem (List.mem_filter.mpr ⟨htimer, ?_⟩))
    simp [hid, hne]

theorem alarms_rearmDebounce (controller : Controller) (now : Nat) :
    (controller.rearmDebounce now).alarms =
      controller.cancelDebounce.alarms ++ [.debounce (controller.debounce.generation + 1)] :=
  alarms_arm controller.cancelDebounce now controller.settings.debounce _

/-- To start the wait anew arms no alarm of a session. -/
theorem mem_alarms_rearmWhenIdle (hid : alarm.session? = some id) :
    alarm ∈ (controller.rearmWhenIdle now).alarms ↔ alarm ∈ controller.alarms := by
  unfold rearmWhenIdle
  split
  · exact Iff.rfl
  · rw [alarms_rearmDebounce, List.mem_append, List.mem_singleton, mem_alarms_cancelDebounce hid]
    refine or_iff_left ?_
    rintro rfl
    cases hid

theorem alarms_awaitCheck (controller : Controller) (now : Nat) (id : SessionId)
    (definition : BlockId) : (controller.awaitCheck now id definition).alarms =
      controller.alarms ++ [.spawnCheck id definition] :=
  alarms_arm controller now controller.settings.spawnCheckDelay _

/-- Two alarms are armed for a session that is opened. -/
theorem mem_alarms_openSession {call : BlockId} {prior : List BlockId}
    (hid : alarm.session? = some id) :
    alarm ∈ (controller.openSession now call prior).alarms ↔ alarm ∈ controller.alarms ∨
      alarm = .recheck ⟨controller.nextSession⟩ ∨ alarm = .window ⟨controller.nextSession⟩ := by
  let armed := (controller.arm now controller.settings.recheckDelay
    (.recheck ⟨controller.nextSession⟩)).arm now controller.settings.suppressionWindow
      (.window ⟨controller.nextSession⟩)
  have hcancel : alarm ∈ armed.cancelDebounce.alarms ↔ alarm ∈ armed.alarms :=
    mem_alarms_cancelDebounce hid
  have hopened : (controller.openSession now call prior).alarms = armed.cancelDebounce.alarms := rfl
  rw [hopened, hcancel, alarms_arm, alarms_arm, List.mem_append, List.mem_append,
    List.mem_singleton, List.mem_singleton, or_assoc]

/-! ## Accounted alarms -/

namespace Accounted

theorem new (settings : Settings) (cleanup : Cleanup) :
    (Controller.new settings cleanup).Accounted where
  nodup := List.nodup_nil
  own := fun _ h => by cases h
  checks := fun _ h => by cases h
  once := fun _ _ _ h => by cases h
  phases := fun _ h => by cases h

theorem window_mem (h : controller.Accounted) {session : Session}
    (hsession : session ∈ controller.sessions) : .window session.id ∈ controller.alarms := by
  rw [h.own session hsession _ rfl]
  exact List.mem_cons_self

theorem recheck_mem (h : controller.Accounted) {session : Session}
    (hsession : session ∈ controller.sessions) (hphase : session.phase = .delayedRecheck) :
    .recheck session.id ∈ controller.alarms := by
  rw [h.own session hsession _ rfl, Session.awaited, if_pos hphase]
  exact List.mem_cons_of_mem _ (List.mem_append_left _ List.mem_cons_self)

theorem spawnCheck_mem (h : controller.Accounted) {session : Session} {definition : BlockId}
    (hsession : session ∈ controller.sessions) (hcheck : definition ∈ session.spawnChecks) :
    .spawnCheck session.id definition ∈ controller.alarms := by
  rw [h.own session hsession _ rfl]
  exact List.mem_cons_of_mem _ (List.mem_append_right _ (List.mem_map_of_mem hcheck))

/-- Other alarms of the same sessions, of which the sessions keep their own. -/
theorem of_sessions {later : Controller} (h : controller.Accounted)
    (hsessions : later.sessions = controller.sessions) (hnodup : later.alarms.Nodup)
    (hown : ∀ alarm id, alarm.session? = some id →
      (alarm ∈ later.alarms ↔ alarm ∈ controller.alarms) ∨ id ∉ controller.sessions.map (·.id))
    (honce : ∀ id definition, .spawnCheck id definition ∈ later.alarms →
      .spawnCheck id definition ∈ controller.alarms) : later.Accounted := by
  refine ⟨hnodup, ?_, hsessions ▸ h.checks, ?_, hsessions ▸ h.phases⟩
  · rw [hsessions]
    intro session hsession alarm hid
    rcases hown alarm session.id hid with hsame | hclosed
    · exact hsame.trans (h.own session hsession alarm hid)
    · exact absurd (List.mem_map_of_mem hsession) hclosed
  · exact fun first second definition hfirst hsecond =>
      h.once first second definition (honce _ _ hfirst) (honce _ _ hsecond)

theorem of_alarms_eq {later : Controller} (h : controller.Accounted)
    (hsessions : later.sessions = controller.sessions)
    (halarms : later.alarms = controller.alarms) :
    later.Accounted :=
  h.of_sessions hsessions (halarms ▸ h.nodup) (fun _ _ _ => Or.inl (by rw [halarms]))
    fun _ _ hmem => halarms ▸ hmem

/-- More messages, none of which is an alarm. -/
theorem post (h : controller.Accounted) {messages : List Message}
    (hmessages : ∀ message ∈ messages, ∀ alarm, message ≠ .due alarm) :
    Accounted { controller with mailbox := controller.mailbox ++ messages } :=
  h.of_alarms_eq rfl (alarms_post hmessages)

theorem wake (h : controller.Accounted) (time : Nat) : (controller.wake time).Accounted := by
  have hperm := alarms_wake controller time
  exact h.of_sessions rfl (hperm.nodup_iff.mpr h.nodup) (fun _ _ _ => Or.inl hperm.mem_iff)
    fun _ _ hmem => hperm.mem_iff.mp hmem

/-- A message that is taken out of the mailbox makes no difference, unless it is an alarm of an
open session. -/
theorem pop (h : controller.Accounted) (hmailbox : controller.mailbox = message :: rest)
    (hmessage : ∀ alarm, message = .due alarm → ∀ id, alarm.session? = some id →
      id ∉ controller.sessions.map (·.id)) :
    Accounted { controller with mailbox := rest } := by
  by_cases hnews : ∀ alarm, message ≠ .due alarm
  · exact h.of_alarms_eq rfl (alarms_eq_of_news hmailbox hnews).symm
  · obtain ⟨rung, rfl⟩ : ∃ rung, message = .due rung := by simpa using hnews
    have halarms := alarms_eq_cons hmailbox
    refine h.of_sessions rfl (List.nodup_cons.mp (halarms ▸ h.nodup)).2 (fun alarm id hid => ?_)
      fun _ _ => mem_alarms_of_pop hmailbox
    by_cases hsame : alarm = rung
    · exact Or.inr (hmessage rung rfl id (hsame ▸ hid))
    · rw [halarms, List.mem_cons]
      exact Or.inl (or_iff_right hsame).symm

theorem memorize (h : controller.Accounted) (name : Option String) :
    (controller.memorize name).Accounted :=
  h.of_alarms_eq rfl rfl

theorem countCleanup (h : controller.Accounted) : controller.countCleanup.Accounted :=
  h.of_alarms_eq rfl rfl

theorem takeDebounce (h : controller.Accounted) : controller.takeDebounce.Accounted :=
  h.of_alarms_eq rfl rfl

theorem rearmWhenIdle (h : controller.Accounted) (horderly : controller.Orderly) (now : Nat) :
    (controller.rearmWhenIdle now).Accounted := by
  have hnodup : (controller.rearmWhenIdle now).alarms.Nodup := by
    unfold Controller.rearmWhenIdle
    split
    · exact h.nodup
    · rw [alarms_rearmDebounce]
      have hsublist := alarms_cancelDebounce_sublist controller
      refine (h.nodup.sublist hsublist).append (List.nodup_singleton _)
        (List.disjoint_singleton.mpr fun hmem => ?_)
      -- The generation of the new wait is later than any that an alarm was armed for.
      have hexpected : controller.debounce.generation + 1 ≤ controller.debounce.generation :=
        horderly.expected _ (mem_alarms.mp (hsublist.subset hmem))
      omega
  exact h.of_sessions (sessions_rearmWhenIdle controller now) hnodup
    (fun _ _ hid => Or.inl (mem_alarms_rearmWhenIdle hid))
    fun id definition hmem =>
      (mem_alarms_rearmWhenIdle (rfl : (Alarm.spawnCheck id definition).session? = some id)).mp hmem

/-! ### Sessions -/

/-- What happened during one session, with the alarms that it now waits for. -/
theorem of_modifySession {later : Controller} (h : controller.Accounted)
    (change : Session → Session) (hid : ∀ session, (change session).id = session.id)
    (hsessions : later.sessions = (controller.modifySession id change).sessions)
    (hnodup : later.alarms.Nodup)
    (hothers : ∀ alarm other, alarm.session? = some other → other ≠ id →
      (alarm ∈ later.alarms ↔ alarm ∈ controller.alarms))
    (honce : ∀ first second definition, .spawnCheck first definition ∈ later.alarms →
      .spawnCheck second definition ∈ later.alarms → first = second)
    (hchanged : ∀ session ∈ controller.sessions, session.id = id →
      (∀ alarm, alarm.session? = some id →
        (alarm ∈ later.alarms ↔ alarm ∈ (change session).awaited)) ∧
      (change session).spawnChecks.Nodup ∧
      ((change session).phase = .delayedRecheck ∨ (change session).phase = .settling)) :
    later.Accounted := by
  have hcases {session : Session} (hsession : session ∈ later.sessions) :
      (session ∈ controller.sessions ∧ session.id ≠ id) ∨
        ∃ former ∈ controller.sessions, former.id = id ∧ session = change former := by
    rw [hsessions] at hsession
    obtain ⟨former, hformer, rfl⟩ := List.mem_map.mp hsession
    split
    next hformerId => exact Or.inr ⟨former, hformer, hformerId, rfl⟩
    next hformerId => exact Or.inl ⟨hformer, hformerId⟩
  refine ⟨hnodup, ?_, ?_, honce, ?_⟩
  · intro session hsession alarm halarm
    rcases hcases hsession with ⟨hmem, hne⟩ | ⟨former, hformer, rfl, rfl⟩
    · exact (hothers alarm _ halarm hne).trans (h.own session hmem alarm halarm)
    · exact (hchanged former hformer rfl).1 alarm (halarm.trans (congrArg some (hid former)))
  · intro session hsession
    rcases hcases hsession with ⟨hmem, -⟩ | ⟨former, hformer, hformerId, rfl⟩
    · exact h.checks session hmem
    · exact (hchanged former hformer hformerId).2.1
  · intro session hsession
    rcases hcases hsession with ⟨hmem, -⟩ | ⟨former, hformer, hformerId, rfl⟩
    · exact h.phases session hmem
    · exact (hchanged former hformer hformerId).2.2

theorem awaitCheck (h : controller.Accounted) {session : Session} {definition : BlockId}
    (horderly : controller.Orderly) (hsession : session ∈ controller.sessions)
    (hnew : ∀ id, .spawnCheck id definition ∉ controller.alarms) (now : Nat) :
    (controller.awaitCheck now session.id definition).Accounted := by
  have halarms := alarms_awaitCheck controller now session.id definition
  have hmem {alarm : Alarm} : alarm ∈ (controller.awaitCheck now session.id definition).alarms ↔
      alarm ∈ controller.alarms ∨ alarm = .spawnCheck session.id definition := by
    rw [halarms, List.mem_append, List.mem_singleton]
  refine h.of_modifySession
    (fun session => { session with spawnChecks := session.spawnChecks ++ [definition] })
    (fun _ => rfl) rfl ?_ ?_ ?_ ?_
  · rw [halarms]
    exact h.nodup.append (List.nodup_singleton _) (List.disjoint_singleton.mpr (hnew session.id))
  · intro alarm other hother hne
    rw [hmem]
    refine or_iff_left ?_
    rintro rfl
    exact hne (Option.some.inj hother).symm
  · intro first second other hfirst hsecond
    rcases hmem.mp hfirst with hfirst | hfirst <;> rcases hmem.mp hsecond with hsecond | hsecond
    · exact h.once first second other hfirst hsecond
    · exact absurd ((Alarm.spawnCheck.inj hsecond).2 ▸ hfirst) (hnew first)
    · exact absurd ((Alarm.spawnCheck.inj hfirst).2 ▸ hsecond) (hnew second)
    · exact (Alarm.spawnCheck.inj hfirst).1.trans (Alarm.spawnCheck.inj hsecond).1.symm
  · intro other hother hid
    obtain rfl := horderly.eq_of_id hother hsession hid
    refine ⟨fun alarm halarm => ?_, ?_, h.phases other hother⟩
    · rw [hmem, h.own other hother alarm halarm]
      simp only [Session.awaited, List.map_append, List.map_cons, List.map_nil, List.mem_cons,
        List.mem_append, List.not_mem_nil, or_false, or_assoc]
    · exact (h.checks other hother).append (List.nodup_singleton _)
        (List.disjoint_singleton.mpr fun hcheck => hnew other.id (h.spawnCheck_mem hother hcheck))

/-- What happened during a session of which an alarm has just been taken out of the mailbox. -/
theorem of_handled {change : Session → Session} (h : controller.Accounted)
    (hmailbox : controller.mailbox = .due alarm :: rest) (halarm : alarm.session? = some id)
    (hid : ∀ session, (change session).id = session.id)
    (hchanged : ∀ session ∈ controller.sessions, session.id = id →
      (∀ other, other ∈ session.awaited ∧ other ≠ alarm ↔ other ∈ (change session).awaited) ∧
      (change session).spawnChecks.Nodup ∧
      ((change session).phase = .delayedRecheck ∨ (change session).phase = .settling)) :
    (Controller.modifySession { controller with mailbox := rest } id change).Accounted := by
  have halarms := alarms_eq_cons hmailbox
  have hnodup := h.nodup
  rw [halarms, List.nodup_cons] at hnodup
  have hmem {other : Alarm} : other ∈ alarms { controller with mailbox := rest } ↔
      other ∈ controller.alarms ∧ other ≠ alarm := by
    rw [halarms, List.mem_cons]
    constructor
    · intro hother
      exact ⟨Or.inr hother, fun hsame => hnodup.1 (hsame ▸ hother)⟩
    · exact fun hother => hother.1.resolve_left hother.2
  refine h.of_modifySession change hid rfl hnodup.2 ?_ ?_ ?_
  · intro other owner howner hne
    refine hmem.trans (and_iff_left ?_)
    rintro rfl
    exact hne (Option.some.inj (howner.symm.trans halarm))
  · exact fun first second definition hfirst hsecond =>
      h.once first second definition (hmem.mp hfirst).1 (hmem.mp hsecond).1
  · intro session hsession hsessionId
    obtain ⟨hawaited, hrest⟩ := hchanged session hsession hsessionId
    refine ⟨fun other hother => ?_, hrest⟩
    rw [← hawaited, ← h.own session hsession other (hsessionId ▸ hother)]
    exact hmem

theorem noteCheck (h : controller.Accounted) {definition : BlockId}
    (hmailbox : controller.mailbox = .due (.spawnCheck id definition) :: rest) (survived : Bool) :
    (Controller.noteCheck { controller with mailbox := rest } id definition
      survived).Accounted := by
  refine h.of_handled hmailbox rfl (fun _ => rfl) fun session hsession hid => ⟨fun other => ?_,
    (h.checks session hsession).filter _, h.phases session hsession⟩
  subst hid
  simp only [Session.awaited, List.mem_cons, List.mem_append, List.mem_map, List.mem_filter,
    decide_eq_true_eq]
  constructor
  · rintro ⟨rfl | hrecheck | ⟨check, hcheck, rfl⟩, hne⟩
    · exact Or.inl rfl
    · exact Or.inr (Or.inl hrecheck)
    · exact Or.inr (Or.inr ⟨check, ⟨hcheck, fun hsame => hne (hsame ▸ rfl)⟩, rfl⟩)
  · rintro (rfl | hrecheck | ⟨check, ⟨hcheck, hne⟩, rfl⟩)
    · exact ⟨Or.inl rfl, by simp⟩
    · refine ⟨Or.inr (Or.inl hrecheck), ?_⟩
      rintro rfl
      split at hrecheck <;> simp at hrecheck
    · exact ⟨Or.inr (Or.inr ⟨check, hcheck, rfl⟩), by simpa using hne⟩

theorem settle (h : controller.Accounted)
    (hmailbox : controller.mailbox = .due (.recheck id) :: rest) :
    (Controller.settle { controller with mailbox := rest } id).Accounted := by
  refine h.of_handled hmailbox rfl (fun _ => rfl) fun session hsession hid => ⟨fun other => ?_,
    h.checks session hsession, Or.inr rfl⟩
  subst hid
  simp only [Session.awaited, List.mem_cons, List.mem_append, List.mem_map]
  constructor
  · rintro ⟨rfl | hrecheck | hcheck, hne⟩
    · exact Or.inl rfl
    · split at hrecheck
      · exact absurd (List.mem_singleton.mp hrecheck) hne
      · cases hrecheck
    · exact Or.inr (Or.inr hcheck)
  · rintro (rfl | hrecheck | ⟨check, hcheck, rfl⟩)
    · exact ⟨Or.inl rfl, by simp⟩
    · simp at hrecheck
    · exact ⟨Or.inr (Or.inr ⟨check, hcheck, rfl⟩), by simp⟩

theorem openSession (h : controller.Accounted) (horderly : controller.Orderly) (now : Nat)
    (call : BlockId) (prior : List BlockId) :
    (controller.openSession now call prior).Accounted := by
  let id : SessionId := ⟨controller.nextSession⟩
  -- No alarm has been armed for the session before it is opened.
  have hnew {alarm : Alarm} (hid : alarm.session? = some id) : alarm ∉ controller.alarms :=
    fun hmem => lt_irrefl _ (horderly.number_lt hmem hid)
  let armed := (controller.arm now controller.settings.recheckDelay (.recheck id)).arm now
    controller.settings.suppressionWindow (.window id)
  have harmed : armed.alarms = controller.alarms ++ [.recheck id] ++ [.window id] := by
    rw [alarms_arm, alarms_arm]
  have hsublist : (controller.openSession now call prior).alarms.Sublist armed.alarms :=
    alarms_sublist armed List.filter_sublist
  refine ⟨?_, ?_, ?_, ?_, ?_⟩
  · refine List.Nodup.sublist hsublist ?_
    rw [harmed]
    refine List.Nodup.append (h.nodup.append (List.nodup_singleton _)
      (List.disjoint_singleton.mpr (hnew rfl))) (List.nodup_singleton _)
      (List.disjoint_singleton.mpr ?_)
    have hwindow : .window id ∉ controller.alarms := hnew rfl
    simpa using hwindow
  · refine forall_sessions_openSession (fun session hsession alarm hid => ?_) fun alarm hid => ?_
    · have hne : session.id ≠ id := by
        rintro hsame
        have hlt := horderly.numbers session hsession
        rw [hsame] at hlt
        exact lt_irrefl _ hlt
      rw [mem_alarms_openSession hid, ← h.own session hsession alarm hid]
      refine or_iff_left ?_
      rintro (rfl | rfl) <;> exact hne (Option.some.inj hid).symm
    · rw [mem_alarms_openSession hid]
      simp only [Session.awaited, if_true, List.map_nil, List.append_nil, List.mem_cons,
        List.not_mem_nil, or_false]
      rw [or_iff_right (hnew hid), or_comm]
  · exact forall_sessions_openSession h.checks List.nodup_nil
  · intro first second definition hfirst hsecond
    have hold {other : SessionId}
        (hcheck : .spawnCheck other definition ∈ (controller.openSession now call prior).alarms) :
        .spawnCheck other definition ∈ controller.alarms := by
      simpa using (mem_alarms_openSession rfl).mp hcheck
    exact h.once first second definition (hold hfirst) (hold hsecond)
  · exact forall_sessions_openSession h.phases (Or.inl rfl)

/-- A session is closed with all of its alarms but those that have gone off. -/
theorem closeSession (h : controller.Accounted)
    (hmailbox : controller.mailbox = .due (.window id) :: rest) :
    (Controller.closeSession { controller with mailbox := rest } id).Accounted := by
  have halarms := alarms_eq_cons hmailbox
  have hsublist := alarms_closeSession_sublist { controller with mailbox := rest } id
  have hsubset {alarm : Alarm}
      (hmem : alarm ∈ (Controller.closeSession { controller with mailbox := rest } id).alarms) :
      alarm ∈ controller.alarms :=
    mem_alarms_of_pop hmailbox (hsublist.subset hmem)
  refine ⟨?_, ?_, ?_, ?_, ?_⟩
  · exact (List.nodup_cons.mp (halarms ▸ h.nodup)).2.sublist hsublist
  · intro session hsession alarm hid
    obtain ⟨hmem, hne⟩ := List.mem_filter.mp hsession
    have hother : session.id ≠ id := by simpa using hne
    rw [mem_alarms_closeSession hid hother, ← h.own session hmem alarm hid, halarms, List.mem_cons]
    refine (or_iff_right ?_).symm
    rintro rfl
    exact hother (Option.some.inj hid).symm
  · exact fun session hsession => h.checks session (List.mem_filter.mp hsession).1
  · exact fun first second definition hfirst hsecond =>
      h.once first second definition (hsubset hfirst) (hsubset hsecond)
  · exact fun session hsession => h.phases session (List.mem_filter.mp hsession).1

/-! ### Handling -/

/-- Handling a message keeps the alarms accounted for, if a new definition is not the subject of
an earlier alarm. -/
theorem becomes (h : controller.Accounted) (horderly : controller.Orderly)
    (hmailbox : controller.mailbox = message :: rest)
    (hnew : ∀ definition, message = .event ⟨.create, definition⟩ →
      ∀ id, .spawnCheck id definition ∉ controller.alarms)
    (hbecomes : Becomes { controller with mailbox := rest } now host message next) :
    next.Accounted := by
  -- Messages other than alarms can always be taken out.
  have popped (hnews : ∀ alarm, message ≠ .due alarm) :
      Accounted { controller with mailbox := rest } ∧ Orderly { controller with mailbox := rest } :=
    ⟨h.pop hmailbox fun alarm halarm => absurd halarm (hnews alarm),
      horderly.pop hmailbox (fun _ _ => hnews _) fun _ => hnews _⟩
  cases hbecomes with
  | heard event =>
      obtain ⟨haccounted, hpopped⟩ := popped (by simp)
      exact haccounted.rearmWhenIdle hpopped now
  | @spawned event session hcreate hlast _ =>
      obtain ⟨haccounted, hpopped⟩ := popped (by simp)
      refine haccounted.awaitCheck hpopped (List.mem_of_getLast? hlast) (fun id => ?_) now
      rw [← alarms_eq_of_news hmailbox (by simp)]
      exact hnew event.block (by rw [← hcreate]) id
  | gone prior _ =>
      obtain ⟨haccounted, hpopped⟩ := popped (by simp)
      exact haccounted.rearmWhenIdle hpopped now
  | opened prior name _ =>
      obtain ⟨haccounted, hpopped⟩ := popped (by simp)
      exact (haccounted.memorize name).openSession (hpopped.memorize name) now _ prior
  | stale hstale =>
      refine h.pop hmailbox fun alarm halarm id hid hopen => ?_
      obtain rfl := Message.due.inj halarm
      exact Bool.false_ne_true (hstale.symm.trans ((heeds_iff hid).mpr hopen))
  | checked definition survived _ => exact h.noteCheck hmailbox survived
  | settled name _ => exact (h.settle hmailbox).memorize name
  | closed hopen =>
      exact (h.closeSession hmailbox).rearmWhenIdle
        (horderly.closeSession hmailbox (session?_isSome_iff.mp hopen)) now
  | deferred _ =>
      have haccounted := h.pop hmailbox fun _ hother _ hid => by
        rw [← Message.due.inj hother] at hid
        cases hid
      exact haccounted.takeDebounce
  | cleaned _ =>
      have haccounted := h.pop hmailbox fun _ hother _ hid => by
        rw [← Message.due.inj hother] at hid
        cases hid
      exact haccounted.takeDebounce.countCleanup

/-! ## The alarms that are awaited -/

theorem nodup_flatMap_spawnChecks (h : controller.Accounted) (horderly : controller.Orderly) :
    (controller.sessions.flatMap (·.spawnChecks)).Nodup := by
  refine List.nodup_flatMap.mpr ⟨h.checks, ?_⟩
  have hids := List.pairwise_map.mp horderly.ids
  refine hids.imp_of_mem fun {first second} hfirst hsecond hne definition hcheck hother => hne ?_
  exact h.once _ _ definition (h.spawnCheck_mem hfirst hcheck) (h.spawnCheck_mem hsecond hother)

theorem nodup_awaited (h : controller.Accounted) (horderly : controller.Orderly) :
    controller.awaited.Nodup := by
  have hsession : ∀ session ∈ controller.sessions, session.awaited.Nodup := by
    intro session hsession
    have hchecks : (session.spawnChecks.map (Alarm.spawnCheck session.id)).Nodup :=
      (h.checks session hsession).map fun _ _ hsame => (Alarm.spawnCheck.inj hsame).2
    unfold Session.awaited
    split <;> simp [hchecks]
  have hids := List.pairwise_map.mp horderly.ids
  refine List.Nodup.append (List.nodup_flatMap.mpr ⟨hsession, ?_⟩) (by split <;> simp) ?_
  · refine hids.imp fun {first second} hne alarm hfirst hsecond => hne ?_
    exact Option.some.inj ((Session.session?_of_mem_awaited hfirst).symm.trans
      (Session.session?_of_mem_awaited hsecond))
  · intro alarm hmem hdebounce
    obtain ⟨session, -, halarm⟩ := List.mem_flatMap.mp hmem
    have hid := Session.session?_of_mem_awaited halarm
    split at hdebounce
    · rw [List.mem_singleton.mp hdebounce] at hid
      cases hid
    · cases hdebounce

/-- What a controller waits for are the alarms that it will heed. -/
theorem mem_awaited (h : controller.Accounted) (horderly : controller.Orderly) :
    alarm ∈ controller.awaited ↔ alarm ∈ controller.alarms ∧ controller.heeds alarm = true := by
  rw [awaited, List.mem_append]
  constructor
  · rintro (hmem | hdebounce)
    · obtain ⟨session, hsession, halarm⟩ := List.mem_flatMap.mp hmem
      have hid := Session.session?_of_mem_awaited halarm
      exact ⟨(h.own session hsession alarm hid).mpr halarm,
        (heeds_iff hid).mpr (List.mem_map_of_mem hsession)⟩
    · split at hdebounce
      next hpending =>
        rw [List.mem_singleton.mp hdebounce]
        refine ⟨mem_alarms.mpr ?_, by simp [heeds, hpending]⟩
        cases horderly.debouncing with
        | idle hidle _ => exact absurd (hidle.symm.trans hpending) (by simp)
        | armed deadline _ hquiet _ =>
            have htimer : (⟨deadline, .debounce controller.debounce.generation⟩ : Timer) ∈
                controller.agenda.quietTimers := hquiet ▸ List.mem_cons_self
            exact Or.inl ⟨_, (Agenda.mem_quietTimers.mp htimer).1, rfl⟩
        | due _ _ hmem => exact Or.inr hmem
      next => cases hdebounce
  · rintro ⟨hmem, hheeds⟩
    cases hid : alarm.session? with
    | some id =>
        obtain ⟨session, hsession, rfl⟩ := List.mem_map.mp ((heeds_iff hid).mp hheeds)
        exact Or.inl (List.mem_flatMap.mpr
          ⟨session, hsession, (h.own session hsession alarm hid).mp hmem⟩)
    | none =>
        cases alarm with
        | debounce generation =>
            simp only [heeds, Bool.and_eq_true, decide_eq_true_eq] at hheeds
            exact Or.inr (by simp [hheeds.1, hheeds.2])
        | spawnCheck _ _ | recheck _ | window _ => cases hid

/-- Every armed alarm is one that the controller will heed. -/
theorem heeds_of_armed (horderly : controller.Orderly) {timer : Timer}
    (htimer : timer ∈ controller.agenda) : controller.heeds timer.alarm = true := by
  cases hid : timer.alarm.session? with
  | some id => exact (heeds_iff hid).mpr (horderly.active timer htimer id hid)
  | none =>
      have hquiet := Agenda.mem_quietTimers.mpr ⟨htimer, hid⟩
      cases horderly.debouncing with
      | idle _ hnone | due _ hnone _ =>
          rw [hnone] at hquiet
          cases hquiet
      | armed deadline hpending hone _ =>
          rw [hone] at hquiet
          rw [List.mem_singleton.mp hquiet]
          simp [heeds, hpending]

/-- Without messages, the armed alarms are those that the controller waits for. -/
theorem perm_awaited (h : controller.Accounted) (horderly : controller.Orderly)
    (hmailbox : controller.mailbox = []) :
    (controller.agenda.map (·.alarm)).Perm controller.awaited := by
  have halarms : controller.alarms = controller.agenda.map (·.alarm) := by simp [alarms, hmailbox]
  refine (List.perm_ext_iff_of_nodup (halarms ▸ h.nodup) (h.nodup_awaited horderly)).mpr ?_
  intro alarm
  rw [h.mem_awaited horderly, halarms]
  refine (and_iff_left_of_imp fun hmem => ?_).symm
  obtain ⟨timer, htimer, rfl⟩ := List.mem_map.mp hmem
  exact heeds_of_armed horderly htimer

end Accounted

/-! ## Alarms that are over -/

/-- The session that an alarm belongs to has been opened and is open no longer, or the wait that
it was armed for has been started anew or has ended. -/
def IsOver (controller : Controller) : Alarm → Prop
  | .spawnCheck id _ | .recheck id | .window id =>
      id.number < controller.nextSession ∧ id ∉ controller.sessions.map (·.id)
  | .debounce generation =>
      generation < controller.debounce.generation ∨
        generation = controller.debounce.generation ∧ controller.debounce.isPending = false

theorem IsOver.of_same {later : Controller} (h : controller.IsOver alarm)
    (hsessions : later.sessions = controller.sessions)
    (hnumber : later.nextSession = controller.nextSession)
    (hdebounce : later.debounce = controller.debounce) : later.IsOver alarm := by
  cases alarm with
  | spawnCheck _ _ | recheck _ | window _ => simpa only [IsOver, hsessions, hnumber] using h
  | debounce _ => simpa only [IsOver, hdebounce] using h

theorem not_heeds_of_isOver (h : controller.IsOver alarm) : controller.heeds alarm = false := by
  rw [← Bool.not_eq_true]
  intro hheeds
  cases alarm with
  | spawnCheck id _ | recheck id | window id => exact h.2 ((heeds_iff rfl).mp hheeds)
  | debounce generation =>
      simp only [heeds, Bool.and_eq_true, decide_eq_true_eq] at hheeds
      rcases h with hlt | ⟨-, hidle⟩
      · exact absurd hheeds.1 hlt.ne
      · exact Bool.false_ne_true (hidle.symm.trans hheeds.2)

/-- An alarm that has gone off is over or heeded. -/
theorem Orderly.isOver_iff (h : controller.Orderly) (hmem : alarm ∈ controller.alarms) :
    controller.IsOver alarm ↔ controller.heeds alarm = false := by
  refine ⟨not_heeds_of_isOver, fun hstale => ?_⟩
  have hclosed {id : SessionId} (hid : alarm.session? = some id) :
      id.number < controller.nextSession ∧ id ∉ controller.sessions.map (·.id) :=
    ⟨h.number_lt hmem hid, fun hopen =>
      Bool.false_ne_true (hstale.symm.trans ((heeds_iff hid).mpr hopen))⟩
  cases alarm with
  | spawnCheck id _ | recheck id | window id => exact hclosed rfl
  | debounce generation =>
      have hle : generation ≤ controller.debounce.generation :=
        h.expected _ (mem_alarms.mp hmem)
      rcases hle.lt_or_eq with hlt | rfl
      · exact Or.inl hlt
      · exact Or.inr ⟨rfl, by simpa [heeds] using hstale⟩

namespace Becomes

/-- The open sessions were open before, but for one that is new. -/
theorem ids (h : Becomes controller now host message next) :
    controller.nextSession ≤ next.nextSession ∧
      ∀ id ∈ next.sessions.map (·.id), id ∈ controller.sessions.map (·.id) ∨
        id.number = controller.nextSession := by
  have rearmed (controller : Controller) :
      (controller.rearmWhenIdle now).nextSession = controller.nextSession := by
    unfold rearmWhenIdle
    split <;> rfl
  cases h with
  | heard _ | gone _ _ =>
      rw [rearmed, sessions_rearmWhenIdle]
      exact ⟨le_refl _, fun id hid => Or.inl hid⟩
  | spawned _ _ _ | checked _ _ _ | settled _ _ =>
      refine ⟨le_refl _, fun id hid => Or.inl ?_⟩
      obtain ⟨session, hsession, rfl⟩ := List.mem_map.mp hid
      obtain ⟨former, hformer : former ∈ controller.sessions, rfl⟩ := List.mem_map.mp hsession
      have hmem : former.id ∈ controller.sessions.map (·.id) := List.mem_map_of_mem hformer
      split <;> exact hmem
  | opened prior name _ =>
      refine ⟨Nat.le_succ _, fun id hid => ?_⟩
      rw [sessions_openSession, List.map_append, List.mem_append] at hid
      refine hid.imp_right fun hnew => ?_
      rw [List.mem_singleton.mp hnew]
      rfl
  | closed _ =>
      rw [rearmed, sessions_rearmWhenIdle]
      refine ⟨le_refl _, fun id hid => Or.inl ?_⟩
      obtain ⟨session, hsession, rfl⟩ := List.mem_map.mp hid
      exact List.mem_map_of_mem (List.mem_filter.mp hsession).1
  | stale _ | deferred _ | cleaned _ => exact ⟨le_refl _, fun id hid => Or.inl hid⟩

/-- The check of a definition is armed on the news of its creation only. -/
theorem spawnCheck_of_mem_alarms (h : Becomes controller now host message next)
    {definition : BlockId} (hmem : .spawnCheck id definition ∈ next.alarms) :
    .spawnCheck id definition ∈ controller.alarms ∨ message = .event ⟨.create, definition⟩ := by
  cases h with
  | heard _ | gone _ _ => exact Or.inl ((mem_alarms_rearmWhenIdle rfl).mp hmem)
  | @spawned event session hcreate _ _ =>
      rw [alarms_awaitCheck, List.mem_append, List.mem_singleton] at hmem
      refine hmem.imp_right fun hnew => ?_
      rw [(Alarm.spawnCheck.inj hnew).2, ← hcreate]
  | opened prior name _ =>
      have hmem : .spawnCheck id definition ∈ (controller.memorize name).alarms ∨ _ :=
        (mem_alarms_openSession rfl).mp hmem
      exact Or.inl (hmem.resolve_right (by simp))
  | stale _ | checked _ _ _ | settled _ _ | deferred _ | cleaned _ => exact Or.inl hmem
  | @closed closing _ =>
      exact Or.inl ((alarms_closeSession_sublist controller closing).subset
        ((mem_alarms_rearmWhenIdle rfl).mp hmem))

/-- The wait goes on, or is given up, or another one is started. -/
theorem debounce_cases (h : Becomes controller now host message next) :
    next.debounce = controller.debounce ∨
      next.debounce = { controller.debounce with isPending := false } ∨
      controller.debounce.generation < next.debounce.generation := by
  have rearmed (controller : Controller) :
      (controller.rearmWhenIdle now).debounce = controller.debounce ∨
        controller.debounce.generation < (controller.rearmWhenIdle now).debounce.generation := by
    unfold rearmWhenIdle
    split
    · exact Or.inl rfl
    · exact Or.inr (Nat.lt_succ_self _)
  cases h with
  | heard _ | gone _ _ => exact (rearmed controller).imp_right Or.inr
  | @closed id _ => exact (rearmed (controller.closeSession id)).imp_right Or.inr
  | spawned _ _ _ | stale _ | checked _ _ _ | settled _ _ => exact Or.inl rfl
  | opened _ _ _ | deferred _ | cleaned _ => exact Or.inr (Or.inl rfl)

/-- What is over stays over. -/
theorem isOver (h : Becomes controller now host message next) (hover : controller.IsOver alarm) :
    next.IsOver alarm := by
  have hclosed {id : SessionId}
      (hid : id.number < controller.nextSession ∧ id ∉ controller.sessions.map (·.id)) :
      id.number < next.nextSession ∧ id ∉ next.sessions.map (·.id) := by
    obtain ⟨hle, hids⟩ := h.ids
    refine ⟨hid.1.trans_le hle, fun hopen => ?_⟩
    rcases hids id hopen with hold | hnew
    · exact hid.2 hold
    · exact hid.1.ne hnew
  cases alarm with
  | spawnCheck id _ | recheck id | window id => exact hclosed hover
  | debounce generation =>
      rcases h.debounce_cases with hsame | hsame | hlater
      · simpa only [IsOver, hsame] using hover
      · simp only [IsOver, hsame]
        exact hover.imp_right fun hended => ⟨hended.1, trivial⟩
      · rcases hover with hlt | ⟨rfl, -⟩
        · exact Or.inl (hlt.trans hlater)
        · exact Or.inl hlater

/-- A session is closed when its end has been handled. -/
theorem isOver_window (h : Becomes controller now host (.due (.window id)) next)
    (hopened : id.number < controller.nextSession) : next.IsOver (.window id) := by
  refine ⟨hopened.trans_le h.ids.1, fun hopen => ?_⟩
  cases h with
  | stale hstale => exact Bool.false_ne_true (hstale.symm.trans ((heeds_iff rfl).mpr hopen))
  | closed _ =>
      rw [sessions_rearmWhenIdle] at hopen
      obtain ⟨session, hsession, hid⟩ := List.mem_map.mp hopen
      exact of_decide_eq_true (List.mem_filter.mp hsession).2 hid

end Becomes

/-- The turn on an alarm that is not heeded changes nothing. -/
theorem handle_of_not_heeds (h : controller.heeds alarm = false) (now : Nat) (host : Host) :
    controller.handle now host (.due alarm) = .proceed controller host := by
  cases alarm with
  | spawnCheck id _ | recheck id | window id =>
      have hnone : controller.session? id = none := by simpa [heeds] using h
      simp [handle, onAlarm, onSpawnCheck, onRecheck, onWindow, hnone]
  | debounce generation =>
      have hends := controller.endsWait_onDebounce host generation
      simp only [handle, onAlarm]
      generalize controller.onDebounce host generation = turn at hends ⊢
      cases hends with
      | stale _ => rfl
      | deferred hheeds _ | swept hheeds _ _ | counted hheeds _ _ | crashed hheeds _ _ =>
          exact absurd (hheeds.symm.trans h) (by simp)

end Controller
end CallBinding
