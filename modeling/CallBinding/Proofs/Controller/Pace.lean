import CallBinding.Proofs.Controller.Alarms
import CallBinding.Proofs.Controller.Quiet

/-!
# The pace of sessions

All sessions of a controller run at the same pace, so they are bound for the
second time and closed in the order in which they were opened.  `Paced` says so
of the alarms: those that have gone off and those that are armed stand in a
line, and an alarm that goes off before one armed earlier is one that may pass
it.  With acceptable settings every message keeps the pace.
-/

namespace CallBinding

/-- One alarm may be handled before another one.  The ends of sessions come in the order of the
sessions, and so do their second bindings, and no session ends before its second binding. -/
def Alarm.MayPrecede : Alarm → Alarm → Prop
  | window first, window second => first.number < second.number
  | recheck first, recheck second => first.number < second.number
  | window ending, recheck bound => ending ≠ bound
  | _, _ => True

/-- The alarms of the two other kinds go off whenever they may. -/
theorem Alarm.mayPrecede_left {alarm : Alarm} (hrecheck : ∀ id, alarm ≠ .recheck id)
    (hwindow : ∀ id, alarm ≠ .window id) (other : Alarm) : alarm.MayPrecede other := by
  cases alarm with
  | recheck id => exact absurd rfl (hrecheck id)
  | window id => exact absurd rfl (hwindow id)
  | spawnCheck _ _ | debounce _ => cases other <;> trivial

theorem Alarm.mayPrecede_right {alarm : Alarm} (hrecheck : ∀ id, alarm ≠ .recheck id)
    (hwindow : ∀ id, alarm ≠ .window id) (other : Alarm) : other.MayPrecede alarm := by
  cases alarm with
  | recheck id => exact absurd rfl (hrecheck id)
  | window id => exact absurd rfl (hwindow id)
  | spawnCheck _ _ | debounce _ => cases other <;> trivial

/-- A list is sorted into two parts, of which the second may have been passed by the first. -/
theorem pairwise_filter_append {α : Type} {r : α → α → Prop} {p : α → Bool} {l : List α}
    (h : l.Pairwise fun a b => r a b ∧ (p a = false → p b = true → r b a)) :
    (l.filter p ++ l.filter fun a => !p a).Pairwise r := by
  induction l with
  | nil => exact .nil
  | cons a rest ih =>
      obtain ⟨hfirst, hrest⟩ := List.pairwise_cons.mp h
      have hsorted := ih hrest
      cases hpart : p a with
      | true =>
          rw [List.filter_cons_of_pos hpart, List.filter_cons_of_neg (by simp [hpart])]
          refine List.pairwise_cons.mpr ⟨fun b hb => (hfirst b ?_).1, hsorted⟩
          exact (List.mem_append.mp hb).elim List.mem_of_mem_filter List.mem_of_mem_filter
      | false =>
          rw [List.filter_cons_of_neg (by simp [hpart]), List.filter_cons_of_pos (by simp [hpart])]
          obtain ⟨hleft, hright, hcross⟩ := List.pairwise_append.mp hsorted
          refine List.pairwise_append.mpr
            ⟨hleft, List.pairwise_cons.mpr ⟨fun b hb => ?_, hright⟩, ?_⟩
          · exact (hfirst b (List.mem_of_mem_filter hb)).1
          · intro b hb c hc
            obtain ⟨hmem, hpartB⟩ := List.mem_filter.mp hb
            rcases List.mem_cons.mp hc with rfl | hc
            · exact (hfirst b hmem).2 hpart hpartB
            · exact hcross b hb c hc

/-- The time for which an alarm is really delayed. -/
def Agenda.wait (delay : UInt64) : Nat :=
  min delay.toNat longestWait

/-- With acceptable settings a second binding waits for no longer than the end of its session. -/
theorem Settings.wait_recheck_le {settings : Settings} (h : settings.validate = .ok ()) :
    Agenda.wait settings.recheckDelay ≤ Agenda.wait settings.suppressionWindow := by
  unfold validate at h
  split at h
  · cases h
  · split at h
    · cases h
    next hlong =>
      have hlt : settings.recheckDelay.toNat < settings.suppressionWindow.toNat :=
        Nat.lt_of_not_le hlong
      unfold Agenda.wait
      omega

namespace Controller

/-- What holds at some time of a controller whose settings are acceptable. -/
structure Paced (controller : Controller) (now : Nat) : Prop where
  line : controller.alarms.Pairwise Alarm.MayPrecede
  overtaking : controller.agenda.Pairwise fun earlier later =>
    later.deadline < earlier.deadline → later.alarm.MayPrecede earlier.alarm
  opened : controller.sessions.Pairwise fun older younger => older.id.number < younger.id.number
  phases : controller.sessions.Pairwise fun older younger =>
    older.phase = .delayedRecheck → younger.phase = .delayedRecheck
  /-- No alarm should have gone off before. -/
  future : ∀ timer ∈ controller.agenda, now ≤ timer.deadline
  rechecks : ∀ timer ∈ controller.agenda, ∀ id, timer.alarm = .recheck id →
    timer.deadline ≤ now + Agenda.wait controller.settings.recheckDelay
  windows : ∀ timer ∈ controller.agenda, ∀ id, timer.alarm = .window id →
    timer.deadline ≤ now + Agenda.wait controller.settings.suppressionWindow

variable {controller next : Controller} {now : Nat} {host : Host} {message : Message}
variable {rest : List Message} {alarm : Alarm} {id : SessionId}

namespace Paced

theorem new (settings : Settings) (cleanup : Cleanup) (now : Nat) :
    (Controller.new settings cleanup).Paced now :=
  ⟨.nil, .nil, .nil, .nil, fun _ h => (by cases h), fun _ h => (by cases h),
    fun _ h => (by cases h)⟩

/-- Fewer alarms. -/
theorem of_sublist (h : controller.Paced now) (hsettings : next.settings = controller.settings)
    (halarms : next.alarms.Sublist controller.alarms)
    (hagenda : next.agenda.Sublist controller.agenda)
    (hopened : next.sessions.Pairwise fun older younger => older.id.number < younger.id.number)
    (hphases : next.sessions.Pairwise fun older younger =>
      older.phase = .delayedRecheck → younger.phase = .delayedRecheck) : next.Paced now :=
  ⟨h.line.sublist halarms, h.overtaking.sublist hagenda, hopened, hphases,
    fun timer htimer => h.future timer (hagenda.subset htimer),
    fun timer htimer => hsettings ▸ h.rechecks timer (hagenda.subset htimer),
    fun timer htimer => hsettings ▸ h.windows timer (hagenda.subset htimer)⟩

theorem of_alarms_eq (h : controller.Paced now) (hsettings : next.settings = controller.settings)
    (halarms : next.alarms = controller.alarms) (hagenda : next.agenda = controller.agenda)
    (hsessions : next.sessions = controller.sessions) : next.Paced now :=
  h.of_sublist hsettings (halarms ▸ List.Sublist.refl _) (hagenda ▸ List.Sublist.refl _)
    (hsessions ▸ h.opened) (hsessions ▸ h.phases)

theorem post (h : controller.Paced now) {messages : List Message}
    (hmessages : ∀ message ∈ messages, ∀ alarm, message ≠ .due alarm) :
    Paced { controller with mailbox := controller.mailbox ++ messages } now :=
  h.of_alarms_eq rfl (alarms_post hmessages) rfl rfl

theorem pop (h : controller.Paced now) (hmailbox : controller.mailbox = message :: rest) :
    Paced { controller with mailbox := rest } now :=
  h.of_sublist rfl (alarms_pop_sublist hmailbox) (List.Sublist.refl _) h.opened h.phases

/-- The time of the next alarm comes. -/
theorem wake (h : controller.Paced now) {time : Nat} (hle : now ≤ time) :
    (controller.wake time).Paced time := by
  have hkept : (controller.wake time).agenda.Sublist controller.agenda := List.filter_sublist
  refine ⟨?line, h.overtaking.sublist hkept, h.opened, h.phases, ?future, ?rechecks, ?windows⟩
  case line =>
    obtain ⟨hrung, harmed, hcross⟩ := List.pairwise_append.mp h.line
    have hsorted : ((controller.agenda.filter fun timer => timer.deadline ≤ time) ++
        controller.agenda.filter fun timer => !decide (timer.deadline ≤ time)).Pairwise
          fun a b => a.alarm.MayPrecede b.alarm := by
      refine pairwise_filter_append ((List.pairwise_map.mp harmed).imp₂ ?_ h.overtaking)
      intro earlier later hline hovertaking
      refine ⟨hline, fun hlate hearly => hovertaking ?_⟩
      exact (of_decide_eq_true hearly).trans_lt (Nat.lt_of_not_le (of_decide_eq_false hlate))
    rw [alarms_wake_eq, List.pairwise_append]
    refine ⟨hrung, List.pairwise_map.mpr hsorted, fun rung hmem later hlater => ?_⟩
    obtain ⟨timer, htimer, rfl⟩ := List.mem_map.mp hlater
    refine hcross rung hmem _ (List.mem_map_of_mem ?_)
    exact (List.mem_append.mp htimer).elim List.mem_of_mem_filter List.mem_of_mem_filter
  case future =>
    intro timer htimer
    exact (of_decide_eq_true (List.mem_filter.mp htimer).2).le
  case rechecks =>
    intro timer htimer id halarm
    exact (h.rechecks timer (hkept.subset htimer) id halarm).trans (Nat.add_le_add_right hle _)
  case windows =>
    intro timer htimer id halarm
    exact (h.windows timer (hkept.subset htimer) id halarm).trans (Nat.add_le_add_right hle _)

/-- Time goes by without an alarm. -/
theorem tick (h : controller.Paced now) {time : Nat} (hle : now ≤ time)
    (hfuture : ∀ timer ∈ controller.agenda, time ≤ timer.deadline) : controller.Paced time :=
  ⟨h.line, h.overtaking, h.opened, h.phases, hfuture,
    fun timer htimer id halarm =>
      (h.rechecks timer htimer id halarm).trans (Nat.add_le_add_right hle _),
    fun timer htimer id halarm =>
      (h.windows timer htimer id halarm).trans (Nat.add_le_add_right hle _)⟩

/-- One more alarm, which may be handled after all that are there, and before those that it
passes. -/
theorem arm (h : controller.Paced now) {delay : UInt64}
    (hline : ∀ other ∈ controller.alarms, other.MayPrecede alarm)
    (hovertaking : ∀ timer ∈ controller.agenda, now + Agenda.wait delay < timer.deadline →
      alarm.MayPrecede timer.alarm)
    (hrecheck : ∀ id, alarm = .recheck id → delay = controller.settings.recheckDelay)
    (hwindow : ∀ id, alarm = .window id → delay = controller.settings.suppressionWindow) :
    (controller.arm now delay alarm).Paced now := by
  have hmem {p : Timer → Prop} (hold : ∀ timer ∈ controller.agenda, p timer)
      (hnew : p ⟨now + Agenda.wait delay, alarm⟩) :
      ∀ timer ∈ (controller.arm now delay alarm).agenda, p timer := by
    intro timer htimer
    rcases List.mem_append.mp htimer with hmem | hmem
    · exact hold timer hmem
    · exact List.mem_singleton.mp hmem ▸ hnew
  refine ⟨?line, ?overtaking, h.opened, h.phases, hmem h.future (Nat.le_add_right _ _),
    hmem h.rechecks ?rechecks, hmem h.windows ?windows⟩
  case line =>
    rw [alarms_arm, List.pairwise_append]
    refine ⟨h.line, List.pairwise_singleton _ _, fun other hother new hnew => ?_⟩
    exact List.mem_singleton.mp hnew ▸ hline other hother
  case overtaking =>
    refine List.pairwise_append.mpr ⟨h.overtaking, List.pairwise_singleton _ _, ?_⟩
    intro timer htimer new hnew
    rw [List.mem_singleton.mp hnew]
    exact hovertaking timer htimer
  case rechecks =>
    intro id halarm
    rw [hrecheck id halarm]
    exact le_refl _
  case windows =>
    intro id halarm
    rw [hwindow id halarm]
    exact le_refl _

/-- An alarm that may be handled at any time. -/
theorem arm_free (h : controller.Paced now) {delay : UInt64} (hrecheck : ∀ id, alarm ≠ .recheck id)
    (hwindow : ∀ id, alarm ≠ .window id) : (controller.arm now delay alarm).Paced now :=
  h.arm (fun other _ => Alarm.mayPrecede_right hrecheck hwindow other)
    (fun timer _ _ => Alarm.mayPrecede_left hrecheck hwindow timer.alarm)
    (fun id halarm => absurd halarm (hrecheck id)) fun id halarm => absurd halarm (hwindow id)

theorem cancelDebounce (h : controller.Paced now) : controller.cancelDebounce.Paced now :=
  h.of_sublist rfl (alarms_cancelDebounce_sublist controller) List.filter_sublist h.opened h.phases

theorem rearmWhenIdle (h : controller.Paced now) : (controller.rearmWhenIdle now).Paced now := by
  unfold Controller.rearmWhenIdle
  split
  · exact h
  · have hcancelled : Paced { controller.cancelDebounce with
        debounce := ⟨controller.debounce.generation + 1, true⟩ } now :=
      h.cancelDebounce.of_alarms_eq rfl rfl rfl rfl
    exact hcancelled.arm_free (by simp) (by simp)

/-- A change of what happened during one session, which may have been bound for the second time. -/
theorem modifySession (h : controller.Paced now) {change : Session → Session}
    (hid : ∀ session, (change session).id = session.id)
    (hphase : ∀ session ∈ controller.sessions, session.id = id →
      (change session).phase = session.phase ∨ ((change session).phase = .settling ∧
        ∀ older ∈ controller.sessions, older.id.number < id.number →
          older.phase ≠ .delayedRecheck)) :
    (controller.modifySession id change).Paced now := by
  refine h.of_sublist rfl (List.Sublist.refl _) (List.Sublist.refl _) ?opened ?phases
  case opened =>
    refine List.pairwise_map.mpr (h.opened.imp fun {older younger} hlt => ?_)
    split <;> split <;> simpa only [hid] using hlt
  case phases =>
    refine List.pairwise_map.mpr ((h.opened.imp₂ (fun _ _ => And.intro) h.phases).imp_of_mem ?_)
    rintro older younger holder hyounger ⟨hlt, hdelayed⟩ hphaseOlder
    have hformer : older.phase = .delayedRecheck := by
      split at hphaseOlder
      next hsame =>
        rcases hphase older holder hsame with hkept | ⟨hsettled, -⟩
        · exact hkept.symm.trans hphaseOlder
        · cases hsettled.symm.trans hphaseOlder
      next => exact hphaseOlder
    split
    next hsame =>
      rcases hphase younger hyounger hsame with hkept | ⟨-, hfirst⟩
      · exact hkept.trans (hdelayed hformer)
      · exact absurd hformer (hfirst older holder (hsame ▸ hlt))
    next => exact hdelayed hformer

theorem awaitCheck (h : controller.Paced now) (id : SessionId) (definition : BlockId) :
    (controller.awaitCheck now id definition).Paced now := by
  have harmed : (controller.arm now controller.settings.spawnCheckDelay
      (.spawnCheck id definition)).Paced now := h.arm_free (by simp) (by simp)
  exact harmed.modifySession (fun _ => rfl) fun _ _ _ => Or.inl rfl

theorem openSession (h : controller.Paced now) (horderly : controller.Orderly)
    (hvalid : controller.settings.validate = .ok ()) (call : BlockId) (prior : List BlockId) :
    (controller.openSession now call prior).Paced now := by
  let new : SessionId := ⟨controller.nextSession⟩
  have hbound : (controller.arm now controller.settings.recheckDelay (.recheck new)).Paced now := by
    refine h.arm (fun other hother => ?_) (fun timer htimer hlt => ?_) (fun _ _ => rfl) (by simp)
    · cases other with
      | recheck id => exact horderly.number_lt hother rfl
      | window id => exact fun hsame => (horderly.number_lt hother rfl).ne (congrArg _ hsame)
      | spawnCheck _ _ | debounce _ => trivial
    · cases halarm : timer.alarm with
      | recheck id => exact absurd (h.rechecks timer htimer id halarm) (Nat.not_le.mpr hlt)
      | window _ | spawnCheck _ _ | debounce _ => trivial
  have hended : ((controller.arm now controller.settings.recheckDelay (.recheck new)).arm now
      controller.settings.suppressionWindow (.window new)).Paced now := by
    refine hbound.arm (fun other hother => ?_) (fun timer htimer hlt => ?_) (by simp) fun _ _ => rfl
    · cases other with
      | window id =>
          rw [alarms_arm, List.mem_append, List.mem_singleton] at hother
          exact horderly.number_lt (hother.resolve_right (by simp)) rfl
      | recheck _ | spawnCheck _ _ | debounce _ => trivial
    · cases halarm : timer.alarm with
      | window id => exact absurd (hbound.windows timer htimer id halarm) (Nat.not_le.mpr hlt)
      | recheck id =>
          -- The second binding of the same session comes no later than its end.
          rintro rfl
          have hdeadline := hbound.rechecks timer htimer new halarm
          have hle := Settings.wait_recheck_le hvalid
          have hsettings : (controller.arm now controller.settings.recheckDelay
            (.recheck new)).settings = controller.settings := rfl
          rw [hsettings] at hdeadline
          omega
      | spawnCheck _ _ | debounce _ => trivial
  refine hended.cancelDebounce.of_sublist rfl (List.Sublist.refl _) (List.Sublist.refl _) ?_ ?_
  · rw [sessions_openSession, List.pairwise_append]
    refine ⟨h.opened, List.pairwise_singleton _ _, fun older holder younger hyounger => ?_⟩
    rw [List.mem_singleton.mp hyounger]
    exact horderly.numbers older holder
  · rw [sessions_openSession, List.pairwise_append]
    refine ⟨h.phases, List.pairwise_singleton _ _, fun older holder younger hyounger _ => ?_⟩
    rw [List.mem_singleton.mp hyounger]

/-- The alarm that is handled now may be handled before all others. -/
theorem mayPrecede (h : controller.Paced now) (hmailbox : controller.mailbox = .due alarm :: rest)
    {other : Alarm} (hother : other ∈ controller.alarms) (hne : other ≠ alarm) :
    alarm.MayPrecede other := by
  have hline := h.line
  rw [alarms_eq_cons hmailbox, List.pairwise_cons] at hline
  rw [alarms_eq_cons hmailbox, List.mem_cons] at hother
  exact hline.1 other (hother.resolve_left hne)

/-- Every message keeps the pace. -/
theorem becomes (h : controller.Paced now) (horderly : controller.Orderly)
    (haccounted : controller.Accounted) (hvalid : controller.settings.validate = .ok ())
    (hmailbox : controller.mailbox = message :: rest)
    (hbecomes : Becomes { controller with mailbox := rest } now host message next) :
    next.Paced now := by
  have hpopped := h.pop hmailbox
  cases hbecomes with
  | heard _ | gone _ _ => exact hpopped.rearmWhenIdle
  | stale _ => exact hpopped
  | spawned _ _ _ => exact hpopped.awaitCheck _ _
  | opened prior name _ =>
      have hnamed : Controller.Paced (memorize { controller with mailbox := rest } name) now :=
        hpopped.of_alarms_eq rfl rfl rfl rfl
      have hpoppedOrderly := (horderly.pop hmailbox (by simp) (by simp)).memorize name
      exact hnamed.openSession hpoppedOrderly hvalid _ prior
  | checked _ _ _ => exact hpopped.modifySession (fun _ => rfl) fun _ _ _ => Or.inl rfl
  | @settled id name _ =>
      have hsettled : (settle { controller with mailbox := rest } id).Paced now := by
        refine hpopped.modifySession (fun _ => rfl) fun _ _ _ => Or.inr ⟨rfl, ?_⟩
        intro older holder hlt hphase
        -- An older session would have been bound for the second time before.
        have hmem := haccounted.recheck_mem holder hphase
        have hnumber : id.number < older.id.number := h.mayPrecede hmailbox hmem fun hsame => by
          rw [Alarm.recheck.inj hsame] at hlt
          exact lt_irrefl _ hlt
        omega
      exact hsettled.of_alarms_eq rfl rfl rfl rfl
  | @closed id _ =>
      have hclosed : (closeSession { controller with mailbox := rest } id).Paced now :=
        hpopped.of_sublist rfl (alarms_closeSession_sublist _ id) List.filter_sublist
          (h.opened.filter _) (h.phases.filter _)
      exact hclosed.rearmWhenIdle
  | deferred _ | cleaned _ => exact hpopped.of_alarms_eq rfl rfl rfl rfl

end Paced

/-! ## The alarms of one session -/

/-- The alarms that are armed for a session when it is opened. -/
theorem timer_of_mem_openSession {call : BlockId} {prior : List BlockId} {timer : Timer}
    (h : timer ∈ (controller.openSession now call prior).agenda) :
    timer ∈ controller.agenda ∨
      timer = ⟨now + Agenda.wait controller.settings.recheckDelay,
        .recheck ⟨controller.nextSession⟩⟩ ∨
      timer = ⟨now + Agenda.wait controller.settings.suppressionWindow,
        .window ⟨controller.nextSession⟩⟩ := by
  have hmem := (List.mem_filter.mp h).1
  simpa only [Controller.arm, Agenda.arm, Agenda.wait, List.mem_append, List.mem_singleton,
    or_assoc] using hmem

/-- The second binding and the end of an open session are armed once, when it is opened. -/
theorem Becomes.mem_agenda_of_opened (h : Becomes controller now host message next) {timer : Timer}
    (htimer : timer ∈ next.agenda) (hid : id.number < controller.nextSession)
    (halarm : timer.alarm = .recheck id ∨ timer.alarm = .window id) :
    timer ∈ controller.agenda := by
  have rearmed {controller : Controller} (hmem : timer ∈ (controller.rearmWhenIdle now).agenda) :
      timer ∈ controller.agenda := by
    unfold rearmWhenIdle at hmem
    split at hmem
    · exact hmem
    · refine (mem_agenda_rearmDebounce hmem).resolve_right ?_
      rintro rfl
      simp at halarm
  cases h with
  | heard _ | gone _ _ => exact rearmed htimer
  | stale _ | checked _ _ _ | settled _ _ | deferred _ | cleaned _ => exact htimer
  | closed _ => exact (List.mem_filter.mp (rearmed htimer)).1
  | spawned _ _ _ =>
      refine (List.mem_append.mp htimer).resolve_right fun hnew => ?_
      rw [List.mem_singleton.mp hnew] at halarm
      simp at halarm
  | opened prior name _ =>
      have hne : (⟨controller.nextSession⟩ : SessionId) ≠ id := by
        rintro rfl
        exact lt_irrefl _ hid
      refine (timer_of_mem_openSession htimer).resolve_right ?_
      rintro (rfl | rfl) <;> exact hne (by simpa [memorize] using halarm)

namespace Paced

/-! ## What the pace amounts to -/

/-- The call site of a session that ends has been bound for the second time. -/
theorem phase_of_window (h : controller.Paced now) (haccounted : controller.Accounted)
    (hmailbox : controller.mailbox = .due (.window id) :: rest) {session : Session}
    (hsession : session ∈ controller.sessions) (hid : session.id = id) :
    session.phase = .settling := by
  subst hid
  refine (haccounted.phases session hsession).resolve_left fun hdelayed => ?_
  have hmem := haccounted.recheck_mem hsession hdelayed
  exact h.mayPrecede hmailbox hmem (by simp) rfl

/-- The session that ends is the one opened first, and its call site has been bound for the second
time. -/
theorem exists_of_window (h : controller.Paced now) (haccounted : controller.Accounted)
    (hmailbox : controller.mailbox = .due (.window id) :: rest)
    (hheeds : controller.heeds (.window id) = true) :
    ∃ session younger, controller.sessions = session :: younger ∧ session.id = id ∧
      session.phase = .settling ∧ ∀ other ∈ younger, id.number < other.id.number := by
  obtain ⟨session, hsession, rfl⟩ := List.mem_map.mp ((heeds_iff rfl).mp hheeds)
  have hphase := h.phase_of_window haccounted hmailbox hsession rfl
  have hfirst : ∀ other ∈ controller.sessions, other.id ≠ session.id →
      session.id.number < other.id.number := fun other hother hne =>
    h.mayPrecede hmailbox (haccounted.window_mem hother) fun hsame => hne (Alarm.window.inj hsame)
  cases hsessions : controller.sessions with
  | nil =>
      rw [hsessions] at hsession
      cases hsession
  | cons first younger =>
      have hopened := h.opened
      rw [hsessions, List.pairwise_cons] at hopened
      rw [hsessions] at hsession
      rcases List.mem_cons.mp hsession with rfl | hyounger
      · exact ⟨session, younger, rfl, rfl, hphase, hopened.1⟩
      · have hlt := hopened.1 session hyounger
        have hgt := hfirst first (hsessions ▸ List.mem_cons_self) fun hsame => by
          rw [hsame] at hlt
          exact lt_irrefl _ hlt
        omega

/-- The phases of the open sessions, oldest first, are a block of one phase and then a block of
the other. -/
theorem exists_map_phase_eq (h : controller.Paced now) (haccounted : controller.Accounted) :
    ∃ settled delayed, controller.sessions.map (·.phase) =
      List.replicate settled .settling ++ List.replicate delayed .delayedRecheck := by
  have hphases := h.phases
  have hknown := haccounted.phases
  generalize controller.sessions = sessions at hphases hknown ⊢
  induction sessions with
  | nil => exact ⟨0, 0, rfl⟩
  | cons session younger ih =>
      obtain ⟨hsession, hyounger⟩ := List.pairwise_cons.mp hphases
      obtain ⟨settled, delayed, hrest⟩ :=
        ih hyounger fun other hother => hknown other (List.mem_cons_of_mem session hother)
      rcases hknown session List.mem_cons_self with hphase | hphase
      · refine ⟨0, younger.length + 1, ?_⟩
        have hall : younger.map (·.phase) = List.replicate younger.length .delayedRecheck := by
          rw [← List.length_map (·.phase), List.eq_replicate_iff]
          refine ⟨rfl, fun phase hmem => ?_⟩
          obtain ⟨other, hother, rfl⟩ := List.mem_map.mp hmem
          exact hsession other hother hphase
        rw [List.map_cons, hphase, hall]
        rfl
      · refine ⟨settled + 1, delayed, ?_⟩
        rw [List.map_cons, hphase, hrest]
        rfl

end Paced
end Controller
end CallBinding
