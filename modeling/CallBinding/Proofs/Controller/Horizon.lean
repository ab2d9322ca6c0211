import CallBinding.Proofs.Controller.Quiet

/-!
# How long a controller goes on

Left alone, a controller comes to rest: its sessions close within the length of
a window, and the wait for a quiet graph ends a debounce later.  `Within` bounds
the times of all that is still to come by a horizon.  How much of it is still to
come is bounded by `load`, which no message adds to.
-/

namespace CallBinding

/-- The armed alarms that belong to sessions. -/
def Agenda.sessionTimers (agenda : Agenda) : List Timer :=
  agenda.filter fun timer => timer.alarm.session?.isSome

/-- The number of session alarms that a message may arm. -/
def Message.load : Message → Nat
  | event change => if change.kind = .create then 1 else 0
  | callSiteCreated _ _ => 2
  | due _ | detach => 0

/-- The number of session alarms that several messages may arm. -/
def Message.loadOf : List Message → Nat
  | [] => 0
  | message :: rest => message.load + loadOf rest

theorem Message.loadOf_append (first second : List Message) :
    loadOf (first ++ second) = loadOf first + loadOf second := by
  induction first with
  | nil => simp [loadOf]
  | cons message rest ih => simp [loadOf, ih, Nat.add_assoc]

theorem Message.loadOf_eq_zero {messages : List Message}
    (h : ∀ message ∈ messages, message.load = 0) : loadOf messages = 0 := by
  induction messages with
  | nil => rfl
  | cons message rest ih =>
      obtain ⟨hmessage, hrest⟩ := List.forall_mem_cons.mp h
      rw [loadOf, hmessage, ih hrest]

/-- The alarm goes off neither before now nor after what the horizon allows for its kind. -/
def Timer.Within (timer : Timer) (settings : Settings) (horizon now : Nat) : Prop :=
  now ≤ timer.deadline ∧
    match timer.alarm with
    | .window _ => timer.deadline ≤ horizon
    | .debounce _ => timer.deadline ≤ horizon + settings.debounce.toNat
    | .spawnCheck _ _ | .recheck _ => True

namespace Controller

/-- The number of session alarms that are armed, or may still be. -/
def load (controller : Controller) : Nat :=
  controller.agenda.sessionTimers.length + Message.loadOf controller.mailbox

/-- The open sessions, and those that are still to be opened, close by the horizon, and the wait
for a quiet graph goes on no longer after it than a wait lasts. -/
structure Within (controller : Controller) (horizon now : Nat) : Prop where
  timers : ∀ timer ∈ controller.agenda, timer.Within controller.settings horizon now
  openings : ∀ call prior, .callSiteCreated call prior ∈ controller.mailbox →
    now + controller.settings.suppressionWindow.toNat ≤ horizon
  debounces : ∀ generation, .due (.debounce generation) ∉ controller.mailbox
  attached : .detach ∉ controller.mailbox

/-- A controller without messages has open sessions, or waits for a quiet graph, or is at rest. -/
inductive Poised (controller : Controller) : Prop
  | busy : controller.sessions ≠ [] → controller.agenda.quietTimers = [] → Poised controller
  | waiting (deadline : Nat) : controller.sessions = [] →
      controller.debounce.isPending = true →
      controller.agenda = [⟨deadline, .debounce controller.debounce.generation⟩] →
      Poised controller
  | resting : controller.sessions = [] → controller.debounce.isPending = false →
      controller.agenda = [] → Poised controller

variable {controller next : Controller} {now : Nat} {host : Host} {message : Message}

/-! ## What a message arms -/

/-- The alarms that handling a message may arm. -/
inductive Arms (settings : Settings) (now : Nat) : Message → Timer → Prop
  | spawnCheck (event : Event) (id : SessionId) (definition : BlockId) (delay : UInt64) :
      Arms settings now (.event event) ⟨now + min delay.toNat Agenda.longestWait,
        .spawnCheck id definition⟩
  | recheck (call : BlockId) (prior : List BlockId) (id : SessionId) (delay : UInt64) :
      Arms settings now (.callSiteCreated call prior)
        ⟨now + min delay.toNat Agenda.longestWait, .recheck id⟩
  | window (call : BlockId) (prior : List BlockId) (id : SessionId) :
      Arms settings now (.callSiteCreated call prior)
        ⟨now + min settings.suppressionWindow.toNat Agenda.longestWait, .window id⟩
  | debounce (message : Message) (generation : Nat) :
      Arms settings now message
        ⟨now + min settings.debounce.toNat Agenda.longestWait, .debounce generation⟩

theorem mem_agenda_rearmWhenIdle {timer : Timer}
    (h : timer ∈ (controller.rearmWhenIdle now).agenda) (message : Message) :
    timer ∈ controller.agenda ∨ Arms controller.settings now message timer := by
  unfold rearmWhenIdle at h
  split at h
  · exact Or.inl h
  · refine (mem_agenda_rearmDebounce h).imp_right fun hnew => ?_
    rw [hnew]
    exact .debounce message _

theorem Becomes.mem_agenda (h : Becomes controller now host message next) :
    ∀ timer ∈ next.agenda,
      timer ∈ controller.agenda ∨ Arms controller.settings now message timer := by
  intro timer htimer
  cases h with
  | heard _ | gone _ _ => exact mem_agenda_rearmWhenIdle htimer _
  | spawned _ _ _ =>
      refine (List.mem_append.mp htimer).imp_right fun hnew => ?_
      rw [List.mem_singleton.mp hnew]
      exact .spawnCheck _ _ _ _
  | opened prior name _ =>
      have hmem := (List.mem_filter.mp htimer).1
      simp only [arm, Agenda.arm, List.mem_append, List.mem_singleton] at hmem
      rcases hmem with (hold | rfl) | rfl
      · exact Or.inl hold
      · exact Or.inr (.recheck _ prior _ _)
      · exact Or.inr (.window _ prior _)
  | closed _ =>
      refine (mem_agenda_rearmWhenIdle htimer _).imp_left fun hkept => ?_
      exact (List.mem_filter.mp hkept).1
  | stale _ | checked _ _ _ | settled _ _ | deferred _ | cleaned _ => exact Or.inl htimer

theorem length_sessionTimers_le {fewer agenda : Agenda} (h : fewer.Sublist agenda) :
    fewer.sessionTimers.length ≤ agenda.sessionTimers.length :=
  (h.filter _).length_le

theorem length_sessionTimers_arm (agenda : Agenda) (now : Nat) (delay : UInt64) (alarm : Alarm) :
    (agenda.arm now delay alarm).sessionTimers.length =
      agenda.sessionTimers.length + if alarm.session?.isSome then 1 else 0 := by
  rw [Agenda.arm, Agenda.sessionTimers, List.filter_append, List.length_append]
  cases alarm <;> rfl

theorem length_sessionTimers_rearmWhenIdle (controller : Controller) (now : Nat) :
    (controller.rearmWhenIdle now).agenda.sessionTimers.length ≤
      controller.agenda.sessionTimers.length := by
  unfold rearmWhenIdle
  split
  · exact le_refl _
  · have hcancelled : controller.cancelDebounce.agenda.Sublist controller.agenda :=
      List.filter_sublist
    exact (length_sessionTimers_arm _ now _ _).trans_le (length_sessionTimers_le hcancelled)

theorem Becomes.length_sessionTimers_le (h : Becomes controller now host message next) :
    next.agenda.sessionTimers.length ≤ controller.agenda.sessionTimers.length + message.load := by
  cases h with
  | heard _ | gone _ _ =>
      exact (length_sessionTimers_rearmWhenIdle controller now).trans (Nat.le_add_right _ _)
  | spawned hcreate _ _ =>
      have hload : (Message.event _).load = 1 := if_pos hcreate
      rw [hload]
      exact (length_sessionTimers_arm _ now _ _).le
  | @opened call prior name _ =>
      have hsub : ((controller.memorize name).openSession now call prior).agenda.Sublist _ :=
        List.filter_sublist
      refine (Controller.length_sessionTimers_le hsub).trans ?_
      simp only [arm, length_sessionTimers_arm]
      exact Nat.le_refl _
  | @closed id _ =>
      have hsub : (controller.closeSession id).agenda.Sublist controller.agenda :=
        List.filter_sublist
      have hclosed := Controller.length_sessionTimers_le hsub
      exact (length_sessionTimers_rearmWhenIdle (controller.closeSession id) now).trans hclosed
  | stale _ | checked _ _ _ | settled _ _ | deferred _ | cleaned _ => exact Nat.le_refl _

/-- Only the end of a wait starts a cleanup. -/
theorem Becomes.cleanups_eq (h : Becomes controller now host message next)
    (hmessage : ∀ generation, message ≠ .due (.debounce generation)) :
    next.cleanups = controller.cleanups := by
  have rearmed (controller : Controller) :
      (controller.rearmWhenIdle now).cleanups = controller.cleanups := by
    unfold rearmWhenIdle
    split <;> rfl
  cases h with
  | heard _ | gone _ _ => exact rearmed controller
  | closed _ => exact rearmed _
  | spawned _ _ _ | opened _ _ _ | stale _ | checked _ _ _ | settled _ _ => rfl
  | deferred _ | cleaned _ => exact absurd rfl (hmessage _)

/-- The controller counts the cleanups that it starts. -/
theorem cleanups_of_handle (h : (controller.handle now host message).fate = .running next) :
    next.cleanups =
      controller.cleanups + (controller.handle now host message).cleanup.toList.length := by
  have hbecomes := becomes_of_handle h
  cases message with
  | event _ | callSiteCreated _ _ => exact hbecomes.cleanups_eq (by simp)
  | detach => cases h
  | due alarm =>
      cases alarm with
      | spawnCheck _ _ | recheck _ | window _ => exact hbecomes.cleanups_eq (by simp)
      | debounce generation =>
          have hends := controller.endsWait_onDebounce host generation
          simp only [handle, onAlarm] at h ⊢
          generalize controller.onDebounce host generation = turn at hends h ⊢
          cases hends with
          | stale _ | deferred _ _ | swept _ _ _ | counted _ _ _ =>
              exact Fate.running.inj h ▸ rfl
          | crashed _ _ _ => cases h

/-! ## Within a horizon -/

theorem Arms.within {settings : Settings} {timer : Timer} {horizon : Nat}
    (h : Arms settings now message timer) (hnow : now ≤ horizon)
    (hopening : ∀ call prior, message = .callSiteCreated call prior →
      now + settings.suppressionWindow.toNat ≤ horizon) :
    timer.Within settings horizon now := by
  refine ⟨?_, ?_⟩
  · cases h <;> exact Nat.le_add_right _ _
  · cases h with
    | spawnCheck _ _ _ _ | recheck _ _ _ _ => trivial
    | window call prior id =>
        have hwindow := hopening call prior rfl
        exact (Nat.add_le_add_left (Nat.min_le_left _ _) now).trans hwindow
    | debounce message generation =>
        exact Nat.add_le_add hnow (Nat.min_le_left _ _)

/-- Handling a message that is no end of a wait does not move the horizon. -/
theorem Within.becomes {horizon : Nat} (h : controller.Within horizon now) (hnow : now ≤ horizon)
    {rest : List Message} (hmailbox : controller.mailbox = message :: rest)
    (hbecomes : Becomes { controller with mailbox := rest } now host message next) :
    next.Within horizon now := by
  obtain ⟨hnextMailbox, -, hsettings⟩ := hbecomes.keeps
  have hold {other : Message} (hmem : other ∈ next.mailbox) : other ∈ controller.mailbox := by
    rw [hnextMailbox] at hmem
    exact hmailbox ▸ List.mem_cons_of_mem message hmem
  have hfirst : message ∈ controller.mailbox := hmailbox ▸ List.mem_cons_self
  refine ⟨?_, ?_, fun generation hmem => h.debounces generation (hold hmem),
    fun hmem => h.attached (hold hmem)⟩
  · intro timer htimer
    rw [hsettings]
    rcases hbecomes.mem_agenda timer htimer with hkept | harmed
    · exact h.timers timer hkept
    · refine harmed.within hnow ?_
      rintro call prior rfl
      exact h.openings call prior hfirst
  · intro call prior hmem
    rw [hsettings]
    exact h.openings call prior (hold hmem)

/-- At the end of its wait a controller that sweeps cleans up, or leaves the graph alone. -/
theorem exists_running_debounce (hsweep : controller.cleanup = .sweep) {generation : Nat}
    (hheeds : controller.heeds (.debounce generation) = true) (now : Nat) (host : Host) :
    ∃ next, (controller.handle now host (.due (.debounce generation))).fate = .running next ∧
      (next = controller.takeDebounce ∨ next = controller.takeDebounce.countCleanup) ∧
      ((controller.handle now host (.due (.debounce generation))).host = host ∨
        (controller.handle now host (.due (.debounce generation))).host = host.sweep.2) := by
  have hends := controller.endsWait_onDebounce host generation
  simp only [handle, onAlarm]
  generalize controller.onDebounce host generation = turn at hends ⊢
  cases hends with
  | stale hstale => cases hheeds.symm.trans hstale
  | deferred _ _ => exact ⟨controller.takeDebounce, rfl, Or.inl rfl, Or.inl rfl⟩
  | swept _ _ _ => exact ⟨controller.takeDebounce.countCleanup, rfl, Or.inr rfl, Or.inr rfl⟩
  | counted _ _ hcount => cases hsweep.symm.trans hcount
  | crashed _ _ hpanic => cases hsweep.symm.trans hpanic

/-- A controller that sweeps goes on after every message but the one that stops it. -/
theorem exists_running (hsweep : controller.cleanup = .sweep) (hmessage : message ≠ .detach)
    (now : Nat) (host : Host) :
    ∃ next, (controller.handle now host message).fate = .running next := by
  cases message with
  | event _ | callSiteCreated _ _ => exact ⟨_, rfl⟩
  | detach => exact absurd rfl hmessage
  | due alarm =>
      cases alarm with
      | spawnCheck _ _ | recheck _ | window _ => exact ⟨_, rfl⟩
      | debounce generation =>
          have hends := controller.endsWait_onDebounce host generation
          simp only [handle, onAlarm]
          generalize controller.onDebounce host generation = turn at hends ⊢
          cases hends with
          | stale _ | deferred _ _ | swept _ _ _ | counted _ _ _ => exact ⟨_, rfl⟩
          | crashed _ _ hpanic => cases hsweep.symm.trans hpanic

/-! ## Between messages -/

/-- Without messages an orderly controller is poised. -/
theorem Orderly.poised (h : controller.Orderly) (hmailbox : controller.mailbox = []) :
    Poised controller := by
  have hempty (alarm : Alarm) : .due alarm ∉ controller.mailbox := by simp [hmailbox]
  by_cases hsessions : controller.sessions = []
  · have hquiet : controller.agenda.quietTimers = controller.agenda := by
      refine List.filter_eq_self.mpr fun timer htimer => ?_
      rw [Option.isNone_iff_eq_none, Option.eq_none_iff_forall_ne_some]
      intro id hid
      have hopen := h.active timer htimer id hid
      simp [hsessions] at hopen
    cases h.debouncing with
    | idle hidle hnone => exact .resting hsessions hidle (hquiet.symm.trans hnone)
    | armed deadline hpending hone _ => exact .waiting deadline hsessions hpending (hquiet.symm.trans hone)
    | due _ _ hmem => exact absurd hmem (hempty _)
  · refine .busy hsessions ?_
    cases h.debouncing with
    | idle _ hnone => exact hnone
    | armed _ hpending _ _ => exact absurd (h.exclusive hpending) hsessions
    | due _ hnone _ => exact hnone

/-- Without messages every open session has an alarm for its end. -/
theorem Orderly.exists_window (h : controller.Orderly) (hmailbox : controller.mailbox = [])
    (hsessions : controller.sessions ≠ []) :
    ∃ timer ∈ controller.agenda, ∃ id, timer.alarm = .window id := by
  obtain ⟨session, hsession⟩ := List.exists_mem_of_ne_nil _ hsessions
  rcases h.windows session hsession with ⟨timer, htimer, halarm⟩ | hdue
  · exact ⟨timer, htimer, session.id, halarm⟩
  · simp [hmailbox] at hdue

end Controller
end CallBinding
