import CallBinding.Proofs.Controller.Alarms
import CallBinding.Proofs.Editor.Births

/-!
# What a controller knows of the age of blocks

The mailbox of a controller tells of new blocks in the order in which they were
numbered, and what goes with the news of a call site is older than all that is
told of later.  A controller therefore recalls no block of which it will hear
only later that it is new: a new definition is in no list of older definitions,
and no check of it has been armed.
-/

namespace CallBinding

namespace Message

/-- The block of whose creation a message tells, if it is no call site. -/
def created? : Message → Option BlockId
  | event change => change.created?
  | callSiteCreated _ _ | due _ | detach => none

/-- The blocks that were there when a message was posted, as far as it tells. -/
def shows : Message → List BlockId
  | event change => change.created?.toList
  | callSiteCreated _ prior => prior
  | due _ | detach => []

/-- What one message shows is older than what another one tells of. -/
def Precedes (earlier later : Message) : Prop :=
  ∀ id ∈ earlier.shows, ∀ new, later.created? = some new → id.number < new.number

theorem created?_eq_some_iff {message : Message} {id : BlockId} :
    message.created? = some id ↔ message = .event ⟨.create, id⟩ := by
  cases message <;> simp [created?, Event.created?_eq_some_iff]

theorem mem_shows_of_created? {message : Message} {id : BlockId} (h : message.created? = some id) :
    id ∈ message.shows := by
  rw [created?_eq_some_iff] at h
  subst h
  simp [shows, Event.created?]

/-- The block of which a message tells is the one of its event. -/
theorem created?_of_ofEvent {host : Host} {event : Event} {id : BlockId}
    (h : (ofEvent host event).created? = some id) : event.created? = some id := by
  unfold ofEvent at h
  split at h
  · cases h
  · exact h

end Message

namespace Controller

/-- A block that was there before a session was opened, or whose check has been armed. -/
def Recalls (controller : Controller) (id : BlockId) : Prop :=
  (∃ session ∈ controller.sessions, id ∈ session.prior) ∨
    ∃ session, .spawnCheck session id ∈ controller.alarms

/-- What a controller recalls is older than what it will be told of, and its messages come in the
order of what they tell of.  All of it is older than the block that is created next. -/
structure Chronological (controller : Controller) (nextBlock : Nat) : Prop where
  recalled : ∀ id, controller.Recalls id → id.number < nextBlock ∧
    ∀ message ∈ controller.mailbox, ∀ new, message.created? = some new → id.number < new.number
  shown : ∀ message ∈ controller.mailbox, ∀ id ∈ message.shows, id.number < nextBlock
  order : controller.mailbox.Pairwise Message.Precedes

namespace Chronological

variable {controller next : Controller} {nextBlock later now : Nat} {host : Host}
variable {message : Message} {messages rest : List Message}

theorem new (settings : Settings) (cleanup : Cleanup) (nextBlock : Nat) :
    (Controller.new settings cleanup).Chronological nextBlock where
  recalled := by
    rintro id (⟨session, hsession, -⟩ | ⟨session, halarm⟩)
    · cases hsession
    · cases halarm
  shown := fun _ h => by cases h
  order := .nil

theorem mono (h : controller.Chronological nextBlock) (hle : nextBlock ≤ later) :
    controller.Chronological later :=
  ⟨fun id hid => ⟨(h.recalled id hid).1.trans_le hle, (h.recalled id hid).2⟩,
    fun message hmessage id hid => (h.shown message hmessage id hid).trans_le hle, h.order⟩

/-- Messages that tell of new blocks only. -/
theorem append (h : controller.Chronological nextBlock) (hle : nextBlock ≤ later)
    (hsessions : next.sessions = controller.sessions)
    (halarms : ∀ alarm ∈ next.alarms, alarm ∈ controller.alarms)
    (hmailbox : next.mailbox = controller.mailbox ++ messages)
    (hnew : ∀ message ∈ messages, ∀ new, message.created? = some new → nextBlock ≤ new.number)
    (hshown : ∀ message ∈ messages, ∀ id ∈ message.shows, id.number < later)
    (horder : messages.Pairwise Message.Precedes) : next.Chronological later := by
  refine ⟨fun id hid => ?_, ?_, ?_⟩
  · have hformer : controller.Recalls id := by
      rcases hid with ⟨session, hsession, hprior⟩ | ⟨session, halarm⟩
      · exact Or.inl ⟨session, hsessions ▸ hsession, hprior⟩
      · exact Or.inr ⟨session, halarms _ halarm⟩
    obtain ⟨hbelow, holder⟩ := h.recalled id hformer
    refine ⟨hbelow.trans_le hle, fun message hmessage new hnewBlock => ?_⟩
    rw [hmailbox] at hmessage
    rcases List.mem_append.mp hmessage with hold | hposted
    · exact holder message hold new hnewBlock
    · exact hbelow.trans_le (hnew message hposted new hnewBlock)
  · rw [hmailbox]
    intro message hmessage id hid
    rcases List.mem_append.mp hmessage with hold | hposted
    · exact (h.shown message hold id hid).trans_le hle
    · exact hshown message hposted id hid
  · rw [hmailbox, List.pairwise_append]
    refine ⟨h.order, horder, fun earlier hearlier posted hposted id hid new hnewBlock => ?_⟩
    exact (h.shown earlier hearlier id hid).trans_le (hnew posted hposted new hnewBlock)

/-- Messages that tell of no new block at all. -/
theorem append_silent (h : controller.Chronological nextBlock)
    (hsessions : next.sessions = controller.sessions)
    (halarms : ∀ alarm ∈ next.alarms, alarm ∈ controller.alarms)
    (hmailbox : next.mailbox = controller.mailbox ++ messages)
    (hsilent : ∀ message ∈ messages, message.shows = []) : next.Chronological nextBlock := by
  have hnone {message : Message} (hmessage : message ∈ messages) (id : BlockId) :
      id ∉ message.shows := by
    rw [hsilent message hmessage]
    exact List.not_mem_nil
  refine h.append (le_refl _) hsessions halarms hmailbox ?_ ?_ ?_
  · exact fun message hmessage new hnew =>
      absurd (Message.mem_shows_of_created? hnew) (hnone hmessage new)
  · exact fun message hmessage id hid => absurd hid (hnone hmessage id)
  · exact List.pairwise_of_forall_mem_list fun earlier hearlier _ _ id hid =>
      absurd hid (hnone hearlier id)

theorem wake (h : controller.Chronological nextBlock) (time : Nat) :
    (controller.wake time).Chronological nextBlock := by
  refine h.append_silent rfl (fun _ => (alarms_wake controller time).mem_iff.mp) rfl ?_
  intro message hmessage
  obtain ⟨alarm, -, rfl⟩ := List.mem_map.mp hmessage
  rfl

/-- The news of a definition comes before anything that recalls it. -/
theorem not_recalls (h : controller.Chronological nextBlock) {definition : BlockId}
    (hmem : .event ⟨.create, definition⟩ ∈ controller.mailbox) : ¬controller.Recalls definition :=
  fun hrecalls => lt_irrefl _
    ((h.recalled definition hrecalls).2 _ hmem definition (Message.created?_eq_some_iff.mpr rfl))

/-- What a message shows may be recalled once it has been handled. -/
theorem becomes (h : controller.Chronological nextBlock)
    (hmailbox : controller.mailbox = message :: rest)
    (hbecomes : Becomes { controller with mailbox := rest } now host message next) :
    next.Chronological nextBlock := by
  have hnextMailbox : next.mailbox = rest := hbecomes.keeps.1
  have horder := h.order
  rw [hmailbox, List.pairwise_cons] at horder
  have hmem {other : Message} (hother : other ∈ next.mailbox) : other ∈ rest :=
    hnextMailbox ▸ hother
  have hold {other : Message} (hother : other ∈ rest) : other ∈ controller.mailbox :=
    hmailbox ▸ List.mem_cons_of_mem message hother
  refine ⟨fun id hid => ?_, fun other hother => h.shown other (hold (hmem hother)), ?_⟩
  · have hsource : controller.Recalls id ∨ id ∈ message.shows := by
      rcases hid with ⟨session, hsession, hprior⟩ | ⟨session, halarm⟩
      · rcases hbecomes.origin session hsession with ⟨former, hformer, -, -, hsame⟩ | rfl
        · exact Or.inl (Or.inl ⟨former, hformer, hsame ▸ hprior⟩)
        · exact Or.inr hprior
      · rcases hbecomes.spawnCheck_of_mem_alarms halarm with hformer | rfl
        · exact Or.inl (Or.inr ⟨session, mem_alarms_of_pop hmailbox hformer⟩)
        · exact Or.inr (Message.mem_shows_of_created? (Message.created?_eq_some_iff.mpr rfl))
    rcases hsource with hformer | hshown
    · obtain ⟨hbelow, holder⟩ := h.recalled id hformer
      exact ⟨hbelow, fun other hother => holder other (hold (hmem hother))⟩
    · refine ⟨h.shown message (hmailbox ▸ List.mem_cons_self) id hshown, fun other hother => ?_⟩
      exact horder.1 other (hmem hother) id hshown
  · rw [hnextMailbox]
    exact horder.2

end Chronological
end Controller
end CallBinding
