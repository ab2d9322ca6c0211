import CallBinding.Proofs.Controller.Turns
import CallBinding.Proofs.Workbench.Seats

/-!
# Sound workbenches

Whatever the moves and the faults, a workbench stays consistent: its blocks are
numbered, and what the controller knows about call sites is true of them.  That
no block is created but by users follows from what handlers do, so consistency
is shown for one turn whose commands are known.  Without scripted faults every
reachable workbench is sound: it is consistent, and its host has no faults.
-/

namespace CallBinding

open Editor (Evolves)

/-- What a controller takes for call sites are call sites, if they are live. -/
structure Controller.Knows (controller : Controller) (editor : Editor) : Prop where
  messages : ∀ call prior, .callSiteCreated call prior ∈ controller.mailbox →
    editor.OnlyCallSite call
  sessions : ∀ session ∈ controller.sessions, editor.OnlyCallSite session.callSite

/-- A message about a new call site is about a live one. -/
theorem Workbench.onlyCallSite_of_ofEvent {host : Host} {event : Event} {call : BlockId}
    {prior : List BlockId} (h : Message.ofEvent host event = .callSiteCreated call prior)
    (hnumbered : host.editor.Numbered) : host.editor.OnlyCallSite call := by
  obtain ⟨-, -, block, hmem, rfl, hrole⟩ := Message.exists_of_ofEvent h
  refine ⟨hnumbered.below block hmem, fun other hother hid => ?_⟩
  rw [hnumbered.distinct.eq_of_id hother hmem hid]
  exact hrole

namespace Controller.Knows

variable {controller next : Controller} {editor after : Editor}

theorem new (settings : Settings) (cleanup : Cleanup) (editor : Editor) :
    (Controller.new settings cleanup).Knows editor :=
  ⟨fun _ _ h => (by cases h), fun _ h => (by cases h)⟩

theorem evolves (h : controller.Knows editor) (hevolves : Evolves editor after) :
    controller.Knows after :=
  ⟨fun call prior hmem => hevolves.onlyCallSite (h.messages call prior hmem),
    fun session hmem => hevolves.onlyCallSite (h.sessions session hmem)⟩

/-- New messages have to be about call sites. -/
theorem post (h : controller.Knows editor) {messages : List Message}
    (hmessages : ∀ call prior, .callSiteCreated call prior ∈ messages →
      editor.OnlyCallSite call) :
    Knows { controller with mailbox := controller.mailbox ++ messages } editor := by
  refine ⟨fun call prior hmem => ?_, h.sessions⟩
  rcases List.mem_append.mp hmem with hold | hnew
  · exact h.messages call prior hold
  · exact hmessages call prior hnew

theorem hear {host : Host} (h : controller.Knows host.editor) (hnumbered : host.editor.Numbered)
    (events : List Event) : (controller.hear host events).Knows host.editor := by
  apply h.post
  intro call prior hmem
  obtain ⟨event, -, hevent⟩ := List.mem_map.mp hmem
  exact Workbench.onlyCallSite_of_ofEvent hevent hnumbered

theorem wake (h : controller.Knows editor) (time : Nat) : (controller.wake time).Knows editor := by
  have hposted : Knows { controller with
      mailbox := controller.mailbox ++ (controller.agenda.dueBy time).map .due } editor := by
    apply h.post
    intro call prior hmem
    simp at hmem
  exact ⟨hposted.messages, hposted.sessions⟩

theorem handle (h : controller.Knows editor) {message : Message} {rest : List Message}
    (hmailbox : controller.mailbox = message :: rest) {now : Nat} {host : Host}
    (hfate : ({ controller with mailbox := rest }.handle now host message).fate =
      .running next) : next.Knows editor := by
  obtain ⟨hrest, -, hsessions⟩ := handle_running hfate
  constructor
  · intro call prior hmem
    rw [hrest] at hmem
    exact h.messages call prior (hmailbox ▸ List.mem_cons_of_mem message hmem)
  · intro session hsession
    rcases hsessions session hsession with ⟨former, hformer, hcall⟩ | ⟨prior, hmessage⟩
    · exact hcall ▸ h.sessions former hformer
    · exact h.messages session.callSite prior (hmailbox ▸ hmessage ▸ List.mem_cons_self)

end Controller.Knows

namespace Workbench

/-! ## Consistency -/

/-- What holds of a workbench between any two moves, whatever the faults of its host. -/
structure Consistent (bench : Workbench) : Prop where
  numbered : bench.host.editor.Numbered
  knows : ∀ controller, bench.seat = .running controller → controller.Knows bench.host.editor

/-- All that the next turn does to the host is to issue commands that meet a condition. -/
def TurnReplays (condition : List Block → Command → Prop) (bench : Workbench) : Prop :=
  ∀ controller message rest, bench.seat = .running controller →
    controller.mailbox = message :: rest →
    Host.Replays condition bench.host
      ({ controller with mailbox := rest }.handle bench.clock bench.host message).host

variable {bench : Workbench} {condition : List Block → Command → Prop}

theorem consistent_new (autoDefine : Bool) : Consistent (new autoDefine) :=
  ⟨Editor.numbered_new autoDefine, fun _ h => (by cases h)⟩

/-- After a move the editor is numbered as before, and no old block has another role. -/
theorem evolves_move (hnumbered : bench.host.editor.Numbered)
    (hturn : TurnReplays condition bench) (move : Move) :
    (bench.move move).host.editor.Numbered ∧
      Evolves bench.host.editor (bench.move move).host.editor := by
  have hhosts := bench.hosts_move move
  generalize (bench.move move).host = after at hhosts ⊢
  cases hhosts with
  | kept _ | scripted _ _ | leaked _ => exact ⟨hnumbered, .refl _⟩
  | adopted _ _ _ hprogress =>
      have hafter := hprogress.numbered hnumbered
      exact ⟨⟨hafter.increasing, hafter.below⟩,
        ⟨hprogress.evolves.nextBlock_le, hprogress.evolves.origin⟩⟩
  | suppressed | resumed =>
      have hsame := Evolves.refl bench.host.editor
      exact ⟨⟨hnumbered.increasing, hnumbered.below⟩, ⟨hsame.nextBlock_le, hsame.origin⟩⟩
  | turned hseat hmailbox hafter =>
      subst hafter
      have hreplays := hturn _ _ _ hseat hmailbox
      have hafter := hreplays.numbered hnumbered
      exact ⟨⟨hafter.increasing, hafter.below⟩,
        ⟨hreplays.evolves.nextBlock_le, hreplays.evolves.origin⟩⟩

theorem Consistent.move (h : Consistent bench) (hturn : TurnReplays condition bench)
    (move : Move) : Consistent (bench.move move) := by
  obtain ⟨hnumbered, hevolves⟩ := evolves_move h.numbered hturn move
  refine ⟨hnumbered, fun later hseat => ?_⟩
  cases seats_move hseat with
  | installed cleanup settings => exact .new settings cleanup _
  | told events hformer _ _ =>
      exact ((h.knows _ hformer).evolves hevolves).hear hnumbered events
  | idled hformer _ | ticked _ hformer => exact (h.knows _ hformer).evolves hevolves
  | turned hformer hmailbox hfate =>
      exact (((h.knows _ hformer).handle hmailbox hfate).evolves hevolves).hear hnumbered _
  | woken time hformer => exact ((h.knows _ hformer).evolves hevolves).wake time
  | dismissed hformer =>
      apply ((h.knows _ hformer).evolves hevolves).post
      intro call prior hmem
      simp at hmem

/-! ## Soundness -/

/-- What holds of a workbench between any two moves, if no faults are scripted. -/
structure Sound (bench : Workbench) : Prop where
  faultless : bench.host.Faultless
  numbered : bench.host.editor.Numbered
  knows : ∀ controller, bench.seat = .running controller → controller.Knows bench.host.editor

theorem sound_new (autoDefine : Bool) : Sound (new autoDefine) :=
  ⟨fun _ _ => rfl, (consistent_new autoDefine).numbered, (consistent_new autoDefine).knows⟩

theorem faultless_of_faults_eq {host other : Host} (h : host.Faultless)
    (hfaults : other.faults = host.faults) : other.Faultless := by
  intro id fault
  rw [Host.hasFault, hfaults]
  exact h id fault

namespace Sound

theorem consistent (h : Sound bench) : Consistent bench :=
  ⟨h.numbered, h.knows⟩

/-- No command that a sound workbench's controller issues unbinds a call site. -/
theorem handle_keeps (h : Sound bench) {controller : Controller} {message : Message}
    {rest : List Message} (hseat : bench.seat = .running controller)
    (hmailbox : controller.mailbox = message :: rest) :
    Host.Replays Graph.Keeps bench.host
      ({ controller with mailbox := rest }.handle bench.clock bench.host message).host := by
  have hknows := h.knows controller hseat
  have honly : ∀ session ∈ ({ controller with mailbox := rest } : Controller).sessions,
      bench.host.editor.OnlyCallSite session.callSite := hknows.sessions
  refine Controller.handle_keeps h.faultless h.numbered.distinct honly bench.clock ?_
  rintro call prior rfl
  exact hknows.messages call prior (hmailbox ▸ List.mem_cons_self)

theorem faultless_move (h : Sound bench) {move : Move} (hmove : move.IsFaultless) :
    (bench.move move).host.Faultless := by
  have hhosts := bench.hosts_move move
  generalize (bench.move move).host = after at hhosts ⊢
  cases hhosts with
  | kept _ | suppressed | resumed | leaked _ => exact h.faultless
  | adopted _ host hfaults _ => exact faultless_of_faults_eq h.faultless hfaults
  | scripted id faults =>
      obtain rfl : faults = [] := hmove
      intro other fault
      have hother := h.faultless other fault
      simp only [Host.setFaults, Host.hasFault, OrderedMap.get?_insert] at hother ⊢
      split
      · rfl
      · exact hother
  | turned hseat hmailbox hafter =>
      subst hafter
      exact (h.handle_keeps hseat hmailbox).faultless h.faultless

theorem move (h : Sound bench) {move : Move} (hmove : move.IsFaultless) :
    Sound (bench.move move) := by
  have hturn : TurnReplays Graph.Keeps bench := by
    intro controller message rest hseat hmailbox
    exact h.handle_keeps hseat hmailbox
  have hconsistent := h.consistent.move hturn move
  exact ⟨h.faultless_move hmove, hconsistent.numbered, hconsistent.knows⟩

end Sound

/-- Without scripted faults every reachable workbench is sound. -/
theorem Reachable.sound (h : Reachable Move.IsFaultless bench) : Sound bench := by
  obtain ⟨autoDefine, hleads⟩ := h
  exact hleads.preserves Sound (fun _ _ hsound hmove => hsound.move hmove) (sound_new autoDefine)

end Workbench
end CallBinding
