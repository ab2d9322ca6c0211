import CallBinding.Proofs.Controller.Becomes
import CallBinding.Proofs.Controller.Binding

/-!
# What was there when a call site was created

With the news of a call site goes a list of the definitions that were live when
it was told.  Since blocks are numbered in the order of their creation and never
change their roles, the list stays what it was, however the graph changes in the
meantime: of the definitions that are live at any later time it holds exactly
those that are older than the call site.  So whoever looks a name up among the
usable ones of the listed definitions finds what he would find in the whole
graph.
-/

namespace CallBinding

open Editor (Evolves)

/-- Of the live definitions, a list holds exactly those that are older than a call site. -/
structure Editor.Snapshot (editor : Editor) (call : BlockId) (prior : List BlockId) : Prop where
  given : call.number < editor.nextBlock
  older : ∀ id ∈ prior, id.number < call.number
  complete : ∀ definition ∈ Graph.definitions editor.blocks,
    definition.id.number < call.number → definition.id ∈ prior

theorem Editor.Snapshot.evolves {before after : Editor} {call : BlockId} {prior : List BlockId}
    (h : before.Snapshot call prior) (hevolves : Evolves before after) :
    after.Snapshot call prior := by
  refine ⟨h.given.trans_le hevolves.nextBlock_le, h.older, fun definition hdefinition holder => ?_⟩
  obtain ⟨block, hblock, hrole, rfl⟩ := Graph.mem_definitions.mp hdefinition
  rcases hevolves.origin block hblock with ⟨former, hformer, hid, hformerRole⟩ | hyoung
  · have hlive := Graph.mem_definitions.mpr ⟨former, hformer, hformerRole.trans hrole, rfl⟩
    have hmem := h.complete _ hlive (by rw [hid]; exact holder)
    rwa [hid] at hmem
  · exact absurd (holder.trans h.given) (Nat.not_lt.mpr hyoung)

theorem Editor.Numbered.increasing_definitions {editor : Editor} (h : editor.Numbered) :
    (Graph.definitions editor.blocks).Pairwise fun a b => a.id.number < b.id.number := by
  have hids := h.increasing.sublist (Graph.map_id_definitions_sublist editor.blocks)
  rwa [List.pairwise_map] at hids

/-- The first usable definition of a name in a snapshot is the first of that name in the graph: a
namesake before it would be older, and as usable. -/
theorem Host.definitionNamed?_of_usable {host : Host} {call : BlockId} {prior : List BlockId}
    (hsnapshot : host.editor.Snapshot call prior) (hnumbered : host.editor.Numbered)
    {name : String} {definition : Definition}
    (h : ((host.usable prior).find? fun other => other.name = name) = some definition) :
    host.definitionNamed? name = some definition := by
  have hmem := List.mem_of_find?_eq_some h
  have hvalid := (mem_usable hmem).2
  have holder := hsnapshot.older definition.id (mem_prior_of_mem_usable hmem)
  have hname : definition.name = name := by simpa using List.find?_some h
  rw [usable, definitions_eq, List.find?_filter, List.find?_eq_some_iff_append] at h
  obtain ⟨-, before, after, hsplit, hfirst⟩ := h
  rw [definitionNamed?_eq, List.find?_eq_some_iff_append]
  refine ⟨by simpa using hname, before, after, hsplit, fun other hother => ?_⟩
  have hlive : other ∈ Graph.definitions host.editor.blocks :=
    hsplit ▸ List.mem_append_left _ hother
  have hincreasing := hnumbered.increasing_definitions
  rw [hsplit] at hincreasing
  have hearlier : other.id.number < definition.id.number :=
    (List.pairwise_append.mp hincreasing).2.2 other hother definition List.mem_cons_self
  have hlisted := hsnapshot.complete other hlive (hearlier.trans holder)
  by_contra hsame
  have hnamesake : other.name = definition.name := by simpa [hname] using hsame
  have hnot := hfirst other hother
  rw [← hname, hnamesake] at hnot
  simp [hlisted, hvalid] at hnot

namespace Controller

/-- A controller has been told of a call site, and with it of some definitions: the news is in its
mailbox, or a session has been opened for it. -/
def Recounts (controller : Controller) (call : BlockId) (prior : List BlockId) : Prop :=
  .callSiteCreated call prior ∈ controller.mailbox ∨
    ∃ session ∈ controller.sessions, session.callSite = call ∧ session.prior = prior

variable {controller former next : Controller} {call : BlockId} {prior : List BlockId}

theorem not_recounts_new (settings : Settings) (cleanup : Cleanup) :
    ¬(Controller.new settings cleanup).Recounts call prior := by
  rintro (h | ⟨session, h, -⟩) <;> cases h

theorem Recounts.of_mem (h : controller.Recounts call prior)
    (hsessions : former.sessions = controller.sessions)
    (hmailbox : ∀ message ∈ controller.mailbox, message = .callSiteCreated call prior →
      message ∈ former.mailbox) : former.Recounts call prior := by
  rcases h with hnews | hopened
  · exact Or.inl (hmailbox _ hnews rfl)
  · exact Or.inr (hsessions ▸ hopened)

/-- Handling a message tells a controller of nothing new. -/
theorem Recounts.of_becomes {message : Message} {rest : List Message} {now : Nat} {host : Host}
    (h : next.Recounts call prior) (hmailbox : former.mailbox = message :: rest)
    (hbecomes : Becomes { former with mailbox := rest } now host message next) :
    former.Recounts call prior := by
  rcases h with hnews | ⟨session, hsession, rfl, rfl⟩
  · rw [hbecomes.keeps.1] at hnews
    exact Or.inl (hmailbox ▸ List.mem_cons_of_mem message hnews)
  · rcases hbecomes.origin session hsession with ⟨older, holder, -, hcall, hprior⟩ | rfl
    · exact Or.inr ⟨older, holder, hcall, hprior⟩
    · exact Or.inl (hmailbox ▸ List.mem_cons_self)

end Controller

end CallBinding
