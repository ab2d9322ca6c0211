import CallBinding.Proofs.Controller.Binding
import CallBinding.Proofs.Family.Settled

/-!
# Scaffolds at the end of a session

When a session closes, its spawned definitions are judged one after another, and
checks that are carried out later give call sites other names.  A definition
that was judged alive keeps its callers all the same: its own check has settled
its family, so that a later check finds nothing to do there, or concerns another
family.  What is disposed of later is no member of the family either, because a
settled family has one newcomer at most.
-/

namespace CallBinding
namespace Host

open CallBinding.Graph (Distinct)

/-- The definition of an id is gone, or it has a valid name that a call site calls. -/
def IsCalled (host : Host) (id : BlockId) : Prop :=
  ∀ definition ∈ Graph.definitions host.editor.blocks, definition.id = id →
    Name.isValid definition.name = true ∧
      ∃ call ∈ Graph.callSites host.editor.blocks, call.name = definition.name

/-- The family of the definition of an id is settled, if there is such a one. -/
def IsSettledAt (host : Host) (prior : List BlockId) (id : BlockId) : Prop :=
  ∀ definition ∈ Graph.definitions host.editor.blocks, definition.id = id →
    ∀ base, Name.base? definition.name = some base → IsSettled prior (familyOf base host.members)

variable {host : Host} {prior : List BlockId} {id other : BlockId} {definition : Definition}

theorem isCalled_of_gone
    (h : ∀ definition ∈ Graph.definitions host.editor.blocks, definition.id ≠ id) :
    host.IsCalled id :=
  fun definition hdefinition hid => absurd hid (h definition hdefinition)

theorem isSettledAt_of_gone
    (h : ∀ definition ∈ Graph.definitions host.editor.blocks, definition.id ≠ id) :
    host.IsSettledAt prior id :=
  fun definition hdefinition hid => absurd hid (h definition hdefinition)

theorem asMember_mem_familyOf (h : definition ∈ Graph.definitions host.editor.blocks)
    {base : String} (hbase : Name.base? definition.name = some base) :
    definition.asMember ∈ familyOf base host.members :=
  mem_familyOf.mpr ⟨asMember_mem_members h, hbase⟩

/-- A settled family is spared by every plan for a spawned definition, and so is the name of the
definition that belongs to it. -/
theorem IsSettledAt.spared_by_planSpawned (h : host.IsSettledAt prior id)
    (hdistinct : Distinct host.editor.blocks)
    (hdefinition : definition ∈ Graph.definitions host.editor.blocks) (hid : definition.id = id)
    {base : String} (hbase : Name.base? definition.name = some base) (name : String) :
    follow (planSpawned host.members name prior) definition.name = definition.name ∧
      familyOf base (remaining host.members (planSpawned host.members name prior)) =
        familyOf base host.members := by
  by_cases hname : Name.base? name = some base
  · rw [planSpawned_of_isSettled hname (h definition hdefinition hid base hbase)]
    exact ⟨rfl, by simp [remaining]⟩
  · refine ⟨follow_planSpawned_of_base_ne ?_, ?_⟩
    · rw [hbase]
      exact Ne.symm hname
    · exact familyOf_remaining_planSpawned_of_base_ne (nodup_members hdistinct) hname

section

variable (hfaultless : host.Faultless) (hdistinct : Distinct host.editor.blocks)

include hfaultless hdistinct

theorem gone_of_definition?_eq_none (h : host.definition? id = none) :
    ∀ definition ∈ Graph.definitions host.editor.blocks, definition.id ≠ id := by
  intro definition hdefinition hid
  rw [(definition?_eq_some_iff hfaultless hdistinct).mpr ⟨hdefinition, hid⟩] at h
  cases h

/-! ## Disposing of scaffolds -/

/-- Either the host is left alone, because the definition is gone or called, or the definition goes
and nothing else. -/
theorem disposeIfScaffold_cases (id : BlockId) :
    (host.disposeIfScaffold id = host ∧ host.IsCalled id) ∨
      (Graph.definitions (host.disposeIfScaffold id).editor.blocks =
          (Graph.definitions host.editor.blocks).filter (fun definition => definition.id ≠ id) ∧
        Graph.callSites (host.disposeIfScaffold id).editor.blocks =
          Graph.callSites host.editor.blocks) := by
  cases hfound : host.definition? id with
  | none =>
      have hgone := gone_of_definition?_eq_none hfaultless hdistinct hfound
      exact Or.inl ⟨by rw [disposeIfScaffold, hfound], isCalled_of_gone hgone⟩
  | some found =>
      obtain ⟨hmem, rfl⟩ := mem_of_definition? hfound
      by_cases hcalled :
          (Name.isValid found.name && !(host.callersOf found.name).isEmpty) = true
      · refine Or.inl ⟨by simp only [disposeIfScaffold, hfound, if_pos hcalled], ?_⟩
        obtain ⟨hvalid, hcallers⟩ := Bool.and_eq_true_iff.mp hcalled
        have hsome : (host.callersOf found.name).isEmpty = false := by simpa using hcallers
        obtain ⟨call, hcall⟩ := List.isEmpty_eq_false_iff_exists_mem.mp hsome
        rw [callersOf_eq] at hcall
        obtain ⟨hlive, hname⟩ := List.mem_filter.mp hcall
        intro definition hdefinition hid
        rw [hdistinct.definition_eq hdefinition hmem hid]
        exact ⟨hvalid, call, hlive, by simpa using hname⟩
      · right
        have hdisposed : host.disposeIfScaffold found.id = host.issue [.dispose found.id] := by
          simp only [disposeIfScaffold, hfound, if_neg hcalled]
          exact dispose_of_mem hfaultless.disposes hmem
        rw [hdisposed, blocks_issue, Command.replayAll_cons, Command.replayAll_nil]
        exact ⟨Graph.definitions_replay_dispose _ _, Graph.callSites_replay_dispose hdistinct hmem⟩

theorem isCalled_disposeIfScaffold (id : BlockId) : (host.disposeIfScaffold id).IsCalled id := by
  rcases disposeIfScaffold_cases hfaultless hdistinct id with ⟨hsame, hcalled⟩ | ⟨hdefinitions, -⟩
  · rwa [hsame]
  · refine isCalled_of_gone fun definition hdefinition => ?_
    rw [hdefinitions] at hdefinition
    simpa using (List.mem_filter.mp hdefinition).2

theorem IsCalled.disposeIfScaffold (h : host.IsCalled other) (id : BlockId) :
    (host.disposeIfScaffold id).IsCalled other := by
  rcases disposeIfScaffold_cases hfaultless hdistinct id with
    ⟨hsame, -⟩ | ⟨hdefinitions, hcallSites⟩
  · rwa [hsame]
  · intro definition hdefinition hid
    rw [hdefinitions] at hdefinition
    rw [hcallSites]
    exact h definition (List.mem_filter.mp hdefinition).1 hid

/-- A newcomer that goes is no member of a settled family of another one. -/
theorem IsSettledAt.disposeIfScaffold (h : host.IsSettledAt prior other) (hother : other ∉ prior)
    (hid : id ∉ prior) : (host.disposeIfScaffold id).IsSettledAt prior other := by
  rcases disposeIfScaffold_cases hfaultless hdistinct id with ⟨hsame, -⟩ | ⟨hdefinitions, -⟩
  · rwa [hsame]
  · rintro definition hdefinition rfl base hbase
    rw [hdefinitions] at hdefinition
    obtain ⟨hlive, hne⟩ := List.mem_filter.mp hdefinition
    have hsettled := h definition hlive rfl base hbase
    have hmembers : (host.disposeIfScaffold id).members =
        host.members.filter fun member => member.id ≠ id := by
      rw [members_eq, members_eq, hdefinitions, List.filter_map]
      rfl
    have hsame : familyOf base (host.disposeIfScaffold id).members =
        familyOf base host.members := by
      rw [hmembers, familyOf, List.filter_comm, ← familyOf]
      refine List.filter_eq_self.mpr fun member hmember => decide_eq_true fun hmemberId => ?_
      have hfamily := isFamily_familyOf (nodup_members hdistinct) base
      have heq : member = definition.asMember := hsettled.eq_of_new hfamily hmember
        (asMember_mem_familyOf hlive hbase) (hmemberId ▸ hid) hother
      have hdefinitionId : definition.id = id := by rw [← hmemberId, heq]; rfl
      simp [hdefinitionId] at hne
    rwa [hsame]

/-! ## Checks -/

/-- What a check does to the host, where it finds its definition. -/
theorem carriesOut_checkSpawned {found : Definition} (hfound : host.definition? id = some found)
    (prior : List BlockId) :
    CarriesOut (planSpawned host.members found.name prior) host
      (host.checkSpawned id prior).2 := by
  have hfeasible := feasible_planSpawned (nodup_members hdistinct) found.name prior
  rw [checkSpawned, hfound]
  dsimp only
  generalize planSpawned host.members found.name prior = plan at hfeasible ⊢
  exact carriesOut_apply hfaultless hdistinct hfeasible

theorem isSettledAt_checkSpawned (id : BlockId) (prior : List BlockId) :
    (host.checkSpawned id prior).2.IsSettledAt prior id := by
  cases hfound : host.definition? id with
  | none =>
      have hgone := gone_of_definition?_eq_none hfaultless hdistinct hfound
      rw [checkSpawned, hfound]
      exact isSettledAt_of_gone hgone
  | some found =>
      have hcarries := carriesOut_checkSpawned hfaultless hdistinct hfound prior
      obtain ⟨hmem, hfoundId⟩ := mem_of_definition? hfound
      intro definition hdefinition hid base hbase
      rw [hcarries.definitions] at hdefinition
      have hsame : definition = found := hdistinct.definition_eq (List.mem_filter.mp hdefinition).1
        hmem (hid.trans hfoundId.symm)
      rw [hcarries.members]
      exact isSettled_remaining_planSpawned (nodup_members hdistinct) (hsame ▸ hbase)

end

/-! ## Judgements -/

/-- What is known of a definition once it was judged at the end of a session. -/
structure IsJudged (host : Host) (prior : List BlockId) (id : BlockId) : Prop where
  called : host.IsCalled id
  settled : host.IsSettledAt prior id

theorem fst_checkSpawned (host : Host) (id : BlockId) (prior : List BlockId) :
    (host.checkSpawned id prior).1 = ((host.checkSpawned id prior).2.definition? id).isSome := by
  unfold checkSpawned
  split
  next hnone =>
    dsimp only
    rw [hnone]
    rfl
  next => dsimp only

/-- A definition that does not survive its check is gone, and so no scaffold. -/
theorem settleUnchecked_eq (prior : List BlockId) (host : Host) (id : BlockId) :
    host.settleUnchecked prior id = (host.checkSpawned id prior).2.disposeIfScaffold id := by
  have hsurvived := host.fst_checkSpawned id prior
  unfold settleUnchecked
  generalize host.checkSpawned id prior = outcome at hsurvived ⊢
  obtain ⟨survived, checked⟩ := outcome
  dsimp only at hsurvived ⊢
  subst hsurvived
  split
  · rfl
  next hgone =>
    have hnone : checked.definition? id = none := by simpa using hgone
    rw [disposeIfScaffold, hnone]

section

variable (hfaultless : host.Faultless) (hdistinct : Distinct host.editor.blocks)

include hfaultless hdistinct

/-- Later checks leave the judged definitions their callers. -/
theorem IsJudged.checkSpawned (h : host.IsJudged prior other) (id : BlockId) :
    (host.checkSpawned id prior).2.IsJudged prior other := by
  cases hfound : host.definition? id with
  | none =>
      rw [Host.checkSpawned, hfound]
      exact h
  | some found =>
      have hcarries := carriesOut_checkSpawned hfaultless hdistinct hfound prior
      have hlive {definition : Definition} (hdefinition : definition ∈
          Graph.definitions (host.checkSpawned id prior).2.editor.blocks) :
          definition ∈ Graph.definitions host.editor.blocks := by
        rw [hcarries.definitions] at hdefinition
        exact (List.mem_filter.mp hdefinition).1
      refine ⟨fun definition hdefinition hid => ?_, fun definition hdefinition hid base hbase => ?_⟩
      · obtain ⟨hvalid, call, hcall, hname⟩ := h.called definition (hlive hdefinition) hid
        obtain ⟨base, hbase⟩ := Option.ne_none_iff_exists'.mp (Name.base?_ne_none_iff.mpr hvalid)
        obtain ⟨hfollow, -⟩ := h.settled.spared_by_planSpawned hdistinct (hlive hdefinition) hid
          hbase found.name
        rw [← callSites_eq] at hcall
        obtain ⟨live, hliveCall, -, hliveName⟩ := hcarries.exists_callSite hcall
        rw [callSites_eq] at hliveCall
        exact ⟨hvalid, live, hliveCall, by rw [hliveName, hname, hfollow]⟩
      · obtain ⟨-, hfamily⟩ := h.settled.spared_by_planSpawned hdistinct (hlive hdefinition) hid
          hbase found.name
        rw [hcarries.members, hfamily]
        exact h.settled definition (hlive hdefinition) hid base hbase

theorem isJudged_settleUnchecked (hid : id ∉ prior) :
    (host.settleUnchecked prior id).IsJudged prior id := by
  have hissues := checkSpawned_keeps hfaultless hdistinct id prior
  have hcheckedFaultless := hissues.faultless hfaultless
  have hcheckedDistinct := hissues.distinct hdistinct
  have hsettled := isSettledAt_checkSpawned hfaultless hdistinct id prior
  rw [settleUnchecked_eq]
  exact ⟨isCalled_disposeIfScaffold hcheckedFaultless hcheckedDistinct id,
    hsettled.disposeIfScaffold hcheckedFaultless hcheckedDistinct hid hid⟩

theorem IsJudged.settleUnchecked (h : host.IsJudged prior other) (hother : other ∉ prior)
    (hid : id ∉ prior) : (host.settleUnchecked prior id).IsJudged prior other := by
  have hissues := checkSpawned_keeps hfaultless hdistinct id prior
  have hcheckedFaultless := hissues.faultless hfaultless
  have hcheckedDistinct := hissues.distinct hdistinct
  have hchecked := h.checkSpawned hfaultless hdistinct id
  rw [settleUnchecked_eq]
  exact ⟨hchecked.called.disposeIfScaffold hcheckedFaultless hcheckedDistinct id,
    hchecked.settled.disposeIfScaffold hcheckedFaultless hcheckedDistinct hother hid⟩

/-- By induction from the last check: whatever was judged before it stays judged. -/
theorem isJudged_foldl_settleUnchecked {ids : List BlockId} (hids : ∀ id ∈ ids, id ∉ prior) :
    ∀ id ∈ ids, (ids.foldl (Host.settleUnchecked prior) host).IsJudged prior id := by
  induction ids using List.reverseRecOn with
  | nil => exact fun _ hid => by cases hid
  | append_singleton ids last ih =>
      have hissues := foldl_keeps (fun _ id hfaultless hdistinct =>
        settleUnchecked_keeps hfaultless hdistinct prior id) hfaultless hdistinct ids
      have hlast : last ∉ prior := hids last (by simp)
      have hearlier : ∀ id ∈ ids, id ∉ prior := fun id hid => hids id (by simp [hid])
      intro id hid
      rw [List.foldl_append, List.foldl_cons, List.foldl_nil]
      rcases List.mem_append.mp hid with hold | hnew
      · exact (ih hearlier id hold).settleUnchecked (hissues.faultless hfaultless)
          (hissues.distinct hdistinct) (hearlier id hold) hlast
      · rw [List.mem_singleton.mp hnew]
        exact isJudged_settleUnchecked (hissues.faultless hfaultless)
          (hissues.distinct hdistinct) hlast

/-- Disposing of scaffolds leaves no scaffold among those that were looked at, and takes no caller
from anybody else. -/
theorem isCalled_foldl_disposeIfScaffold {ids : List BlockId} {called : BlockId → Prop}
    (hcalled : ∀ id, called id → host.IsCalled id) :
    ∀ id, id ∈ ids ∨ called id → (ids.foldl Host.disposeIfScaffold host).IsCalled id := by
  induction ids using List.reverseRecOn with
  | nil => exact fun id hid => hcalled id (hid.resolve_left List.not_mem_nil)
  | append_singleton ids last ih =>
      have hissues := foldl_keeps (fun _ id hfaultless hdistinct =>
        disposeIfScaffold_keeps hfaultless hdistinct id) hfaultless hdistinct ids
      have hmidFaultless := hissues.faultless hfaultless
      have hmidDistinct := hissues.distinct hdistinct
      intro id hid
      rw [List.foldl_append, List.foldl_cons, List.foldl_nil]
      by_cases hlast : id = last
      · rw [hlast]
        exact isCalled_disposeIfScaffold hmidFaultless hmidDistinct last
      · refine (ih id (hid.imp_left fun hmem => ?_)).disposeIfScaffold hmidFaultless hmidDistinct last
        exact (List.mem_append.mp hmem).resolve_right fun h => hlast (List.mem_singleton.mp h)

/-- At the end of a session none of its definitions is left as a scaffold. -/
theorem isCalled_settleSpawned {session : Session}
    (hchecks : ∀ id ∈ session.spawnChecks, id ∉ session.prior) :
    ∀ id ∈ session.spawned ++ session.spawnChecks, (host.settleSpawned session).IsCalled id := by
  have hissues := foldl_keeps (fun _ id hfaultless hdistinct =>
    settleUnchecked_keeps hfaultless hdistinct session.prior id) hfaultless hdistinct
    session.spawnChecks
  have hjudged := isJudged_foldl_settleUnchecked hfaultless hdistinct hchecks
  intro id hid
  exact isCalled_foldl_disposeIfScaffold (hissues.faultless hfaultless)
    (hissues.distinct hdistinct) (fun id hid => (hjudged id hid).called) id
    (List.mem_append.mp hid)

end

end Host
end CallBinding
