import CallBinding.Proofs.Controller.Binding

/-!
# What disposals leave behind

A validly named definition is disposed of in favour of another one of its
family, except at the end of a session, where a definition that nobody calls
may go as the last one of its family.  Such a definition is a scaffold at that
moment, but others are settled after it; so it takes an invariant to see that
nobody calls its name when the session has ended, unless somebody else carries
it by then.
-/

namespace CallBinding

open CallBinding.Graph (Carries Distinct)

/-- Call sites that call a name find a definition of it. -/
def Graph.Answers (name : String) (blocks : List Block) : Prop :=
  ∀ call ∈ callSites blocks, call.name = name → Carries blocks name

namespace Host

open CallBinding.Graph (Answers)

variable {host after : Host} {plan : List Resolution} {name : String} {prior : List BlockId}

/-! ## Plans -/

/-- A feasible plan that is carried out leaves every family a member. -/
theorem CarriesOut.exists_of_base (h : CarriesOut plan host after)
    (hplan : Feasible host.members plan) (hdistinct : Distinct host.editor.blocks)
    {definition : Definition} (hdefinition : definition ∈ Graph.definitions host.editor.blocks) :
    ∃ other ∈ Graph.definitions after.editor.blocks,
      Name.base? other.name = Name.base? definition.name := by
  obtain ⟨kept, hkept, -, hbase⟩ :=
    hplan.follow_carried (nodup_members hdistinct) (asMember_mem_members hdefinition)
  rw [← h.members] at hkept
  obtain ⟨other, hother, rfl⟩ := mem_members hkept
  exact ⟨other, hother, hbase⟩

/-- A feasible plan that is carried out leads call sites to names that somebody carries. -/
theorem CarriesOut.answers (h : CarriesOut plan host after) (hplan : Feasible host.members plan)
    (hdistinct : Distinct host.editor.blocks) (hanswers : Answers name host.editor.blocks) :
    Answers name after.editor.blocks := by
  intro call hcall hname
  have hpair : (call.id, call.name) ∈
      (Graph.callSites host.editor.blocks).map fun call => (call.id, follow plan call.name) := by
    rw [← h.callSites]
    exact List.mem_map_of_mem (f := fun call : CallSite => (call.id, call.name)) hcall
  obtain ⟨former, hformer, heq⟩ := List.mem_map.mp hpair
  have hfollow : follow plan former.name = name := (Prod.mk.inj heq).2.trans hname
  -- The former name is one that somebody carried, or else the plan has led it nowhere.
  have hcarried : Carries host.editor.blocks former.name := by
    by_contra hnone
    have hsame : follow plan former.name = former.name := by
      apply hplan.follow_eq_self_of_not_carried
      intro member hmember _ hcarries
      obtain ⟨definition, hdefinition, rfl⟩ := mem_members hmember
      exact hnone ⟨definition, hdefinition, hcarries⟩
    have hformerName : former.name = name := hsame.symm.trans hfollow
    exact hnone (hformerName ▸ hanswers former hformer hformerName)
  obtain ⟨definition, hdefinition, hdefinitionName⟩ := hcarried
  obtain ⟨kept, hkept, hkeptName, -⟩ :=
    hplan.follow_carried (nodup_members hdistinct) (asMember_mem_members hdefinition)
  rw [← h.members] at hkept
  obtain ⟨other, hother, rfl⟩ := mem_members hkept
  refine ⟨other, hother, hkeptName.trans ?_⟩
  exact (congrArg (follow plan) hdefinitionName).trans hfollow

/-! ## The end of a session -/

theorem answers_checkSpawned (hfaultless : host.Faultless) (hdistinct : Distinct host.editor.blocks)
    (definition : BlockId) (hanswers : Answers name host.editor.blocks) :
    Answers name (host.checkSpawned definition prior).2.editor.blocks := by
  unfold checkSpawned
  split
  · exact hanswers
  next found _ =>
    dsimp only
    have hplan := feasible_planSpawned (nodup_members hdistinct) found.name prior
    exact (carriesOut_apply hfaultless hdistinct hplan).answers hplan hdistinct hanswers

/-- A scaffold has no callers, so those that call a name do not lose their definition. -/
theorem answers_disposeIfScaffold (hfaultless : host.Faultless)
    (hdistinct : Distinct host.editor.blocks) (hvalid : Name.base? name ≠ none)
    (definition : BlockId) (hanswers : Answers name host.editor.blocks) :
    Answers name (host.disposeIfScaffold definition).editor.blocks := by
  unfold disposeIfScaffold
  split
  · exact hanswers
  next found hfound =>
    obtain ⟨hmem, rfl⟩ := mem_of_definition? hfound
    split
    · exact hanswers
    next hscaffold =>
      rw [dispose_of_mem hfaultless.disposes hmem]
      intro call hcall hname
      simp only [blocks_issue, Command.replayAll_cons, Command.replayAll_nil] at hcall ⊢
      rw [Graph.callSites_replay_dispose hdistinct hmem] at hcall
      obtain ⟨carrier, hcarrier, hcarrierName⟩ := hanswers call hcall hname
      refine ⟨carrier, ?_, hcarrierName⟩
      rw [Graph.definitions_replay_dispose]
      refine List.mem_filter.mpr ⟨hcarrier, decide_eq_true fun hid => hscaffold ?_⟩
      have hfoundName : found.name = name :=
        hdistinct.definition_eq hcarrier hmem hid ▸ hcarrierName
      have hcaller : call ∈ host.callersOf found.name := by
        rw [callersOf_eq]
        exact List.mem_filter.mpr ⟨hcall, by simp [hname, hfoundName]⟩
      have hnonempty : (host.callersOf found.name).isEmpty = false :=
        List.isEmpty_eq_false_iff_exists_mem.mpr ⟨call, hcaller⟩
      have hfoundValid : Name.isValid found.name = true :=
        Name.base?_ne_none_iff.mp (hfoundName.symm ▸ hvalid)
      rw [hfoundValid, hnonempty]
      rfl

theorem answers_settleUnchecked (hfaultless : host.Faultless)
    (hdistinct : Distinct host.editor.blocks) (hvalid : Name.base? name ≠ none)
    (definition : BlockId) (hanswers : Answers name host.editor.blocks) :
    Answers name (settleUnchecked prior host definition).editor.blocks := by
  have hchecked := checkSpawned_keeps hfaultless hdistinct definition prior
  have hcheckedAnswers : Answers name (host.checkSpawned definition prior).2.editor.blocks :=
    answers_checkSpawned hfaultless hdistinct definition hanswers
  simp only [settleUnchecked]
  split
  · exact answers_disposeIfScaffold (hchecked.faultless hfaultless) (hchecked.distinct hdistinct)
      hvalid definition hcheckedAnswers
  · exact hcheckedAnswers

/-- At the end of a session whoever calls a valid name that was carried before finds it carried. -/
theorem answers_settleSpawned (hfaultless : host.Faultless)
    (hdistinct : Distinct host.editor.blocks) (hvalid : Name.base? name ≠ none)
    (session : Session) (hanswers : Answers name host.editor.blocks) :
    Answers name (host.settleSpawned session).editor.blocks := by
  let invariant (host : Host) : Prop :=
    host.Faultless ∧ Distinct host.editor.blocks ∧ Answers name host.editor.blocks
  suffices hend : invariant (host.settleSpawned session) from hend.2.2
  have hchecked : invariant (session.spawnChecks.foldl (settleUnchecked session.prior) host) := by
    refine List.foldlRecOn _ _ ⟨hfaultless, hdistinct, hanswers⟩ ?_
    intro later hlater id _
    have hissues := settleUnchecked_keeps hlater.1 hlater.2.1 session.prior id
    exact ⟨hissues.faultless hlater.1, hissues.distinct hlater.2.1,
      answers_settleUnchecked hlater.1 hlater.2.1 hvalid id hlater.2.2⟩
  refine List.foldlRecOn _ _ hchecked ?_
  intro later hlater id _
  have hissues := disposeIfScaffold_keeps hlater.1 hlater.2.1 id
  exact ⟨hissues.faultless hlater.1, hissues.distinct hlater.2.1,
    answers_disposeIfScaffold hlater.1 hlater.2.1 hvalid id hlater.2.2⟩

end Host

namespace Controller

open Host (CarriesOut)
open CallBinding.Graph (Answers)

variable {controller : Controller} {host : Host}

/-- The family of a definition has a live member, or the message was the end of a session and
nobody calls the definition. -/
inductive Covered (message : Message) (after : Host) (definition : Definition) : Prop
  | family (other : Definition) : other ∈ after.definitions →
      Name.base? other.name = Name.base? definition.name → Covered message after definition
  | uncalled (id : SessionId) : message = .due (.window id) →
      (∀ call ∈ after.callSites, call.name ≠ definition.name) → Covered message after definition

theorem covered_of_carriesOut {plan : List Resolution} {message : Message} {after : Host}
    (h : CarriesOut plan host after) (hplan : Feasible host.members plan)
    (hdistinct : Distinct host.editor.blocks) {definition : Definition}
    (hdefinition : definition ∈ host.definitions) : Covered message after definition := by
  rw [Host.definitions_eq] at hdefinition
  obtain ⟨other, hother, hbase⟩ := h.exists_of_base hplan hdistinct hdefinition
  exact .family other (by rw [Host.definitions_eq]; exact hother) hbase

/-- An alarm that may cost definitions leaves every validly named one covered. -/
theorem covered_of_onAlarm (hfaultless : host.Faultless) (hdistinct : Distinct host.editor.blocks)
    (now : Nat) (alarm : Alarm) {definition : Definition}
    (hdefinition : definition ∈ host.definitions) (hvalid : Name.isValid definition.name = true)
    (hmay : ∀ id, alarm ≠ .recheck id) :
    Covered (.due alarm) (controller.onAlarm now host alarm).host definition := by
  have unchanged : Covered (.due alarm) host definition := .family definition hdefinition rfl
  cases alarm with
  | recheck id => exact absurd rfl (hmay id)
  | spawnCheck id checked =>
      simp only [onAlarm, Turn.proceed, onSpawnCheck]
      split
      · exact unchanged
      next session _ =>
        unfold Host.checkSpawned
        split
        · exact unchanged
        next found _ =>
          dsimp only
          have hplan := feasible_planSpawned (Host.nodup_members hdistinct) found.name session.prior
          have happly := Host.carriesOut_apply hfaultless hdistinct hplan
          exact covered_of_carriesOut happly hplan hdistinct hdefinition
  | window id =>
      simp only [onAlarm, Turn.proceed, onWindow]
      split
      · exact unchanged
      next session _ =>
        have hbase : Name.base? definition.name ≠ none := Name.base?_ne_none_iff.mpr hvalid
        have hanswers : Answers definition.name host.editor.blocks := fun _ _ _ =>
          ⟨definition, by rwa [← Host.definitions_eq], rfl⟩
        have hend := Host.answers_settleSpawned hfaultless hdistinct hbase session hanswers
        by_cases hcalled : ∃ call ∈ (host.settleSpawned session).callSites,
            call.name = definition.name
        · obtain ⟨call, hcall, hname⟩ := hcalled
          rw [Host.callSites_eq] at hcall
          obtain ⟨other, hother, hotherName⟩ := hend call hcall hname
          exact .family other (by rw [Host.definitions_eq]; exact hother)
            (congrArg Name.base? hotherName)
        · exact .uncalled id rfl fun call hcall hname => hcalled ⟨call, hcall, hname⟩
  | debounce generation =>
      have hends := controller.endsWait_onDebounce host generation
      simp only [onAlarm]
      generalize controller.onDebounce host generation = turn at hends ⊢
      cases hends with
      | stale _ | deferred _ _ | counted _ _ _ | crashed _ _ _ => exact unchanged
      | swept _ _ _ =>
          have hplan := feasible_plan (Host.nodup_members hdistinct)
          have hsweep := Host.carriesOut_sweep hfaultless hdistinct
          exact covered_of_carriesOut hsweep hplan hdistinct hdefinition

end Controller
end CallBinding
