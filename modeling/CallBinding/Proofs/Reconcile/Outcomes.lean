import CallBinding.Proofs.Reconcile.Sync

/-!
# Outcomes of a synchronisation

A synchronisation writes complete arguments or nothing.  `Syncs` lists the ways
in which it can end, on any host, with any faults, and for any two blocks; its
laws are read off this list.  After a write the target has what was due to it,
even if it was its own source, so a second synchronisation has nothing to do.
-/

namespace CallBinding
namespace Host

/-- Arguments complete the parameters of a definition: they have its labels, and one identity for
each of them. -/
structure Completes (host : Host) (source written : Parameters) : Prop where
  labels : written.labels = source.labels
  aligned : written.isAligned = true
  /-- The definition's own identities, if it has one for each label. -/
  own : source.isAligned = true → written.identities = source.identities
  /-- Otherwise every label is declared, and the identities are those of the declarations. -/
  declared : source.isAligned = false →
    source.labels.map host.declared? = written.identities.map some

/-- The ways in which a synchronisation ends. -/
inductive Syncs (host : Host) (call definition : BlockId) : SyncOutcome → Host → Prop
  | sourceless {error : EditorError} :
      host.parameters definition = .error error → Syncs host call definition .moot host
  | short {source : Parameters} :
      host.parameters definition = .ok source → ¬host.Resolves source →
      Syncs host call definition
        (.ambiguous (host.identitiesOf source).length source.count) host
  | targetless {source : Parameters} {error : EditorError} :
      host.parameters definition = .ok source → host.Resolves source →
      host.parameters call = .error error → Syncs host call definition .moot host
  | settled {source : Parameters} :
      host.parameters definition = .ok source → host.Resolves source →
      host.parameters call = .ok (host.resolved source) →
      Syncs host call definition .unchanged host
  | refused {source current : Parameters} {error : EditorError} :
      host.parameters definition = .ok source → host.Resolves source →
      host.parameters call = .ok current → current ≠ host.resolved source →
      host.setParameters call (host.resolved source) = .error error →
      Syncs host call definition .moot host
  | written {source current : Parameters} :
      host.parameters definition = .ok source → host.Resolves source →
      host.parameters call = .ok current → current ≠ host.resolved source →
      host.setParameters call (host.resolved source) =
        .ok (host.issue [.setParameters call (host.resolved source)]) →
      Syncs host call definition .updated
        (host.issue [.setParameters call (host.resolved source)])

variable {host after : Host} {call definition : BlockId} {outcome : SyncOutcome}

theorem syncs_sync (host : Host) (call definition : BlockId) :
    Syncs host call definition (host.sync call definition).1 (host.sync call definition).2 := by
  unfold sync
  cases hsource : host.parameters definition with
  | error _ => exact .sourceless hsource
  | ok source =>
      dsimp only
      split
      next hshort => exact .short hsource hshort
      next hlength =>
        have hresolves : host.Resolves source := not_not.mp hlength
        cases hcurrent : host.parameters call with
        | error _ => exact .targetless hsource hresolves hcurrent
        | ok current =>
            dsimp only
            split
            next hsame => exact .settled hsource hresolves (hcurrent.trans (congrArg _ hsame))
            next hdifferent =>
              split
              next written hwritten =>
                obtain ⟨rfl, -⟩ := setParameters_ok hwritten
                exact .written hsource hresolves hcurrent hdifferent hwritten
              next error hrefused => exact .refused hsource hresolves hcurrent hdifferent hrefused

/-- How a synchronisation ends is known from what it finds. -/
theorem Syncs.sync_eq (h : Syncs host call definition outcome after) :
    host.sync call definition = (outcome, after) := by
  cases h with
  | sourceless hsource => simp only [sync, hsource]
  | short hsource hshort =>
      simp only [sync, hsource]
      exact if_pos hshort
  | targetless hsource hresolves hcurrent =>
      simp only [sync, hsource, hcurrent]
      exact if_neg (not_not.mpr hresolves)
  | settled hsource hresolves hcurrent =>
      simp only [sync, hsource, hcurrent]
      exact (if_neg (not_not.mpr hresolves)).trans (if_pos rfl)
  | refused hsource hresolves hcurrent hdifferent hrefused =>
      simp only [sync, hsource, hcurrent]
      refine (if_neg (not_not.mpr hresolves)).trans ((if_neg hdifferent).trans ?_)
      simp only [resolved] at hrefused
      simp only [hrefused]
  | written hsource hresolves hcurrent hdifferent hwritten =>
      simp only [sync, hsource, hcurrent]
      refine (if_neg (not_not.mpr hresolves)).trans ((if_neg hdifferent).trans ?_)
      simp only [resolved] at hwritten
      simp only [hwritten, resolved]

/-! ## Complete arguments -/

/-- Nothing is dropped from a list that stays as long as it was. -/
theorem map_eq_map_some_filterMap {lookup : String → Option VariableId} {labels : List String}
    (h : (labels.filterMap lookup).length = labels.length) :
    labels.map lookup = (labels.filterMap lookup).map some := by
  induction labels with
  | nil => rfl
  | cons label rest ih =>
      cases hlabel : lookup label with
      | none =>
          rw [List.filterMap_cons_none hlabel, List.length_cons] at h
          have hle := List.length_filterMap_le lookup rest
          omega
      | some identity =>
          rw [List.filterMap_cons_some hlabel, List.length_cons, List.length_cons,
            Nat.add_right_cancel_iff] at h
          rw [List.filterMap_cons_some hlabel, List.map_cons, List.map_cons, hlabel, ih h]

theorem completes_resolved {source : Parameters} (hresolves : host.Resolves source) :
    host.Completes source (host.resolved source) where
  labels := rfl
  aligned := host.isAligned_resolved hresolves
  own haligned := by rw [resolved_of_isAligned host haligned]
  declared hmisaligned := by
    have hidentities : host.identitiesOf source = source.labels.filterMap host.declared? := by
      rw [identitiesOf, hmisaligned, if_neg Bool.false_ne_true]
    rw [Resolves, hidentities] at hresolves
    rw [resolved, hidentities]
    exact map_eq_map_some_filterMap hresolves

theorem length_identitiesOf {source : Parameters} (hmisaligned : source.isAligned = false) :
    (host.identitiesOf source).length =
      source.labels.countP fun label => (host.declared? label).isSome := by
  rw [identitiesOf, hmisaligned, if_neg Bool.false_ne_true, List.length_filterMap_eq_countP]

/-- Too few identities are known exactly if the parameters are not aligned and some label is not
declared. -/
theorem not_resolves_iff {source : Parameters} :
    ¬host.Resolves source ↔ source.isAligned = false ∧
      source.labels.countP (fun label => (host.declared? label).isSome) < source.labels.length := by
  cases haligned : source.isAligned with
  | true => simp [host.resolves_of_isAligned haligned]
  | false =>
      have hle := source.labels.countP_le_length (p := fun label => (host.declared? label).isSome)
      rw [Resolves, length_identitiesOf haligned, Parameters.count]
      simp only [true_and]
      omega

/-! ## A second synchronisation -/

/-- What is written is read afterwards, and nothing else is read differently. -/
theorem parameters_issue_setParameters (host : Host) (id other : BlockId)
    (parameters : Parameters) :
    (host.issue [.setParameters id parameters]).parameters other =
      (host.parameters other).map fun former => if other = id then parameters else former := by
  have hfind : (host.issue [.setParameters id parameters]).editor.block? other =
      (host.editor.block? other).map fun block =>
        if block.id = id then { block with parameters := parameters } else block := by
    rw [Editor.block?, blocks_issue, Command.replayAll_cons, Command.replayAll_nil, Command.replay,
      List.find?_map]
    congr 2
    funext block
    rw [Function.comp_apply]
    split <;> rfl
  have hfault : (host.issue [.setParameters id parameters]).hasFault = host.hasFault := rfl
  unfold Host.parameters
  rw [hfind, hfault]
  split
  · rfl
  · cases hblock : host.editor.block? other with
    | none => rfl
    | some block =>
        have hid : block.id = other := by simpa using List.find?_some hblock
        simp only [Option.map_some, Except.map, hid]
        split <;> rfl

theorem parameters_of_written {former : Parameters} (h : host.parameters call = .ok former)
    (parameters : Parameters) :
    (host.issue [.setParameters call parameters]).parameters call = .ok parameters := by
  rw [parameters_issue_setParameters, h, Except.map, if_pos rfl]

/-- After a write there is nothing to do any more, even if a call site is its own source. -/
theorem syncs_again {source current : Parameters}
    (hsource : host.parameters definition = .ok source) (hresolves : host.Resolves source)
    (hcurrent : host.parameters call = .ok current) :
    Syncs (host.issue [.setParameters call (host.resolved source)]) call definition .unchanged
      (host.issue [.setParameters call (host.resolved source)]) := by
  have htarget := parameters_of_written hcurrent (host.resolved source)
  by_cases hself : definition = call
  · subst hself
    have haligned := host.isAligned_resolved hresolves
    refine .settled htarget (resolves_of_isAligned _ haligned) ?_
    rw [resolved_of_isAligned _ haligned]
    exact htarget
  · have hunwritten :
        (host.issue [.setParameters call (host.resolved source)]).parameters definition =
          .ok source := by
      rw [parameters_issue_setParameters, hsource, Except.map, if_neg hself]
    have hdeclarations := declarations_issue host [.setParameters call (host.resolved source)]
    refine .settled hunwritten ((resolves_congr hdeclarations).mpr hresolves) ?_
    rw [resolved_congr hdeclarations]
    exact htarget

/-! ## Laws -/

/-- What a synchronisation does, and what a second one does at once after it. -/
structure SyncLaws (host : Host) (call definition : BlockId) (outcome : SyncOutcome)
    (after : Host) : Prop where
  wrote_iff : outcome = .updated ↔ after.editor.commands ≠ host.editor.commands
  /-- One command is carried out, and its target has complete arguments from then on. -/
  written : outcome = .updated → ∃ source written,
    host.parameters definition = .ok source ∧ host.Completes source written ∧
      after = host.issue [.setParameters call written] ∧ after.parameters call = .ok written
  nothing : outcome ≠ .updated → after = host
  /-- Some labels of misaligned parameters are not declared. -/
  ambiguous_iff : ∀ known expected, outcome = .ambiguous known expected ↔
    ∃ source, host.parameters definition = .ok source ∧ source.isAligned = false ∧
      known = source.labels.countP (fun label => (host.declared? label).isSome) ∧
      expected = source.labels.length ∧ known < expected
  again : after.sync call definition = (if outcome = .updated then .unchanged else outcome, after)

namespace Syncs

/-- Whatever does not end in a write leaves the host as it was. -/
theorem eq_of_ne (h : Syncs host call definition outcome after) (hne : outcome ≠ .updated) :
    after = host := by
  cases h with
  | written => exact absurd rfl hne
  | _ => rfl

theorem exists_written (h : Syncs host call definition .updated after) :
    ∃ source written, host.parameters definition = .ok source ∧ host.Completes source written ∧
      after = host.issue [.setParameters call written] ∧ after.parameters call = .ok written := by
  cases h with
  | @written source current hsource hresolves hcurrent _ _ =>
      exact ⟨source, host.resolved source, hsource, completes_resolved hresolves, rfl,
        parameters_of_written hcurrent _⟩

theorem wrote_iff (h : Syncs host call definition outcome after) :
    outcome = .updated ↔ after.editor.commands ≠ host.editor.commands := by
  constructor
  · rintro rfl
    obtain ⟨source, written, -, -, rfl, -⟩ := h.exists_written
    change host.editor.commands ++ [_] ≠ host.editor.commands
    simp
  · intro hwrote
    by_contra hne
    exact hwrote (congrArg (·.editor.commands) (h.eq_of_ne hne))

theorem ambiguous_iff (h : Syncs host call definition outcome after) (known expected : Nat) :
    outcome = .ambiguous known expected ↔
      ∃ source, host.parameters definition = .ok source ∧ source.isAligned = false ∧
        known = source.labels.countP (fun label => (host.declared? label).isSome) ∧
        expected = source.labels.length ∧ known < expected := by
  constructor
  · rintro rfl
    cases h with
    | @short source hsource hshort =>
        obtain ⟨hmisaligned, hfew⟩ := not_resolves_iff.mp hshort
        rw [length_identitiesOf hmisaligned]
        exact ⟨source, hsource, hmisaligned, rfl, rfl, hfew⟩
  · rintro ⟨source, hsource, hmisaligned, rfl, rfl, hfew⟩
    have hshort : Syncs host call definition _ host :=
      .short hsource (not_resolves_iff.mpr ⟨hmisaligned, hfew⟩)
    have hsame := h.sync_eq.symm.trans hshort.sync_eq
    rw [(Prod.mk.inj hsame).1, length_identitiesOf hmisaligned]
    rfl

theorem again (h : Syncs host call definition outcome after) :
    after.sync call definition =
      (if outcome = .updated then .unchanged else outcome, after) := by
  by_cases hupdated : outcome = .updated
  · subst hupdated
    rw [if_pos rfl]
    cases h with
    | written hsource hresolves hcurrent _ _ =>
        exact (syncs_again hsource hresolves hcurrent).sync_eq
  · rw [if_neg hupdated, h.eq_of_ne hupdated]
    rw [h.eq_of_ne hupdated] at h
    exact h.sync_eq

end Syncs

/-- Synchronisation is all or nothing and idempotent, on every host and for any two blocks. -/
theorem syncLaws_sync (host : Host) (call definition : BlockId) :
    SyncLaws host call definition (host.sync call definition).1 (host.sync call definition).2 := by
  have hsyncs := syncs_sync host call definition
  constructor
  case wrote_iff => exact hsyncs.wrote_iff
  case written =>
    intro hupdated
    rw [hupdated] at hsyncs
    exact hsyncs.exists_written
  case nothing => exact hsyncs.eq_of_ne
  case ambiguous_iff => exact hsyncs.ambiguous_iff
  case again => exact hsyncs.again

end Host
end CallBinding
