import CallBinding.Proofs.Family.Plan

/-!
# Heirs

A plan names, for each definition that it removes, another one to be kept.  The
kept one may go later in the same plan, and its place be taken by a third.  In a
feasible plan this ends: nothing is kept that has gone before, so each definition
has one heir among those that the plan leaves, and the heir is of its family.
-/

namespace CallBinding

/-- The definition to which a plan leads another one, from the one that is removed to the one
that is kept, until it is not removed any more. -/
inductive IsHeir (plan : List Resolution) : BlockId → BlockId → Prop
  | stays {id : BlockId} : id ∉ plan.map (·.removed) → IsHeir plan id id
  | yields {resolution : Resolution} {heir : BlockId} :
      resolution ∈ plan → IsHeir plan resolution.kept heir →
      IsHeir plan resolution.removed heir

namespace IsHeir

variable {plan rest : List Resolution} {first : Resolution} {id heir other : BlockId}

/-- Where nothing is removed twice, there is one heir at most. -/
theorem unique (hnodup : (plan.map (·.removed)).Nodup) (h : IsHeir plan id heir)
    (hother : IsHeir plan id other) : heir = other := by
  induction h with
  | stays hstays =>
      cases hother with
      | stays _ => rfl
      | yields hresolution _ => exact absurd (List.mem_map_of_mem hresolution) hstays
  | @yields resolution heir hresolution _ ih =>
      generalize hid : resolution.removed = id at hother
      cases hother with
      | stays hstays => exact absurd (hid ▸ List.mem_map_of_mem hresolution) hstays
      | @yields resolution' _ hresolution' hrest =>
          have hsame : resolution = resolution' :=
            List.inj_on_of_nodup_map hnodup hresolution hresolution' hid
          exact ih (hsame ▸ hrest)

/-- A resolution before the others does not concern a definition that they do not keep. -/
theorem cons (h : IsHeir rest id heir) (hid : id ≠ first.removed)
    (hkept : first.removed ∉ rest.map (·.kept)) : IsHeir (first :: rest) id heir := by
  induction h with
  | stays hstays =>
      refine .stays ?_
      rw [List.map_cons, List.mem_cons, not_or]
      exact ⟨hid, hstays⟩
  | @yields resolution heir hresolution _ ih =>
      have hne : resolution.kept ≠ first.removed := fun h =>
        hkept (h ▸ List.mem_map_of_mem hresolution)
      exact .yields (List.mem_cons_of_mem first hresolution) (ih hne)

end IsHeir

namespace Feasible

variable {live : List Member} {plan : List Resolution}

/-- What a feasible plan keeps is another member of the same family, which no earlier
resolution has removed. -/
theorem kept_after (h : Feasible live plan) {earlier later : List Resolution}
    {resolution : Resolution} (hplan : plan = earlier ++ resolution :: later) :
    resolution.kept ≠ resolution.removed ∧ ∃ kept ∈ remaining live earlier,
      kept.id = resolution.kept ∧ kept.name = resolution.keptName ∧
        Name.base? kept.name = Name.base? resolution.removedName := by
  induction h generalizing earlier with
  | nil => simp at hplan
  | @cons live removed kept rule plan _ hkept hne _ hbase _ ih =>
      cases earlier with
      | nil =>
          obtain ⟨rfl, -⟩ := List.cons.inj hplan
          exact ⟨hne, kept, mem_remaining.mpr ⟨hkept, by simp⟩, rfl, rfl, hbase⟩
      | cons first earlier =>
          obtain ⟨rfl, hrest⟩ := List.cons.inj hplan
          rw [remaining_cons]
          exact ih hrest

/-- Every member has an heir in its family, itself or another, which a feasible plan leaves. -/
theorem exists_heir (h : Feasible live plan) (hdistinct : (live.map (·.id)).Nodup)
    {member : Member} (hmember : member ∈ live) :
    ∃ heir ∈ remaining live plan, IsHeir plan member.id heir.id ∧
      Name.base? heir.name = Name.base? member.name := by
  induction h generalizing member with
  | nil => exact ⟨member, by simpa [remaining] using hmember, .stays (by simp), rfl⟩
  | @cons live removed kept rule plan hremoved hkept hne _ hbase hrest ih =>
      have hdistinct' : ((live.filter fun member => member.id ≠ removed.id).map (·.id)).Nodup :=
        hdistinct.sublist (List.filter_sublist.map _)
      have hlift : ∀ {id heir : BlockId}, id ≠ removed.id → IsHeir plan id heir →
          IsHeir (resolution removed (rule, kept) :: plan) id heir := fun hid h =>
        h.cons hid hrest.not_mem_of_filter_ne.2
      rw [remaining_cons]
      by_cases hid : member.id = removed.id
      · obtain rfl := List.inj_on_of_nodup_map hdistinct hmember hremoved hid
        obtain ⟨heir, hheir, hleads, hheirBase⟩ :=
          ih hdistinct' (List.mem_filter.mpr ⟨hkept, by simpa using hne⟩)
        exact ⟨heir, hheir, .yields List.mem_cons_self (hlift hne hleads),
          hheirBase.trans hbase⟩
      · obtain ⟨heir, hheir, hleads, hheirBase⟩ :=
          ih hdistinct' (List.mem_filter.mpr ⟨hmember, by simpa using hid⟩)
        exact ⟨heir, hheir, hlift hid hleads, hheirBase⟩

end Feasible
end CallBinding
