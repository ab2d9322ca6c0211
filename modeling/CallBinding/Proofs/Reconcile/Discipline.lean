import CallBinding.Proofs.Graph.Discipline
import CallBinding.Proofs.Reconcile.Sweep

/-!
# Discipline of the reconcilers

Synchronising, carrying out plans and sweeping take disciplined commands only,
whatever the plan and the host's faults: a plan may name blocks of any role,
but what is disposed of is read as a definition first.
-/

namespace CallBinding
namespace Host

open CallBinding.Graph (Renames Binds Reconciles Distinct)

variable {mayGo : BlockId → Prop} {host after : Host}

theorem Issues.reconciles_of_renames {name : String} (h : Issues (Renames name) host after) :
    Issues (Reconciles mayGo) host after :=
  h.mono fun _ _ hcommand => hcommand.reconciles

theorem Issues.reconciles_of_binds (h : Issues Binds host after) :
    Issues (Reconciles mayGo) host after :=
  h.mono fun _ _ hcommand => hcommand.reconciles

theorem dispose_reconciles {definition : Definition}
    (hdefinition : definition ∈ Graph.definitions host.editor.blocks)
    (hmay : mayGo definition.id) : Issues (Reconciles mayGo) host (host.dispose definition.id) := by
  rcases host.dispose_cases definition.id with h | h
  · rw [h]
    exact .refl host
  · rw [h]
    exact .single (.dispose hdefinition hmay)

theorem resolve_reconciles (hdistinct : Distinct host.editor.blocks) {resolution : Resolution}
    (hmay : mayGo resolution.removed) (report : ApplyReport) :
    Issues (Reconciles mayGo) host (host.resolve resolution report).2 := by
  unfold resolve
  split
  · exact .refl host
  next removed hfound =>
    obtain ⟨hremoved, hid⟩ := mem_of_definition? hfound
    have hrebound := host.rebindCallers_issues resolution
    -- Renaming its callers does not touch the definition that was found.
    have hlive : removed ∈ Graph.definitions (host.rebindCallers resolution).2.editor.blocks := by
      rw [hrebound.definitions_of_renames hdistinct]
      exact hremoved
    have hdisposed : Issues (Reconciles mayGo) (host.rebindCallers resolution).2
        ((host.rebindCallers resolution).2.dispose resolution.removed) := by
      rw [← hid] at hmay ⊢
      exact dispose_reconciles hlive hmay
    have hsynced := syncSurvivor_issues
      ((host.rebindCallers resolution).2.dispose resolution.removed) resolution
    exact (hrebound.reconciles_of_renames.trans hdisposed).trans hsynced.reconciles_of_binds

theorem apply_reconciles (hdistinct : Distinct host.editor.blocks) {plan : List Resolution}
    (hmay : ∀ resolution ∈ plan, mayGo resolution.removed) :
    Issues (Reconciles mayGo) host (host.apply plan).2 := by
  unfold apply
  generalize ApplyReport.blank = report
  induction plan generalizing host report with
  | nil => exact .refl host
  | cons first rest ih =>
      have hfirst := resolve_reconciles hdistinct (hmay first List.mem_cons_self) report
      exact hfirst.trans (ih (hfirst.distinct hdistinct)
        (fun resolution hmem => hmay resolution (List.mem_cons_of_mem first hmem)) _)

theorem sweep_reconciles (hdistinct : Distinct host.editor.blocks) :
    Issues (Reconciles fun _ => True) host host.sweep.2 := by
  have happly : Issues (Reconciles fun _ => True) host (host.apply (plan host.members)).2 :=
    apply_reconciles hdistinct fun _ _ => trivial
  have hsync := (host.apply (plan host.members)).2.syncNamed_issues
    (host.apply (plan host.members)).2.callSites (host.apply (plan host.members)).1.sync
  exact happly.trans hsync.reconciles_of_binds

end Host
end CallBinding
