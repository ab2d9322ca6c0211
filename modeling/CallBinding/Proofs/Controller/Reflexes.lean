import CallBinding.Proofs.Controller.Becomes
import CallBinding.Proofs.Controller.Discipline
import CallBinding.Proofs.Editor.Reflexes

/-!
# Opening a session while reflexes are queued

The handler of a new call site reads the whole list of definitions, but keeps
only those of its own list, and it gives a name and arguments to its call site
alone.  So it does not matter to it whether the reflexes have run already: with
more definitions it does the same, and leaves the additional ones as they are.
This needs no soundness of the host; its faults are those of single ids.
-/

namespace CallBinding
namespace Host

/-- The host with more blocks, of which the listeners have been told, and without reflexes. -/
def spawn (host : Host) (blocks : List Block) : Host :=
  host.withEditor (host.editor.spawn blocks)

variable {host : Host} {more : List Block} {call definition : BlockId} {prior : List BlockId}

/-! ## Reading -/

theorem block?_spawn (hcall : ∀ block ∈ more, block.id ≠ call) :
    (host.spawn more).block? call = host.block? call := by
  have hfault : (host.spawn more).hasFault call .blockGone = host.hasFault call .blockGone := rfl
  have hfind : (host.spawn more).editor.block? call = host.editor.block? call :=
    Editor.block?_spawn hcall
  rw [block?, block?, hfault, hfind]

theorem field_spawn (hcall : ∀ block ∈ more, block.id ≠ call) (key : String) :
    (host.spawn more).field call key = host.field call key := by
  have hfault (fault : Fault) : (host.spawn more).hasFault call fault = host.hasFault call fault :=
    rfl
  have hfind : (host.spawn more).editor.block? call = host.editor.block? call :=
    Editor.block?_spawn hcall
  simp only [field, hfault, hfind]

theorem nameOf?_spawn (hcall : ∀ block ∈ more, block.id ≠ call) :
    (host.spawn more).nameOf? call = host.nameOf? call := by
  rw [nameOf?, nameOf?, field_spawn hcall]

theorem parameters_spawn (hcall : ∀ block ∈ more, block.id ≠ call) :
    (host.spawn more).parameters call = host.parameters call := by
  have hfault (fault : Fault) : (host.spawn more).hasFault call fault = host.hasFault call fault :=
    rfl
  have hfind : (host.spawn more).editor.block? call = host.editor.block? call :=
    Editor.block?_spawn hcall
  simp only [parameters, hfault, hfind]

/-- Whatever has been created since, a list of older definitions has the same usable ones. -/
theorem usable_spawn (hprior : ∀ block ∈ more, block.id ∉ prior) :
    (host.spawn more).usable prior = host.usable prior := by
  have hblocks : (host.spawn more).editor.blocks = host.editor.blocks ++ more := rfl
  rw [usable, usable, definitions_eq, definitions_eq, hblocks, Graph.definitions,
    List.filterMap_append, List.filter_append]
  refine (congrArg _ (List.filter_eq_nil_iff.mpr fun other hother => ?_)).trans
    (List.append_nil _)
  obtain ⟨block, hblock, -, rfl⟩ := Graph.mem_definitions.mp hother
  simp [hprior block hblock]

/-! ## Writing -/

theorem setField_spawn (hcall : ∀ block ∈ more, block.id ≠ call) (key value : String) :
    (host.spawn more).setField call key value =
      (host.setField call key value).map fun written => written.spawn more := by
  have hfault : (host.spawn more).hasFault call .setFieldGone = host.hasFault call .setFieldGone :=
    rfl
  have hcontains : (host.spawn more).editor.contains call = host.editor.contains call :=
    Editor.contains_spawn hcall
  have hissue : (host.editor.spawn more).issue [.setField call key value] =
      (host.editor.issue [.setField call key value]).spawn more := Editor.issue_spawn hcall
  rw [setField, setField, Editor.setField_eq, Editor.setField_eq, hfault, hcontains]
  split
  · rfl
  · split
    · exact congrArg (fun editor => Except.ok (host.withEditor editor)) hissue
    · rfl

theorem setParameters_spawn (hcall : ∀ block ∈ more, block.id ≠ call) (parameters : Parameters) :
    (host.spawn more).setParameters call parameters =
      (host.setParameters call parameters).map fun written => written.spawn more := by
  have hfault (fault : Fault) : (host.spawn more).hasFault call fault = host.hasFault call fault :=
    rfl
  have hfind : (host.spawn more).editor.block? call = host.editor.block? call :=
    Editor.block?_spawn hcall
  have hissue : (host.editor.spawn more).issue [.setParameters call parameters] =
      (host.editor.issue [.setParameters call parameters]).spawn more := Editor.issue_spawn hcall
  rw [setParameters, setParameters, Editor.setParameters_eq, Editor.setParameters_eq, hfault,
    hfault, hfind]
  split
  · rfl
  · split
    · rfl
    · cases host.editor.block? call with
      | none => rfl
      | some block =>
          dsimp only
          split
          · exact congrArg (fun editor => Except.ok (host.withEditor editor)) hissue
          · rfl

theorem giveName_spawn (hcall : ∀ block ∈ more, block.id ≠ call) (current name : String) :
    (host.spawn more).giveName call current name =
      (host.giveName call current name).map fun named => named.spawn more := by
  unfold giveName
  split
  · rfl
  · exact setField_spawn hcall nameField name

theorem sync_spawn (hcall : ∀ block ∈ more, block.id ≠ call)
    (hdefinition : ∀ block ∈ more, block.id ≠ definition) :
    (host.spawn more).sync call definition =
      ((host.sync call definition).1, (host.sync call definition).2.spawn more) := by
  have hidentities (parameters : Parameters) :
      (host.spawn more).identitiesOf parameters = host.identitiesOf parameters :=
    identitiesOf_congr rfl parameters
  rw [sync, sync, parameters_spawn hdefinition]
  cases host.parameters definition with
  | error _ => rfl
  | ok parameters =>
      simp only [hidentities, parameters_spawn hcall, setParameters_spawn hcall]
      split
      · rfl
      · cases host.parameters call with
        | error _ => rfl
        | ok current =>
            dsimp only
            split
            · rfl
            · cases host.setParameters call
                ⟨parameters.labels, host.identitiesOf parameters⟩ <;> rfl

/-- Commands that are issued while one more suppression is open, and of which nobody is told. -/
theorem Issues.exists_resume_eq {condition : List Block → Command → Prop} {after : Host}
    (h : Issues condition host.suppress after) :
    ∃ commands, after.resume =
      host.withEditor { host.editor.issue commands with outbox := host.editor.outbox } := by
  obtain ⟨commands, -, rfl⟩ := h
  refine ⟨commands, ?_⟩
  simp [issue, suppress, resume, withEditor, Editor.issue, Editor.suppress, Editor.resume,
    Editor.isSuppressed]

end Host

namespace Controller

variable {controller : Controller} {host : Host} {more : List Block} {call : BlockId}
variable {prior : List BlockId}

/-- A call site is bound to a definition of the list. -/
theorem mem_prior_of_nameCallSite {definition : BlockId}
    (h : (controller.nameCallSite host call prior).1 = some definition) : definition ∈ prior := by
  unfold nameCallSite at h
  cases hcurrent : host.nameOf? call with
  | none =>
      rw [hcurrent] at h
      cases h
  | some current =>
      rw [hcurrent] at h
      dsimp only at h
      generalize controller.nameFor (host.usable prior) current = name at h
      cases hnamed : host.giveName call current name with
      | error _ =>
          rw [hnamed] at h
          cases h
      | ok _ =>
          rw [hnamed] at h
          obtain ⟨found, hfound, rfl⟩ := Option.map_eq_some_iff.mp h
          have husable : found ∈ host.usable prior := by
            rcases Option.or_eq_some_iff.mp hfound with hown | ⟨-, hfirst⟩
            · exact List.mem_of_find?_eq_some hown
            · exact List.mem_of_head? hfirst
          exact Host.mem_prior_of_mem_usable husable

/-! ## Messages that wait -/

theorem rearmWhenIdle_mailbox (controller : Controller) (now : Nat) (mailbox : List Message) :
    ({ controller with mailbox := mailbox } : Controller).rearmWhenIdle now =
      { controller.rearmWhenIdle now with mailbox := mailbox } := by
  have hbusy : ({ controller with mailbox := mailbox } : Controller).isBusy = controller.isBusy :=
    rfl
  rw [rearmWhenIdle, rearmWhenIdle, hbusy]
  split <;> rfl

theorem nameCallSite_mailbox (controller : Controller) (host : Host) (call : BlockId)
    (prior : List BlockId) (mailbox : List Message) :
    ({ controller with mailbox := mailbox } : Controller).nameCallSite host call prior =
      ((controller.nameCallSite host call prior).1,
        { (controller.nameCallSite host call prior).2.1 with mailbox := mailbox },
        (controller.nameCallSite host call prior).2.2) := by
  have hname (usable : List Definition) (current : String) :
      ({ controller with mailbox := mailbox } : Controller).nameFor usable current =
        controller.nameFor usable current := rfl
  unfold nameCallSite
  simp only [hname]
  cases host.nameOf? call with
  | none => rfl
  | some current =>
      dsimp only
      generalize controller.nameFor (host.usable prior) current = name
      cases host.giveName call current name with
      | error _ => rfl
      | ok named =>
          dsimp only
          unfold remember
          split <;> rfl

/-- The handler of a new call site does not look at the messages that wait. -/
theorem onCallSiteCreated_mailbox (controller : Controller) (now : Nat) (host : Host)
    (call : BlockId) (prior : List BlockId) (mailbox : List Message) :
    ({ controller with mailbox := mailbox } : Controller).onCallSiteCreated now host call prior =
      ({ (controller.onCallSiteCreated now host call prior).1 with mailbox := mailbox },
        (controller.onCallSiteCreated now host call prior).2) := by
  unfold onCallSiteCreated
  cases host.block? call with
  | none =>
      dsimp only
      rw [rearmWhenIdle_mailbox]
  | some _ =>
      dsimp only
      unfold bindCallSite
      rw [nameCallSite_mailbox]
      rfl

/-- The handler of a new call site issues its commands silently, and leaves the messages that wait
where they are. -/
theorem exists_onCallSiteCreated_eq (honly : host.editor.OnlyCallSite call)
    (controller : Controller) (now : Nat) (prior : List BlockId) :
    ∃ (commands : List Command) (next : Controller), next.mailbox = controller.mailbox ∧
      controller.onCallSiteCreated now host call prior =
        (next,
          host.withEditor { host.editor.issue commands with outbox := host.editor.outbox }) := by
  have hmailbox := (controller.becomes_onCallSiteCreated now host call prior).keeps.1
  have hsilent : ∃ commands, (controller.onCallSiteCreated now host call prior).2 =
      host.withEditor { host.editor.issue commands with outbox := host.editor.outbox } := by
    unfold onCallSiteCreated
    cases host.block? call with
    | none => exact ⟨[], by simp [Host.withEditor]⟩
    | some _ =>
        have hsuppressed : host.suppress.editor.OnlyCallSite call := honly
        have hnamed : Host.Issues (Graph.Reconciles fun _ => True) host.suppress
            (controller.nameCallSite host.suppress call prior).2.2 :=
          nameCallSite_reconciles hsuppressed controller prior
        refine Host.Issues.exists_resume_eq (hnamed.trans ?_)
        split
        · exact .refl _
        next definition _ => exact (Host.sync_issues _ call definition).reconciles_of_binds
  obtain ⟨commands, hafter⟩ := hsilent
  exact ⟨commands, _, hmailbox, Prod.ext rfl hafter⟩

/-! ## More definitions -/

section

variable (hcall : ∀ block ∈ more, block.id ≠ call) (hprior : ∀ block ∈ more, block.id ∉ prior)

include hcall hprior

theorem nameCallSite_spawn (controller : Controller) :
    controller.nameCallSite (host.spawn more) call prior =
      ((controller.nameCallSite host call prior).1, (controller.nameCallSite host call prior).2.1,
        (controller.nameCallSite host call prior).2.2.spawn more) := by
  unfold nameCallSite
  rw [Host.nameOf?_spawn hcall, Host.usable_spawn hprior]
  cases host.nameOf? call with
  | none => rfl
  | some current =>
      dsimp only
      generalize controller.nameFor (host.usable prior) current = name
      rw [Host.giveName_spawn hcall]
      generalize controller.remember name = remembered
      cases host.giveName call current name <;> rfl

theorem bindCallSite_spawn (controller : Controller) :
    controller.bindCallSite (host.spawn more) call prior =
      ((controller.bindCallSite host call prior).1,
        (controller.bindCallSite host call prior).2.spawn more) := by
  have hsuppressed : (host.spawn more).suppress = host.suppress.spawn more := rfl
  have hbinding (definition : BlockId)
      (h : (controller.nameCallSite host.suppress call prior).1 = some definition) :
      definition ∈ prior := mem_prior_of_nameCallSite h
  unfold bindCallSite
  rw [hsuppressed, nameCallSite_spawn hcall hprior]
  generalize controller.nameCallSite host.suppress call prior = outcome at hbinding ⊢
  obtain ⟨binding, named, renamed⟩ := outcome
  dsimp only at hbinding ⊢
  cases binding with
  | none => rfl
  | some definition =>
      have hold : ∀ block ∈ more, block.id ≠ definition := by
        rintro block hblock rfl
        exact hprior block hblock (hbinding _ rfl)
      dsimp only
      rw [Host.sync_spawn hcall hold]
      rfl

theorem onCallSiteCreated_spawn (controller : Controller) (now : Nat) :
    controller.onCallSiteCreated now (host.spawn more) call prior =
      ((controller.onCallSiteCreated now host call prior).1,
        (controller.onCallSiteCreated now host call prior).2.spawn more) := by
  unfold onCallSiteCreated
  rw [Host.block?_spawn hcall, bindCallSite_spawn hcall hprior]
  cases host.block? call <;> rfl

end

end Controller
end CallBinding
