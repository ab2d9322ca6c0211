import CallBinding.Proofs.Host.Issues

/-!
# Leaky hosts

A leaky host reports blocks of every role where one role was asked for.  Who
reads it by role takes no notice of the others, and commands do not read it by
role at all.  So leakiness passes through everything that is done to a host: it
changes no result, and afterwards the host is as leaky as before.
-/

namespace CallBinding
namespace Host

/-- The host, leaky or not. -/
def withLeaky (host : Host) (leaky : Bool) : Host :=
  { host with leaky := leaky }

variable (host : Host) (leaky : Bool)

/-! ## Reading -/

@[simp] theorem editor_withLeaky : (host.withLeaky leaky).editor = host.editor := rfl

@[simp] theorem block?_withLeaky (id : BlockId) :
    (host.withLeaky leaky).block? id = host.block? id := rfl

@[simp] theorem parameters_withLeaky (id : BlockId) :
    (host.withLeaky leaky).parameters id = host.parameters id := rfl

@[simp] theorem nameOf?_withLeaky (id : BlockId) :
    (host.withLeaky leaky).nameOf? id = host.nameOf? id := rfl

@[simp] theorem definition?_withLeaky (id : BlockId) :
    (host.withLeaky leaky).definition? id = host.definition? id := rfl

@[simp] theorem definitions_withLeaky :
    (host.withLeaky leaky).definitions = host.definitions := by
  rw [definitions_eq, definitions_eq, editor_withLeaky]

@[simp] theorem callSites_withLeaky : (host.withLeaky leaky).callSites = host.callSites := by
  rw [callSites_eq, callSites_eq, editor_withLeaky]

@[simp] theorem callersOf_withLeaky (name : String) :
    (host.withLeaky leaky).callersOf name = host.callersOf name := by
  rw [callersOf_eq, callersOf_eq, editor_withLeaky]

@[simp] theorem definitionNamed?_withLeaky (name : String) :
    (host.withLeaky leaky).definitionNamed? name = host.definitionNamed? name := by
  rw [definitionNamed?, definitionNamed?, definitions_withLeaky]

/-! ## Commands -/

theorem setField_withLeaky (id : BlockId) (key value : String) :
    (host.withLeaky leaky).setField id key value =
      (host.setField id key value).map (·.withLeaky leaky) := by
  have hfault : (host.withLeaky leaky).hasFault id .setFieldGone =
      host.hasFault id .setFieldGone := rfl
  rw [setField, setField, hfault, editor_withLeaky]
  split
  · rfl
  · cases host.editor.setField id key value <;> rfl

theorem setParameters_withLeaky (id : BlockId) (parameters : Parameters) :
    (host.withLeaky leaky).setParameters id parameters =
      (host.setParameters id parameters).map (·.withLeaky leaky) := by
  have hfault (fault : Fault) :
      (host.withLeaky leaky).hasFault id fault = host.hasFault id fault := rfl
  rw [setParameters, setParameters, hfault, hfault, editor_withLeaky]
  split
  · rfl
  · split
    · rfl
    · cases host.editor.setParameters id parameters <;> rfl

theorem dispose_withLeaky (id : BlockId) :
    (host.withLeaky leaky).dispose id = (host.dispose id).withLeaky leaky := by
  have hfault : (host.withLeaky leaky).hasFault id .disposeIgnored =
      host.hasFault id .disposeIgnored := rfl
  rw [dispose, dispose, hfault, editor_withLeaky]
  split <;> rfl

theorem perform_withLeaky (command : Command) :
    (host.withLeaky leaky).perform command =
      (host.perform command).map (·.withLeaky leaky) := by
  cases command with
  | setField id key value => exact host.setField_withLeaky leaky id key value
  | setParameters id parameters => exact host.setParameters_withLeaky leaky id parameters
  | dispose id => exact congrArg Except.ok (host.dispose_withLeaky leaky id)

end Host
end CallBinding
