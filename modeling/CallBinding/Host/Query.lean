import CallBinding.Host.Basic

/-!
# Queries by role

Typed reading of a host's graph.  Nothing is remembered between two queries,
because the graph may change between them, and a block that cannot be read
counts as absent.
-/

namespace CallBinding
namespace Host

def definitions (host : Host) : List Definition :=
  (host.blocksOfRole .definition).filterMap fun block => block.asDefinition.toOption

def callSites (host : Host) : List CallSite :=
  (host.blocksOfRole .callSite).filterMap fun block => block.asCallSite.toOption

/-- The call sites that call a name, in graph order. -/
def callersOf (host : Host) (name : String) : List CallSite :=
  (host.blocksCalling name).filterMap fun block => block.asCallSite.toOption

/-- The definition of an id, if it can be read. -/
def definition? (host : Host) (id : BlockId) : Option Definition :=
  (host.block? id).bind fun block => block.asDefinition.toOption

/-- The call site of an id, if it can be read. -/
def callSite? (host : Host) (id : BlockId) : Option CallSite :=
  (host.block? id).bind fun block => block.asCallSite.toOption

/-- The first live definition that carries a name. -/
def definitionNamed? (host : Host) (name : String) : Option Definition :=
  host.definitions.find? fun definition => definition.name = name

/-- The name of a block; a block without one has the empty name. -/
def nameOf? (host : Host) (id : BlockId) : Option String :=
  match host.field id nameField with
  | .ok name => some (name.getD "")
  | .error _ => none

/-- The number of parameters of a block; none when it cannot be read. -/
def parameterCount (host : Host) (id : BlockId) : Nat :=
  match host.parameters id with
  | .ok parameters => parameters.count
  | .error _ => 0

end Host
end CallBinding
