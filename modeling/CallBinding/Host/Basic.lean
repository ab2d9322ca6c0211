import CallBinding.Editor.Basic

/-!
# Hosts

A host is an editor as a program sees it.  It may answer wrongly about single
blocks, as an editor does whose user deletes blocks between two requests, and
a leaky host reports blocks of every role where one role was asked for.
-/

namespace CallBinding

/-- The ways in which a host fails on a block. -/
inductive Fault where
  /-- Reading the block finds nothing. -/
  | blockGone
  /-- Reading a field finds no block. -/
  | fieldGone
  /-- Reading a field finds it unset. -/
  | fieldUnset
  /-- Reading the parameters finds no block. -/
  | parametersGone
  /-- Setting a field finds no block. -/
  | setFieldGone
  /-- Setting the parameters finds no block. -/
  | setParametersGone
  /-- Setting the parameters finds a block of another role. -/
  | setParametersRole
  /-- Disposing of the block does nothing. -/
  | disposeIgnored
  deriving DecidableEq, Repr

/-- An editor behind its faults. -/
structure Host where
  editor : Editor
  /-- The faults of single blocks, whether these are live or not. -/
  faults : OrderedMap BlockId (List Fault)
  /-- Whether requests for one role report blocks of every role. -/
  leaky : Bool
  deriving DecidableEq

namespace Host

def faithful (editor : Editor) : Host :=
  ⟨editor, .empty, false⟩

/-- Whether a host fails on a block in a certain way. -/
def hasFault (host : Host) (id : BlockId) (fault : Fault) : Bool :=
  ((host.faults.get? id).getD []).contains fault

/-- Replaces the faults of one block. -/
def setFaults (host : Host) (id : BlockId) (faults : List Fault) : Host :=
  { host with faults := host.faults.insert id faults }

def withEditor (host : Host) (editor : Editor) : Host :=
  { host with editor := editor }

/-! ## Reading -/

def block? (host : Host) (id : BlockId) : Option Block :=
  if host.hasFault id .blockGone then none else host.editor.block? id

/-- The blocks of a role in graph order; of every role when the host is leaky. -/
def blocksOfRole (host : Host) (role : Role) : List Block :=
  host.editor.blocks.filter fun block => host.leaky || block.role = role

/-- The blocks that call a name; a leaky host also reports others of that name. -/
def blocksCalling (host : Host) (name : String) : List Block :=
  host.editor.blocks.filter fun block => (host.leaky || block.isCallSite) && block.name = name

def field (host : Host) (id : BlockId) (key : String) : Except EditorError (Option String) :=
  if host.hasFault id .fieldGone then
    .error (.blockNotFound id)
  else if host.hasFault id .fieldUnset then
    .ok none
  else
    match host.editor.block? id with
    | none => .error (.blockNotFound id)
    | some block => .ok (block.field? key)

def parameters (host : Host) (id : BlockId) : Except EditorError Parameters :=
  if host.hasFault id .parametersGone then
    .error (.blockNotFound id)
  else
    match host.editor.block? id with
    | none => .error (.blockNotFound id)
    | some block => .ok block.parameters

def declared? (host : Host) (name : String) : Option VariableId :=
  host.editor.declarations.get? name

/-! ## Commands -/

def setField (host : Host) (id : BlockId) (key value : String) : Except EditorError Host :=
  if host.hasFault id .setFieldGone then
    .error (.blockNotFound id)
  else
    (host.editor.setField id key value).map host.withEditor

/-- Sets the arguments of a call site. -/
def setParameters (host : Host) (id : BlockId) (parameters : Parameters) :
    Except EditorError Host :=
  if host.hasFault id .setParametersGone then
    .error (.blockNotFound id)
  else if host.hasFault id .setParametersRole then
    .error (.wrongRole id .callSite .other)
  else
    (host.editor.setParameters id parameters).map host.withEditor

def dispose (host : Host) (id : BlockId) : Host :=
  if host.hasFault id .disposeIgnored then
    host
  else
    host.withEditor (host.editor.dispose id)

def perform (host : Host) : Command → Except EditorError Host
  | .setField id key value => host.setField id key value
  | .setParameters id parameters => host.setParameters id parameters
  | .dispose id => .ok (host.dispose id)

/-- Opens one more suppression of events. -/
def suppress (host : Host) : Host :=
  host.withEditor host.editor.suppress

/-- Closes a suppression of events. -/
def resume (host : Host) : Host :=
  host.withEditor host.editor.resume

end Host
end CallBinding
