import CallBinding.Editor.Command
import CallBinding.Graph.Event
import CallBinding.Name

/-!
# Editors

An editor holds a graph of blocks and a namespace of variables, and tells its
listeners about each change of the graph.  Users act on it directly; programs
use commands, which it logs.  Events of changes made while the editor is
suppressed are dropped.

With automatic definition switched on, creating a call site for a name that no
definition carries queues a reflex, which later defines that name.
-/

namespace CallBinding

/-- The state of an editor. -/
structure Editor where
  /-- The live blocks in the order of their creation. -/
  blocks : List Block
  /-- The declared variables. -/
  declarations : OrderedMap String VariableId
  /-- The number of the next block. -/
  nextBlock : Nat
  /-- How many suppressions are open. -/
  suppression : Nat
  /-- Whether call sites of undefined names queue a reflex. -/
  autoDefine : Bool
  /-- The names that queued reflexes will define. -/
  reflexes : List String
  /-- The commands carried out, oldest first. -/
  commands : List Command
  /-- The events that wait to be delivered to the listeners, oldest first. -/
  outbox : List Event
  deriving DecidableEq

namespace Editor

/-- An editor without blocks and variables. -/
def new (autoDefine : Bool) : Editor where
  blocks := []
  declarations := OrderedMap.empty
  nextBlock := 0
  suppression := 0
  autoDefine := autoDefine
  reflexes := []
  commands := []
  outbox := []

/-- The live block of an id. -/
def block? (editor : Editor) (id : BlockId) : Option Block :=
  editor.blocks.find? fun block => block.id = id

/-- Whether an id denotes a live block. -/
def contains (editor : Editor) (id : BlockId) : Bool :=
  editor.blocks.any fun block => block.id = id

/-- Whether events are dropped at present. -/
def isSuppressed (editor : Editor) : Bool :=
  0 < editor.suppression

/-- Puts an event into the outbox, unless events are suppressed. -/
def emit (editor : Editor) (kind : EventKind) (id : BlockId) : Editor :=
  if editor.isSuppressed then
    editor
  else
    { editor with outbox := editor.outbox ++ [⟨kind, id⟩] }

/-- The editor once the events in its outbox have been delivered. -/
def delivered (editor : Editor) : Editor :=
  { editor with outbox := [] }

/-- Replaces the block of an id by its image. -/
def modify (editor : Editor) (id : BlockId) (change : Block → Block) : Editor :=
  { editor with
    blocks := editor.blocks.map fun block => if block.id = id then change block else block }

/-- Takes the block of an id out of the graph. -/
def erase (editor : Editor) (id : BlockId) : Editor :=
  { editor with blocks := editor.blocks.filter fun block => block.id ≠ id }

/-- Adds a command to the log. -/
def log (editor : Editor) (command : Command) : Editor :=
  { editor with commands := editor.commands ++ [command] }

/-- Opens one more suppression. -/
def suppress (editor : Editor) : Editor :=
  { editor with suppression := editor.suppression + 1 }

/-- Closes a suppression, if one is open. -/
def resume (editor : Editor) : Editor :=
  { editor with suppression := editor.suppression - 1 }

/-! ## What users do -/

/-- Declares a variable; a name that is declared already keeps its identity. -/
def declare (editor : Editor) (name : String) : VariableId × Editor :=
  match editor.declarations.get? name with
  | some identity => (identity, editor)
  | none =>
      let identity : VariableId := ⟨editor.declarations.entries.length⟩
      (identity, { editor with declarations := editor.declarations.insert name identity })

/-- Declares several variables, from left to right. -/
def declareAll (editor : Editor) : List String → List VariableId × Editor
  | [] => ([], editor)
  | name :: rest =>
      let (identity, declared) := editor.declare name
      let (identities, done) := declared.declareAll rest
      (identity :: identities, done)

/-- Creates a block. -/
def create (editor : Editor) (role : Role) (name : String) (parameters : Parameters) :
    BlockId × Editor :=
  let id : BlockId := ⟨editor.nextBlock⟩
  let created :=
    { editor with
      blocks := editor.blocks ++ [Block.named id role name parameters]
      nextBlock := editor.nextBlock + 1 }
  (id, created.emit .create id)

/-- Creates a definition whose parameters are the variables of its labels. -/
def define (editor : Editor) (name : String) (labels : List String) : BlockId × Editor :=
  let (identities, declared) := editor.declareAll labels
  declared.create .definition name ⟨labels, identities⟩

/-- Creates a definition with identities of the user's choice. -/
def defineWith (editor : Editor) (name : String) (parameters : Parameters) : BlockId × Editor :=
  editor.create .definition name parameters

/-- Whether some live definition carries a name. -/
def defines (editor : Editor) (name : String) : Bool :=
  editor.blocks.any fun block => block.isDefinition && block.name = name

/-- Queues a reflex for a name that a call site is about to call, where one is due. -/
def queueReflex (editor : Editor) (name : String) : Editor :=
  if editor.autoDefine && Name.isValid name && !editor.defines name then
    { editor with reflexes := editor.reflexes ++ [name] }
  else
    editor

/-- Creates a call site without arguments. -/
def call (editor : Editor) (name : String) : BlockId × Editor :=
  (editor.queueReflex name).create .callSite name .empty

/-- Creates a block that is neither a definition nor a call site. -/
def createOther (editor : Editor) : BlockId × Editor :=
  editor.create .other "" .empty

/-- Renames a block as a user does. -/
def rename (editor : Editor) (id : BlockId) (name : String) : Except EditorError Editor :=
  if editor.contains id then
    .ok ((editor.modify id fun block => block.setField nameField name).emit .change id)
  else
    .error (.blockNotFound id)

/-- Deletes a block as a user does. -/
def remove (editor : Editor) (id : BlockId) : Except EditorError Editor :=
  if editor.contains id then
    .ok ((editor.erase id).emit .delete id)
  else
    .error (.blockNotFound id)

/-- Defines the given names, one after another, without parameters. -/
def defineEach (editor : Editor) : List String → List BlockId × Editor
  | [] => ([], editor)
  | name :: rest =>
      let (id, defined) := editor.define name []
      let (ids, done) := defined.defineEach rest
      (id :: ids, done)

/-- Runs every queued reflex. -/
def runReflexes (editor : Editor) : List BlockId × Editor :=
  { editor with reflexes := [] }.defineEach editor.reflexes

/-! ## What programs do -/

/-- Sets a field of a block. -/
def setField (editor : Editor) (id : BlockId) (key value : String) :
    Except EditorError Editor :=
  if editor.contains id then
    .ok (((editor.modify id fun block => block.setField key value).log
      (.setField id key value)).emit .change id)
  else
    .error (.blockNotFound id)

/-- Sets the arguments of a call site. -/
def setParameters (editor : Editor) (id : BlockId) (parameters : Parameters) :
    Except EditorError Editor :=
  match editor.block? id with
  | none => .error (.blockNotFound id)
  | some block =>
      if block.role = .callSite then
        .ok (((editor.modify id fun block => { block with parameters := parameters }).log
          (.setParameters id parameters)).emit .change id)
      else
        .error (.wrongRole id .callSite block.role)

/-- Disposes of a block; nothing happens when it is gone. -/
def dispose (editor : Editor) (id : BlockId) : Editor :=
  if editor.contains id then
    ((editor.erase id).log (.dispose id)).emit .delete id
  else
    editor

/-- Carries out a command. -/
def perform (editor : Editor) : Command → Except EditorError Editor
  | .setField id key value => editor.setField id key value
  | .setParameters id parameters => editor.setParameters id parameters
  | .dispose id => .ok (editor.dispose id)

/-- Forgets the log of commands. -/
def clearCommands (editor : Editor) : Editor :=
  { editor with commands := [] }

end Editor
end CallBinding
