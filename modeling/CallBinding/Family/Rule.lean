import CallBinding.Graph.Block
import CallBinding.Name

/-!
# Rules of precedence within a family

A family of definitions keeps one member.  Each rule looks at a candidate among
the members still present and names the member to which the candidate yields,
if the rule applies.  `ruling?` asks the rules of `Rule.table` in order; the
first that applies decides.
-/

namespace CallBinding

/-- A definition as the rules see it. -/
structure Member where
  id : BlockId
  name : String
  /-- The number of its parameters. -/
  count : Nat
  deriving DecidableEq, Repr

/-- The view that the rules have of a definition. -/
def Definition.asMember (definition : Definition) : Member :=
  ⟨definition.id, definition.name, definition.parameters.count⟩

/-- The member with the most parameters, the first of them on a tie. -/
def richest? : List Member → Option Member
  | [] => none
  | member :: rest =>
      match richest? rest with
      | none => some member
      | some best => if member.count < best.count then some best else some member

/-- The reasons for which a definition yields to another one. -/
inductive Rule where
  /-- Another member of the very same name is richer, or as rich and earlier. -/
  | exactDuplicate
  /-- A numbered variant yields to a member named like the base. -/
  | numberedVariant
  /-- Without such a member, a richer one wins, or one as rich and earlier. -/
  | richerSibling
  /-- A newcomer yields to an older member that it does not outrank. -/
  | priorSibling
  deriving DecidableEq, Repr

namespace Rule

/-- The word for a rule in documents. -/
def label : Rule → String
  | exactDuplicate => "ExactDuplicate"
  | numberedVariant => "NumberedVariant"
  | richerSibling => "RicherSibling"
  | priorSibling => "PriorSibling"

/-- The rules that need no knowledge of the past, in order of precedence. -/
def table : List Rule :=
  [exactDuplicate, numberedVariant, richerSibling]

/-- The richest namesake of a candidate, if that is not the candidate itself. -/
def duplicateOf? (candidate : Member) (family : List Member) : Option Member :=
  let namesakes := family.filter fun member => member.name = candidate.name
  if namesakes.length < 2 then
    none
  else
    (richest? namesakes).filter fun member => member.id ≠ candidate.id

/-- The first other member that carries the base name of a numbered variant. -/
def baseOf? (candidate : Member) (family : List Member) : Option Member :=
  if Name.isNumberedVariant candidate.name then
    family.find? fun member =>
      member.id ≠ candidate.id && Name.base? candidate.name = some member.name
  else
    none

/-- The members that stand before the first one of a given id, if there is such a one. -/
def standingBefore (id : BlockId) (family : List Member) : List Member :=
  if family.any fun member => member.id = id then
    family.takeWhile fun member => member.id ≠ id
  else
    []

/-- In a family without its base name, the richest member that is richer than the candidate,
or else the first one as rich that stands before it. -/
def siblingOf? (candidate : Member) (family : List Member) : Option Member :=
  match Name.base? candidate.name with
  | none => none
  | some base =>
      if family.any fun member => member.name = base then
        none
      else
        let richer := family.filter fun member =>
          member.id ≠ candidate.id && candidate.count < member.count
        (richest? richer).or
          ((standingBefore candidate.id family).find? fun member =>
            member.count = candidate.count)

/-- The member to which a candidate yields by a rule.  The rule for newcomers needs to know
which members are older and never applies on its own. -/
def yieldsTo? (rule : Rule) (candidate : Member) (family : List Member) : Option Member :=
  match rule with
  | exactDuplicate => duplicateOf? candidate family
  | numberedVariant => baseOf? candidate family
  | richerSibling => siblingOf? candidate family
  | priorSibling => none

end Rule

/-- The first rule of the table that applies to a candidate, and the member to which it yields. -/
def ruling? (family : List Member) (candidate : Member) : Option (Rule × Member) :=
  Rule.table.findSome? fun rule =>
    (rule.yieldsTo? candidate family).map fun kept => (rule, kept)

end CallBinding
