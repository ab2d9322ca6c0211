import CallBinding.Text.Blank

/-!
# Procedure names

Names fall into variant families: dropping the digits at the end of a name
gives the base of its family, so `DFS2` and `DFS` belong together.  The names
an editor gives to blocks that nobody has named yet are placeholders and
belong to no family.
-/

namespace CallBinding
namespace Name

/-- The names an editor shows on blocks that have not been named yet. -/
def placeholders : List String :=
  ["unnamed", "undefined"]

/-- A placeholder is blank, or one of the editor's own names between blanks. -/
def isPlaceholder (name : String) : Bool :=
  let trimmed := String.ofList (trimBlanks name.toList)
  trimmed = "" || placeholders.contains trimmed

/-- A valid name is one that a user or the editor chose for a procedure. -/
def isValid (name : String) : Bool :=
  !isPlaceholder name

/-- A text without the ASCII digits at its end. -/
def dropVariantNumber (name : List Char) : List Char :=
  dropEndWhile Char.isDigit name

/-- The base of a name's family.  A valid name of digits alone is its own base. -/
def base? (name : String) : Option String :=
  if isPlaceholder name then
    none
  else
    let stem := dropVariantNumber name.toList
    some (if stem = [] then name else String.ofList stem)

/-- A numbered variant is longer than the base of its family. -/
def isNumberedVariant (name : String) : Bool :=
  (base? name).any fun base => base ≠ name

/-- Two valid names are of one family when they share their base. -/
def sameFamily (a b : String) : Bool :=
  match base? a, base? b with
  | some x, some y => x = y
  | _, _ => false

end Name
end CallBinding
