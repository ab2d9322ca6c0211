import CallBinding.Text.Hex

/-!
# UUIDs

Identifiers of 32 hexadecimal digits.  They are written in five hyphenated
groups and read in that form, without hyphens, in braces, or as a URN.  Case
does not matter in what is read: neither in the digits nor in the URN's label.
-/

namespace CallBinding

/-- A UUID is the sequence of its digits. -/
structure Uuid where
  digits : List (Fin 16)
  length_digits : digits.length = 32
  deriving DecidableEq

namespace Uuid

/-- The UUID of exactly 32 hexadecimal digits. -/
def ofHex? (text : List Char) : Option Uuid :=
  (text.mapM hexValue?).bind fun digits =>
    if h : digits.length = 32 then some ⟨digits, h⟩ else none

/-- Takes the hyphens out of a text that has them exactly behind digits 8, 12, 16 and 20. -/
def dropHyphens? (text : List Char) : Option (List Char) :=
  let isHyphenPlace (place : Nat) : Bool := place = 8 || place = 13 || place = 18 || place = 23
  if text.zipIdx.all fun (c, place) => (c = '-') = isHyphenPlace place then
    some (text.filter fun c => c ≠ '-')
  else
    none

/-- The UUID of five hyphenated groups. -/
def ofGroups? (text : List Char) : Option Uuid :=
  (dropHyphens? text).bind ofHex?

/-- The part of a text between an opening and a closing brace. -/
def insideBraces? (text : List Char) : Option (List Char) :=
  if text.head? = some '\x7b' ∧ text.getLast? = some '\x7d' then
    some (text.drop 1).dropLast
  else
    none

/-- The part of a text behind `urn:uuid:`, whose letters may be of either case. -/
def afterUrn? (text : List Char) : Option (List Char) :=
  let label := "urn:uuid:".toList
  if (text.take label.length).map Char.toLower = label then some (text.drop label.length) else none

/-- Reads a UUID in any of its four forms. -/
def parse? (text : String) : Option Uuid :=
  let chars := text.toList
  match chars.length with
  | 32 => ofHex? chars
  | 36 => ofGroups? chars
  | 38 => (insideBraces? chars).bind ofGroups?
  | 45 => (afterUrn? chars).bind ofGroups?
  | _ => none

/-- A UUID in five hyphenated groups of lower-case digits. -/
def toString (uuid : Uuid) : String :=
  let chars := uuid.digits.map hexDigit
  String.ofList (List.intercalate ['-'] [chars.take 8, (chars.drop 8).take 4,
    (chars.drop 12).take 4, (chars.drop 16).take 4, chars.drop 20])

end Uuid
end CallBinding
