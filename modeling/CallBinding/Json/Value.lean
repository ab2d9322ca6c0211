import CallBinding.Json.Token

/-!
# JSON values

Values are read from tokens by a machine that keeps the open containers on a
stack, so there is no limit on their nesting.  Objects keep their members in
order, repeated keys included.
-/

namespace CallBinding

/-- A JSON value, as far as the documents of this library can tell values apart. -/
inductive Json where
  | null
  | bool (value : Bool)
  /-- A number; its value when it is written as a plain natural number. -/
  | number (value : Option Nat)
  /-- A string; its text when every surrogate in it is paired. -/
  | text (value : Option String)
  | array (items : List Json)
  /-- The members in order; a key without text holds an unpaired surrogate. -/
  | object (members : List (Option String × Json))

namespace Json

/-- A container whose end has not been read; what it holds has the latest first. -/
inductive Frame where
  | items (done : List Json)
  /-- An object in which the value of a key is due. -/
  | members (done : List (Option String × Json)) (key : Option String)

/-- What the tokens read so far amount to. -/
inductive Reading where
  | due (stack : List Frame)
  /-- An array has begun: a value or its end is due. -/
  | firstItem (stack : List Frame)
  /-- An object has begun: a key or its end is due. -/
  | firstKey (stack : List Frame)
  /-- A comma in an object has been read: a key is due. -/
  | nextKey (done : List (Option String × Json)) (stack : List Frame)
  /-- A key has been read: a colon is due. -/
  | colon (done : List (Option String × Json)) (key : Option String) (stack : List Frame)
  /-- A value has been read in full. -/
  | after (value : Json) (stack : List Frame)

namespace Reading

/-- Takes a token where a value is due. -/
def open? (stack : List Frame) : Token → Option Reading
  | .null => some (after .null stack)
  | .bool value => some (after (.bool value) stack)
  | .number value => some (after (.number value) stack)
  | .text value => some (after (.text value) stack)
  | .openBracket => some (firstItem stack)
  | .openBrace => some (firstKey stack)
  | _ => none

/-- Takes a token after a value. -/
def close? (done : Json) : List Frame → Token → Option Reading
  | .items items :: stack, .comma => some (due (.items (done :: items) :: stack))
  | .items items :: stack, .closeBracket =>
      some (after (.array (done :: items).reverse) stack)
  | .members members key :: stack, .comma => some (nextKey ((key, done) :: members) stack)
  | .members members key :: stack, .closeBrace =>
      some (after (.object ((key, done) :: members).reverse) stack)
  | _, _ => none

def step (reading : Reading) (token : Token) : Option Reading :=
  match reading, token with
  | due stack, token => open? stack token
  | firstItem stack, .closeBracket => some (after (.array []) stack)
  | firstItem stack, token => open? (.items [] :: stack) token
  | firstKey stack, .closeBrace => some (after (.object []) stack)
  | firstKey stack, .text key => some (colon [] key stack)
  | nextKey done stack, .text key => some (colon done key stack)
  | colon done key stack, .colon => some (due (.members done key :: stack))
  | after done stack, token => close? done stack token
  | _, _ => none

/-- The value read when the tokens end. -/
def finish? : Reading → Option Json
  | after value [] => some value
  | _ => none

end Reading

/-- The value that a sequence of tokens denotes. -/
def ofTokens? (tokens : List Token) : Option Json :=
  (tokens.foldlM Reading.step (.due [])).bind Reading.finish?

def parse? (text : String) : Option Json :=
  (tokens? text.toList).bind ofTokens?

mutual

def tokens : Json → List Token
  | null => [.null]
  | bool value => [.bool value]
  | number value => [.number value]
  | text value => [.text value]
  | array [] => [.openBracket, .closeBracket]
  | array (item :: rest) => .openBracket :: item.tokens ++ itemTokens rest
  | object [] => [.openBrace, .closeBrace]
  | object ((key, value) :: rest) =>
      .openBrace :: .text key :: .colon :: value.tokens ++ memberTokens rest

/-- The tokens of the further items of an array, and its end. -/
def itemTokens : List Json → List Token
  | [] => [.closeBracket]
  | item :: rest => .comma :: item.tokens ++ itemTokens rest

/-- The tokens of the further members of an object, and its end. -/
def memberTokens : List (Option String × Json) → List Token
  | [] => [.closeBrace]
  | (key, value) :: rest =>
      .comma :: .text key :: .colon :: value.tokens ++ memberTokens rest

end

/-- A value as a JSON text without blanks. -/
def render (value : Json) : String :=
  String.ofList (value.tokens.flatMap Token.render)

/-! ## Building and taking apart -/

def natural (n : Nat) : Json :=
  .number (some n)

def string (s : String) : Json :=
  .text (some s)

/-- An object with the given members. -/
def record (members : List (String × Json)) : Json :=
  .object (members.map fun member => (some member.1, member.2))

/-- A plain natural number below a limit. -/
def naturalBelow? (limit : Nat) : Json → Option Nat
  | .number (some n) => if n < limit then some n else none
  | _ => none

def string? : Json → Option String
  | .text value => value
  | _ => none

/-- The items of an array, each read alike. -/
def arrayOf? {α : Type} (read? : Json → Option α) : Json → Option (List α)
  | .array items => items.mapM read?
  | _ => none

/-- The values of some keys in an object, in the order of the keys.  A value is absent when its
key is; a key that occurs twice or a key without text anywhere spoils the object. -/
def valuesByKey? (keys : List String) (members : List (Option String × Json)) :
    Option (List (Option Json)) :=
  if members.all (fun member => member.1.isSome) &&
      keys.all (fun key => (members.filter fun member => member.1 = some key).length ≤ 1) then
    some (keys.map fun key => (members.find? fun member => member.1 = some key).map (·.2))
  else
    none

/-- The values of a record with the given keys.  It is written as an object, in which unknown
keys are ignored, or as an array of the values in order, in which the last ones may be absent. -/
def recordValues? (keys : List String) : Json → Option (List (Option Json))
  | .object members => valuesByKey? keys members
  | .array items =>
      if items.length ≤ keys.length then
        some (items.map some ++ List.replicate (keys.length - items.length) none)
      else
        none
  | _ => none

/-- The word of an enumeration: a string, or an object with that key alone and no value. -/
def word? : Json → Option String
  | .text value => value
  | .object [(key, .null)] => key
  | _ => none

end Json
end CallBinding
