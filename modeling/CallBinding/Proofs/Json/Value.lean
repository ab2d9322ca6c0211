import CallBinding.Json.Value
import CallBinding.Proofs.Json.Token

/-!
# Values in a text

Reading undoes writing, for every value and with any blanks between its tokens.
Behind each word and each number that the reader accepts it wants a mark, so no
two of them meet in what it accepts.
-/

namespace CallBinding
namespace Json

/-- A text is a value as it is written, with any blanks around its tokens. -/
def IsWritten (value : Json) (text : String) : Prop :=
  Spaced value.tokens text.toList

namespace Reading

variable {stack : List Frame} {reading later : Reading} {token next : Token} {tokens : List Token}

/-! ## Accepted tokens -/

theorem exists_after_of_isLoose (h : reading.step token = some later)
    (hloose : token.isLoose = true) : ∃ value stack, later = .after value stack := by
  cases token with
  | null | bool _ | number _ =>
      cases reading with
      | due stack | firstItem stack => exact ⟨_, _, (Option.some.inj h).symm⟩
      | firstKey _ | nextKey _ _ | colon _ _ _ => cases h
      | after value stack =>
          rcases stack with _ | ⟨_ | _, _⟩ <;> cases h
  | _ => cases hloose

theorem isLoose_of_step_after {value : Json}
    (h : (Reading.after value stack).step token = some later) : token.isLoose = false := by
  cases token with
  | null | bool _ | number _ => rcases stack with _ | ⟨_ | _, _⟩ <;> cases h
  | _ => rfl

/-- What is accepted can be told apart when it is written without blanks. -/
theorem isChain_of_foldlM (h : tokens.foldlM step reading = some later) :
    tokens.IsChain Separable := by
  induction tokens generalizing reading with
  | nil => exact .nil
  | cons token rest ih =>
      rw [List.foldlM_cons, Option.bind_eq_bind, Option.bind_eq_some_iff] at h
      obtain ⟨mid, hmid, hrest⟩ := h
      cases rest with
      | nil => exact .singleton token
      | cons next rest =>
          refine List.isChain_cons_cons.mpr ⟨fun hloose => ?_, ih hrest⟩
          obtain ⟨value, stack, rfl⟩ := exists_after_of_isLoose hmid hloose
          rw [List.foldlM_cons, Option.bind_eq_bind, Option.bind_eq_some_iff] at hrest
          obtain ⟨_, hnext, -⟩ := hrest
          exact isLoose_of_step_after hnext

end Reading

/-! ## Reading what is written -/

theorem exists_tokens_eq (value : Json) :
    ∃ token rest, value.tokens = token :: rest ∧ token ≠ .closeBracket := by
  cases value with
  | array items => cases items <;> exact ⟨_, _, rfl, by decide⟩
  | object members => cases members <;> exact ⟨_, _, rfl, by decide⟩
  | _ => exact ⟨_, _, rfl, nofun⟩

/-- A value that stands first in an array is read like any other. -/
theorem foldlM_firstItem (value : Json) (stack : List Frame) :
    value.tokens.foldlM Reading.step (.firstItem stack) =
      value.tokens.foldlM Reading.step (.due (.items [] :: stack)) := by
  obtain ⟨token, rest, htokens, hopen⟩ := value.exists_tokens_eq
  have hstep : Reading.step (.firstItem stack) token =
      Reading.step (.due (.items [] :: stack)) token := by
    cases token with
    | closeBracket => exact absurd rfl hopen
    | _ => rfl
  rw [htokens, List.foldlM_cons, List.foldlM_cons, hstep]

mutual

-- By recursion on the value for every stack: an item is read with the frame of its array on top.
theorem foldlM_tokens : ∀ (value : Json) (stack : List Frame),
    value.tokens.foldlM Reading.step (.due stack) = some (.after value stack)
  | .null, _ => rfl
  | .bool _, _ => rfl
  | .number _, _ => rfl
  | .text _, _ => rfl
  | .array [], _ => rfl
  | .array (item :: rest), stack => by
      have hopen : Reading.step (.due stack) .openBracket = some (.firstItem stack) := rfl
      rw [tokens, List.cons_append, List.foldlM_cons, hopen, Option.bind_eq_bind,
        Option.bind_some, List.foldlM_append, foldlM_firstItem,
        foldlM_tokens item (.items [] :: stack)]
      exact foldlM_itemTokens rest [] item stack
  | .object [], _ => rfl
  | .object ((key, value) :: rest), stack => by
      have hbegin : [Token.openBrace, .text key, .colon].foldlM Reading.step (.due stack) =
        some (.due (.members [] key :: stack)) := rfl
      have hsplit : (Json.object ((key, value) :: rest)).tokens =
        [.openBrace, .text key, .colon] ++ (value.tokens ++ memberTokens rest) := rfl
      rw [hsplit, List.foldlM_append, hbegin, Option.bind_eq_bind, Option.bind_some,
        List.foldlM_append, foldlM_tokens value (.members [] key :: stack)]
      exact foldlM_memberTokens rest [] key value stack

theorem foldlM_itemTokens : ∀ (items done : List Json) (value : Json) (stack : List Frame),
    (itemTokens items).foldlM Reading.step (.after value (.items done :: stack)) =
      some (.after (.array ((value :: done).reverse ++ items)) stack)
  | [], done, value, stack => by
      rw [List.append_nil]
      rfl
  | item :: rest, done, value, stack => by
      have hcomma : Reading.step (.after value (.items done :: stack)) .comma =
        some (.due (.items (value :: done) :: stack)) := rfl
      rw [itemTokens, List.cons_append, List.foldlM_cons, hcomma, Option.bind_eq_bind,
        Option.bind_some, List.foldlM_append, foldlM_tokens item (.items (value :: done) :: stack)]
      refine (foldlM_itemTokens rest (value :: done) item stack).trans ?_
      simp

theorem foldlM_memberTokens : ∀ (members done : List (Option String × Json))
    (key : Option String) (value : Json) (stack : List Frame),
    (memberTokens members).foldlM Reading.step (.after value (.members done key :: stack)) =
      some (.after (.object (((key, value) :: done).reverse ++ members)) stack)
  | [], done, key, value, stack => by
      rw [List.append_nil]
      rfl
  | (next, item) :: rest, done, key, value, stack => by
      have hbegin : [Token.comma, .text next, .colon].foldlM Reading.step
          (.after value (.members done key :: stack)) =
        some (.due (.members ((key, value) :: done) next :: stack)) := rfl
      have hsplit : memberTokens ((next, item) :: rest) =
        [.comma, .text next, .colon] ++ (item.tokens ++ memberTokens rest) := rfl
      rw [hsplit, List.foldlM_append, hbegin, Option.bind_eq_bind, Option.bind_some,
        List.foldlM_append, foldlM_tokens item (.members ((key, value) :: done) next :: stack)]
      refine (foldlM_memberTokens rest ((key, value) :: done) next item stack).trans ?_
      simp

end

variable {value : Json} {text : String}

/-- A value is read back from its text, however the text is spaced. -/
theorem IsWritten.parse?_eq (h : IsWritten value text) : parse? text = some value := by
  have hread := foldlM_tokens value []
  rw [parse?, h.tokens?_eq (Reading.isChain_of_foldlM hread), Option.bind_some, ofTokens?, hread]
  rfl

theorem isWritten_render (value : Json) : IsWritten value value.render := by
  rw [IsWritten, render, String.toList_ofList]
  exact spaced_flatMap_render value.tokens

theorem parse?_render (value : Json) : parse? value.render = some value :=
  value.isWritten_render.parse?_eq

end Json
end CallBinding
