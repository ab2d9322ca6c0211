import CallBinding.Json.Token
import CallBinding.Proofs.Text.Decimal

/-!
# Tokens in a text

The scanner finds in a text the tokens that were written into it, with any blanks
around them.  A word or a number ends only where another character follows, so
two of them never stand side by side; every other token ends by itself.
-/

namespace CallBinding

/-! ## UTF-16 -/

/-- A unit of a text that is a character by itself. -/
inductive TextUnit.Denotes : TextUnit → Char → Prop
  | plain (c : Char) : Denotes (.plain c) c
  | unit16 (c : Char) : Denotes (.unit16 c.toNat) c

/-- No character is a surrogate. -/
theorem not_isSurrogate_toNat (c : Char) :
    isHighSurrogate c.toNat = false ∧ isLowSurrogate c.toNat = false := by
  have hvalid : c.toNat < 0xD800 ∨ 0xDFFF < c.toNat ∧ c.toNat < 0x110000 := c.valid
  simp only [isHighSurrogate, isLowSurrogate, Bool.and_eq_false_iff, decide_eq_false_iff_not]
  omega

theorem joinUnits?_cons {unit : TextUnit} {c : Char} (h : unit.Denotes c) (rest : List TextUnit) :
    joinUnits? (unit :: rest) = (joinUnits? rest).map (c :: ·) := by
  cases h with
  | plain c => rw [joinUnits?]
  | unit16 c =>
      obtain ⟨hhigh, hlow⟩ := not_isSurrogate_toNat c
      match rest with
      | [] => simp [joinUnits?, hhigh, hlow]
      | .plain _ :: _ => simp [joinUnits?, hhigh, hlow]
      | .unit16 _ :: _ => simp [joinUnits?, hhigh, hlow]

theorem joinUnits?_of_denotes {units : List TextUnit} {chars : List Char}
    (h : List.Forall₂ TextUnit.Denotes units chars) : joinUnits? units = some chars := by
  induction h with
  | nil => rfl
  | cons hunit _ ih => rw [joinUnits?_cons hunit, ih, Option.map_some]

namespace Json

variable {tokens : List Token} {token previous : Token} {text blanks : List Char}

/-! ## Words and numbers -/

/-- A word or a number, which more characters could belong to. -/
def Token.isLoose : Token → Bool
  | null | bool _ | number _ => true
  | _ => false

/-- A character that belongs to no word and to no number. -/
def isBoundary (c : Char) : Bool :=
  !isWordChar c && !isNumberChar c

theorem wordToken?_render_null : wordToken? Token.null.render = some .null := by decide

theorem wordToken?_render_bool (value : Bool) :
    wordToken? (Token.bool value).render = some (.bool value) := by
  cases value <;> decide

theorem render_natural (n : Nat) : (Token.number (some n)).render = Nat.toDigits 10 n :=
  String.toList_ofList

theorem numberToken?_render (value : Option Nat) :
    numberToken? (Token.number value).render = some (.number value) := by
  cases value with
  | none => decide
  | some n =>
      have hdigits : (Nat.toDigits 10 n).all Char.isDigit = true :=
        List.all_eq_true.mpr (isDigitRun_toDigits n).isDigit
      have hplain : isPlainNatural (Nat.toDigits 10 n) = true := by
        obtain rfl | hn := Nat.eq_zero_or_pos n
        · decide
        · simp [isPlainNatural, isDigits, hdigits, Nat.toDigits_ne_nil, head?_toDigits_ne_zero hn]
      have hvalue := readDigits?_decimal n
      rw [decimal, String.toList_ofList] at hvalue
      rw [render_natural, numberToken?, if_pos hplain, hvalue]

theorem render_number_ne_nil (value : Option Nat) : (Token.number value).render ≠ [] := by
  intro h
  have hnone := numberToken?_render value
  rw [h] at hnone
  cases hnone

theorem isNumberChar_of_mem_render {value : Option Nat} {c : Char}
    (hc : c ∈ (Token.number value).render) : isNumberChar c = true := by
  cases value with
  | none =>
      have hall : (Token.number none).render.all isNumberChar = true := by decide
      exact List.all_eq_true.mp hall c hc
  | some n =>
      rw [render_natural] at hc
      simp [isNumberChar, (isDigitRun_toDigits n).isDigit c hc]

/-- The letter of an exponent could belong to a word, but no number begins with it. -/
theorem isWordChar_of_mem_head? {value : Option Nat} {c : Char}
    (hc : c ∈ (Token.number value).render.head?) : isWordChar c = false := by
  cases value with
  | none =>
      obtain rfl : '-' = c := Option.some.inj hc
      decide
  | some n =>
      rw [render_natural] at hc
      have hdigit := (isDigitRun_toDigits n).isDigit c (List.mem_of_mem_head? hc)
      simp only [Char.isDigit, Bool.and_eq_true, decide_eq_true_eq, UInt32.le_iff_toNat_le]
        at hdigit
      have hle : c.val.toNat ≤ 57 := hdigit.2
      have hletter : isWordChar c = (decide ('a'.val ≤ c.val) && decide (c.val ≤ 'z'.val)) := rfl
      rw [hletter, Bool.and_eq_false_iff, decide_eq_false_iff_not, UInt32.le_iff_toNat_le]
      exact .inl fun hlower => absurd (hlower.trans hle) (by decide)

namespace Scanner

variable {done : List Token} {read : List TextUnit}

theorem foldlM_blanks (hblanks : ∀ c ∈ blanks, isSpace c = true) (done : List Token) :
    blanks.foldlM step ⟨done, .idle⟩ = some ⟨done, .idle⟩ := by
  induction blanks with
  | nil => rfl
  | cons c rest ih =>
      obtain ⟨hc, hrest⟩ := List.forall_mem_cons.mp hblanks
      have hstep : step ⟨done, .idle⟩ c = some ⟨done, .idle⟩ := if_pos hc
      rw [List.foldlM_cons, hstep]
      exact ih hrest

theorem foldlM_number {run : List Char} (hrun : ∀ c ∈ run, isNumberChar c = true)
    (done : List Token) (read : List Char) :
    run.foldlM step ⟨done, .number read⟩ = some ⟨done, .number (run.reverse ++ read)⟩ := by
  induction run generalizing read with
  | nil => rfl
  | cons c rest ih =>
      obtain ⟨hc, hrest⟩ := List.forall_mem_cons.mp hrun
      have hstep : step ⟨done, .number read⟩ c = some ⟨done, .number (c :: read)⟩ := if_pos hc
      rw [List.foldlM_cons, hstep, List.reverse_cons, List.append_assoc]
      exact ih hrest (c :: read)

/-- A number begins with no blank, no quote and no letter of a word. -/
theorem begin?_number {c : Char} (hc : isNumberChar c = true) (hword : isWordChar c = false)
    (done : List Token) : begin? done c = some ⟨done, .number [c]⟩ := by
  have hspace : isSpace c = false := by
    by_contra h
    simp only [Bool.not_eq_false, isSpace, Bool.or_eq_true, decide_eq_true_eq] at h
    rcases h with ((rfl | rfl) | rfl) | rfl <;> revert hc <;> decide
  have hquote : c ≠ '"' := by
    rintro rfl
    revert hc
    decide
  rw [begin?, hspace, if_neg Bool.false_ne_true, if_neg hquote, hword, if_neg Bool.false_ne_true,
    if_pos hc]

/-! ## Strings -/

theorem step_hex (done : List Token) (read : List TextUnit) (value missing : Nat)
    (digit : Fin 16) :
    step ⟨done, .text read (.hex value (missing + 2))⟩ (hexDigit digit) =
      some ⟨done, .text read (.hex (16 * value + digit.val) (missing + 1))⟩ := by
  simp [step, insideText?, hexValue?_hexDigit]

theorem step_hex_last (done : List Token) (read : List TextUnit) (value : Nat) (digit : Fin 16) :
    step ⟨done, .text read (.hex value 1)⟩ (hexDigit digit) =
      some ⟨done, .text (.unit16 (16 * value + digit.val) :: read) .outside⟩ := by
  simp [step, insideText?, hexValue?_hexDigit]

/-- Four digits make a code unit. -/
theorem foldlM_unit16 (done : List Token) (read : List TextUnit) (a b c d : Fin 16) :
    ['\\', 'u', hexDigit a, hexDigit b, hexDigit c, hexDigit d].foldlM step
        ⟨done, .text read .outside⟩ =
      some ⟨done, .text (.unit16 (16 * (16 * (16 * a.val + b.val) + c.val) + d.val) :: read)
        .outside⟩ := by
  have hbegin : step ⟨done, .text read .outside⟩ '\\' =
    some ⟨done, .text read .backslash⟩ := rfl
  have hmark : step ⟨done, .text read .backslash⟩ 'u' =
    some ⟨done, .text read (.hex 0 4)⟩ := rfl
  simp only [List.foldlM_cons, List.foldlM_nil, hbegin, hmark, step_hex, step_hex_last,
    Option.bind_eq_bind, Option.bind_some, Option.pure_def, Nat.mul_zero, Nat.zero_add]

/-- A letter behind a backslash stands for one character. -/
theorem foldlM_letter {letter c : Char} (hletter : letter ≠ 'u')
    (hmeant : escapedChar? letter = some c) (done : List Token) (read : List TextUnit) :
    ['\\', letter].foldlM step ⟨done, .text read .outside⟩ =
      some ⟨done, .text (.plain c :: read) .outside⟩ := by
  simp [step, insideText?, hletter, hmeant]

/-- A character is read back from the way it is written. -/
theorem exists_foldlM_escapeChar (done : List Token) (read : List TextUnit) (c : Char) :
    ∃ unit, unit.Denotes c ∧ (escapeChar c).foldlM step ⟨done, .text read .outside⟩ =
      some ⟨done, .text (unit :: read) .outside⟩ := by
  by_cases hletter : c ∈ ['"', '\\', '\x08', '\x0c', '\n', '\r', '\t']
  · simp only [List.mem_cons, List.not_mem_nil, or_false] at hletter
    rcases hletter with rfl | rfl | rfl | rfl | rfl | rfl | rfl <;>
      exact ⟨_, .plain _, foldlM_letter (by decide) rfl done read⟩
  · simp only [List.mem_cons, List.not_mem_nil, or_false, not_or] at hletter
    by_cases hcontrol : c.toNat < 0x20
    · have hzero : '0' = hexDigit 0 := by decide
      have hcode : 16 * (16 * (16 * (0 : Fin 16).val + (0 : Fin 16).val) +
          (Fin.ofNat 16 (c.toNat / 16)).val) + (Fin.ofNat 16 c.toNat).val = c.toNat := by
        simp only [Fin.val_ofNat, Fin.val_zero]
        omega
      refine ⟨_, .unit16 c, ?_⟩
      simp only [escapeChar, hletter, hcontrol, if_true, if_false]
      rw [hzero, foldlM_unit16, hcode]
    · refine ⟨_, .plain c, ?_⟩
      simp [escapeChar, step, insideText?, hletter, hcontrol]

theorem exists_foldlM_escapeChars (done : List Token) (read : List TextUnit)
    (chars : List Char) :
    ∃ units, List.Forall₂ TextUnit.Denotes units chars ∧
      (chars.flatMap escapeChar).foldlM step ⟨done, .text read .outside⟩ =
        some ⟨done, .text (units.reverse ++ read) .outside⟩ := by
  induction chars generalizing read with
  | nil => exact ⟨[], .nil, rfl⟩
  | cons c rest ih =>
      obtain ⟨unit, hunit, hread⟩ := exists_foldlM_escapeChar done read c
      obtain ⟨units, hunits, hreads⟩ := ih (unit :: read)
      refine ⟨unit :: units, .cons hunit hunits, ?_⟩
      rw [List.flatMap_cons, List.foldlM_append, hread, List.reverse_cons, List.append_assoc]
      exact hreads

theorem foldlM_quoted {written : List Char} (hwritten :
      written.foldlM step ⟨done, .text [] .outside⟩ = some ⟨done, .text read .outside⟩) :
    ('"' :: written ++ ['"']).foldlM step ⟨done, .idle⟩ =
      some ⟨.text ((joinUnits? read.reverse).map String.ofList) :: done, .idle⟩ := by
  have hbegin : step ⟨done, .idle⟩ '"' = some ⟨done, .text [] .outside⟩ := rfl
  have hend : step ⟨done, .text read .outside⟩ '"' =
    some ⟨.text ((joinUnits? read.reverse).map String.ofList) :: done, .idle⟩ := rfl
  simp only [List.foldlM_append, List.foldlM_cons, List.foldlM_nil, hbegin, hwritten, hend,
    Option.bind_eq_bind, Option.bind_some, Option.pure_def]

theorem foldlM_quote (done : List Token) (value : Option String) :
    (quote value).foldlM step ⟨done, .idle⟩ = some ⟨.text value :: done, .idle⟩ := by
  cases value with
  | none =>
      have hquote : quote none = '"' :: ['\\', 'u', hexDigit 13, hexDigit 8, hexDigit 0,
        hexDigit 0] ++ ['"'] := by decide
      have hlone : joinUnits? [.unit16 (16 * (16 * (16 * (13 : Fin 16).val + (8 : Fin 16).val) +
          (0 : Fin 16).val) + (0 : Fin 16).val)] = none := by decide
      rw [hquote, foldlM_quoted (foldlM_unit16 done [] 13 8 0 0), List.reverse_singleton, hlone,
        Option.map_none]
  | some text =>
      obtain ⟨units, hunits, hread⟩ := exists_foldlM_escapeChars done [] text.toList
      have hquote : quote (some text) = '"' :: text.toList.flatMap escapeChar ++ ['"'] := rfl
      rw [hquote, foldlM_quoted hread, List.append_nil, List.reverse_reverse,
        joinUnits?_of_denotes hunits, Option.map_some, String.ofList_toList]

/-! ## Tokens -/

theorem foldlM_render_number (done : List Token) (value : Option Nat) :
    (Token.number value).render.foldlM step ⟨done, .idle⟩ =
      some ⟨done, .number (Token.number value).render.reverse⟩ := by
  have hall : ∀ c ∈ (Token.number value).render, isNumberChar c = true :=
    fun _ => isNumberChar_of_mem_render
  have hfirst : ∀ c ∈ (Token.number value).render.head?, isWordChar c = false :=
    fun _ => isWordChar_of_mem_head?
  cases hrender : (Token.number value).render with
  | nil => exact absurd hrender (render_number_ne_nil value)
  | cons c rest =>
      rw [hrender] at hall hfirst
      obtain ⟨hc, hrest⟩ := List.forall_mem_cons.mp hall
      have hbegin : step ⟨done, .idle⟩ c = some ⟨done, .number [c]⟩ :=
        begin?_number hc (hfirst c rfl) done
      rw [List.foldlM_cons, hbegin, List.reverse_cons]
      exact foldlM_number hrest done [c]

/-- The scanner when it has read a token and the text goes on. -/
def behind (done : List Token) : Token → Scanner
  | .null => ⟨done, .word Token.null.render.reverse⟩
  | .bool value => ⟨done, .word (Token.bool value).render.reverse⟩
  | .number value => ⟨done, .number (Token.number value).render.reverse⟩
  | token => ⟨token :: done, .idle⟩

theorem foldlM_render (done : List Token) (token : Token) :
    token.render.foldlM step ⟨done, .idle⟩ = some (behind done token) := by
  cases token with
  | number value => exact foldlM_render_number done value
  | text value => exact foldlM_quote done value
  | bool value => cases value <;> rfl
  | _ => rfl

theorem step_behind (done : List Token) {c : Char}
    (hc : token.isLoose = true → isBoundary c = true) :
    step (behind done token) c = begin? (token :: done) c := by
  have hword : token.isLoose = true → isWordChar c = false := fun h => by
    simpa using (Bool.and_eq_true_iff.mp (hc h)).1
  have hnumber : token.isLoose = true → isNumberChar c = false := fun h => by
    simpa using (Bool.and_eq_true_iff.mp (hc h)).2
  cases token with
  | null => simp [behind, step, hword rfl, wordToken?_render_null]
  | bool value => simp [behind, step, hword rfl, wordToken?_render_bool]
  | number value => simp [behind, step, hnumber rfl, numberToken?_render]
  | _ => rfl

theorem finish?_behind (done : List Token) (token : Token) :
    (behind done token).finish? = some (token :: done).reverse := by
  cases token with
  | null => simp [behind, finish?, wordToken?_render_null]
  | bool value => simp [behind, finish?, wordToken?_render_bool]
  | number value => simp [behind, finish?, numberToken?_render]
  | _ => rfl

/-- Once the token before it is known to have ended, the scanner goes on from that token. -/
theorem foldlM_behind (done : List Token) {c : Char} {rest : List Char}
    (hc : token.isLoose = true → isBoundary c = true) :
    (c :: rest).foldlM step (behind done token) =
      (c :: rest).foldlM step ⟨token :: done, .idle⟩ := by
  rw [List.foldlM_cons, List.foldlM_cons, step_behind done hc]
  rfl

end Scanner

/-! ## Texts of tokens -/

/-- Tokens as they are written, with any blanks around them. -/
inductive Spaced : List Token → List Char → Prop
  | nil {blanks : List Char} : (∀ c ∈ blanks, isSpace c = true) → Spaced [] blanks
  | cons {blanks text : List Char} {token : Token} {tokens : List Token} :
      (∀ c ∈ blanks, isSpace c = true) → Spaced tokens text →
      Spaced (token :: tokens) (blanks ++ token.render ++ text)

theorem spaced_flatMap_render (tokens : List Token) :
    Spaced tokens (tokens.flatMap Token.render) := by
  induction tokens with
  | nil => exact .nil fun c hc => nomatch hc
  | cons token rest ih =>
      show Spaced (token :: rest) ([] ++ token.render ++ rest.flatMap Token.render)
      exact .cons (fun c hc => nomatch hc) ih

/-- Two tokens can stand side by side unless both are words or numbers. -/
def Separable (token next : Token) : Prop :=
  token.isLoose = true → next.isLoose = false

theorem isBoundary_of_isSpace {c : Char} (hc : isSpace c = true) : isBoundary c = true := by
  simp only [isSpace, Bool.or_eq_true, decide_eq_true_eq] at hc
  rcases hc with ((rfl | rfl) | rfl) | rfl <;> decide

/-- A token that is no word and no number begins with a character of its own. -/
theorem exists_render_eq (token : Token) :
    ∃ c rest, token.render = c :: rest ∧ (token.isLoose = false → isBoundary c = true) := by
  cases token with
  | number value =>
      obtain ⟨c, rest, hrender⟩ := List.exists_cons_of_ne_nil (render_number_ne_nil value)
      exact ⟨c, rest, hrender, fun h => nomatch h⟩
  | bool value => cases value <;> exact ⟨_, _, rfl, fun h => nomatch h⟩
  | null => exact ⟨_, _, rfl, fun h => nomatch h⟩
  | text value => cases value <;> exact ⟨_, _, rfl, fun _ => by decide⟩
  | _ => exact ⟨_, _, rfl, fun _ => by decide⟩

theorem foldlM_spaced_render (done : List Token) (hblanks : ∀ c ∈ blanks, isSpace c = true)
    (hseparable : Separable previous token) :
    (blanks ++ token.render).foldlM Scanner.step (Scanner.behind done previous) =
      some (Scanner.behind (previous :: done) token) := by
  have hidle : (blanks ++ token.render).foldlM Scanner.step ⟨previous :: done, .idle⟩ =
      some (Scanner.behind (previous :: done) token) := by
    rw [List.foldlM_append, Scanner.foldlM_blanks hblanks]
    exact Scanner.foldlM_render (previous :: done) token
  rw [← hidle]
  cases blanks with
  | nil =>
      obtain ⟨c, rest, hrender, hboundary⟩ := exists_render_eq token
      rw [List.nil_append, hrender]
      exact Scanner.foldlM_behind done fun hloose => hboundary (hseparable hloose)
  | cons c rest =>
      exact Scanner.foldlM_behind done fun _ =>
        isBoundary_of_isSpace (hblanks c List.mem_cons_self)

theorem finish?_blanks (done : List Token) (token : Token)
    (hblanks : ∀ c ∈ blanks, isSpace c = true) :
    (blanks.foldlM Scanner.step (Scanner.behind done token)).bind Scanner.finish? =
      some (token :: done).reverse := by
  cases blanks with
  | nil => exact Scanner.finish?_behind done token
  | cons c rest =>
      have hc := isBoundary_of_isSpace (hblanks c List.mem_cons_self)
      rw [Scanner.foldlM_behind done fun _ => hc, Scanner.foldlM_blanks hblanks]
      rfl

theorem Spaced.finish?_behind (h : Spaced tokens text) (done : List Token)
    (hseparable : (previous :: tokens).IsChain Separable) :
    (text.foldlM Scanner.step (Scanner.behind done previous)).bind Scanner.finish? =
      some ((previous :: done).reverse ++ tokens) := by
  -- By induction on the text: the token before it is still open, since what follows shows its end.
  induction h generalizing done previous with
  | nil hblanks => rw [finish?_blanks done previous hblanks, List.append_nil]
  | cons hblanks _ ih =>
      rw [List.isChain_cons_cons] at hseparable
      rw [List.foldlM_append, foldlM_spaced_render done hblanks hseparable.1]
      refine (ih (previous :: done) hseparable.2).trans ?_
      simp

/-- The scanner finds the tokens that were written. -/
theorem Spaced.tokens?_eq (h : Spaced tokens text) (hseparable : tokens.IsChain Separable) :
    tokens? text = some tokens := by
  cases h with
  | nil hblanks =>
      rw [tokens?, Scanner.start, Scanner.foldlM_blanks hblanks]
      rfl
  | cons hblanks hrest =>
      rw [tokens?, Scanner.start, List.foldlM_append, List.foldlM_append,
        Scanner.foldlM_blanks hblanks, Option.bind_eq_bind, Option.bind_some,
        Scanner.foldlM_render]
      exact hrest.finish?_behind [] hseparable

end Json
end CallBinding
