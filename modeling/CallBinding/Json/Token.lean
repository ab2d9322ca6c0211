import CallBinding.Text.Decimal
import CallBinding.Text.Hex
import CallBinding.Text.Utf16

/-!
# JSON tokens

A JSON text is a sequence of tokens with blanks between them.  The scanner
takes one character at a time and is strict: no comments, no leading zeros, no
raw control characters in strings.  Of numbers only the plain natural ones keep
their value, and a string that holds an unpaired surrogate keeps no text,
because no document of this library can use another.
-/

namespace CallBinding
namespace Json

/-- The smallest parts of a JSON text. -/
inductive Token where
  | openBrace
  | closeBrace
  | openBracket
  | closeBracket
  | colon
  | comma
  | null
  | bool (value : Bool)
  /-- A number; its value when it is written as a plain natural number. -/
  | number (value : Option Nat)
  /-- A string; its text when every surrogate in it is paired. -/
  | text (value : Option String)
  deriving DecidableEq, Repr

/-! ## Numbers -/

/-- The characters of numbers. -/
def isNumberChar (c : Char) : Bool :=
  c.isDigit || c = '-' || c = '+' || c = '.' || c = 'e' || c = 'E'

/-- A non-empty run of digits. -/
def isDigits (text : List Char) : Bool :=
  !text.isEmpty && text.all Char.isDigit

/-- A run of digits without a leading zero, or zero. -/
def isPlainNatural (text : List Char) : Bool :=
  isDigits text && (text.head? ≠ some '0' || text = ['0'])

/-- What may follow the digits before the exponent mark. -/
def isExponent : List Char → Bool
  | '+' :: digits => isDigits digits
  | '-' :: digits => isDigits digits
  | digits => isDigits digits

/-- A natural number, then a point and digits if there is a point. -/
def isUnsignedDecimal (text : List Char) : Bool :=
  let whole := text.takeWhile fun c => c ≠ '.'
  match text.dropWhile fun c => c ≠ '.' with
  | [] => isPlainNatural whole
  | _ :: fraction => isPlainNatural whole && isDigits fraction

/-- A decimal, then a mark and an exponent if there is a mark. -/
def isUnsignedNumber (text : List Char) : Bool :=
  let isMark (c : Char) : Bool := c = 'e' || c = 'E'
  let decimal := text.takeWhile fun c => !isMark c
  match text.dropWhile fun c => !isMark c with
  | [] => isUnsignedDecimal decimal
  | _ :: exponent => isUnsignedDecimal decimal && isExponent exponent

/-- The grammar of numbers: at most one minus sign in front of an unsigned one. -/
def isNumber : List Char → Bool
  | '-' :: text => isUnsignedNumber text
  | text => isUnsignedNumber text

def numberToken? (text : List Char) : Option Token :=
  if isPlainNatural text then
    some (.number (readDigits? text))
  else if isNumber text then
    some (.number none)
  else
    none

/-! ## Words and punctuation -/

/-- The characters of words. -/
def isWordChar (c : Char) : Bool :=
  c.isLower

def wordToken? (text : List Char) : Option Token :=
  if text = "null".toList then
    some .null
  else if text = "true".toList then
    some (.bool true)
  else if text = "false".toList then
    some (.bool false)
  else
    none

def markToken? : Char → Option Token
  | '\x7b' => some .openBrace
  | '\x7d' => some .closeBrace
  | '[' => some .openBracket
  | ']' => some .closeBracket
  | ':' => some .colon
  | ',' => some .comma
  | _ => none

/-- The characters that may stand between two tokens. -/
def isSpace (c : Char) : Bool :=
  c = ' ' || c = '\t' || c = '\n' || c = '\r'

/-! ## Strings -/

/-- The characters that a letter after a backslash stands for. -/
def escapedChar? : Char → Option Char
  | '"' => some '"'
  | '\\' => some '\\'
  | '/' => some '/'
  | 'b' => some '\x08'
  | 'f' => some '\x0c'
  | 'n' => some '\n'
  | 'r' => some '\r'
  | 't' => some '\t'
  | _ => none

/-- How far an escape sequence has been read. -/
inductive Escape where
  | outside
  | backslash
  /-- Some hexadecimal digits are read and at least one is missing. -/
  | hex (value : Nat) (missing : Nat)
  deriving DecidableEq, Repr

/-! ## The scanner -/

/-- What the characters read last belong to; their list has the latest first. -/
inductive Scanning where
  | idle
  | word (read : List Char)
  | number (read : List Char)
  | text (read : List TextUnit) (escape : Escape)
  deriving DecidableEq, Repr

/-- The tokens read so far, latest first, and the one being read. -/
structure Scanner where
  done : List Token
  current : Scanning
  deriving DecidableEq, Repr

namespace Scanner

def start : Scanner :=
  ⟨[], .idle⟩

/-- Takes a character that does not continue a token. -/
def begin? (done : List Token) (c : Char) : Option Scanner :=
  if isSpace c then
    some ⟨done, .idle⟩
  else if c = '"' then
    some ⟨done, .text [] .outside⟩
  else if isWordChar c then
    some ⟨done, .word [c]⟩
  else if isNumberChar c then
    some ⟨done, .number [c]⟩
  else
    (markToken? c).map fun token => ⟨token :: done, .idle⟩

/-- Takes a character inside a string. -/
def insideText? (done : List Token) (read : List TextUnit) (escape : Escape) (c : Char) :
    Option Scanner :=
  match escape with
  | .outside =>
      if c = '"' then
        some ⟨.text ((joinUnits? read.reverse).map String.ofList) :: done, .idle⟩
      else if c = '\\' then
        some ⟨done, .text read .backslash⟩
      else if c.toNat < 0x20 then
        none
      else
        some ⟨done, .text (.plain c :: read) .outside⟩
  | .backslash =>
      if c = 'u' then
        some ⟨done, .text read (.hex 0 4)⟩
      else
        (escapedChar? c).map fun meant => ⟨done, .text (.plain meant :: read) .outside⟩
  | .hex value missing =>
      (hexValue? c).map fun digit =>
        let code := 16 * value + digit.val
        if missing = 1 then
          ⟨done, .text (.unit16 code :: read) .outside⟩
        else
          ⟨done, .text read (.hex code (missing - 1))⟩

def step (scanner : Scanner) (c : Char) : Option Scanner :=
  match scanner.current with
  | .idle => begin? scanner.done c
  | .word read =>
      if isWordChar c then
        some ⟨scanner.done, .word (c :: read)⟩
      else
        (wordToken? read.reverse).bind fun token => begin? (token :: scanner.done) c
  | .number read =>
      if isNumberChar c then
        some ⟨scanner.done, .number (c :: read)⟩
      else
        (numberToken? read.reverse).bind fun token => begin? (token :: scanner.done) c
  | .text read escape => insideText? scanner.done read escape c

/-- The tokens read when the text ends. -/
def finish? (scanner : Scanner) : Option (List Token) :=
  match scanner.current with
  | .idle => some scanner.done.reverse
  | .word read => (wordToken? read.reverse).map fun token => (token :: scanner.done).reverse
  | .number read => (numberToken? read.reverse).map fun token => (token :: scanner.done).reverse
  | .text _ _ => none

end Scanner

/-- The tokens of a text, if it consists of tokens and blanks. -/
def tokens? (text : List Char) : Option (List Token) :=
  (text.foldlM Scanner.step Scanner.start).bind Scanner.finish?

/-! ## Writing -/

/-- One character of a string as it is written between the quotes. -/
def escapeChar (c : Char) : List Char :=
  if c = '"' then ['\\', '"']
  else if c = '\\' then ['\\', '\\']
  else if c = '\x08' then ['\\', 'b']
  else if c = '\x0c' then ['\\', 'f']
  else if c = '\n' then ['\\', 'n']
  else if c = '\r' then ['\\', 'r']
  else if c = '\t' then ['\\', 't']
  else if c.toNat < 0x20 then
    ['\\', 'u', '0', '0', hexDigit (Fin.ofNat 16 (c.toNat / 16)), hexDigit (Fin.ofNat 16 c.toNat)]
  else [c]

/-- A string as it is written; an unpaired surrogate stands for a string that has no text. -/
def quote : Option String → List Char
  | some text => '"' :: text.toList.flatMap escapeChar ++ ['"']
  | none => "\"\\ud800\"".toList

/-- A token as it is written; minus one stands for the numbers without a value. -/
def Token.render : Token → List Char
  | openBrace => ['\x7b']
  | closeBrace => ['\x7d']
  | openBracket => ['[']
  | closeBracket => [']']
  | colon => [':']
  | comma => [',']
  | null => "null".toList
  | bool true => "true".toList
  | bool false => "false".toList
  | number (some value) => (decimal value).toList
  | number none => "-1".toList
  | text value => quote value

end Json
end CallBinding
