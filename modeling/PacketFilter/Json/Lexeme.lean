/-!
# Lexemes of JSON

The marks, words, numbers and strings that a JSON text consists of. A string is kept by its pieces, since
a `\u` escape may stand for half of a character only. Main content: `Lexeme.scan?`, which reads characters
one at a time, and `Lexeme.write`.
-/

namespace PacketFilter.Json

/-- A piece of a string: a character, or the code unit of a `\u` escape. -/
inductive Piece where
  | char (c : Char)
  | code (unit : Nat)
  deriving DecidableEq, Repr

namespace Piece

/-- Whether a code unit is the first half of a pair. -/
def isHigh (unit : Nat) : Bool := 0xD800 ≤ unit && unit ≤ 0xDBFF

/-- Whether a code unit is the second half of a pair. -/
def isLow (unit : Nat) : Bool := 0xDC00 ≤ unit && unit ≤ 0xDFFF

/-- The character of a pair of code units. -/
def pair (high low : Nat) : Char := Char.ofNat (0x10000 + (high - 0xD800) * 0x400 + (low - 0xDC00))

/-- The characters of a string; none if half of a pair stands alone. -/
def decode? : List Piece → Option (List Char)
  | [] => some []
  | char c :: rest => (decode? rest).map (c :: ·)
  | code high :: code low :: rest =>
    if isHigh high then
      if isLow low then (decode? rest).map (pair high low :: ·) else none
    else if isLow high then none
    else (decode? (code low :: rest)).map (Char.ofNat high :: ·)
  | code unit :: rest => if isHigh unit || isLow unit then none else (decode? rest).map (Char.ofNat unit :: ·)

/-- The pieces of a text without escapes of code units. -/
def ofText (text : String) : List Piece := text.toList.map char

/-- The text of a string. -/
def text? (pieces : List Piece) : Option String := (decode? pieces).map String.ofList

@[simp] theorem decode?_map_char (cs : List Char) : decode? (cs.map char) = some cs := by
  induction cs with
  | nil => rfl
  | cons c cs ih => simp [decode?, ih]

@[simp] theorem text?_ofText (text : String) : text? (ofText text) = some text := by
  simp [text?, ofText]

end Piece

/-- A lexeme of JSON; a number that is no integer is kept as it is written. -/
inductive Lexeme where
  | openBrace
  | closeBrace
  | openBracket
  | closeBracket
  | comma
  | colon
  | null
  | bool (value : Bool)
  | integer (value : Int)
  | decimal (text : List Char)
  | string (pieces : List Piece)
  deriving DecidableEq, Repr

namespace Lexeme

/-! ## Numbers and words -/

/-- Digits without a needless zero in front. -/
def isWhole (digits : List Char) : Bool :=
  !digits.isEmpty && digits.all Char.isDigit && (digits.length ≤ 1 || digits.head? != some '0')

/-- An exponent: digits with an optional sign. -/
def isExponent (cs : List Char) : Bool :=
  let digits := match cs with
    | '+' :: rest => rest
    | '-' :: rest => rest
    | _ => cs
  !digits.isEmpty && digits.all Char.isDigit

/-- What may follow the whole part of a number: an exponent. -/
def isScale (cs : List Char) : Bool :=
  match cs with
  | [] => true
  | c :: rest => (c == 'e' || c == 'E') && isExponent rest

/-- What may follow the whole part of a number: a fraction, an exponent, or both. -/
def isFraction (cs : List Char) : Bool :=
  match cs with
  | '.' :: rest =>
    !(rest.takeWhile Char.isDigit).isEmpty && isScale (rest.dropWhile Char.isDigit)
  | _ => isScale cs

/-- A number. Zero with a sign is no integer. -/
def ofNumber? (cs : List Char) : Option Lexeme :=
  let unsigned := match cs with
    | '-' :: rest => rest
    | _ => cs
  let whole := unsigned.takeWhile Char.isDigit
  let rest := unsigned.dropWhile Char.isDigit
  let value := Nat.ofDigitChars 10 whole 0
  if !isWhole whole then none
  else if rest.isEmpty then
    if cs.head? != some '-' then some (integer value)
    else if value = 0 then some (decimal cs)
    else some (integer (-value))
  else if isFraction rest then some (decimal cs)
  else none

/-- A word. -/
def ofWord? (cs : List Char) : Option Lexeme :=
  if cs = ['n', 'u', 'l', 'l'] then some null
  else if cs = ['t', 'r', 'u', 'e'] then some (bool true)
  else if cs = ['f', 'a', 'l', 's', 'e'] then some (bool false)
  else none

/-! ## Scanning -/

/-- What was read before the next character; characters and pieces come last first. -/
inductive Mode where
  | between
  | number (read : List Char)
  | word (read : List Char)
  | string (pieces : List Piece)
  | escape (pieces : List Piece)
  | unit (pieces : List Piece) (count value : Nat)

/-- The blank characters between lexemes. -/
def isSpace (c : Char) : Bool := c == ' ' || c == '\t' || c == '\n' || c == '\r'

/-- The mark of a character. -/
def ofMark? : Char → Option Lexeme
  | '{' => some openBrace
  | '}' => some closeBrace
  | '[' => some openBracket
  | ']' => some closeBracket
  | ',' => some comma
  | ':' => some colon
  | _ => none

/-- Whether a number goes on with a character. -/
def isNumberChar (c : Char) : Bool := c.isDigit || c == '.' || c == 'e' || c == 'E' || c == '+' || c == '-'

/-- A character between two lexemes: a mark, or the start of another lexeme. -/
def start? (c : Char) : Option (Mode × List Lexeme) :=
  if isSpace c then some (.between, [])
  else if c == '"' then some (.string [], [])
  else if c.isDigit || c == '-' then some (.number [c], [])
  else if c.isLower then some (.word [c], [])
  else (ofMark? c).map fun mark => (.between, [mark])

/-- The character that a letter after a backslash stands for. -/
def unescape? : Char → Option Char
  | '"' => some '"'
  | '\\' => some '\\'
  | '/' => some '/'
  | 'b' => some '\x08'
  | 'f' => some '\x0c'
  | 'n' => some '\n'
  | 'r' => some '\r'
  | 't' => some '\t'
  | _ => none

/-- The value of a hexadecimal digit. -/
def hexValue? (c : Char) : Option Nat :=
  if c.isDigit then some (c.toNat - '0'.toNat)
  else if 'a' ≤ c && c ≤ 'f' then some (c.toNat - 'a'.toNat + 10)
  else if 'A' ≤ c && c ≤ 'F' then some (c.toNat - 'A'.toNat + 10)
  else none

/-- Reads one character, which may complete lexemes. -/
def step? (mode : Mode) (c : Char) : Option (Mode × List Lexeme) :=
  match mode with
  | .between => start? c
  | .number read =>
    if isNumberChar c then some (.number (c :: read), [])
    else do
      let lexeme ← ofNumber? read.reverse
      let (next, lexemes) ← start? c
      return (next, lexeme :: lexemes)
  | .word read =>
    if c.isLower then some (.word (c :: read), [])
    else do
      let lexeme ← ofWord? read.reverse
      let (next, lexemes) ← start? c
      return (next, lexeme :: lexemes)
  | .string pieces =>
    if c == '"' then some (.between, [string pieces.reverse])
    else if c == '\\' then some (.escape pieces, [])
    else if c.toNat < 0x20 then none
    else some (.string (.char c :: pieces), [])
  | .escape pieces =>
    if c == 'u' then some (.unit pieces 0 0, [])
    else (unescape? c).map fun escaped => (.string (.char escaped :: pieces), [])
  | .unit pieces count value => do
    let digit ← hexValue? c
    if count < 3 then some (.unit pieces (count + 1) (16 * value + digit), [])
    else some (.string (.code (16 * value + digit) :: pieces), [])

/-- The lexemes that the end of the text completes. -/
def finish? : Mode → Option (List Lexeme)
  | .between => some []
  | .number read => (ofNumber? read.reverse).map ([·])
  | .word read => (ofWord? read.reverse).map ([·])
  | _ => none

/-- The lexemes of the characters that follow. -/
def scan? (mode : Mode) : List Char → Option (List Lexeme)
  | [] => finish? mode
  | c :: cs => do
    let (next, lexemes) ← step? mode c
    let rest ← scan? next cs
    return lexemes ++ rest

/-! ## Writing -/

/-- The hexadecimal digit of a value below sixteen. -/
def hexDigit (value : Nat) : Char := Nat.digitChar value

/-- A character inside a string: quotes, backslashes and control characters are escaped. -/
def writeChar (c : Char) : List Char :=
  if c = '"' then ['\\', '"']
  else if c = '\\' then ['\\', '\\']
  else if c = '\x08' then ['\\', 'b']
  else if c = '\x0c' then ['\\', 'f']
  else if c = '\n' then ['\\', 'n']
  else if c = '\r' then ['\\', 'r']
  else if c = '\t' then ['\\', 't']
  else if c.toNat < 0x20 then ['\\', 'u', '0', '0', hexDigit (c.toNat / 16), hexDigit (c.toNat % 16)]
  else [c]

/-- A piece inside a string. -/
def writePiece : Piece → List Char
  | .char c => writeChar c
  | .code unit =>
    ['\\', 'u', hexDigit (unit / 0x1000 % 16), hexDigit (unit / 0x100 % 16), hexDigit (unit / 16 % 16),
      hexDigit (unit % 16)]

/-- The characters of a lexeme. -/
def write : Lexeme → List Char
  | openBrace => ['{']
  | closeBrace => ['}']
  | openBracket => ['[']
  | closeBracket => [']']
  | comma => [',']
  | colon => [':']
  | null => ['n', 'u', 'l', 'l']
  | bool true => ['t', 'r', 'u', 'e']
  | bool false => ['f', 'a', 'l', 's', 'e']
  | integer value => value.repr.toList
  | decimal text => text
  | string pieces => '"' :: pieces.flatMap writePiece ++ ['"']

end Lexeme

end PacketFilter.Json
