import Whim.LexerScan

/-!
# The lexer

The lexer's cursor, its stack of modes and `advance`, the step that returns one token.
-/

namespace Whim
namespace Lexer

/-- A cursor over the source. Positions are 32 bits wide, offsets are not. -/
structure Input where
  bytes : List UInt8
  offset : ℕ
  startingPosition : ℕ
  deriving DecidableEq

def Input.new (source : List UInt8) : Input where
  bytes := source
  offset := 0
  startingPosition := 0

def Input.currentPosition (input : Input) : ℕ := min (input.startingPosition+input.offset % 2 ^ 32) (2 ^ 32-1)

def Input.readRemaining (input : Input) : List UInt8 := input.bytes.drop input.offset

def Input.skip (input : Input) (count : ℕ) : Input :=
  { input with offset := min (input.offset+count) input.bytes.length }

/-- How far it is to the end of the line, the newline included. -/
def throughNewline (bytes : List UInt8) : ℕ := (bytes.findIdx? (· == 0x0a)).elim bytes.length (· + 1)

inductive SyntaxError
  | unrecognizedByte (byte : UInt8) (position : ℕ)
  | unclosedStringLiteral (position : ℕ)
  | unclosedBlockComment (position : ℕ)
  | leadingZeroInIntegerLiteral (position : ℕ)
  | malformedNumericLiteral (position : ℕ)
  deriving DecidableEq

/-! ### Tokens of code -/

def simpleToken (byte : UInt8) : Option TokenKind :=
  ([(0x28,.leftParenthesis),(0x29,.rightParenthesis),(0x5b,.leftBracket),(0x5d,.rightBracket),
    (leftBrace,.leftBrace),(rightBrace,.rightBrace),(0x2c,.comma),(0x3b,.semicolon),(0x7e,.tilde),
    (0x40,.at_)] : List (UInt8 × TokenKind)).lookup byte

/-- The operators that are tried before comments and literals. -/
def firstOperators : List (List UInt8 × TokenKind) :=
  [(text "**=",.asteriskAsteriskEqual),(text "<<=",.leftShiftEqual),(text ">>=",.rightShiftEqual),
    (text "<=>",.lessThanEqualGreaterThan),(text "&&=",.ampersandAmpersandEqual),(text "||=",.pipePipeEqual),
    (text "??=",.questionQuestionEqual),(text "?->",.questionMinusGreaterThan),(text "::<",.colonColonLessThan),
    (text "...",.dotDotDot),(text "..=",.dotDotEqual)]

def lastOperators : List (List UInt8 × TokenKind) :=
  [(text "==",.equalEqual),(text "=>",.equalGreaterThan),(text "!=",.bangEqual),(text "&&",.ampersandAmpersand),
    (text "&=",.ampersandEqual),(text "||",.pipePipe),(text "|=",.pipeEqual),(text "|>",.pipeGreaterThan),
    (text "^=",.caretEqual),(text "++",.plusPlus),(text "+=",.plusEqual),(text "--",.minusMinus),
    (text "-=",.minusEqual),(text "->",.minusGreaterThan),(text "**",.asteriskAsterisk),
    (text "*=",.asteriskEqual),(text "/=",.slashEqual),(text "%=",.percentEqual),(text ".=",.dotEqual),
    (text "??",.questionQuestion),(text "<<",.leftShift),(text "<=",.lessThanEqual),(text ">>",.rightShift),
    (text ">=",.greaterThanEqual),(text "::",.colonColon),(text "#\x7b",.hashLeftBrace),
    (text "#[",.hashLeftBracket),(text "#![",.hashBangLeftBracket),(text "..",.dotDot),(text "=",.equal),
    (text "!",.bang),(text "&",.ampersand),(text "|",.pipe),(text "^",.caret),(text "+",.plus),
    (text "-",.minus),(text "*",.asterisk),(text "/",.slash),(text "%",.percent),(text ".",.dot),
    (text "<",.lessThan),(text ">",.greaterThan),(text ":",.colon),(text "?",.question),(text "$",.dollar)]

/-- The first operator of the table with which the bytes start. -/
def findOperator (table : List (List UInt8 × TokenKind)) (bytes : List UInt8) : Option (List UInt8 × TokenKind) :=
  table.find? (·.1.isPrefixOf bytes)

/-- What the bytes of code start with: a token and its length, a string that has to be lexed in parts, or an error
and how much it skips. -/
inductive Scanned
  | token (kind : TokenKind) (length : ℕ)
  | interpolated
  | failed (error : SyntaxError) (skipped : ℕ)
  deriving DecidableEq

def scanBlockComment (start : ℕ) (bytes : List UInt8) : Scanned :=
  match find [asterisk,slash] (bytes.drop 2) with
  | some found =>
    let length := 2+found+2
    .token (if 4 < length ∧ (bytes.drop 2).head? = some asterisk then .docBlockComment else .multiLineComment) length
  | none => .failed (.unclosedBlockComment start) bytes.length

def scanStringLiteral (start : ℕ) (quote : UInt8) (rest : List UInt8) : Scanned :=
  match scan quote rest with
  | some length =>
    if quote = doubleQuote ∧ needsInterpolation ((quote::rest).take length) then .interpolated
    else .token .literalString length
  | none => .failed (.unclosedStringLiteral start) (rest.length+1)

/-- Whether an integer of the kind and length has a zero before its other digits. -/
def integerWithLeadingZero (kind : TokenKind) (length : ℕ) (bytes : List UInt8) : Bool :=
  (kind == .literalInteger && 1 < length ||
      (kind == .literalUnsignedInteger || kind == .literalSignedInteger) && 2 < length) &&
    bytes.head? == some 0x30 && startsWith (fun b => isDigit b || b == underscore) (bytes.drop 1)

/-- Whether the bytes start with a zero and the letter of a base. -/
def startsBased (bytes : List UInt8) : Bool :=
  bytes.head? == some 0x30 && startsWith [0x58,0x78,0x4f,0x6f,0x42,0x62].contains (bytes.drop 1)

def scanNumericLiteral (start : ℕ) (bytes : List UInt8) : Scanned :=
  if startsBased bytes &&
      !(startOfHexadecimalNumber bytes || startOfOctalNumber bytes || startOfBinaryNumber bytes) then
    .failed (.malformedNumericLiteral start) 2
  else
    let number := scanNumber bytes
    if integerWithLeadingZero number.1 number.2 bytes then
      .failed (.leadingZeroInIntegerLiteral start) number.2
    else .token number.1 number.2

/-- Comments, literals and the shorter operators. -/
def scanRemainder (start : ℕ) (first : UInt8) (rest : List UInt8) : Scanned :=
  let bytes := first::rest
  if first = slash ∧ rest.head? = some slash then
    .token .singleLineComment (bytes.takeWhile isWithinLine).length
  else if first = slash ∧ rest.head? = some asterisk then scanBlockComment start bytes
  else if first = singleQuote ∨ first = doubleQuote then scanStringLiteral start first rest
  else if isDigit first then scanNumericLiteral start bytes
  else if first = dot ∧ startsWith isDigit rest then .token .literalFloat (scanLeadingDotFloat bytes)
  else if first = backslash then
    if startsWith isIdentifierStart rest then
      .token .fullyQualifiedIdentifier
        (1+scanIdentifier rest+scanQualifiedTail rest.length (rest.drop (scanIdentifier rest)))
    else .token .namespaceSeparator 1
  else match findOperator lastOperators bytes with
    | some operator => .token operator.2 operator.1.length
    | none => .failed (.unrecognizedByte first start) 1

def scanToken (start : ℕ) (first : UInt8) (rest : List UInt8) : Scanned :=
  let bytes := first::rest
  if isWhitespace first then .token .whitespace (bytes.takeWhile isWhitespace).length
  else match simpleToken first with
  | some kind => .token kind 1
  | none =>
    if isIdentifierStart first then
      .token (scanIdentifierOrKeyword bytes).1 (scanIdentifierOrKeyword bytes).2
    else if first = dollar ∧ startsWith isIdentifierStart rest then
      .token .variable_ (1+scanIdentifier rest)
    else match findOperator firstOperators bytes with
    | some operator => .token operator.2 operator.1.length
    | none => scanRemainder start first rest

/-! ### Modes -/

inductive Mode
  | code
  | string (opening : Bool)
  | variableInterpolation
  | bracedInterpolationStart (closing : ℕ)
  | bracedInterpolation (closing : ℕ)
  deriving DecidableEq

end Lexer

structure Lexer where
  input : Lexer.Input
  mode : Lexer.Mode
  modes : List Lexer.Mode
  deriving DecidableEq

namespace Lexer

def new (input : Input) : Lexer where
  input := input
  mode := .code
  modes := []

/-- Where the text of a string part ends and what stands there. -/
inductive PartEnd
  | variable_ (bytes : List UInt8)
  | interpolation (bytes after : List UInt8)
  | quote (after : List UInt8)
  | unclosed | endOfSource
  deriving DecidableEq

def scanPart : ℕ → List UInt8 → PartEnd
  | 0, _ => .endOfSource
  | _+1, [] => .endOfSource
  | fuel+1, byte::rest =>
    if byte = backslash then scanPart fuel ((byte::rest).drop (doubleQuotedEscapeLength (byte::rest)))
    else if byte = dollar ∧ startsWith isIdentifierStart rest then .variable_ (byte::rest)
    else if byte = leftBrace then
      (interpolationEnd 1 rest).elim .unclosed fun after => .interpolation (byte::rest) after
    else if byte = doubleQuote then .quote rest
    else scanPart fuel rest

abbrev Step := Except SyntaxError Token × Lexer

/-- A token of the next `length` bytes, after which the lexer is in the given mode. -/
def emit (lexer : Lexer) (kind : TokenKind) (length : ℕ) (mode : Mode) (modes : List Mode) : Step :=
  (.ok ⟨kind,lexer.input.readRemaining.take length,lexer.input.currentPosition⟩,
    { input := lexer.input.skip length, mode := mode, modes := modes })

def fail (lexer : Lexer) (error : SyntaxError) (skipped : ℕ) : Step :=
  (.error error,{ lexer with input := lexer.input.skip skipped })

def advanceString (lexer : Lexer) (opening : Bool) : Step :=
  let remaining := lexer.input.readRemaining
  let length := fun stop : List UInt8 => remaining.length-stop.length
  match scanPart (remaining.length+1) (remaining.drop opening.toNat) with
  | .variable_ stop => lexer.emit .stringPart (length stop) .variableInterpolation lexer.modes
  | .interpolation stop after =>
    lexer.emit .stringPart (length stop)
      (.bracedInterpolationStart (lexer.input.offset+length after-1)) lexer.modes
  | .quote after => lexer.emit .stringPart (length after) (lexer.modes.head?.getD .code) lexer.modes.tail
  | .unclosed => lexer.fail (.unclosedStringLiteral lexer.input.currentPosition) remaining.length
  | .endOfSource => lexer.emit .stringPart remaining.length lexer.mode lexer.modes

def advanceInterpolatedVariable (lexer : Lexer) : Step :=
  lexer.emit .variable_ (1+scanIdentifier (lexer.input.readRemaining.drop 1)) (.string false) lexer.modes

def advanceInterpolationStart (lexer : Lexer) (closing : ℕ) : Step :=
  lexer.emit .leftBrace 1 (.bracedInterpolation closing) lexer.modes

def advanceInterpolationEnd (lexer : Lexer) : Step := lexer.emit .rightBrace 1 (.string false) lexer.modes

/-- A token of code. -/
def advanceCode (lexer : Lexer) : Option Step :=
  let start := lexer.input.currentPosition
  match lexer.input.readRemaining with
  | [] => none
  | first::rest =>
    if start = 0 ∧ [0x23,0x21,slash].isPrefixOf (first::rest) then
      some (lexer.emit .shebang (throughNewline (first::rest)) lexer.mode lexer.modes)
    else match scanToken start first rest with
    | .token kind length => some (lexer.emit kind length lexer.mode lexer.modes)
    | .interpolated =>
      some ({ lexer with mode := .string true, modes := lexer.mode::lexer.modes }.advanceString true)
    | .failed error skipped => some (lexer.fail error skipped)

/-- One call: the next token or error, nothing at the end of the input. -/
def advance (lexer : Lexer) : Option Step :=
  match lexer.mode with
  | .string opening => some (lexer.advanceString opening)
  | .variableInterpolation => some lexer.advanceInterpolatedVariable
  | .bracedInterpolationStart closing => some (lexer.advanceInterpolationStart closing)
  | .bracedInterpolation closing =>
    if lexer.input.offset = closing then some lexer.advanceInterpolationEnd else lexer.advanceCode
  | .code => lexer.advanceCode

/-- What repeated calls have returned when they are over. -/
structure Lexed where
  tokens : List Token
  error : Option SyntaxError
  lexer : Lexer
  deriving DecidableEq

/-- Calls `advance` until it returns nothing or an error; nothing when `calls` calls are not enough. -/
def lexAll : ℕ → Lexer → Option Lexed
  | 0, _ => none
  | calls+1, lexer =>
    match lexer.advance with
    | none => some ⟨[],none,lexer⟩
    | some (.error error,failed) => some ⟨[],some error,failed⟩
    | some (.ok token,next) => (lexAll calls next).map fun l => { l with tokens := token::l.tokens }

end Lexer
end Whim
