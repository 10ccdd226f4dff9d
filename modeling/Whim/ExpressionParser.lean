import Whim.TokenKind

/-!
# The expression parser

`parse_expression_bp` parses a first operand and then attaches operators to it, as long as they bind tightly enough.
The parts of the grammar that do not touch precedence are functions it is given.
-/

namespace Whim.ExpressionParser

open TokenKind

inductive Expected
  | description (text : String)
  | kind (kind : TokenKind)
  deriving DecidableEq

inductive ParseError
  | unexpectedToken (expected : Expected) (found : Token)
  | unexpectedEnd (expected : Expected)
  | recursionLimitExceeded (found : Option Token)
  | invalidAssignmentTarget | unreachable | outOfFuel
  | other (code : ℕ)
  deriving DecidableEq

inductive BinaryOperator
  | addition | subtraction | multiplication | division | modulo | exponentiation | bitwiseAnd | bitwiseOr | bitwiseXor
  | leftShift | rightShift | nullCoalesce | equal | notEqual | lessThan | lessThanOrEqual | greaterThan
  | greaterThanOrEqual | spaceship | pipe | stringConcat | and | or
  deriving DecidableEq

namespace BinaryOperator

def precedence : BinaryOperator → Precedence
  | exponentiation => .exponent
  | multiplication | division | modulo => .multiplicative
  | addition | subtraction => .additive
  | leftShift | rightShift => .shift
  | bitwiseAnd => .bitwiseAnd
  | bitwiseXor => .bitwiseXor
  | bitwiseOr => .bitwiseOr
  | stringConcat => .concat
  | equal | notEqual | lessThan | lessThanOrEqual | greaterThan | greaterThanOrEqual | spaceship => .comparison
  | pipe => .pipe
  | and => .and
  | or => .or
  | nullCoalesce => .coalesce

end BinaryOperator

/-- `binary_operator`, which is only called for these kinds. -/
def binaryOperator : TokenKind → Option BinaryOperator
  | plus => some .addition
  | minus => some .subtraction
  | asterisk => some .multiplication
  | slash => some .division
  | percent => some .modulo
  | asteriskAsterisk => some .exponentiation
  | ampersand => some .bitwiseAnd
  | pipe => some .bitwiseOr
  | caret => some .bitwiseXor
  | leftShift => some .leftShift
  | rightShift => some .rightShift
  | questionQuestion => some .nullCoalesce
  | equalEqual => some .equal
  | bangEqual => some .notEqual
  | lessThan => some .lessThan
  | lessThanEqual => some .lessThanOrEqual
  | greaterThan => some .greaterThan
  | greaterThanEqual => some .greaterThanOrEqual
  | lessThanEqualGreaterThan => some .spaceship
  | pipeGreaterThan => some .pipe
  | dot => some .stringConcat
  | ampersandAmpersand => some .and
  | pipePipe => some .or
  | _ => none

/-- What can be assigned to: a variable, or one of the other expressions. -/
inductive AssignmentTarget (X : Type)
  | variable_ (token : Token)
  | other (target : X)

/-- Expressions with their tokens, over other expressions `X` and types `T`. -/
inductive Expression (X T : Type)
  | literal (token : Token)
  | variable_ (token : Token)
  | constant (name : Token)
  | parenthesized (leftParenthesis : Token) (expression : Expression X T) (rightParenthesis : Token)
  | unaryPrefix (operator : Token) (operand : Expression X T)
  | binary (lhs : Expression X T) (operator : BinaryOperator) (token : Token) (rhs : Expression X T)
  | assignment (target : AssignmentTarget X) (operator : Token) (value : Expression X T)
  | conditional (condition : Expression X T) (question : Token) (then_ : Expression X T) (colon : Token)
      (otherwise : Expression X T)
  | typeOperation (operand : Expression X T) (operator : List Token) (type : T)
  | other (expression : X)

/-- What a parser returns, with the tokens after it. -/
abbrev Parse := Except ParseError

/-- The parts of the grammar that do not touch precedence. Each is given how many nested calls are left. -/
structure Others (X T : Type) where
  literalOf : Token → Parse Unit
  primary : ℕ → Bool → List Token → Parse (Expression X T × List Token)
  finishTuple : ℕ → Token → Expression X T → List Token → Parse (Expression X T × List Token)
  parsePostfix : ℕ → Bool → Expression X T → List Token → Parse (Expression X T × List Token)
  parseType : ℕ → List Token → Parse (T × List Token)
  target : X → Parse (AssignmentTarget X)

def kindAt (tokens : List Token) (index : ℕ) : Option TokenKind := tokens[index]?.map (·.kind)

def expect (kind : TokenKind) : List Token → Parse (Token × List Token)
  | token::rest => if token.kind = kind then .ok (token,rest) else .error (.unexpectedToken (.kind kind) token)
  | [] => .error (.unexpectedEnd (.kind kind))

/-- The level of the operator at the start: `?` is a type operator before `as`. -/
def operatorPrecedence : List Token → Precedence
  | [] => .lowest
  | token::rest =>
    if token.kind = question ∧ kindAt rest 0 = some as_ then .typeOperation else token.kind.infixLevel

/-- Whether an operator attaches to the operand on its left in a call with the given minimum. -/
def attaches (operator min : Precedence) : Bool :=
  match operator.associativity with
  | some .right => min.rank ≤ operator.rank
  | _ => min.rank < operator.rank

section

variable {X T : Type} (others : Others X T)

def topPrecedence : Expression X T → Precedence
  | .binary _ operator _ _ => operator.precedence
  | .typeOperation _ _ _ => .typeOperation
  | _ => .lowest

/-- `expression_to_assignment_target` -/
def assignmentTarget : Expression X T → Parse (AssignmentTarget X)
  | .variable_ token => .ok (.variable_ token)
  | .parenthesized _ expression _ => assignmentTarget expression
  | .other expression => others.target expression
  | _ => .error .invalidAssignmentTarget

/-- The primary expressions that the rest of the grammar parses. -/
def isOtherPrimary (kind : TokenKind) (next : Option TokenKind) : Bool :=
  match kind with
  | stringPart | match_ | fn | hashLeftBracket | new | break_ | continue_ | return_ | TokenKind.throw | self_ | parent
  | static => true
  | vec | dict => next == some leftBracket
  | _ => false

variable (remaining : ℕ)

def finishParenthesizedOrTuple (leftParenthesis : Token) (first : Expression X T) (tokens : List Token) :
    Parse (Expression X T × List Token) :=
  match tokens with
  | [] => others.finishTuple remaining leftParenthesis first []
  | next::after =>
    if next.kind = rightParenthesis then .ok (.parenthesized leftParenthesis first next,after)
    else others.finishTuple remaining leftParenthesis first (next::after)

variable (parse : Bool → Precedence → List Token → Parse (Expression X T × List Token))

/-- `parse_parenthesized_or_tuple_expression`, after its parenthesis. -/
def parseParenthesizedOrTuple (leftParenthesis : Token) (tokens : List Token) : Parse (Expression X T × List Token) :=
  match tokens with
  | [] => parse false .lowest []
  | token::rest =>
    if token.kind = rightParenthesis then
      .error (.unexpectedToken
        (.description "an expression ( `()` is not valid; use a tuple element or `null` )") token)
    else do
      let (first,rest) ← parse false .lowest (token::rest)
      finishParenthesizedOrTuple others remaining leftParenthesis first rest

def parsePrimary (noAs : Bool) (tokens : List Token) : Parse (Expression X T × List Token) :=
  match tokens with
  | [] => .error (.unexpectedEnd (.description "an expression"))
  | token::rest =>
    if (token.kind = identifier ∨ token.kind = fresh) ∧ kindAt rest 0 = some bang ∧
        kindAt rest 1 = some leftParenthesis then others.primary remaining noAs tokens
    else match token.kind with
    | literalString | literalInteger | literalSignedInteger | literalUnsignedInteger | literalFloat | true_ | false_
    | null => do
      others.literalOf token
      .ok (.literal token,rest)
    | TokenKind.variable_ => .ok (.variable_ token,rest)
    | leftParenthesis => parseParenthesizedOrTuple others remaining parse token rest
    | identifier | qualifiedIdentifier | fullyQualifiedIdentifier => .ok (.constant token,rest)
    | kind =>
      if isOtherPrimary kind (kindAt rest 0) then others.primary remaining noAs tokens
      else if kind.isConstantName then .ok (.constant token,rest)
      else if kind.isFunctionName ∧ kindAt rest 0 = some leftParenthesis then .ok (.constant token,rest)
      else .error (.unexpectedToken (.description "an expression") token)

def parsePrefix (noAs : Bool) (tokens : List Token) : Parse (Expression X T × List Token) :=
  match tokens with
  | [] => .error (.unexpectedEnd (.description "an expression"))
  | token::rest =>
    if token.kind.isUnaryPrefix then do
      let (operand,rest) ← parse noAs .unary rest
      .ok (.unaryPrefix token operand,rest)
    else parsePrimary others remaining parse noAs tokens

/-- The infix operators that are neither type operators nor `?`. -/
def parseOperator (noAs : Bool) (left : Expression X T) (operator : Token) (precedence : Precedence)
    (tokens : List Token) : Parse (Expression X T × List Token) :=
  if operator.kind.isAssignment then do
    let target ← assignmentTarget others left
    let (value,rest) ← parse noAs precedence tokens
    .ok (.assignment target operator value,rest)
  else match binaryOperator operator.kind with
  | none => .error .unreachable
  | some binary => do
    let (rhs,rest) ← parse noAs precedence tokens
    .ok (.binary left binary operator rhs,rest)

def parseConditional (noAs : Bool) (condition : Expression X T) (question : Token) (tokens : List Token) :
    Parse (Expression X T × List Token) := do
  let (then_,rest) ← parse noAs .lowest tokens
  let (separator,rest) ← expect colon rest
  let (otherwise,rest) ← parse noAs .assignment rest
  .ok (.conditional condition question then_ separator otherwise,rest)

/-- `parse_infix`, with the operator taken off the tokens. -/
def parseInfix (noAs : Bool) (left : Expression X T) (operator : Token) (precedence : Precedence)
    (tokens : List Token) : Parse (Expression X T × List Token) :=
  match operator.kind with
  | is | as_ => do
    let (type,rest) ← others.parseType remaining tokens
    .ok (.typeOperation left [operator] type,rest)
  | question =>
    if precedence = .typeOperation then do
      let (keyword,rest) ← expect as_ tokens
      let (type,rest) ← others.parseType remaining rest
      .ok (.typeOperation left [operator,keyword] type,rest)
    else parseConditional parse noAs left operator tokens
  | _ => parseOperator others parse noAs left operator precedence tokens

def chainedText (precedence : Precedence) : String :=
  if precedence = .typeOperation then "parentheses around the chained type operation"
  else "parentheses around the chained comparison"

/-- The loop of `parse_expression_bp_inner`. Every round takes a token, so their number is enough fuel. -/
def infixLoop : ℕ → Bool → Precedence → Expression X T → List Token → Parse (Expression X T × List Token)
  | 0, _, _, _, _ => .error .outOfFuel
  | _+1, _, _, left, [] => .ok (left,[])
  | fuel+1, noAs, min, left, token::rest =>
    if token.kind.isPostfix then do
      let (left,rest) ← others.parsePostfix remaining noAs left (token::rest)
      infixLoop fuel noAs min left rest
    else if token.kind = as_ ∧ noAs = true then .ok (left,token::rest)
    else
      let precedence := operatorPrecedence (token::rest)
      if precedence = .lowest ∨ attaches precedence min = false then .ok (left,token::rest)
      else if precedence.isNonAssociative ∧ topPrecedence left = precedence then
        .error (.unexpectedToken (.description (chainedText precedence)) token)
      else do
        let (left,rest) ← parseInfix others remaining parse noAs left token precedence rest
        infixLoop fuel noAs min left rest

def parseExpressionBpInner (noAs : Bool) (min : Precedence) (tokens : List Token) :
    Parse (Expression X T × List Token) := do
  let (left,rest) ← parsePrefix others remaining parse noAs tokens
  infixLoop others remaining parse (rest.length+1) noAs min left rest

end

def maxRecursionDepth : ℕ := 256

/-- `parse_expression_bp` with as many nested calls as the recursion limit still allows, itself included. -/
def parseExpressionBp {X T : Type} (others : Others X T) :
    ℕ → Bool → Precedence → List Token → Parse (Expression X T × List Token)
  | 0 => fun _ _ tokens => .error (.recursionLimitExceeded tokens.head?)
  | remaining+1 => fun noAs min tokens =>
    parseExpressionBpInner others remaining (parseExpressionBp others remaining) noAs min tokens

end Whim.ExpressionParser
