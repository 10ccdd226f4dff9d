import Mathlib.Algebra.Order.Ring.Nat

/-!
# Tokens and precedence levels

The kinds of tokens, the levels of operators from the loosest to the tightest, and their associativity.
-/

namespace Whim

inductive TokenKind
  | whitespace | singleLineComment | multiLineComment | docBlockComment | shebang | variable_ | identifier
  | qualifiedIdentifier | fullyQualifiedIdentifier | literalInteger | literalSignedInteger
  | literalUnsignedInteger | literalFloat | literalString | stringPart | true_ | false_ | null | leftParenthesis
  | rightParenthesis | leftBracket | rightBracket | leftBrace | rightBrace | comma | semicolon | colon
  | equalGreaterThan | dotDot | dotDotEqual | dotDotDot | hashLeftBrace | hashLeftBracket | hashBangLeftBracket
  | namespaceSeparator | dollar | at_ | question | equal | plusEqual | minusEqual | asteriskEqual | slashEqual
  | percentEqual | asteriskAsteriskEqual | dotEqual | ampersandEqual | pipeEqual | caretEqual | leftShiftEqual
  | rightShiftEqual | questionQuestionEqual | ampersandAmpersandEqual | pipePipeEqual | equalEqual | bangEqual
  | lessThan | lessThanEqual | greaterThan | greaterThanEqual | lessThanEqualGreaterThan | ampersandAmpersand
  | pipePipe | pipeGreaterThan | bang | questionQuestion | ampersand | pipe | caret | tilde | leftShift
  | rightShift | plus | minus | asterisk | slash | percent | asteriskAsterisk | dot | plusPlus | minusMinus
  | minusGreaterThan | questionMinusGreaterThan | colonColon | colonColonLessThan | abstract | array | as_
  | bool | break_ | case | catch_ | class_ | classname | const | continue_ | default | dict | do_ | else_
  | enum | extends_ | final | finally_ | float | fn | for_ | foreach | function | if_ | implements | in_ | int
  | uint | fresh | interface | is | match_ | mixed | namespace_ | never | new | newtype | object | out | parent
  | private_ | protected_ | public_ | readonly | return_ | self_ | static | string | throw | try_ | type_ | use
  | using_ | vec | void | where_ | while
  deriving DecidableEq

/-- A token with its text and the offset at which it starts. -/
structure Token where
  kind : TokenKind
  value : List UInt8
  start : ℕ
  deriving DecidableEq

inductive Associativity
  | nonAssociative | left | right
  deriving DecidableEq

/-- The levels of operators, from the loosest to the tightest. -/
inductive Precedence
  | lowest | assignment | conditional | coalesce | or | and | comparison | typeOperation | pipe | concat | bitwiseOr
  | bitwiseXor | bitwiseAnd | shift | additive | multiplicative | unary | exponent | postfix_ | highest
  deriving DecidableEq

namespace Precedence

/-- The place of a level in the order. -/
def rank : Precedence → ℕ
  | lowest => 0
  | assignment => 1
  | conditional => 2
  | coalesce => 3
  | or => 4
  | and => 5
  | comparison => 6
  | typeOperation => 7
  | pipe => 8
  | concat => 9
  | bitwiseOr => 10
  | bitwiseXor => 11
  | bitwiseAnd => 12
  | shift => 13
  | additive => 14
  | multiplicative => 15
  | unary => 16
  | exponent => 17
  | postfix_ => 18
  | highest => 19

theorem rank_injective {p q : Precedence} (h : p.rank = q.rank) : p = q := by
  cases p <;> cases q <;> first | rfl | cases h

def associativity : Precedence → Option Associativity
  | or | and | pipe | concat | bitwiseOr | bitwiseXor | bitwiseAnd | shift | additive | multiplicative | postfix_ =>
    some .left
  | assignment | conditional | coalesce | unary | exponent => some .right
  | comparison | typeOperation => some .nonAssociative
  | lowest | highest => none

def isNonAssociative (p : Precedence) : Bool := p.associativity == some .nonAssociative

end Precedence

namespace TokenKind

open Precedence

/-- The level of a token between two operands, the lowest if it does not stand there. -/
def infixLevel : TokenKind → Precedence
  | equal | plusEqual | minusEqual | asteriskEqual | slashEqual | percentEqual | asteriskAsteriskEqual | dotEqual
  | ampersandEqual | pipeEqual | caretEqual | leftShiftEqual | rightShiftEqual | questionQuestionEqual
  | ampersandAmpersandEqual | pipePipeEqual => assignment
  | questionQuestion => coalesce
  | question => conditional
  | pipePipe => Precedence.or
  | ampersandAmpersand => Precedence.and
  | equalEqual | bangEqual | lessThan | lessThanEqual | greaterThan | greaterThanEqual | lessThanEqualGreaterThan =>
    comparison
  | is | as_ => typeOperation
  | pipeGreaterThan => Precedence.pipe
  | dot => concat
  | pipe => bitwiseOr
  | caret => bitwiseXor
  | ampersand => bitwiseAnd
  | leftShift | rightShift => shift
  | plus | minus => additive
  | asterisk | slash | percent => multiplicative
  | asteriskAsterisk => exponent
  | _ => lowest

def prefixLevel : TokenKind → Precedence
  | bang | tilde | plus | minus | plusPlus | minusMinus => unary
  | _ => lowest

def postfixLevel : TokenKind → Precedence
  | plusPlus | minusMinus | leftParenthesis | leftBracket | minusGreaterThan | questionMinusGreaterThan | colonColon
  | colonColonLessThan => postfix_
  | _ => lowest

def isUnaryPrefix (kind : TokenKind) : Bool := kind.prefixLevel != lowest

def isPostfix (kind : TokenKind) : Bool := kind.postfixLevel != lowest

def isAssignment (kind : TokenKind) : Bool := kind.infixLevel == assignment

/-- `is_constant_name`: a plain identifier, or a keyword that is only reserved where it is expected. -/
def isConstantName : TokenKind → Bool
  | identifier => true
  | abstract | array | bool | case | class_ | classname | const | default | dict | enum | extends_ | final
  | float | implements | in_ | int | uint | interface | mixed | namespace_ | never | newtype | object | out
  | private_ | protected_ | public_ | readonly | string | type_ | use | vec | void | where_ =>
    true
  | _ => false

/-- `is_function_name` -/
def isFunctionName : TokenKind → Bool
  | as_ | is => true
  | kind => kind.isConstantName

end TokenKind
end Whim
