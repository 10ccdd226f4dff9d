import Mathlib.Data.List.TakeWhile
import Whim.TokenKind

/-!
# Scanning source bytes

The byte scanners of the lexer. Each reads the rest of the source and answers with a length, or with what is left.
-/

namespace Whim.Lexer

open List Option

def text (characters : String) : List UInt8 := characters.toList.map fun c => UInt8.ofNat c.toNat

abbrev doubleQuote : UInt8 := 0x22
abbrev dollar : UInt8 := 0x24
abbrev singleQuote : UInt8 := 0x27
abbrev asterisk : UInt8 := 0x2a
abbrev dot : UInt8 := 0x2e
abbrev slash : UInt8 := 0x2f
abbrev backslash : UInt8 := 0x5c
abbrev underscore : UInt8 := 0x5f
abbrev leftBrace : UInt8 := 0x7b
abbrev rightBrace : UInt8 := 0x7d

def isLetter (byte : UInt8) : Bool := (0x61 ≤ byte && byte ≤ 0x7a) || (0x41 ≤ byte && byte ≤ 0x5a)

def isDigit (byte : UInt8) : Bool := 0x30 ≤ byte && byte ≤ 0x39

def isIdentifierStart (byte : UInt8) : Bool := isLetter byte || byte == underscore || 0x80 ≤ byte

def isIdentifierPart (byte : UInt8) : Bool := isLetter byte || isDigit byte || byte == underscore || 0x80 ≤ byte

def isWhitespace (byte : UInt8) : Bool := [0x20,0x09,0x0a,0x0d,0x0c,0x0b].contains byte

def isWithinLine (byte : UInt8) : Bool := !(byte == 0x0a || byte == 0x0d)

/-- Whether there is a next byte and it passes the test. -/
def startsWith (test : UInt8 → Bool) (bytes : List UInt8) : Bool := bytes.head?.any test

/-- The position of the first occurrence of `needle`. -/
def find (needle : List UInt8) : List UInt8 → Option ℕ
  | [] => if needle = [] then some 0 else none
  | byte::rest => if needle.isPrefixOf (byte::rest) then some 0 else (find needle rest).map (· + 1)

/-! ### Strings -/

/-- The length of the escape that starts `bytes`. A Unicode escape owns everything up to its closing brace, wherever
in the source that is. -/
def doubleQuotedEscapeLength (bytes : List UInt8) : ℕ :=
  if [backslash,0x75,leftBrace].isPrefixOf bytes then
    ((bytes.drop 3).findIdx? (· == rightBrace)).elim 3 (· + 4)
  else min bytes.length 2

mutual

/-- What follows the closing quote of a string whose text continues with the bytes. -/
def scanFrom (quote : UInt8) : ℕ → List UInt8 → Option (List UInt8)
  | 0, _ => none
  | _+1, [] => none
  | fuel+1, byte::rest =>
    if byte = backslash then
      if quote = doubleQuote then
        scanFrom quote fuel ((byte::rest).drop (doubleQuotedEscapeLength (byte::rest)))
      else scanFrom quote fuel (rest.drop 1)
    else if byte = quote then some rest
    else if byte = leftBrace ∧ quote = doubleQuote then
      (scanInterpolationFrom 1 fuel rest).bind (scanFrom quote fuel)
    else scanFrom quote fuel rest

/-- What follows the brace that closes an interpolation of which `braces` braces are open. -/
def scanInterpolationFrom (braces : ℕ) : ℕ → List UInt8 → Option (List UInt8)
  | 0, _ => none
  | _+1, [] => none
  | fuel+1, byte::rest =>
    if byte = singleQuote ∨ byte = doubleQuote then
      (scanFrom byte fuel rest).bind (scanInterpolationFrom braces fuel)
    else if byte = slash ∧ rest.head? = some slash then
      scanInterpolationFrom braces fuel ((rest.drop 1).dropWhile isWithinLine)
    else if byte = slash ∧ rest.head? = some asterisk then
      (find [asterisk,slash] (rest.drop 1)).bind fun close =>
        scanInterpolationFrom braces fuel (rest.drop (close+3))
    else if byte = leftBrace then scanInterpolationFrom (braces+1) fuel rest
    else if byte = rightBrace then
      if braces-1 = 0 then some rest else scanInterpolationFrom (braces-1) fuel rest
    else scanInterpolationFrom braces fuel rest

end

/-- What follows the string, from the byte after its opening quote. Every round of the scanners takes a byte. -/
def stringEnd (quote : UInt8) (bytes : List UInt8) : Option (List UInt8) := scanFrom quote (bytes.length+1) bytes

def interpolationEnd (braces : ℕ) (bytes : List UInt8) : Option (List UInt8) :=
  scanInterpolationFrom braces (bytes.length+1) bytes

/-- The length of the string literal that starts with `quote`. -/
def scan (quote : UInt8) (rest : List UInt8) : Option ℕ :=
  (stringEnd quote rest).map fun after => rest.length+1-after.length

def needsInterpolationFrom : ℕ → List UInt8 → Bool
  | 0, _ => false
  | _+1, [] => false
  | fuel+1, byte::rest =>
    if byte = backslash then
      needsInterpolationFrom fuel ((byte::rest).drop (doubleQuotedEscapeLength (byte::rest)))
    else if byte = leftBrace ∨ byte = rightBrace then true
    else if byte = dollar ∧ startsWith isIdentifierStart rest then true
    else needsInterpolationFrom fuel rest

/-- Whether the complete literal, quotes included, has interpolations. -/
def needsInterpolation (literal : List UInt8) : Bool :=
  needsInterpolationFrom (literal.length+1) (literal.drop 1).dropLast

/-! ### Identifiers -/

/-- The length of the identifier whose first byte starts `bytes`; that byte is not looked at. -/
def scanIdentifier : List UInt8 → ℕ
  | [] => 0
  | _::rest => 1+(rest.takeWhile isIdentifierPart).length

/-- How far the continuations `\segment` of a qualified identifier reach. -/
def scanQualifiedTail : ℕ → List UInt8 → ℕ
  | 0, _ => 0
  | _+1, [] => 0
  | fuel+1, byte::rest =>
    if byte = backslash ∧ startsWith isIdentifierStart rest then
      1+scanIdentifier rest+scanQualifiedTail fuel (rest.drop (scanIdentifier rest))
    else 0

def keywords : List (List UInt8 × TokenKind) :=
  [(text "as",.as_),(text "do",.do_),(text "fn",.fn),(text "if",.if_),(text "in",.in_),(text "is",.is),
    (text "for",.for_),(text "int",.int),(text "new",.new),(text "out",.out),(text "try",.try_),(text "use",.use),
    (text "vec",.vec),(text "bool",.bool),(text "case",.case),(text "dict",.dict),(text "else",.else_),
    (text "enum",.enum),(text "null",.null),(text "self",.self_),(text "true",.true_),(text "type",.type_),
    (text "void",.void),(text "uint",.uint),(text "array",.array),(text "break",.break_),(text "catch",.catch_),
    (text "class",.class_),(text "const",.const),(text "false",.false_),(text "final",.final),
    (text "float",.float),(text "fresh",.fresh),(text "match",.match_),(text "mixed",.mixed),
    (text "never",.never),(text "throw",.throw),(text "using",.using_),(text "where",.where_),
    (text "while",.while),(text "object",.object),(text "parent",.parent),(text "public",.public_),
    (text "return",.return_),(text "static",.static),(text "string",.string),(text "newtype",.newtype),
    (text "default",.default),(text "extends",.extends_),(text "finally",.finally_),(text "foreach",.foreach),
    (text "private",.private_),(text "abstract",.abstract),(text "continue",.continue_),
    (text "function",.function),(text "readonly",.readonly),(text "classname",.classname),
    (text "interface",.interface),(text "namespace",.namespace_),(text "protected",.protected_),
    (text "implements",.implements)]

def lookup (bytes : List UInt8) : Option TokenKind := (keywords.find? (·.1 == bytes)).map (·.2)

def scanIdentifierOrKeyword (bytes : List UInt8) : TokenKind × ℕ :=
  let segment := scanIdentifier bytes
  let length := segment+scanQualifiedTail bytes.length (bytes.drop segment)
  if length = segment then ((lookup (bytes.take segment)).getD .identifier,segment)
  else (.qualifiedIdentifier,length)

/-! ### Numbers -/

def isDigitOfBase (base : ℕ) (byte : UInt8) : Bool :=
  if base = 16 then isDigit byte || (0x61 ≤ byte && byte ≤ 0x66) || (0x41 ≤ byte && byte ≤ 0x46)
  else 0x30 ≤ byte.toNat && byte.toNat < 0x30+base

/-- How many bytes the digits take; an underscore counts between two digits. -/
def digitsLength (test : UInt8 → Bool) : List UInt8 → ℕ
  | [] => 0
  | [byte] => if test byte then 1 else 0
  | byte::next::rest =>
    if test byte then 1+digitsLength test (next::rest)
    else if byte = underscore ∧ test next then 2+digitsLength test rest
    else 0

/-- Where the digits that start at `offset` end. -/
def readDigitsOfBase (bytes : List UInt8) (offset base : ℕ) : ℕ :=
  offset+digitsLength (isDigitOfBase base) (bytes.drop offset)

/-- Whether the bytes start with a zero, one of the two letters, and a byte that passes the test. -/
def startsNumber (lower upper : UInt8) (test : UInt8 → Bool) (bytes : List UInt8) : Bool :=
  bytes.head? == some 0x30 && startsWith (fun b => b == lower || b == upper) (bytes.drop 1) &&
    startsWith test (bytes.drop 2)

def startOfBinaryNumber : List UInt8 → Bool := startsNumber 0x62 0x42 (isDigitOfBase 2)

def startOfOctalNumber : List UInt8 → Bool := startsNumber 0x6f 0x4f (isDigitOfBase 8)

def startOfHexadecimalNumber : List UInt8 → Bool := startsNumber 0x78 0x58 (isDigitOfBase 16)

def numberBase (bytes : List UInt8) : ℕ :=
  if startOfBinaryNumber bytes then 2
  else if startOfOctalNumber bytes then 8
  else if startOfHexadecimalNumber bytes then 16
  else 10

def isExponent (byte : UInt8) : Bool := byte == 0x65 || byte == 0x45

def isSign (byte : UInt8) : Bool := byte == 0x2d || byte == 0x2b

/-- Extends `length` over an exponent, whose marker only counts when digits follow it. -/
def scanExponent (bytes : List UInt8) (length : ℕ) : ℕ :=
  if startsWith isExponent (bytes.drop length) then
    let exponent := if startsWith isSign (bytes.drop (length+1)) then length+2 else length+1
    if startsWith isDigit (bytes.drop exponent) then readDigitsOfBase bytes exponent 10 else length
  else length

/-- Whether a float goes on with the bytes after its integer digits. -/
def isFloatSeparator (bytes : List UInt8) : Bool :=
  bytes.head? == some dot ||
    (startsWith isExponent bytes && (startsWith isDigit (bytes.drop 1) ||
      (startsWith isSign (bytes.drop 1) && startsWith isDigit (bytes.drop 2))))

/-- The kind and the length of an integer whose digits end at `length`, with its suffix. -/
def integerSuffix (bytes : List UInt8) (length : ℕ) : TokenKind × ℕ :=
  if startsWith (fun b => b == 0x75 || b == 0x55) (bytes.drop length) then (.literalUnsignedInteger,length+1)
  else if startsWith (fun b => b == 0x69 || b == 0x49) (bytes.drop length) then (.literalSignedInteger,length+1)
  else (.literalInteger,length)

/-- Where the fraction of a float ends, from where its integer digits end. -/
def scanFraction (bytes : List UInt8) (length : ℕ) : ℕ :=
  if (bytes.drop length).head? = some dot then
    if startsWith isDigit (bytes.drop (length+1)) then readDigitsOfBase bytes (length+1) 10 else length+1
  else length

def scanNumber (bytes : List UInt8) : TokenKind × ℕ :=
  let base := numberBase bytes
  let length := readDigitsOfBase bytes (if base = 10 then 1 else 2) base
  if base ≠ 10 then integerSuffix bytes length
  else if (integerSuffix bytes length).1 ≠ .literalInteger then integerSuffix bytes length
  else if [dot,dot].isPrefixOf (bytes.drop length) then (.literalInteger,length)
  else if isFloatSeparator (bytes.drop length) then
    (.literalFloat,scanExponent bytes (scanFraction bytes length))
  else (.literalInteger,length)

def scanLeadingDotFloat (bytes : List UInt8) : ℕ := scanExponent bytes (readDigitsOfBase bytes 2 10)

/-! ### The rest of the string scanners' contract -/

/-- A proper suffix. -/
def Behind (after bytes : List UInt8) : Prop := after <:+ bytes ∧ after.length < bytes.length

variable {after bytes : List UInt8}

theorem Behind.mono {longer : List UInt8} (h : Behind after bytes) (hsuffix : bytes <:+ longer) : Behind after longer :=
  ⟨h.1.trans hsuffix,h.2.trans_le hsuffix.length_le⟩

variable {rest : List UInt8}

theorem Behind.cons (h : after <:+ rest) (byte : UInt8) : Behind after (byte::rest) :=
  ⟨h.trans (suffix_cons byte rest),by simpa using Nat.lt_succ_of_le h.length_le⟩

theorem drop_to_suffix (h : after <:+ bytes) : bytes.drop (bytes.length-after.length) = after := by
  obtain ⟨i,rfl⟩ := h
  simp

theorem escape_pos (byte : UInt8) (rest : List UInt8) : 0 < doubleQuotedEscapeLength (byte::rest) := by
  unfold doubleQuotedEscapeLength
  split
  · cases ((byte::rest).drop 3).findIdx? (· == rightBrace) <;> simp
  · simp

/-- An escape takes its backslash and some of what follows. -/
theorem escape_drop (byte : UInt8) (rest : List UInt8) : (byte::rest).drop (doubleQuotedEscapeLength (byte::rest)) =
    rest.drop (doubleQuotedEscapeLength (byte::rest)-1) := by
  obtain ⟨n,hn⟩ := Nat.exists_eq_succ_of_ne_zero (escape_pos byte rest).ne'
  rw [hn]
  rfl

theorem escape_suffix (byte : UInt8) (rest : List UInt8) :
    (byte::rest).drop (doubleQuotedEscapeLength (byte::rest)) <:+ rest := by
  rw [escape_drop]
  exact drop_suffix _ _

theorem comment_suffix (rest : List UInt8) : ((rest.drop 1).dropWhile isWithinLine) <:+ rest :=
  (dropWhile_suffix _).trans (drop_suffix _ _)

/-- What a scanner leaves is a proper suffix of what it was given. -/
theorem scans_behind (fuel : ℕ) : (∀ q bytes after, scanFrom q fuel bytes = some after → Behind after bytes) ∧
    ∀ bs bytes after, scanInterpolationFrom bs fuel bytes = some after → Behind after bytes := by
  induction fuel with
  | zero =>
    constructor <;> intro _ bytes after h
    · simp [scanFrom] at h
    · simp [scanInterpolationFrom] at h
  | succ _ ih =>
    obtain ⟨ihString,ihInterpolation⟩ := ih
    constructor
    · intro q bytes after h
      cases bytes with
      | nil => simp [scanFrom] at h
      | cons byte rest =>
        have hr := suffix_cons byte rest
        simp only [scanFrom] at h
        split_ifs at h
        · exact (ihString _ _ _ h).mono ((escape_suffix byte rest).trans hr)
        · exact (ihString _ _ _ h).mono ((drop_suffix 1 rest).trans hr)
        · obtain rfl := some.inj h
          exact Behind.cons (suffix_refl _) byte
        · obtain ⟨middle,hmiddle,hafter⟩ := bind_eq_some_iff.mp h
          exact (ihString _ _ _ hafter).mono ((ihInterpolation _ _ _ hmiddle).1.trans hr)
        · exact (ihString _ _ _ h).mono hr
    · intro bs bytes after h
      cases bytes with
      | nil => simp [scanInterpolationFrom] at h
      | cons byte rest =>
        have hr := suffix_cons byte rest
        simp only [scanInterpolationFrom] at h
        split_ifs at h
        · obtain ⟨middle,hmiddle,hafter⟩ := bind_eq_some_iff.mp h
          exact (ihInterpolation _ _ _ hafter).mono ((ihString _ _ _ hmiddle).1.trans hr)
        · exact (ihInterpolation _ _ _ h).mono ((comment_suffix rest).trans hr)
        · obtain ⟨close,-,hafter⟩ := bind_eq_some_iff.mp h
          exact (ihInterpolation _ _ _ hafter).mono ((drop_suffix _ rest).trans hr)
        · exact (ihInterpolation _ _ _ h).mono hr
        · obtain rfl := some.inj h
          exact Behind.cons (suffix_refl _) byte
        · exact (ihInterpolation _ _ _ h).mono hr
        · exact (ihInterpolation _ _ _ h).mono hr

variable {fuel : ℕ}

theorem length_lt_of_suffix (h : bytes <:+ rest) (hf : rest.length+1 < fuel+1) : bytes.length < fuel :=
  h.length_le.trans_lt (Nat.lt_of_succ_lt_succ hf)

/-- Fuel beyond the number of bytes changes nothing. -/
theorem scans_fuel (fuel : ℕ) : ∀ fuel', (∀ q bytes, bytes.length < fuel → bytes.length < fuel' →
      scanFrom q fuel bytes = scanFrom q fuel' bytes) ∧ ∀ bs bytes, bytes.length < fuel → bytes.length < fuel' →
      scanInterpolationFrom bs fuel bytes = scanInterpolationFrom bs fuel' bytes := by
  induction fuel with
  | zero =>
    intro fuel'
    constructor <;> intro _ bytes h _
    all_goals exact absurd h (Nat.not_lt_zero _)
  | succ fuel ih =>
    intro fuel'
    cases fuel' with
    | zero =>
      constructor <;> intro _ bytes _ h
      all_goals exact absurd h (Nat.not_lt_zero _)
    | succ fuel' =>
      obtain ⟨ihString,ihInterpolation⟩ := ih fuel'
      constructor
      · intro q bytes h h'
        cases bytes with
        | nil => rfl
        | cons byte rest =>
          have hsame : ∀ {bytes : List UInt8},bytes <:+ rest →
              scanFrom q fuel bytes = scanFrom q fuel' bytes :=
            fun hs => ihString _ _ (length_lt_of_suffix hs h) (length_lt_of_suffix hs h')
          simp only [scanFrom]
          split_ifs
          · exact hsame (escape_suffix byte rest)
          · exact hsame (drop_suffix 1 rest)
          · rfl
          · rw [ihInterpolation _ _ (Nat.lt_of_succ_lt_succ h) (Nat.lt_of_succ_lt_succ h')]
            exact bind_congr fun middle hmiddle => hsame ((scans_behind fuel').2 _ _ _ hmiddle).1
          · exact hsame (suffix_refl _)
      · intro bs bytes h h'
        cases bytes with
        | nil => rfl
        | cons _ rest =>
          have hsame : ∀ bs {bytes : List UInt8},bytes <:+ rest →
              scanInterpolationFrom bs fuel bytes = scanInterpolationFrom bs fuel' bytes :=
            fun bs _ hs => ihInterpolation _ _ (length_lt_of_suffix hs h) (length_lt_of_suffix hs h')
          simp only [scanInterpolationFrom]
          split_ifs
          · rw [ihString _ _ (Nat.lt_of_succ_lt_succ h) (Nat.lt_of_succ_lt_succ h')]
            exact bind_congr fun middle hmiddle => hsame _ ((scans_behind fuel').1 _ _ _ hmiddle).1
          · exact hsame _ (comment_suffix rest)
          · exact bind_congr fun close _ => hsame _ (drop_suffix _ rest)
          · exact hsame _ (suffix_refl _)
          · rfl
          · exact hsame _ (suffix_refl _)
          · exact hsame _ (suffix_refl _)

theorem stringEnd_behind {q : UInt8} (h : stringEnd q bytes = some after) : Behind after bytes :=
  (scans_behind _).1 _ _ _ h

theorem interpolationEnd_behind {bs : ℕ} (h : interpolationEnd bs bytes = some after) : Behind after bytes :=
  (scans_behind _).2 _ _ _ h

theorem scanFrom_eq {q : UInt8} (h : bytes.length < fuel) : scanFrom q fuel bytes = stringEnd q bytes :=
  (scans_fuel fuel _).1 _ _ h (Nat.lt_succ_self _)

theorem scanInterpolationFrom_eq {bs : ℕ} (h : bytes.length < fuel) :
    scanInterpolationFrom bs fuel bytes = interpolationEnd bs bytes :=
  (scans_fuel fuel _).2 _ _ h (Nat.lt_succ_self _)

theorem length_lt_succ_of_suffix (h : bytes <:+ rest) : bytes.length < rest.length+1 := Nat.lt_succ_of_le h.length_le

/-- One round of the scan of a double-quoted string. -/
theorem stringEnd_cons (byte : UInt8) (rest : List UInt8) : stringEnd doubleQuote (byte::rest) =
    if byte = backslash then stringEnd doubleQuote ((byte::rest).drop (doubleQuotedEscapeLength (byte::rest)))
    else if byte = doubleQuote then some rest
    else if byte = leftBrace then (interpolationEnd 1 rest).bind (stringEnd doubleQuote)
    else stringEnd doubleQuote rest := by
  have hsame : ∀ {bytes : List UInt8},bytes <:+ rest →
      scanFrom doubleQuote (rest.length+1) bytes = stringEnd doubleQuote bytes :=
    fun hs => scanFrom_eq (length_lt_succ_of_suffix hs)
  rw [stringEnd,length_cons]
  simp only [scanFrom,if_true,and_true]
  rw [hsame (escape_suffix byte rest),hsame (suffix_refl _)]
  split_ifs
  · rfl
  · rfl
  · exact bind_congr fun middle hmiddle => hsame (interpolationEnd_behind hmiddle).1
  · rfl

/-- One round of the scan of an interpolation. -/
theorem interpolationEnd_cons (bs : ℕ) (byte : UInt8) (rest : List UInt8) : interpolationEnd bs (byte::rest) =
    if byte = singleQuote ∨ byte = doubleQuote then (stringEnd byte rest).bind (interpolationEnd bs)
    else if byte = slash ∧ rest.head? = some slash then
      interpolationEnd bs ((rest.drop 1).dropWhile isWithinLine)
    else if byte = slash ∧ rest.head? = some asterisk then
      (find [asterisk,slash] (rest.drop 1)).bind fun close => interpolationEnd bs (rest.drop (close+3))
    else if byte = leftBrace then interpolationEnd (bs+1) rest else if byte = rightBrace then
      if bs-1 = 0 then some rest else interpolationEnd (bs-1) rest else interpolationEnd bs rest := by
  have hsame : ∀ bs {bytes : List UInt8},bytes <:+ rest →
      scanInterpolationFrom bs (rest.length+1) bytes = interpolationEnd bs bytes :=
    fun bs _ hs => scanInterpolationFrom_eq (length_lt_succ_of_suffix hs)
  rw [interpolationEnd,length_cons]
  simp only [scanInterpolationFrom]
  split_ifs
  · exact bind_congr fun middle hmiddle => hsame _ ((scans_behind _).1 _ _ _ hmiddle).1
  · exact hsame _ (comment_suffix rest)
  · exact bind_congr fun close _ => hsame _ (drop_suffix _ rest)
  · exact hsame _ (suffix_refl _)
  · rfl
  · exact hsame _ (suffix_refl _)
  · exact hsame _ (suffix_refl _)

end Whim.Lexer
