import Whim.Lexer

/-!
# Tokens of code inside an interpolation

A token of code never reaches over the brace that the scan for the end of an interpolation found.
-/

namespace Whim.Lexer

open List

/-! ### Bytes that an interpolation's scan steps over one by one -/

def isStructural (byte : UInt8) : Bool := [singleQuote,doubleQuote,slash,leftBrace,rightBrace].contains byte

/-- The first `n` bytes are neither quotes, slashes nor braces. -/
def Plain (n : ℕ) (bytes : List UInt8) : Prop := ∀ byte ∈ bytes.take n,isStructural byte = false

variable {test : UInt8 → Bool} {byte : UInt8}

abbrev PlainTest (test : UInt8 → Bool) : Prop :=
  [singleQuote,doubleQuote,slash,leftBrace,rightBrace].all (!test ·) = true

theorem not_structural_of (htest : PlainTest test) (h : test byte) : isStructural byte = false := by
  by_contra hstructural
  have hmem := contains_iff_mem.mp (Bool.not_eq_false _ ▸ hstructural)
  have hfalse := all_eq_true.mp htest byte hmem
  rw [h] at hfalse
  cases hfalse

theorem plain_zero (bs : List UInt8) : Plain 0 bs := fun _ h => absurd h (by simp)

variable {n : ℕ} {rest : List UInt8}

theorem plain_cons (h : isStructural byte = false) (hr : Plain n rest) : Plain (n+1) (byte::rest) := by
  intro b hb
  rcases mem_cons.mp hb with rfl | hb
  · exact h
  · exact hr b hb

variable {bs : List UInt8}

theorem Plain.add {m : ℕ} (h : Plain n bs) (hr : Plain m (bs.drop n)) : Plain (n+m) bs := by
  intro byte hb
  rw [take_add] at hb
  rcases mem_append.mp hb with hb | hb
  · exact h byte hb
  · exact hr byte hb

theorem plain_takeWhile (htest : PlainTest test) (bs : List UInt8) : Plain (bs.takeWhile test).length bs := by
  intro byte hb
  rw [← prefix_iff_eq_take.mp (List.takeWhile_prefix test)] at hb
  exact not_structural_of htest (mem_takeWhile_imp hb)

theorem plain_startsWith (htest : PlainTest test) (h : startsWith test bs) : Plain 1 bs := by
  cases bs with
  | nil => cases h
  | cons _ rest => exact plain_cons (not_structural_of htest h) (plain_zero rest)

variable {braces : ℕ}

theorem interpolationEnd_plain (h : isStructural byte = false) :
    interpolationEnd braces (byte::rest) = interpolationEnd braces rest := by
  simp only [isStructural,contains_cons,contains_nil,Bool.or_false,Bool.or_eq_false_iff,
    beq_eq_false_iff_ne] at h
  obtain ⟨hsingle,hdouble,hslash,hl,hr⟩ := h
  rw [interpolationEnd_cons,if_neg (not_or.mpr ⟨hsingle,hdouble⟩),if_neg (fun h => hslash h.1),
    if_neg (fun h => hslash h.1),if_neg hl,if_neg hr]

theorem interpolationEnd_drop (h : Plain n bs) :
    interpolationEnd braces bs = interpolationEnd braces (bs.drop n) := by
  induction n generalizing bs with
  | zero => rfl
  | succ n ih =>
    cases bs with
    | nil => rfl
    | cons byte =>
      rw [interpolationEnd_plain (h byte (by simp)),drop_succ_cons]
      exact ih fun b hb => h b (mem_cons_of_mem byte hb)

/-- The scan of an interpolation that starts before `rest` also visits `rest`, unless it ends there. -/
def Passes (bytes rest : List UInt8) : Prop :=
  ∀ braces after, interpolationEnd braces bytes = some after →
    (∃ inner, interpolationEnd inner rest = some after) ∨ rest = after ∧ bytes.length = after.length+1

theorem Plain.passes (h : Plain n bs) : Passes bs (bs.drop n) :=
  fun braces _ hend => .inl ⟨braces,interpolationEnd_drop h ▸ hend⟩

/-! ### Identifiers and numbers are plain -/

theorem plain_identifier (h : startsWith isIdentifierStart bs) : Plain (scanIdentifier bs) bs := by
  cases bs with
  | nil => cases h
  | cons _ rest =>
    rw [scanIdentifier,Nat.add_comm]
    exact plain_cons (not_structural_of (show PlainTest isIdentifierStart from rfl) h) (plain_takeWhile rfl rest)

theorem plain_qualifiedTail (fuel : ℕ) (bs : List UInt8) : Plain (scanQualifiedTail fuel bs) bs := by
  induction fuel generalizing bs with
  | zero => exact plain_zero bs
  | succ _ ih =>
    cases bs with
    | nil => exact plain_zero []
    | cons =>
      rw [scanQualifiedTail]
      split_ifs with h
      · obtain ⟨rfl,hstart⟩ := h
        rw [Nat.add_assoc,Nat.add_comm]
        exact plain_cons (by decide) ((plain_identifier hstart).add (ih _))
      · exact plain_zero _

theorem plain_digits (htest : ∀ byte, test byte → isStructural byte = false)
    (bs : List UInt8) : Plain (digitsLength test bs) bs := by
  fun_induction digitsLength test bs with
  | case1 => exact plain_zero []
  | case2 byte h => exact plain_cons (htest byte h) (plain_zero [])
  | case3 => exact plain_zero _
  | case4 byte _ _ h ih => exact Nat.add_comm .. ▸ plain_cons (htest byte h) ih
  | case5 _ next _ _ hseparated ih =>
    obtain ⟨rfl,hnext⟩ := hseparated
    exact Nat.add_comm .. ▸ plain_cons (by decide) (plain_cons (htest next hnext) ih)
  | case6 => exact plain_zero _

theorem digitOfBase_plain {base : ℕ} (hb : base ≤ 10 ∨ base = 16) (byte : UInt8)
    (h : isDigitOfBase base byte) : isStructural byte = false := by
  rcases hb with hb | rfl
  · have hdigit : isDigit byte = true := by
      rw [isDigitOfBase,if_neg (by omega)] at h
      simp only [isDigit,Bool.and_eq_true,decide_eq_true_eq,UInt8.le_iff_toNat_le] at h ⊢
      exact ⟨h.1,by change byte.toNat ≤ 57; omega⟩
    exact not_structural_of rfl hdigit
  · exact not_structural_of rfl h

theorem Plain.readDigits {o : ℕ} (h : Plain o bs) {base : ℕ}
    (hb : base ≤ 10 ∨ base = 16) : Plain (readDigitsOfBase bs o base) bs :=
  h.add (plain_digits (digitOfBase_plain hb) _)

variable {len : ℕ}

theorem Plain.exponent (h : Plain len bs) : Plain (scanExponent bs len) bs := by
  unfold scanExponent
  dsimp only
  by_cases hmarker : startsWith isExponent (bs.drop len) = true
  · have hone := h.add (plain_startsWith rfl hmarker)
    have hexponent : Plain (if startsWith isSign (bs.drop (len+1)) then len+2 else len+1) bs := by
      split_ifs with hsign
      · exact hone.add (plain_startsWith rfl hsign)
      · exact hone
    rw [if_pos hmarker]
    generalize (if startsWith isSign (bs.drop (len+1)) then len+2 else len+1) = exponent
      at hexponent ⊢
    split_ifs
    · exact hexponent.readDigits (.inl le_rfl)
    · exact h
  · rw [if_neg hmarker]
    exact h

theorem Plain.fraction (h : Plain len bs) : Plain (scanFraction bs len) bs := by
  unfold scanFraction
  split_ifs with hdot hdigit
  · exact (h.add (plain_dot hdot)).readDigits (.inl le_rfl)
  · exact h.add (plain_dot hdot)
  · exact h
where
  plain_dot {bytes : List UInt8} (h : bytes.head? = some dot) : Plain 1 bytes := by
    cases bytes with
    | nil => cases h
    | cons _ rest =>
      obtain rfl := Option.some.inj h
      exact plain_cons (by decide) (plain_zero rest)

theorem Plain.suffix (h : Plain len bs) : Plain (integerSuffix bs len).2 bs := by
  unfold integerSuffix
  split_ifs with hunsigned hsigned
  · exact h.add (plain_startsWith rfl hunsigned)
  · exact h.add (plain_startsWith rfl hsigned)
  · exact h

variable {first : UInt8}

theorem plain_startsNumber {lower upper : UInt8} (hletters : PlainTest fun b => b == lower || b == upper)
    (h : startsNumber lower upper test (first::rest)) : Plain 1 rest := by
  simp only [startsNumber,Bool.and_eq_true] at h
  exact plain_startsWith hletters h.1.2

theorem numberBase_cases (first : UInt8) (rest : List UInt8) : numberBase (first::rest) = 10 ∨
    (numberBase (first::rest) < 10 ∨ numberBase (first::rest) = 16) ∧ Plain 1 rest := by
  unfold numberBase
  split_ifs with hbinary hoctal hhexadecimal
  · exact .inr ⟨.inl (by decide),plain_startsNumber rfl hbinary⟩
  · exact .inr ⟨.inl (by decide),plain_startsNumber rfl hoctal⟩
  · exact .inr ⟨.inr rfl,plain_startsNumber rfl hhexadecimal⟩
  · exact .inl rfl

theorem plain_number (hfirst : isDigit first) (rest : List UInt8) :
    Plain (scanNumber (first::rest)).2 (first::rest) := by
  have hdigits : Plain (readDigitsOfBase (first::rest) (if numberBase (first::rest) = 10 then 1 else 2)
      (numberBase (first::rest))) (first::rest) := by
    rcases numberBase_cases first rest with hb | ⟨hb,hletter⟩
    · rw [if_pos hb,hb]
      exact (plain_cons (not_structural_of rfl hfirst) (plain_zero rest)).readDigits (.inl le_rfl)
    · rw [if_neg (by omega)]
      exact (plain_cons (not_structural_of rfl hfirst) hletter).readDigits (by omega)
  unfold scanNumber
  dsimp only
  generalize readDigitsOfBase (first::rest) (if numberBase (first::rest) = 10 then 1 else 2)
    (numberBase (first::rest)) = len at hdigits ⊢
  split_ifs
  · exact hdigits.suffix
  · exact hdigits.suffix
  · exact hdigits
  · exact hdigits.fraction.exponent
  · exact hdigits

theorem le_readDigits (bs : List UInt8) (o base : ℕ) : o ≤ readDigitsOfBase bs o base := Nat.le_add_right _ _

theorem le_scanExponent (bs : List UInt8) (len : ℕ) : len ≤ scanExponent bs len := by
  unfold scanExponent
  dsimp only
  split_ifs
  · exact (Nat.le_add_right _ 2).trans (le_readDigits _ _ _)
  · exact le_rfl
  · exact (Nat.le_add_right _ 1).trans (le_readDigits _ _ _)
  · exact le_rfl
  · exact le_rfl

theorem le_scanFraction (bs : List UInt8) (len : ℕ) : len ≤ scanFraction bs len := by
  unfold scanFraction
  split_ifs
  · exact (Nat.le_add_right _ 1).trans (le_readDigits _ _ _)
  · exact Nat.le_add_right _ 1
  · exact le_rfl

theorem le_integerSuffix (bs : List UInt8) (len : ℕ) : len ≤ (integerSuffix bs len).2 := by
  unfold integerSuffix
  split_ifs
  · exact Nat.le_add_right _ 1
  · exact Nat.le_add_right _ 1
  · exact le_rfl

theorem scanNumber_pos (bs : List UInt8) : 0 < (scanNumber bs).2 := by
  have hdigits : 0 < readDigitsOfBase bs (if numberBase bs = 10 then 1 else 2) (numberBase bs) := by
    refine Nat.lt_of_lt_of_le ?_ (le_readDigits _ _ _)
    split_ifs <;> decide
  unfold scanNumber
  dsimp only
  generalize readDigitsOfBase bs (if numberBase bs = 10 then 1 else 2) (numberBase bs) = len
    at hdigits ⊢
  split_ifs
  · exact hdigits.trans_le (le_integerSuffix _ _)
  · exact hdigits.trans_le (le_integerSuffix _ _)
  · exact hdigits
  · exact hdigits.trans_le ((le_scanFraction _ _).trans (le_scanExponent _ _))
  · exact hdigits

/-! ### Tokens of code and the scan of an interpolation -/

/-- A scanned token takes a byte at least, and the scan of an interpolation visits the place where it ends. -/
def Kept (bytes : List UInt8) (length : ℕ) : Prop := 0 < length ∧ Passes bytes (bytes.drop length)

theorem Plain.kept (h : Plain n bs) (hn : 0 < n) : Kept bs n := ⟨hn,h.passes⟩

theorem interpolationEnd_slash (hline : rest.head? ≠ some slash) (hblock : rest.head? ≠ some asterisk) :
    interpolationEnd braces (slash::rest) = interpolationEnd braces rest := by
  rw [interpolationEnd_cons,if_neg (by decide),if_neg (fun h => hline h.2),if_neg (fun h => hblock h.2),
    if_neg (by decide),if_neg (by decide)]

/-- One byte of code that starts neither a string nor a comment. -/
theorem kept_one (hsingle : first ≠ singleQuote) (hdouble : first ≠ doubleQuote) (hslash : first ≠ slash) :
    Kept (first::rest) 1 := by
  refine ⟨Nat.one_pos,fun braces a h => ?_⟩
  rw [interpolationEnd_cons,if_neg (not_or.mpr ⟨hsingle,hdouble⟩),if_neg (fun h => hslash h.1),
    if_neg (fun h => hslash h.1)] at h
  split_ifs at h
  · exact .inl ⟨_,h⟩
  · obtain rfl := Option.some.inj h
    exact .inr ⟨rfl,rfl⟩
  · exact .inl ⟨_,h⟩
  · exact .inl ⟨_,h⟩

variable {k : TokenKind}

theorem simpleToken_kept (h : simpleToken first = some k) (rest : List UInt8) : Kept (first::rest) 1 := by
  have hne : ∀ b, simpleToken b = none → first ≠ b := by
    rintro b hb rfl
    rw [hb] at h
    cases h
  exact kept_one (hne _ (by decide)) (hne _ (by decide)) (hne _ (by decide))

variable {op : List UInt8 × TokenKind}

theorem findOperator_some {t : List (List UInt8 × TokenKind)} (h : findOperator t bs = some op) :
    op ∈ t ∧ ∃ rest, bs = op.1++rest := by
  unfold findOperator at h
  have hstarts : op.1.isPrefixOf bs = true := by simpa using find?_some h
  exact ⟨mem_of_find?_eq_some h,(List.isPrefixOf_iff_prefix.mp hstarts).imp fun _ => Eq.symm⟩

theorem plain_operator {op : List UInt8} (h : ∀ byte ∈ op, isStructural byte = false) :
    Plain op.length (op++rest) := by
  rw [Plain,take_left]
  exact h

theorem firstOperators_plain : ∀ op ∈ firstOperators, 0 < op.1.length ∧ ∀ byte ∈ op.1,isStructural byte = false := by
  have h : firstOperators.all (fun op => decide (0 < op.1.length) && op.1.all (!isStructural ·)) =
      true := rfl
  simpa using h

theorem lastOperators_plain : ∀ op ∈ lastOperators, 0 < op.1.length ∧
    ((∀ byte ∈ op.1,isStructural byte = false) ∨ op.1 = [slash,0x3d] ∨ op.1 = [slash] ∨ op.1 = [0x23,leftBrace]) := by
  have h : lastOperators.all (fun op => decide (0 < op.1.length) &&
      (op.1.all (!isStructural ·) || op.1 == [slash,0x3d] || op.1 == [slash] ||
        op.1 == [0x23,leftBrace])) = true := rfl
  simpa [or_assoc] using h

theorem firstOperators_kept (h : findOperator firstOperators bs = some op) : Kept bs op.1.length := by
  obtain ⟨hmem,rest,rfl⟩ := findOperator_some h
  obtain ⟨hpos,hplain⟩ := firstOperators_plain op hmem
  exact (plain_operator hplain).kept hpos

theorem lastOperators_kept (h : findOperator lastOperators (first::rest) = some op)
    (hline : ¬(first = slash ∧ rest.head? = some slash))
    (hblock : ¬(first = slash ∧ rest.head? = some asterisk)) : Kept (first::rest) op.1.length := by
  obtain ⟨hmem,tail,ht⟩ := findOperator_some h
  obtain ⟨hpos,htext⟩ := lastOperators_plain op hmem
  generalize op.1 = text at ht hpos htext ⊢
  rcases htext with hplain | rfl | rfl | rfl
  · rw [ht]
    exact (plain_operator hplain).kept hpos
  -- a slash is passed like any byte unless a comment starts with it
  · obtain ⟨rfl,rfl⟩ : first = slash ∧ rest = 0x3d::tail := List.cons.inj ht
    refine ⟨by simp,fun braces a hend => .inl ⟨braces,?_⟩⟩
    have hnext : ∀ b, (0x3d : UInt8) ≠ b → (0x3d::tail).head? ≠ some b := fun b hb h => hb (Option.some.inj h)
    rwa [interpolationEnd_slash (hnext _ (by decide)) (hnext _ (by decide)),
      interpolationEnd_plain (by decide)] at hend
  · obtain ⟨rfl,rfl⟩ := List.cons.inj ht
    refine ⟨by simp,fun braces a hend => .inl ⟨braces,?_⟩⟩
    rwa [interpolationEnd_slash (fun hhead => hline ⟨rfl,hhead⟩) (fun hhead => hblock ⟨rfl,hhead⟩)] at hend
  · obtain ⟨rfl,rfl⟩ : first = 0x23 ∧ rest = leftBrace::tail := List.cons.inj ht
    refine ⟨by simp,fun braces a hend => .inl ⟨braces+1,?_⟩⟩
    have hbrace : leftBrace ≠ slash := by decide
    rwa [interpolationEnd_plain (by decide),interpolationEnd_cons,if_neg (by decide),
      if_neg (fun h => hbrace h.1),if_neg (fun h => hbrace h.1),if_pos rfl] at hend

theorem identifierOrKeyword_kept (h : isIdentifierStart first) (rest : List UInt8) :
    Kept (first::rest) (scanIdentifierOrKeyword (first::rest)).2 := by
  have hplain : Plain (scanIdentifier (first::rest)) (first::rest) := plain_identifier h
  have hpos : 0 < scanIdentifier (first::rest) := by
    rw [scanIdentifier]
    omega
  unfold scanIdentifierOrKeyword
  dsimp only
  split_ifs
  · exact hplain.kept hpos
  · exact (hplain.add (plain_qualifiedTail _ _)).kept (Nat.add_pos_left hpos _)

theorem drop_length_takeWhile (test : UInt8 → Bool) (bs : List UInt8) :
    bs.drop (bs.takeWhile test).length = bs.dropWhile test := by
  have h : (bs.takeWhile test++bs.dropWhile test).drop (bs.takeWhile test).length =
      bs.dropWhile test := drop_left
  rwa [takeWhile_append_dropWhile] at h

theorem lineComment_kept (h : rest.head? = some slash) :
    Kept (slash::rest) ((slash::rest).takeWhile isWithinLine).length := by
  have hslash : isWithinLine slash = true := by decide
  refine ⟨by simp [takeWhile_cons_of_pos hslash],fun braces a hend => .inl ⟨braces,?_⟩⟩
  cases rest with
  | nil => cases h
  | cons =>
    obtain rfl := Option.some.inj h
    rw [interpolationEnd_cons,if_neg (by decide),if_pos ⟨rfl,rfl⟩,drop_one,tail_cons] at hend
    rwa [drop_length_takeWhile,dropWhile_cons_of_pos hslash,dropWhile_cons_of_pos hslash]

variable {i : ℕ}

theorem blockComment_kept (hstar : rest.head? = some asterisk)
    (h : scanBlockComment i (slash::rest) = .token k len) : Kept (slash::rest) len := by
  unfold scanBlockComment at h
  cases hf : find [asterisk,slash] ((slash::rest).drop 2) with
  | none =>
    rw [hf] at h
    cases h
  | some f =>
    rw [hf] at h
    obtain ⟨-,rfl⟩ := Scanned.token.inj h
    have hnext : asterisk ≠ slash := by decide
    refine ⟨by omega,fun braces a hend => .inl ⟨braces,?_⟩⟩
    rw [interpolationEnd_cons,if_neg (by decide),if_neg (by simp [hstar,hnext]),if_pos ⟨rfl,hstar⟩] at hend
    rw [drop_succ_cons] at hf
    rw [hf,Option.bind_some] at hend
    rw [← hend,show 2+f+2 = f+3+1 by omega,drop_succ_cons]

section
variable {q : UInt8} (hquote : q = singleQuote ∨ q = doubleQuote)
include hquote

/-- The scan steps over a nested string as a whole. -/
theorem passes_string {a : List UInt8} (hend : stringEnd q rest = some a) : Passes (q::rest) a := by
  intro braces inner hinner
  rw [interpolationEnd_cons,if_pos hquote,hend,Option.bind_some] at hinner
  exact .inl ⟨braces,hinner⟩

theorem stringLiteral_kept (h : scanStringLiteral i q rest = .token k len) : Kept (q::rest) len := by
  unfold scanStringLiteral scan at h
  cases hend : stringEnd q rest with
  | none => simp [hend] at h
  | some a =>
    have hbehind := Behind.cons (stringEnd_behind hend).1 q
    have hlen : len = (q::rest).length-a.length := by
      simp only [hend,Option.map_some] at h
      split_ifs at h
      simp only [Scanned.token.injEq] at h
      exact h.2.symm
    rw [hlen]
    refine ⟨Nat.sub_pos_of_lt hbehind.2,?_⟩
    rw [drop_to_suffix hbehind.1]
    exact passes_string hquote hend

end

theorem numericLiteral_kept (hfirst : isDigit first) (h : scanNumericLiteral i (first::rest) = .token k len) :
    Kept (first::rest) len := by
  unfold scanNumericLiteral at h
  dsimp only at h
  split_ifs at h
  obtain ⟨-,rfl⟩ := Scanned.token.inj h
  exact (plain_number hfirst rest).kept (scanNumber_pos _)

theorem leadingDotFloat_kept (h : startsWith isDigit rest) :
    Kept (dot::rest) (scanLeadingDotFloat (dot::rest)) := by
  have hstart : Plain 2 (dot::rest) := plain_cons (by decide) (plain_startsWith rfl h)
  refine (hstart.readDigits (.inl le_rfl)).exponent.kept (Nat.lt_of_lt_of_le ?_ (le_scanExponent _ _))
  exact Nat.lt_of_lt_of_le (by decide) (le_readDigits _ 2 _)

theorem scanRemainder_kept (h : scanRemainder i first rest = .token k len) : Kept (first::rest) len := by
  unfold scanRemainder at h
  split_ifs at h with hline hblock hquote hdigit hdot hbackslash hsegment
  · obtain ⟨-,rfl⟩ := Scanned.token.inj h
    obtain ⟨rfl,hnext⟩ := hline
    exact lineComment_kept hnext
  · obtain ⟨rfl,hnext⟩ := hblock
    exact blockComment_kept hnext h
  · exact stringLiteral_kept hquote h
  · exact numericLiteral_kept hdigit h
  · obtain ⟨-,rfl⟩ := Scanned.token.inj h
    obtain ⟨rfl,hnext⟩ := hdot
    exact leadingDotFloat_kept hnext
  · obtain ⟨-,rfl⟩ := Scanned.token.inj h
    subst hbackslash
    have ht := (plain_identifier hsegment).add (plain_qualifiedTail rest.length _)
    rw [Nat.add_assoc,Nat.add_comm]
    exact (plain_cons (by decide) ht).kept (Nat.succ_pos _)
  · obtain ⟨-,rfl⟩ := Scanned.token.inj h
    subst hbackslash
    exact (plain_cons (by decide) (plain_zero rest)).kept Nat.one_pos
  · cases hop : findOperator lastOperators (first::rest) with
    | none => simp [hop] at h
    | some =>
      simp only [hop,Scanned.token.injEq] at h
      obtain ⟨-,rfl⟩ := h
      exact lastOperators_kept hop hline hblock

theorem scanToken_kept (h : scanToken i first rest = .token k len) : Kept (first::rest) len := by
  unfold scanToken at h
  by_cases hwhitespace : isWhitespace first = true
  · rw [if_pos hwhitespace] at h
    obtain ⟨-,rfl⟩ := Scanned.token.inj h
    refine (plain_takeWhile rfl _).kept ?_
    simp [takeWhile_cons_of_pos hwhitespace]
  · rw [if_neg hwhitespace] at h
    cases hsimple : simpleToken first with
    | some =>
      simp only [hsimple,Scanned.token.injEq] at h
      obtain ⟨-,rfl⟩ := h
      exact simpleToken_kept hsimple rest
    | none =>
      simp only [hsimple] at h
      split_ifs at h with hidentifier hvariable
      · obtain ⟨-,rfl⟩ := Scanned.token.inj h
        exact identifierOrKeyword_kept hidentifier rest
      · obtain ⟨-,rfl⟩ := Scanned.token.inj h
        obtain ⟨rfl,hstart⟩ := hvariable
        rw [Nat.add_comm]
        exact (plain_cons (by decide) (plain_identifier hstart)).kept (Nat.succ_pos _)
      · cases hop : findOperator firstOperators (first::rest) with
        | none => exact scanRemainder_kept (by simpa only [hop] using h)
        | some =>
          simp only [hop,Scanned.token.injEq] at h
          obtain ⟨-,rfl⟩ := h
          exact firstOperators_kept hop

/-! ### Strings with interpolations -/

theorem scanRemainder_interpolated (h : scanRemainder i first rest = .interpolated) :
    first = doubleQuote ∧ ∃ a, stringEnd doubleQuote rest = some a := by
  unfold scanRemainder at h
  dsimp only at h
  split_ifs at h with hline hblock hquote
  · unfold scanBlockComment at h
    split at h <;> cases h
  · unfold scanStringLiteral scan at h
    cases hend : stringEnd first rest with
    | none => simp [hend] at h
    | some a =>
      simp only [hend,Option.map_some] at h
      split_ifs at h with hneeds
      obtain ⟨rfl,-⟩ := hneeds
      exact ⟨rfl,a,hend⟩
  · unfold scanNumericLiteral at h
    dsimp only at h
    split_ifs at h
  · split at h <;> cases h

theorem scanToken_interpolated (h : scanToken i first rest = .interpolated) :
    first = doubleQuote ∧ ∃ a, stringEnd doubleQuote rest = some a := by
  unfold scanToken at h
  dsimp only at h
  by_cases hwhitespace : isWhitespace first = true
  · rw [if_pos hwhitespace] at h
    cases h
  rw [if_neg hwhitespace] at h
  cases hsimple : simpleToken first with
  | some => simp [hsimple] at h
  | none =>
    simp only [hsimple] at h
    split_ifs at h
    cases hop : findOperator firstOperators (first::rest) with
    | none => exact scanRemainder_interpolated (by simpa only [hop] using h)
    | some => simp [hop] at h

end Whim.Lexer
