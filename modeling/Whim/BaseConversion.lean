import Mathlib.Data.Nat.Digits.Lemmas

/-!
# Number bases

Digit strings in bases from 2 to 36 are read into words and written from them, or converted through big integers.
-/

namespace Whim.BaseConversion

open List

abbrev Bytes := List UInt8

structure Base where
  value : ℕ
  two_le : 2 ≤ value
  le_36 : value ≤ 36

instance : CoeOut Base ℕ := ⟨Base.value⟩

inductive BaseParseError
  | invalidDigit | overflow
  deriving DecidableEq

def invalidDigit : UInt8 := 0xff

def digitValues (byte : UInt8) : UInt8 :=
  if 0x30 ≤ byte ∧ byte ≤ 0x39 then byte-0x30
  else if 0x61 ≤ byte ∧ byte ≤ 0x7a then 10+(byte-0x61)
  else if 0x41 ≤ byte ∧ byte ≤ 0x5a then 10+(byte-0x41)
  else invalidDigit

def digit (byte : UInt8) : ℕ := (digitValues byte).toNat

/-- The two loops of the parser differ in how they add a digit. -/
def parseLoop (b : ℕ) (add : ℕ → ℕ → Option ℕ) (result : ℕ) : Bytes → Except BaseParseError ℕ
  | [] => .ok result
  | byte::rest =>
    if b ≤ digit byte then .error .invalidDigit
    else match add result (digit byte) with
      | some result => parseLoop b add result rest
      | none => .error .overflow

def parseProven (b : ℕ) : ℕ → Bytes → Except BaseParseError ℕ := parseLoop b fun n d => some ((n*b+d) % 2^64)

def parseCareful (b : ℕ) : ℕ → Bytes → Except BaseParseError ℕ :=
  parseLoop b fun n d => if n*b < 2^64 ∧ n*b+d < 2^64 then some (n*b+d) else none

def Base.provenDigits (b : Base) : ℕ := Nat.log b (2^64-1)

def parseBase (number : Bytes) (base : Base) : Except BaseParseError ℕ := do
  let result ← parseProven base 0 (number.take base.provenDigits)
  parseCareful base result (number.drop base.provenDigits)

def baseDigits : Bytes := (range 10).map (UInt8.ofNat <| 0x30+·)++(range 26).map (UInt8.ofNat <| 0x61+·)

def baseDigit (d : ℕ) : UInt8 := baseDigits.getD d 0

/-- The buffer is filled from its end, and the cursor counts what is left of it. -/
def encodeLoop (b : ℕ) : (cursor number : ℕ) → (text : Bytes) → Option Bytes
  | 0,_,_ => none
  | cursor+1,number,text =>
    let text := baseDigit (number % b)::text
    if number/b = 0 then some text else encodeLoop b cursor (number/b) text

def encodeBase (number : ℕ) (base : Base) : Option Bytes := encodeLoop base 64 number []

structure ShortString where
  packed : ℕ
  length : ℕ

namespace ShortString

def asBytes (s : ShortString) : Bytes := (range s.length).map fun i => UInt8.ofNat (s.packed >>> (8*i))

def capacity : ℕ := 7

def push (s : ShortString) (byte : UInt8) : ShortString := ⟨(s.packed <<< 8 ||| byte.toNat) % 2^64,s.length+1⟩

end ShortString

/-- The two short encoders differ in how they take a digit off. -/
def encodeShort (last rest : ℕ → ℕ) : (room number : ℕ) → ShortString → Option ShortString
  | 0,_,_ => none
  | room+1,number,s =>
    let s := s.push (baseDigit (last number))
    if rest number = 0 then some s else encodeShort last rest room (rest number) s

-- The trailing zeros of a power of two are its logarithm.
def encodeShortPowerOfTwo (number b : ℕ) : Option ShortString :=
  encodeShort (· &&& (b-1)) (· >>> b.log2) ShortString.capacity number ⟨0,0⟩

def encodeShortFixedBase (number b : ℕ) : Option ShortString :=
  encodeShort (· % b) (·/b) ShortString.capacity number ⟨0,0⟩

def encodeShortBase (number : ℕ) (base : Base) : Option ShortString :=
  if 2^base.value.log2 = base.value then encodeShortPowerOfTwo number base else encodeShortFixedBase number base

def encodeBaseValue (number : ℕ) (base : Base) : Option Bytes :=
  match encodeShortBase number base with
  | some s => some s.asBytes
  | none => encodeBase number base

def collectDigits (b : ℕ) (digits : List ℕ) : Bytes → Option (List ℕ)
  | [] => some digits
  | byte::rest =>
    if digitValues byte = invalidDigit ∨ b ≤ digit byte then none
    else collectDigits b (if digits = [] ∧ digit byte = 0 then digits else digits++[digit byte]) rest

-- What big integers are given to do.
def fromRadixBe (digits : List ℕ) (b : ℕ) : Option ℕ :=
  if ∀ d ∈ digits, d < b then some (Nat.ofDigits b digits.reverse) else none

def radixDigits (n b : ℕ) : List ℕ := if n = 0 then [0] else Nat.digits b n

def toStrRadix (n b : ℕ) : Bytes := (radixDigits n b).reverse.map baseDigit

inductive Failure
  | invalidArgument | unreachable
  deriving DecidableEq

def baseConvert (number : Bytes) (fromBase toBase : Base) : Except Failure Bytes :=
  match parseBase number fromBase with
  | .ok n => (encodeBaseValue n toBase).elim (.error .unreachable) .ok
  | .error .invalidDigit => .error .invalidArgument
  | .error .overflow =>
    match collectDigits fromBase [] number with
    | none => .error .invalidArgument
    | some [] => .ok [0x30]
    | some digits => (fromRadixBe digits fromBase).elim (.error .unreachable) (.ok <| toStrRadix · toBase)

/-! ## Reading -/

def Valid (b : Base) (s : Bytes) : Prop := ∀ byte ∈ s, digit byte < b

def denoted (b : Base) (s : Bytes) : ℕ := Nat.ofDigits b (s.map digit).reverse

/-- Horner's rule. -/
def horner (b n : ℕ) (digits : List ℕ) : ℕ := digits.foldl (fun n d => n*b+d) n

theorem ofDigits_reverse (b : ℕ) (digits : List ℕ) : Nat.ofDigits b digits.reverse = horner b 0 digits := by
  simp [Nat.ofDigits_eq_foldr,horner,Nat.add_comm,Nat.mul_comm]

variable {b : Base} {s : Bytes} {n : ℕ}

theorem Base.pos (b : Base) : 0 < (b : ℕ) := Nat.lt_of_lt_of_le Nat.two_pos b.two_le

theorem le_horner (b : Base) (n : ℕ) (digits : List ℕ) : n ≤ horner b n digits := by
  induction digits generalizing n with
  | nil => exact Nat.le_refl n
  | cons d digits ih =>
    have hn := Nat.le_mul_of_pos_right n b.pos
    exact (hn.trans (Nat.le_add_right _ d)).trans (ih _)

theorem parseProven_eq (hs : Valid b s) (hn : (n+1)*b^s.length ≤ 2^64) :
    parseProven b n s = .ok (horner b n (s.map digit)) ∧ horner b n (s.map digit) < 2^64 := by
  induction s generalizing n with
  | nil => exact ⟨rfl,by simpa [horner] using hn⟩
  | cons byte s ih =>
    obtain ⟨hd,hs⟩ := forall_mem_cons.mp hs
    have hle : n*b+digit byte+1 ≤ (n+1)*b := by rw [Nat.add_mul]; omega
    have hnext : (n*b+digit byte+1)*b^s.length ≤ 2^64 := by
      refine (Nat.mul_le_mul_right _ hle).trans ?_
      rwa [Nat.mul_assoc,← Nat.pow_succ']
    have hlt := (Nat.le_mul_of_pos_right _ (Nat.pow_pos b.pos)).trans hnext
    rw [parseProven,parseLoop,if_neg (Nat.not_le.mpr hd)]
    dsimp only
    rw [Nat.mod_eq_of_lt hlt]
    exact ih hs hnext

theorem parseCareful_eq (hs : Valid b s) (hn : n < 2^64) : parseCareful b n s =
    if horner b n (s.map digit) < 2^64 then .ok (horner b n (s.map digit)) else .error .overflow := by
  induction s generalizing n with
  | nil => exact (if_pos hn).symm
  | cons byte s ih =>
    obtain ⟨hd,hs⟩ := forall_mem_cons.mp hs
    rw [parseCareful,parseLoop,if_neg (Nat.not_le.mpr hd)]
    by_cases hnext : n*b+digit byte < 2^64
    · rw [if_pos ⟨by omega,hnext⟩]
      exact ih hs hnext
    · have hle := le_horner b (n*b+digit byte) (s.map digit)
      rw [if_neg fun h => hnext h.2]
      exact (if_neg fun h => hnext (Nat.lt_of_le_of_lt hle h)).symm

theorem parseLoop_invalid (hs : ¬Valid b s) (add : ℕ → ℕ → Option ℕ) (n : ℕ) : ∃ e, parseLoop b add n s = .error e := by
  induction s generalizing n with
  | nil => exact absurd (forall_mem_nil _) hs
  | cons byte s ih =>
    rw [parseLoop]
    split_ifs with hd
    · exact ⟨_,rfl⟩
    · split
      · exact ih (fun h => hs (forall_mem_cons.mpr ⟨Nat.not_le.mp hd,h⟩)) _
      · exact ⟨_,rfl⟩

theorem parseProven_take (hs : Valid b (s.take b.provenDigits)) :
    parseProven b 0 (s.take b.provenDigits) = .ok (horner b 0 ((s.take b.provenDigits).map digit)) ∧
      horner b 0 ((s.take b.provenDigits).map digit) < 2^64 := by
  refine parseProven_eq hs ?_
  rw [Nat.zero_add,Nat.one_mul]
  refine (Nat.pow_le_pow_right b.pos (length_take_le _ _)).trans ?_
  exact (Nat.pow_log_le_self _ (by decide)).trans (Nat.sub_le _ _)

theorem parseBase_eq (hs : Valid b s) :
    parseBase s b = if denoted b s < 2^64 then .ok (denoted b s) else .error .overflow := by
  obtain ⟨hok,hlt⟩ := parseProven_take (s := s) fun byte h => hs byte (mem_of_mem_take h)
  have hcareful := parseCareful_eq (s := s.drop b.provenDigits) (fun byte h => hs byte (mem_of_mem_drop h)) hlt
  rw [horner,horner,← foldl_append,← map_append,take_append_drop] at hcareful
  rw [parseBase,hok,denoted,ofDigits_reverse]
  exact hcareful

theorem parseBase_invalid (hs : ¬Valid b s) : ∃ e, parseBase s b = .error e := by
  rw [parseBase]
  by_cases ht : Valid b (s.take b.provenDigits)
  · rw [(parseProven_take ht).1]
    refine parseLoop_invalid (fun hd => hs fun byte hmem => ?_) _ _
    rw [← take_append_drop b.provenDigits s,mem_append] at hmem
    exact hmem.elim (ht byte) (hd byte)
  · obtain ⟨e,he⟩ := parseLoop_invalid ht _ 0
    rw [parseProven,he]
    exact ⟨e,rfl⟩

/-! ## Writing -/

theorem toStrRadix_eq (b : Base) (n : ℕ) :
    toStrRadix n b = (if n/b = 0 then [] else toStrRadix (n/b) b)++[baseDigit (n % b)] := by
  rcases Nat.eq_zero_or_pos n with rfl | hn
  · simp [toStrRadix,radixDigits]
  · rw [toStrRadix,radixDigits,if_neg hn.ne',Nat.digits_def' b.two_le hn]
    split_ifs with hdiv <;> simp [toStrRadix,radixDigits,hdiv]

theorem encodeLoop_eq (cursor : ℕ) (text : Bytes) (hn : n < b^(cursor+1)) :
    encodeLoop b (cursor+1) n text = some (toStrRadix n b++text) := by
  induction cursor generalizing n text with
  | zero =>
    have hdiv : n/b = 0 := Nat.div_eq_of_lt (by simpa using hn)
    rw [encodeLoop,if_pos hdiv,toStrRadix_eq,if_pos hdiv]
    rfl
  | succ cursor ih =>
    rw [encodeLoop,toStrRadix_eq]
    split_ifs with hdiv
    · rfl
    · rw [ih _ (Nat.div_lt_of_lt_mul (by rwa [← Nat.pow_succ'])),append_assoc]
      rfl

theorem encodeBase_eq (b : Base) (hn : n < 2^64) : encodeBase n b = some (toStrRadix n b) := by
  have hlt := Nat.lt_of_lt_of_le hn (Nat.pow_le_pow_left b.two_le 64)
  rw [encodeBase,encodeLoop_eq 63 [] hlt,append_nil]

theorem asBytes_push {s : ShortString} (d : UInt8) (hs : s.packed < 2^(8*s.length)) (hlen : s.length < 7) :
    (s.push d).packed < 2^(8*(s.length+1)) ∧ (s.push d).asBytes = d::s.asBytes := by
  have hd : d.toNat < 2^8 := d.toNat_lt
  have hpow : 2^(8*(s.length+1)) ≤ 2^64 := Nat.pow_le_pow_right Nat.two_pos (by omega)
  have hlt : s.packed*2^8+d.toNat < 2^(8*(s.length+1)) := by rw [Nat.mul_succ,Nat.pow_add]; omega
  rw [ShortString.push,← Nat.shiftLeft_add_eq_or_of_lt hd,Nat.shiftLeft_eq,Nat.mod_eq_of_lt (hlt.trans_le hpow)]
  refine ⟨hlt,?_⟩
  rw [ShortString.asBytes,range_succ_eq_map,map_cons,map_map]
  congr 1
  · refine UInt8.toNat_inj.mp ?_
    simp only [Nat.mul_zero,Nat.shiftRight_zero,UInt8.toNat_ofNat']
    omega
  · refine map_congr_left fun i _ => congrArg UInt8.ofNat ?_
    rw [Nat.mul_succ,Nat.add_comm (8*i),Nat.shiftRight_add,Nat.shiftRight_eq_div_pow _ 8]
    exact congrArg (· >>> (8*i)) (show (s.packed*2^8+d.toNat)/2^8 = s.packed by omega)

theorem encodeShort_eq {last rest : ℕ → ℕ} (hl : ∀ n, last n = n % b) (hr : ∀ n, rest n = n/b)
    {room cursor : ℕ} {s t : ShortString} (hs : s.packed < 2^(8*s.length)) (hroom : room+s.length ≤ 7)
    (hcur : room ≤ cursor) (h : encodeShort last rest room n s = some t) :
    encodeLoop b cursor n s.asBytes = some t.asBytes := by
  induction room generalizing n s cursor with
  | zero => cases h
  | succ room ih =>
    obtain ⟨cursor,rfl⟩ : ∃ k, cursor = k+1 := ⟨cursor-1,by omega⟩
    obtain ⟨hlt,heq⟩ := asBytes_push (baseDigit (n % b)) hs (by omega)
    rw [encodeShort,hl,hr] at h
    rw [encodeLoop,← heq]
    split_ifs at h ⊢ with hdiv
    · rw [Option.some.inj h]
    · exact ih hlt (by dsimp only [ShortString.push]; omega) (by omega) h

theorem encodeShortBase_eq {t : ShortString} (h : encodeShortBase n b = some t) : encodeBase n b = some t.asBytes := by
  have hempty : (⟨0,0⟩ : ShortString).packed < 2^(8*(⟨0,0⟩ : ShortString).length) := Nat.one_pos
  rw [encodeShortBase] at h
  split_ifs at h with hpow
  · refine encodeShort_eq (fun n => ?_) (fun n => ?_) hempty (by decide) (by decide) h
    · have hand := Nat.and_two_pow_sub_one_eq_mod n b.value.log2
      rwa [hpow] at hand
    · rw [Nat.shiftRight_eq_div_pow,hpow]
  · exact encodeShort_eq (fun _ => rfl) (fun _ => rfl) hempty (by decide) (by decide) h

theorem encodeBaseValue_eq (b : Base) (hn : n < 2^64) : encodeBaseValue n b = some (toStrRadix n b) := by
  rw [encodeBaseValue]
  split
  next ht => rw [← encodeShortBase_eq ht,encodeBase_eq b hn]
  next => exact encodeBase_eq b hn

theorem digit_baseDigit {d : ℕ} (hd : d < b) : digit (baseDigit d) = d := by
  have h : ∀ d : Fin 36, digit (baseDigit d) = d := by decide
  exact h ⟨d,hd.trans_le b.le_36⟩

theorem radixDigits_denote (b : Base) (n : ℕ) :
    (∀ d ∈ radixDigits n b, d < b) ∧ Nat.ofDigits (b : ℕ) (radixDigits n b) = n := by
  rw [radixDigits]
  split_ifs with hn
  · simp [hn,b.pos]
  · exact ⟨fun d hd => Nat.digits_lt_base b.two_le hd,Nat.ofDigits_digits _ _⟩

/-- A written text denotes its number and has no leading zeros. -/
theorem toStrRadix_denotes (b : Base) (n : ℕ) : Valid b (toStrRadix n b) ∧ denoted b (toStrRadix n b) = n ∧
    ((toStrRadix n b).head? = some 0x30 → toStrRadix n b = [0x30]) := by
  obtain ⟨hlt,hn⟩ := radixDigits_denote b n
  have hdigits : (toStrRadix n b).map digit = (radixDigits n b).reverse := by
    rw [toStrRadix,map_map]
    exact (map_congr_left fun d hd => digit_baseDigit (hlt d (mem_reverse.mp hd))).trans (map_id _)
  refine ⟨fun byte hb => hlt _ (mem_reverse.mp (hdigits ▸ mem_map_of_mem hb)),?_,fun hhead => ?_⟩
  · rw [denoted,hdigits,reverse_reverse,hn]
  · by_cases hz : n = 0
    · rw [hz]
      rfl
    · have hl := congrArg head? hdigits
      rw [head?_map,hhead,head?_reverse,radixDigits,if_neg hz,getLast?_eq_some_getLast
        (Nat.digits_ne_nil_iff_ne_zero.mpr hz)] at hl
      exact absurd (Option.some.inj hl).symm (Nat.getLast_digit_ne_zero _ hz)

/-! ## Conversion -/

theorem collectDigits_eq {l : List ℕ} (hs : Valid b s) (hd : ∀ d ∈ l, d < b) :
    ∃ all, collectDigits b l s = some all ∧ (∀ d ∈ all, d < b) ∧
      horner b 0 all = horner b (horner b 0 l) (s.map digit) := by
  induction s generalizing l with
  | nil => exact ⟨l,rfl,hd,rfl⟩
  | cons byte s ih =>
    obtain ⟨hb,hs⟩ := forall_mem_cons.mp hs
    have hknown : digitValues byte ≠ invalidDigit := fun h => by
      have hlt : digit byte < 36 := Nat.lt_of_lt_of_le hb b.le_36
      rw [digit,h] at hlt
      exact absurd hlt (by decide)
    rw [collectDigits,if_neg (by simp [hknown,hb])]
    by_cases hz : l = [] ∧ digit byte = 0
    · rw [if_pos hz]
      obtain ⟨all,hall,hd,heq⟩ := ih hs hd
      exact ⟨all,hall,hd,by simpa [hz,horner] using heq⟩
    · rw [if_neg hz]
      obtain ⟨all,hall,hd,heq⟩ := ih (l := l++[digit byte]) hs (by simpa [or_imp,forall_and] using ⟨hd,hb⟩)
      exact ⟨all,hall,hd,by simpa [horner] using heq⟩

theorem collectDigits_invalid (hs : ¬Valid b s) (digits : List ℕ) : collectDigits b digits s = none := by
  induction s generalizing digits with
  | nil => exact absurd (forall_mem_nil _) hs
  | cons byte s ih =>
    rw [collectDigits]
    by_cases hd : digitValues byte = invalidDigit ∨ b ≤ digit byte
    · exact if_pos hd
    · rw [if_neg hd]
      exact ih (fun h => hs (forall_mem_cons.mpr ⟨Nat.not_le.mp fun h => hd (.inr h),h⟩)) _

theorem baseConvert_eq (c : Base) (hs : Valid b s) : baseConvert s b c = .ok (toStrRadix (denoted b s) c) := by
  rw [baseConvert,parseBase_eq hs]
  by_cases hlt : denoted b s < 2^64
  · rw [if_pos hlt]
    simp [encodeBaseValue_eq c hlt]
  · rw [if_neg hlt]
    obtain ⟨all,hall,hd,heq⟩ := collectDigits_eq (l := []) hs (forall_mem_nil _)
    have hdenoted : Nat.ofDigits (b : ℕ) all.reverse = denoted b s := by
      rw [ofDigits_reverse,heq,denoted,ofDigits_reverse]
      rfl
    simp only [hall]
    rcases all with _ | ⟨d,all⟩
    · simp [← hdenoted] at hlt
    · dsimp only
      rw [fromRadixBe,if_pos hd,hdenoted]
      rfl

theorem baseConvert_invalid (c : Base) (hs : ¬Valid b s) : baseConvert s b c = .error .invalidArgument := by
  obtain ⟨e,he⟩ := parseBase_invalid hs
  rw [baseConvert,he]
  cases e with
  | invalidDigit => rfl
  | overflow => simp only [collectDigits_invalid hs]

/-- Writing and reading a word are inverse, and the short encoders write what the general one does. Reading gives the
number that is denoted, or fails. Converting keeps it, and fails where a digit is outside the base. -/
theorem base_conversion_exact (b c : Base) (n : ℕ) (s : Bytes) :
    (n < 2^64 → ∃ t, encodeBaseValue n b = some t ∧ encodeBase n b = some t ∧ parseBase t b = .ok n ∧
      ∀ short, encodeShortBase n b = some short → short.asBytes = t) ∧
    (Valid b s → parseBase s b = if denoted b s < 2^64 then .ok (denoted b s) else .error .overflow) ∧
    (¬Valid b s → ∃ e, parseBase s b = .error e) ∧
    (Valid b s → ∃ t, baseConvert s b c = .ok t ∧ Valid c t ∧ denoted c t = denoted b s ∧
      (t.head? = some 0x30 → t = [0x30])) ∧
    (¬Valid b s → baseConvert s b c = .error .invalidArgument) := by
  refine ⟨fun hn => ?_,parseBase_eq,parseBase_invalid,fun hs => ⟨_,baseConvert_eq c hs,toStrRadix_denotes c _⟩,
    baseConvert_invalid c⟩
  obtain ⟨hvalid,hdenoted,_⟩ := toStrRadix_denotes b n
  have hencode := encodeBase_eq b hn
  refine ⟨_,encodeBaseValue_eq b hn,hencode,?_,fun short h => ?_⟩
  · rw [parseBase_eq hvalid,hdenoted,if_pos hn]
  · exact Option.some.inj ((encodeShortBase_eq h).symm.trans hencode)

theorem base_conversion_exact_hex : 255 < 2^64 ∧ encodeBaseValue 255 ⟨16,by decide,by decide⟩ = some [0x66,0x66] ∧
    ∃ t, encodeBaseValue 255 ⟨16,by decide,by decide⟩ = some t ∧ parseBase t ⟨16,by decide,by decide⟩ = .ok 255 := by
  obtain ⟨t,ht,_,hparse,_⟩ :=
    (base_conversion_exact ⟨16,by decide,by decide⟩ ⟨2,by decide,by decide⟩ 255 []).1 (by decide)
  exact ⟨by decide,by decide,t,ht,hparse⟩

end Whim.BaseConversion
