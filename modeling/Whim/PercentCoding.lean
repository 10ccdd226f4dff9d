import Mathlib.Algebra.Order.Ring.Nat

/-!
# Percent coding of URIs

The strict decoder in its three modes and the encoder that keeps the triplets it finds.
-/

namespace Whim.PercentCoding

open Option List

inductive PercentDecodeMode
  | component | form | uri
  deriving DecidableEq

def percent : UInt8 := 0x25

def hexDigits : List UInt8 := [0x30,0x31,0x32,0x33,0x34,0x35,0x36,0x37,0x38,0x39,0x41,0x42,0x43,0x44,0x45,0x46]

def hexDigitValue (byte : UInt8) : Option UInt8 :=
  if 0x30 ≤ byte ∧ byte ≤ 0x39 then some (byte-0x30)
  else if 0x41 ≤ byte ∧ byte ≤ 0x46 then some (byte-0x41+10)
  else if 0x61 ≤ byte ∧ byte ≤ 0x66 then some (byte-0x61+10)
  else none

-- The reserved bytes are : / ? # [ ] @ ! $ & ' ( ) * + , ; = in this order.
def isUriReserved (byte : UInt8) : Bool :=
  [0x3a,0x2f,0x3f,0x23,0x5b,0x5d,0x40,0x21,0x24,0x26,0x27,0x28,0x29,0x2a,0x2b,0x2c,0x3b,0x3d].contains byte

-- Letters, digits, the four bytes - . _ ~ and then the reserved ones.
def isUriLiteral (byte : UInt8) : Bool :=
  (0x41 ≤ byte && byte ≤ 0x5a) || (0x61 ≤ byte && byte ≤ 0x7a) || (0x30 ≤ byte && byte ≤ 0x39) ||
    [0x2d,0x2e,0x5f,0x7e,0x3a,0x2f,0x3f,0x23,0x5b,0x5d,0x40,0x21,0x24,0x26,0x27,0x28,0x29,0x2a,0x2b,0x2c,0x3b,
      0x3d].contains byte

/-- The bytes written for a triplet with this value. -/
def decodeTriplet (mode : PercentDecodeMode) (h l decoded : UInt8) : List UInt8 :=
  if mode = .uri ∧ isUriReserved decoded then [percent,h,l] else [decoded]

def strictPercentDecode (mode : PercentDecodeMode) : List UInt8 → Option (List UInt8)
  | [] => some []
  | byte::rest =>
    if byte = percent then
      match rest with
      | h::l::rest => do
        let high ← hexDigitValue h
        let low ← hexDigitValue l
        let output ← strictPercentDecode mode rest
        some (decodeTriplet mode h l (high <<< 4 ||| low)++output)
      | _ => none
    else do
      let output ← strictPercentDecode mode rest
      some ((if byte = 0x2b ∧ mode = .form then 0x20 else byte)::output)

def isHexDigit (byte : UInt8) : Bool := (hexDigitValue byte).isSome

def hexDigit (nibble : UInt8) : UInt8 := hexDigits.getD nibble.toNat 0

def encodeByte (byte : UInt8) : List UInt8 :=
  if isUriLiteral byte then [byte] else [percent,hexDigit (byte >>> 4),hexDigit (byte &&& 0x0f)]

def uriPercentEncode : List UInt8 → List UInt8
  | [] => []
  | byte::h::l::rest =>
    if byte = percent ∧ isHexDigit h ∧ isHexDigit l then byte::h::l::uriPercentEncode rest
    else encodeByte byte++uriPercentEncode (h::l::rest)
  | byte::rest => encodeByte byte++uriPercentEncode rest

/-! ## What stands at the front of a text -/

/-- The text goes on with two hexadecimal digits. -/
def HexPair (rest : List UInt8) : Prop := ∃ h l after, rest = h::l::after ∧ isHexDigit h ∧ isHexDigit l

variable {a byte h l r : UInt8}

theorem decode_triplet {b : UInt8} (mode : PercentDecodeMode) (rest : List UInt8)
    (hh : hexDigitValue h = some a) (hl : hexDigitValue l = some b) : strictPercentDecode mode (percent::h::l::rest) =
      (strictPercentDecode mode rest).map (decodeTriplet mode h l (a <<< 4 ||| b)++·) := by
  simp [strictPercentDecode,hh,hl,map_eq_bind]

theorem decode_lone {rest : List UInt8} (mode : PercentDecodeMode) (hr : ¬HexPair rest) :
    strictPercentDecode mode (percent::rest) = none := by
  rcases rest with _ | ⟨h,_ | ⟨l,after⟩⟩
  · rfl
  · rfl
  · rcases hh : hexDigitValue h with _ | a
    · simp [strictPercentDecode,hh]
    · rcases hl : hexDigitValue l with _ | b
      · simp [strictPercentDecode,hh,hl]
      · exact (hr ⟨h,l,after,rfl,by simp [isHexDigit,hh],by simp [isHexDigit,hl]⟩).elim

theorem decode_literal {mode : PercentDecodeMode} (rest : List UInt8) (hb : byte ≠ percent) (hm : mode ≠ .form) :
    strictPercentDecode mode (byte::rest) = (strictPercentDecode mode rest).map (byte::·) := by
  rw [strictPercentDecode.eq_def]
  simp [hb,hm,map_eq_bind]

theorem encode_triplet (rest : List UInt8) (hh : isHexDigit h) (hl : isHexDigit l) :
    uriPercentEncode (percent::h::l::rest) = percent::h::l::uriPercentEncode rest := by
  simp [uriPercentEncode,hh,hl]

theorem encode_byte {rest : List UInt8} (hr : byte = percent → ¬HexPair rest) :
    uriPercentEncode (byte::rest) = encodeByte byte++uriPercentEncode rest := by
  rcases rest with _ | ⟨h,_ | ⟨l,after⟩⟩
  · rfl
  · rfl
  · have hpair : ¬(byte = percent ∧ isHexDigit h ∧ isHexDigit l) := fun hp => hr hp.1 ⟨h,l,after,rfl,hp.2⟩
    simp only [uriPercentEncode,if_neg hpair]

/-- Every text is read from its front as literal bytes, triplets and percent signs that begin no triplet. -/
theorem segments_induction {motive : List UInt8 → Prop} (nil : motive [])
    (literal : ∀ byte rest, byte ≠ percent → motive rest → motive (byte::rest))
    (triplet : ∀ h l rest a b, hexDigitValue h = some a → hexDigitValue l = some b → motive rest →
      motive (percent::h::l::rest))
    (lone : ∀ rest, ¬HexPair rest → motive rest → motive (percent::rest)) (s : List UInt8) : motive s := by
  induction hn : s.length using Nat.strong_induction_on generalizing s with
  | _ n ih =>
    subst hn
    rcases s with _ | ⟨byte,rest⟩
    · exact nil
    · have hr := ih rest.length (by simp) rest rfl
      by_cases hbyte : byte = percent
      · subst hbyte
        by_cases hpair : HexPair rest
        · obtain ⟨h,l,after,rfl,hh,hl⟩ := hpair
          obtain ⟨a,ha⟩ := isSome_iff_exists.mp hh
          obtain ⟨b,hb⟩ := isSome_iff_exists.mp hl
          exact triplet h l after a b ha hb (ih after.length (by simp; omega) after rfl)
        · exact lone rest hpair hr
      · exact literal byte rest hbyte hr

/-! ## Encoding -/

/-- Literal bytes and percent triplets only. -/
inductive Coded : List UInt8 → Prop
  | nil : Coded []
  | literal {byte rest} : isUriLiteral byte → Coded rest → Coded (byte::rest)
  | triplet {h l rest} : isHexDigit h → isHexDigit l → Coded rest → Coded (percent::h::l::rest)

theorem hexDigitValue_escape : ∀ byte : UInt8, hexDigitValue (hexDigit (byte >>> 4)) = some (byte >>> 4) ∧
    hexDigitValue (hexDigit (byte &&& 0x0f)) = some (byte &&& 0x0f) ∧ byte >>> 4 <<< 4 ||| byte &&& 0x0f = byte := by
  have h : ∀ n : Fin 256, hexDigitValue (hexDigit (UInt8.ofFin n >>> 4)) = some (UInt8.ofFin n >>> 4) ∧
      hexDigitValue (hexDigit (UInt8.ofFin n &&& 0x0f)) = some (UInt8.ofFin n &&& 0x0f) ∧
      UInt8.ofFin n >>> 4 <<< 4 ||| UInt8.ofFin n &&& 0x0f = UInt8.ofFin n := by decide +kernel
  exact fun byte => h byte.toFin

theorem isUriLiteral_ne_percent (h : isUriLiteral byte) : byte ≠ percent := by
  rintro rfl
  exact absurd h (by decide)

theorem Coded.encodeByte {rest : List UInt8} (byte : UInt8) (h : Coded rest) : Coded (encodeByte byte++rest) := by
  obtain ⟨hhigh,hlow,_⟩ := hexDigitValue_escape byte
  by_cases hb : isUriLiteral byte
  · simpa [PercentCoding.encodeByte,hb] using literal hb h
  · simpa [PercentCoding.encodeByte,hb] using triplet (by simp [isHexDigit,hhigh]) (by simp [isHexDigit,hlow]) h

theorem coded_encode (s : List UInt8) : Coded (uriPercentEncode s) := by
  induction s using segments_induction with
  | nil => exact .nil
  | literal byte rest hb ih => exact encode_byte (fun h => absurd h hb) ▸ ih.encodeByte byte
  | triplet h l rest a b hh hl ih =>
    have hh' : isHexDigit h := by simp [isHexDigit,hh]
    have hl' : isHexDigit l := by simp [isHexDigit,hl]
    exact encode_triplet rest hh' hl' ▸ .triplet hh' hl' ih
  | lone rest hpair ih => exact encode_byte (fun _ => hpair) ▸ ih.encodeByte percent

theorem Coded.encode_eq {s : List UInt8} (h : Coded s) : uriPercentEncode s = s := by
  induction h with
  | nil => rfl
  | literal hb _ ih =>
    rw [encode_byte fun h => absurd h (isUriLiteral_ne_percent hb),ih]
    simp [PercentCoding.encodeByte,hb]
  | triplet hh hl _ ih => rw [encode_triplet _ hh hl,ih]

/-- Decoding takes the code of a byte back, be it the byte itself or its triplet. -/
theorem decode_encodeByte (byte : UInt8) (rest : List UInt8) :
    strictPercentDecode .component (encodeByte byte++rest) = (strictPercentDecode .component rest).map (byte::·) := by
  obtain ⟨hhigh,hlow,hboth⟩ := hexDigitValue_escape byte
  by_cases hb : isUriLiteral byte
  · simpa [encodeByte,hb] using decode_literal rest (isUriLiteral_ne_percent hb) (by decide)
  · simpa [encodeByte,hb,decodeTriplet,hboth] using decode_triplet .component rest hhigh hlow

theorem decode_encode (s : List UInt8) : ∃ d, strictPercentDecode .component (uriPercentEncode s) = some d ∧
    ∀ e, strictPercentDecode .component s = some e → d = e := by
  induction s using segments_induction with
  | nil => exact ⟨[],rfl,fun e h => some.inj h⟩
  | literal byte rest hb ih =>
    obtain ⟨d,hd,heq⟩ := ih
    rw [encode_byte fun h => absurd h hb,decode_encodeByte,hd,decode_literal rest hb (by decide)]
    refine ⟨_,rfl,fun e he => ?_⟩
    obtain ⟨e,hr,rfl⟩ := map_eq_some_iff.mp he
    rw [heq e hr]
  | triplet h l rest a b hh hl ih =>
    obtain ⟨d,hd,heq⟩ := ih
    rw [encode_triplet rest (by simp [isHexDigit,hh]) (by simp [isHexDigit,hl]),decode_triplet _ _ hh hl,
      decode_triplet _ _ hh hl,hd]
    refine ⟨_,rfl,fun e he => ?_⟩
    obtain ⟨e,hr,rfl⟩ := map_eq_some_iff.mp he
    rw [heq e hr]
  | lone rest hpair ih =>
    obtain ⟨d,hd,_⟩ := ih
    rw [encode_byte fun _ => hpair,decode_encodeByte,hd,decode_lone _ hpair]
    exact ⟨_,rfl,by simp⟩

/-! ## Decoding and splitting -/

theorem reserved_bounds : isUriReserved r → r ≠ percent ∧ isHexDigit r = false := by
  have h : ∀ n : Fin 256, isUriReserved (UInt8.ofFin n) → UInt8.ofFin n ≠ percent ∧
      isHexDigit (UInt8.ofFin n) = false := by decide +kernel
  exact h r.toFin

theorem hexDigit_unreserved (hh : hexDigitValue h = some a) : isUriReserved h = false := by
  by_contra hr
  have hdigit := (reserved_bounds (by simpa using hr)).2
  simp [isHexDigit,hh] at hdigit

/-- The reserved bytes of a decoded text are those of the text, in their order. None of them was a triplet. -/
theorem decode_reserved {s d : List UInt8} (hs : strictPercentDecode .uri s = some d) :
    d.filter isUriReserved = s.filter isUriReserved := by
  induction s using segments_induction generalizing d with
  | nil => simp_all [strictPercentDecode]
  | literal byte rest hb ih =>
    rw [decode_literal rest hb (by decide)] at hs
    obtain ⟨e,he,rfl⟩ := map_eq_some_iff.mp hs
    rw [filter_cons,filter_cons,ih he]
  | triplet h l rest a b hh hl ih =>
    rw [decode_triplet _ _ hh hl] at hs
    obtain ⟨e,he,rfl⟩ := map_eq_some_iff.mp hs
    have hpercent : isUriReserved percent = false := by decide
    have hh' := hexDigit_unreserved hh
    have hl' := hexDigit_unreserved hl
    unfold decodeTriplet
    split <;> simp_all
  | lone rest hpair => simp [decode_lone _ hpair] at hs

/-- A reserved byte ends what is read before it, also where that cannot be decoded. -/
theorem decode_separator (hr : isUriReserved r) (p t : List UInt8) :
    strictPercentDecode .uri (p++r::t) =
      (strictPercentDecode .uri p).bind fun d => (strictPercentDecode .uri t).map (d++r::·) := by
  have hbounds := reserved_bounds hr
  induction p using segments_induction with
  | nil => simpa [strictPercentDecode] using decode_literal t hbounds.1 (by decide)
  | literal byte rest hb ih =>
    rw [cons_append,decode_literal _ hb (by decide),decode_literal _ hb (by decide),ih]
    simp [map_bind,bind_map,Function.comp_def]
  | triplet h l rest a b hh hl ih =>
    rw [cons_append,cons_append,cons_append,decode_triplet _ _ hh hl,decode_triplet _ _ hh hl,ih]
    simp [map_bind,bind_map,Function.comp_def]
  | lone rest hpair =>
    rw [cons_append,decode_lone _ hpair,bind_none]
    refine decode_lone _ fun ⟨h,l,after,heq,hh,hl⟩ => ?_
    -- The reserved byte would be one of the two digits, unless both stand before it.
    rcases rest with _ | ⟨x,_ | ⟨y,rest⟩⟩
    · simp_all
    · simp_all
    · exact hpair ⟨x,y,rest,rfl,by simp_all⟩

theorem split_decode (hr : isUriReserved r) (s : List UInt8) :
    (s.splitOn r).mapM (strictPercentDecode .uri) = (strictPercentDecode .uri s).map (splitOn r) := by
  have hmem {s d : List UInt8} (hd : strictPercentDecode .uri s = some d) (hs : r ∉ s) : r ∉ d := fun h =>
    hs (mem_filter.mp (decode_reserved hd ▸ mem_filter.mpr ⟨h,hr⟩)).1
  induction hn : s.length using Nat.strong_induction_on generalizing s with
  | _ n ih =>
    by_cases hs : r ∈ s
    · obtain ⟨p,t,rfl,hp⟩ := eq_append_cons_of_mem hs
      rw [splitOn_append_cons_self_of_not_mem hp,mapM_cons,ih t.length (by simp [← hn]; omega) t rfl,
        decode_separator hr]
      rcases hd : strictPercentDecode .uri p with _ | d
      · rfl
      · cases strictPercentDecode .uri t <;> simp [splitOn_append_cons_self_of_not_mem (hmem hd hp)]
    · rw [splitOn_eq_singleton hs]
      rcases hd : strictPercentDecode .uri s with _ | d
      · simp [hd]
      · simp [hd,splitOn_eq_singleton (hmem hd hs)]

/-- Encoding writes literal bytes and triplets, leaves what it wrote as it is and changes no decoding. Decoding a URI
turns no triplet into a reserved byte, so it goes together with splitting at one. -/
theorem percent_coding_lossless (s : List UInt8) : Coded (uriPercentEncode s) ∧
    uriPercentEncode (uriPercentEncode s) = uriPercentEncode s ∧
    (∃ d, strictPercentDecode .component (uriPercentEncode s) = some d ∧
      ∀ e, strictPercentDecode .component s = some e → d = e) ∧
    (∀ d, strictPercentDecode .uri s = some d → d.filter isUriReserved = s.filter isUriReserved) ∧
    ∀ r, isUriReserved r →
      (s.splitOn r).mapM (strictPercentDecode .uri) = (strictPercentDecode .uri s).map (splitOn r) :=
  ⟨coded_encode s,(coded_encode s).encode_eq,decode_encode s,fun _ => decode_reserved,fun _ hr => split_decode hr s⟩

theorem percent_coding_lossless_path :
    strictPercentDecode .uri [0x25,0x32,0x66,0x2f,0x25,0x32,0x30] = some [0x25,0x32,0x66,0x2f,0x20] ∧
    isUriReserved 0x2f ∧ ([0x25,0x32,0x66,0x2f,0x25,0x32,0x30].splitOn 0x2f).mapM (strictPercentDecode .uri) =
      (strictPercentDecode .uri [0x25,0x32,0x66,0x2f,0x25,0x32,0x30]).map (splitOn 0x2f) :=
  ⟨by decide,by decide,(percent_coding_lossless _).2.2.2.2 0x2f (by decide)⟩

end Whim.PercentCoding
