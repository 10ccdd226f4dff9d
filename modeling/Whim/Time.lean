import Mathlib.Tactic.Linarith
import Whim.Arithmetic

/-!
# Durations and system times

Seconds and nanoseconds as the language computes them: an integer that leaves its range throws.
-/

namespace Whim

def nanosecondsPerSecond : ℤ := 1000000000

/-- The result of an operation on integers of the language. -/
def asInt (n : ℤ) : Except Fault ℤ :=
  if n < -2 ^ 63 then .error .underflow else if 2 ^ 63 ≤ n then .error .overflow else .ok n

variable {n : ℤ}

theorem asInt_ok (hlo : -2 ^ 63 ≤ n) (hhi : n < 2 ^ 63) : asInt n = .ok n := by
  rw [asInt,if_neg (by omega),if_neg (by omega)]

theorem asInt_overflow (h : 2 ^ 63 ≤ n) : asInt n = .error .overflow := by
  rw [asInt,if_neg (by omega),if_pos h]

theorem asInt_error (h : ¬(-2 ^ 63 ≤ n ∧ n < 2 ^ 63)) : ∃ f, asInt n = .error f := by
  by_cases hlo : n < -2 ^ 63
  · exact ⟨_,if_pos hlo⟩
  · exact ⟨_,asInt_overflow (by omega)⟩

/-- The order of seconds and, where they are equal, of nanoseconds. -/
def compareParts (seconds nanoseconds otherSeconds otherNanoseconds : ℤ) : Ordering :=
  if seconds ≠ otherSeconds then compare seconds otherSeconds else compare nanoseconds otherNanoseconds

theorem compareParts_eq {s s' n' : ℤ} (hlt : s < s' → s*nanosecondsPerSecond+n < s'*nanosecondsPerSecond+n')
    (hgt : s' < s → s'*nanosecondsPerSecond+n' < s*nanosecondsPerSecond+n) :
    compareParts s n s' n' = compare (s*nanosecondsPerSecond+n) (s'*nanosecondsPerSecond+n') := by
  simp only [compareParts,Int.compare_eq_ite_lt,nanosecondsPerSecond] at *
  split_ifs <;> first | rfl | omega

structure Duration where
  seconds : ℤ
  nanoseconds : ℤ
  deriving DecidableEq

namespace Duration

/-- The constructor: both parts get one sign. -/
def new (seconds nanoseconds : ℤ) : Except Fault Duration := do
  let seconds ← asInt (seconds+nanoseconds.tdiv nanosecondsPerSecond)
  let nanoseconds := nanoseconds.tmod nanosecondsPerSecond
  if 0 < seconds ∧ nanoseconds < 0 then return ⟨seconds-1,nanoseconds+nanosecondsPerSecond⟩
  else if seconds < 0 ∧ 0 < nanoseconds then return ⟨seconds+1,nanoseconds-nanosecondsPerSecond⟩
  else return ⟨seconds,nanoseconds⟩

def isNegative (d : Duration) : Bool := d.seconds < 0 || d.seconds == 0 && d.nanoseconds < 0

def isLessThan (d other : Duration) : Bool :=
  if d.seconds ≠ other.seconds then d.seconds < other.seconds else d.nanoseconds < other.nanoseconds

def minus (d other : Duration) : Except Fault Duration := do
  let seconds ← asInt (d.seconds-other.seconds)
  let nanoseconds ← asInt (d.nanoseconds-other.nanoseconds)
  new seconds nanoseconds

def plus (d other : Duration) : Except Fault Duration := do
  let seconds ← asInt (d.seconds+other.seconds)
  let nanoseconds ← asInt (d.nanoseconds+other.nanoseconds)
  new seconds nanoseconds

def invert (d : Duration) : Except Fault Duration := do
  let seconds ← asInt (-d.seconds)
  let nanoseconds ← asInt (-d.nanoseconds)
  new seconds nanoseconds

def compare (d other : Duration) : Ordering := compareParts d.seconds d.nanoseconds other.seconds other.nanoseconds

def equals (d other : Duration) : Bool := d.seconds == other.seconds && d.nanoseconds == other.nanoseconds

/-- All its nanoseconds. -/
def total (d : Duration) : ℤ := d.seconds*nanosecondsPerSecond+d.nanoseconds

/-- Durations that are not negative, as the constructor makes them. -/
structure Nonneg (d : Duration) : Prop where
  seconds : 0 ≤ d.seconds
  seconds_lt : d.seconds < 2 ^ 63
  nanoseconds : 0 ≤ d.nanoseconds
  nanoseconds_lt : d.nanoseconds < nanosecondsPerSecond

/-- Durations as the constructor makes them: less than a second of nanoseconds, and parts of one sign. -/
structure Normal (d : Duration) : Prop where
  seconds : -2 ^ 63 ≤ d.seconds ∧ d.seconds < 2 ^ 63
  nanoseconds : -nanosecondsPerSecond < d.nanoseconds ∧ d.nanoseconds < nanosecondsPerSecond
  sign : 0 ≤ d.seconds ∧ 0 ≤ d.nanoseconds ∨ d.seconds ≤ 0 ∧ d.nanoseconds ≤ 0

/-- A result is the duration with so many nanoseconds if there is one, and throws if there is none. -/
def Exact (result : Except Fault Duration) (nanoseconds : ℤ) : Prop :=
  (∀ d : Duration, d.Normal → d.total = nanoseconds → result = .ok d) ∧
  ((∀ d : Duration, d.Normal → d.total ≠ nanoseconds) → ∃ fault, result = .error fault)

end Duration

/-- `SystemTime` -/
structure SystemTime where
  seconds : ℤ
  nanoseconds : ℤ
  deriving DecidableEq

namespace SystemTime

/-- The seconds up to a time that is not before the other one by its seconds. -/
def secondsForward (later earlier nanoseconds : ℤ) : Except Fault ℤ :=
  if later ≥ 0 ∧ earlier < 0 then do
    let seconds ← asInt (later + -(earlier+1))
    if nanoseconds ≥ 0 then asInt (seconds+1) else .ok seconds
  else do
    let seconds ← asInt (later-earlier)
    if nanoseconds < 0 then asInt (seconds-1) else .ok seconds

/-- The seconds and nanoseconds down to a time that is before the other one by its seconds. -/
def partsBackward (later earlier nanoseconds : ℤ) : Except Fault (ℤ × ℤ) :=
  if later < 0 ∧ earlier ≥ 0 ∧ nanoseconds > 0 then do
    let seconds ← if earlier = 0 then asInt (later+1) else asInt (later-(earlier-1))
    .ok (seconds,nanoseconds-nanosecondsPerSecond)
  else do
    let seconds ← asInt (later-earlier)
    .ok (seconds,nanoseconds)

/-- `duration_between` -/
def durationSince (later earlier : SystemTime) : Except Fault Duration := do
  let nanoseconds ← asInt (later.nanoseconds-earlier.nanoseconds)
  if later.seconds ≥ earlier.seconds then
    let seconds ← secondsForward later.seconds earlier.seconds nanoseconds
    Duration.new seconds (if nanoseconds < 0 then nanoseconds+nanosecondsPerSecond else nanoseconds)
  else
    let (seconds,nanoseconds) ← partsBackward later.seconds earlier.seconds nanoseconds
    Duration.new seconds nanoseconds

def plus (t : SystemTime) (d : Duration) : Except Fault SystemTime := do
  let seconds ← asInt (t.seconds+d.seconds)
  let nanoseconds ← asInt (t.nanoseconds+d.nanoseconds)
  let seconds ← asInt (seconds+nanoseconds.tdiv nanosecondsPerSecond)
  let nanoseconds := nanoseconds.tmod nanosecondsPerSecond
  if nanoseconds < 0 then
    let seconds ← asInt (seconds-1)
    return ⟨seconds,nanoseconds+nanosecondsPerSecond⟩
  else return ⟨seconds,nanoseconds⟩

def fromUnixTimestamp (seconds nanoseconds : ℤ) : SystemTime := ⟨seconds,nanoseconds⟩

def compare (t other : SystemTime) : Ordering := compareParts t.seconds t.nanoseconds other.seconds other.nanoseconds

def equals (t other : SystemTime) : Bool := t.seconds == other.seconds && t.nanoseconds == other.nanoseconds

def total (t : SystemTime) : ℤ := t.seconds*nanosecondsPerSecond+t.nanoseconds

/-- The times a clock returns. -/
structure Valid (t : SystemTime) : Prop where
  seconds : -2 ^ 63 ≤ t.seconds
  seconds_lt : t.seconds < 2 ^ 63
  nanoseconds : 0 ≤ t.nanoseconds
  nanoseconds_lt : t.nanoseconds < nanosecondsPerSecond

end SystemTime

section

open Except

theorem ok_bind {ε α β : Type} (a : α) (f : α → Except ε β) : (Except.ok a >>= f) = f a := rfl

theorem error_bind {ε α β : Type} (e : ε) (f : α → Except ε β) : ((Except.error e : Except ε α) >>= f) = .error e := rfl

namespace Duration

variable {d other : Duration}

theorem Normal.total_inj (h : d.Normal) (hother : other.Normal) (heq : d.total = other.total) : d = other := by
  obtain ⟨s,n⟩ := d
  obtain ⟨seconds',nanoseconds'⟩ := other
  obtain ⟨-,hn,hsign⟩ := h
  obtain ⟨-,hn',hsign'⟩ := hother
  simp only [total,nanosecondsPerSecond,mk.injEq] at *
  omega

theorem Nonneg.normal (h : d.Nonneg) : d.Normal where
  seconds := ⟨by have := h.seconds; omega,h.seconds_lt⟩
  nanoseconds := ⟨by have := h.nanoseconds; simp only [nanosecondsPerSecond]; omega,h.nanoseconds_lt⟩
  sign := .inl ⟨h.seconds,h.nanoseconds⟩

/-- The seconds of some nanoseconds, and those left, have their sign. -/
theorem nanoseconds_split (n : ℤ) : n = nanosecondsPerSecond*n.tdiv nanosecondsPerSecond+n.tmod nanosecondsPerSecond ∧
    (0 ≤ n ∧ 0 ≤ n.tmod nanosecondsPerSecond ∧ n.tmod nanosecondsPerSecond < nanosecondsPerSecond ∨
      n ≤ 0 ∧ n.tmod nanosecondsPerSecond ≤ 0 ∧ -nanosecondsPerSecond < n.tmod nanosecondsPerSecond) := by
  refine ⟨(Int.mul_tdiv_add_tmod n _).symm,?_⟩
  rcases le_total 0 n with hsign | hsign
  · exact .inl ⟨hsign,Int.tmod_nonneg _ hsign,Int.tmod_lt_of_pos n (by decide)⟩
  have hnn := Int.tmod_nonneg nanosecondsPerSecond (neg_nonneg.mpr hsign)
  have hlt := Int.tmod_lt_of_pos (-n) (show 0 < nanosecondsPerSecond by decide)
  rw [Int.neg_tmod] at hnn hlt
  exact .inr ⟨hsign,by omega,by omega⟩

/-- The constructor keeps the nanoseconds. -/
theorem new_ok (s n : ℤ) (hlo : -2 ^ 63 ≤ s+n.tdiv nanosecondsPerSecond)
    (hhi : s+n.tdiv nanosecondsPerSecond < 2 ^ 63) :
    ∃ d, new s n = .ok d ∧ d.Normal ∧ d.total = s*nanosecondsPerSecond+n := by
  have hsplit := nanoseconds_split n
  rw [new,asInt_ok hlo hhi,ok_bind]
  generalize n.tdiv nanosecondsPerSecond = quotient at *
  generalize n.tmod nanosecondsPerSecond = remainder at *
  simp only [total,nanosecondsPerSecond] at *
  split
  · refine ⟨_,rfl,⟨⟨?_,?_⟩,⟨?_,?_⟩,?_⟩,?_⟩ <;> simp only [nanosecondsPerSecond] <;> omega
  split
  · refine ⟨_,rfl,⟨⟨?_,?_⟩,⟨?_,?_⟩,?_⟩,?_⟩ <;> simp only [nanosecondsPerSecond] <;> omega
  · refine ⟨_,rfl,⟨⟨?_,?_⟩,⟨?_,?_⟩,?_⟩,?_⟩ <;> simp only [nanosecondsPerSecond] <;> omega

theorem new_of_normal (h : d.Normal) : new d.seconds d.nanoseconds = .ok d := by
  have hsplit := nanoseconds_split d.nanoseconds
  have hs := h.seconds
  have hn := h.nanoseconds
  have hdiv : d.nanoseconds.tdiv nanosecondsPerSecond = 0 := by
    simp only [nanosecondsPerSecond] at *
    omega
  obtain ⟨r,hr,hnormal,htotal⟩ := new_ok d.seconds d.nanoseconds (by omega) (by omega)
  rw [hr,hnormal.total_inj h htotal]

theorem new_of_nonneg {s n : ℤ} (hs : 0 ≤ s) (hs' : s < 2 ^ 63) (hn : 0 ≤ n)
    (hn' : n < nanosecondsPerSecond) : new s n = .ok ⟨s,n⟩ :=
  new_of_normal (d := ⟨_,_⟩) (Nonneg.normal ⟨hs,hs',hn,hn'⟩)

theorem Nonneg.isNegative (h : d.Nonneg) : d.isNegative = false := by
  have hs := h.seconds
  have hn := h.nanoseconds
  simp [Duration.isNegative]
  omega

theorem Nonneg.total_nonneg (h : d.Nonneg) : 0 ≤ d.total :=
  add_nonneg (mul_nonneg h.seconds (by decide)) h.nanoseconds

/-- The order of durations is the order of their nanoseconds. -/
theorem Nonneg.isLessThan (h : d.Nonneg) (hother : other.Nonneg) : d.isLessThan other ↔ d.total < other.total := by
  have h1 := h.nanoseconds
  have h2 := h.nanoseconds_lt
  have h3 := hother.nanoseconds
  have h4 := hother.nanoseconds_lt
  simp only [nanosecondsPerSecond] at h2 h4
  simp only [Duration.isLessThan,total,nanosecondsPerSecond]
  split <;> simp only [decide_eq_true_eq] <;> omega

section
variable {res : Except Fault Duration}

theorem Exact.of_ok (h : res = .ok d) (hnormal : d.Normal) : Exact res d.total :=
  ⟨fun r hr heq => by rw [h,hr.total_inj hnormal heq],fun hn => absurd rfl (hn d hnormal)⟩

theorem Exact.of_error {n : ℤ} (h : ∃ f, res = .error f)
    (hn : ∀ d : Duration, d.Normal → d.total ≠ n) : Exact res n := ⟨fun d hd heq => absurd heq (hn d hd),fun _ => h⟩

theorem Exact.normal {n : ℤ} (h : Exact res n) (hok : res = .ok d) : d.Normal ∧ d.total = n := by
  by_cases hsome : ∃ r : Duration, r.Normal ∧ r.total = n
  · obtain ⟨r,hr,heq⟩ := hsome
    cases hok.symm.trans (h.1 r hr heq)
    exact ⟨hr,heq⟩
  · obtain ⟨f,hfault⟩ := h.2 fun r hr heq => hsome ⟨r,hr,heq⟩
    cases hok.symm.trans hfault

end

theorem new_exact {s : ℤ} (hs : -2 ^ 63 ≤ s ∧ s < 2 ^ 63) (n : ℤ) : Exact (new s n) (s*nanosecondsPerSecond+n) := by
  by_cases hf : -2 ^ 63 ≤ s+n.tdiv nanosecondsPerSecond ∧
      s+n.tdiv nanosecondsPerSecond < 2 ^ 63
  · obtain ⟨d,hd,hnormal,htotal⟩ := new_ok s n hf.1 hf.2
    rw [← htotal]
    exact .of_ok hd hnormal
  · obtain ⟨f,hfault⟩ := asInt_error hf
    refine .of_error ⟨f,by rw [new,hfault,error_bind]⟩ fun d hd heq => hf ?_
    -- the quotient has moved the s out of range, so the remainder has the sign of both
    have hsplit := nanoseconds_split n
    obtain ⟨hd₁,hd₂,hd₃⟩ := hd
    simp only [total,nanosecondsPerSecond] at *
    omega

section
variable {s nanoseconds n : ℤ} (hsum : n = s*nanosecondsPerSecond+nanoseconds)
include hsum

/-- Seconds that are computed first, and are too large only where there is no such duration. -/
theorem seconds_exact (hs : ∀ d : Duration, d.Normal → d.total = n → -2 ^ 63 ≤ s ∧ s < 2 ^ 63) :
    Exact (asInt s >>= fun s => new s nanoseconds) n := by
  by_cases hf : -2 ^ 63 ≤ s ∧ s < 2 ^ 63
  · rw [hsum,asInt_ok hf.1 hf.2,ok_bind]
    exact new_exact hf nanoseconds
  · obtain ⟨f,hfault⟩ := asInt_error hf
    exact .of_error ⟨f,by rw [hfault,error_bind]⟩ fun d hd heq => hf (hs d hd heq)

theorem parts_exact (hn : -2 ^ 63 ≤ nanoseconds ∧ nanoseconds < 2 ^ 63)
    (hs : ∀ d : Duration, d.Normal → d.total = n → -2 ^ 63 ≤ s ∧ s < 2 ^ 63) :
    Exact (asInt s >>= fun s => asInt nanoseconds >>= new s) n := by
  simp only [asInt_ok hn.1 hn.2,ok_bind]
  exact seconds_exact hsum hs

end

theorem plus_exact (h : d.Normal) (hother : other.Normal) : Exact (d.plus other) (d.total+other.total) := by
  obtain ⟨h₁,h₂,h₃⟩ := h
  obtain ⟨ho₁,ho₂,ho₃⟩ := hother
  refine parts_exact ?_ ?_ fun r ⟨hr₁,hr₂,hr₃⟩ heq => ?_ <;> simp only [total,nanosecondsPerSecond] at * <;> omega

theorem invert_exact (h : d.Normal) : Exact d.invert (-d.total) := by
  obtain ⟨h₁,h₂,h₃⟩ := h
  refine parts_exact ?_ ?_ fun r ⟨hr₁,hr₂,hr₃⟩ heq => ?_ <;> simp only [total,nanosecondsPerSecond] at * <;> omega

theorem minus_exact (h : d.Normal) (hother : other.Normal)
    (hf : ¬(d.seconds = 0 ∧ other.seconds = -2 ^ 63 ∧ d.nanoseconds < other.nanoseconds)) :
    Exact (d.minus other) (d.total-other.total) := by
  obtain ⟨h₁,h₂,h₃⟩ := h
  obtain ⟨ho₁,ho₂,ho₃⟩ := hother
  refine parts_exact ?_ ?_ fun r ⟨hr₁,hr₂,hr₃⟩ heq => ?_ <;> simp only [total,nanosecondsPerSecond] at * <;> omega

/-- The difference of the seconds is too large, although one second less would do. -/
theorem minus_overflow (hs : d.seconds = 0) (hs' : other.seconds = -2 ^ 63) : d.minus other = .error .overflow := by
  rw [minus,asInt_overflow (by omega),error_bind]

section
variable (h : d.Normal) (hother : other.Normal)
include h hother

theorem minus_exact_iff : Exact (d.minus other) (d.total-other.total) ↔
    ¬(d.seconds = 0 ∧ other.seconds = -2 ^ 63 ∧ d.nanoseconds < other.nanoseconds) := by
  refine ⟨fun hexact ⟨hs,hs',hlt⟩ => ?_,minus_exact h hother⟩
  obtain ⟨-,hn,-⟩ := h
  obtain ⟨-,hn',hsign⟩ := hother
  have hok := hexact.1 ⟨2 ^ 63-1,nanosecondsPerSecond+d.nanoseconds-other.nanoseconds⟩
    ⟨by simp only; omega,by simp only; omega,.inl ⟨by simp only; omega,by simp only [nanosecondsPerSecond] at *; omega⟩⟩
    (by simp only [total,nanosecondsPerSecond] at *; omega)
  rw [minus_overflow hs hs'] at hok
  cases hok

theorem compare_eq : d.compare other = Ord.compare d.total other.total := by
  obtain ⟨-,hn,hsign⟩ := h
  obtain ⟨-,hn',hsign'⟩ := hother
  refine compareParts_eq ?_ ?_ <;> simp only [nanosecondsPerSecond] at * <;> omega

theorem equals_iff : d.equals other ↔ d.total = other.total := by
  rw [equals,Bool.and_eq_true,beq_iff_eq,beq_iff_eq]
  constructor
  · rintro ⟨hs,hn⟩
    rw [total,total,hs,hn]
  · intro heq
    cases h.total_inj hother heq
    exact ⟨rfl,rfl⟩

end

/-- Durations are computed exactly, except that a difference throws where its seconds are too large by one and its
nanoseconds take one back. -/
theorem operations_exact {seconds : ℤ} (hs : -2 ^ 63 ≤ seconds ∧ seconds < 2 ^ 63) (nanoseconds : ℤ)
    (h : d.Normal) (hother : other.Normal) :
    Exact (new seconds nanoseconds) (seconds*nanosecondsPerSecond+nanoseconds) ∧
    d.compare other = Ord.compare d.total other.total ∧ (d.equals other = true ↔ d.total = other.total) ∧
    Exact (d.plus other) (d.total+other.total) ∧ Exact d.invert (-d.total) ∧
    (Exact (d.minus other) (d.total-other.total) ↔
      ¬(d.seconds = 0 ∧ other.seconds = -2 ^ 63 ∧ d.nanoseconds < other.nanoseconds)) :=
  ⟨new_exact hs nanoseconds,compare_eq h hother,equals_iff h hother,plus_exact h hother,invert_exact h,
    minus_exact_iff h hother⟩

theorem operations_exact_seconds : Exact (new 3 (-1)) (3*nanosecondsPerSecond+ -1) ∧ (mk 1 5).compare ⟨2,0⟩ = .lt ∧
    Exact ((mk 1 5).minus ⟨2,0⟩) ((mk 1 5).total-(mk 2 0).total) := by
  have h := operations_exact (show -2 ^ 63 ≤ (3 : ℤ) ∧ (3 : ℤ) < 2 ^ 63 by decide) (-1)
    (show (mk 1 5).Normal from ⟨by decide,by decide,by decide⟩)
    (show (mk 2 0).Normal from ⟨by decide,by decide,by decide⟩)
  exact ⟨h.1,h.2.1,h.2.2.2.2.2.mpr (by decide)⟩

theorem minus_representable_overflow :
    (mk 0 (-5)).Normal ∧ (mk (-2 ^ 63) 0).Normal ∧ (mk (2 ^ 63-1) 999999995).Normal ∧
    (mk (2 ^ 63-1) 999999995).total = (mk 0 (-5)).total-(mk (-2 ^ 63) 0).total ∧
    (mk 0 (-5)).minus ⟨-2 ^ 63,0⟩ = .error .overflow :=
  ⟨⟨by decide,by decide,by decide⟩,⟨by decide,by decide,by decide⟩,⟨by decide,by decide,by decide⟩,by decide,by decide⟩

/-- The difference of two durations of which the second is smaller. -/
theorem Nonneg.minus (h : d.Nonneg) (hother : other.Nonneg) (hlt : other.total < d.total) :
    ∃ r, d.minus other = .ok r ∧ r.total = d.total-other.total := by
  have hsplit := nanoseconds_split (d.total-other.total)
  have hexact := minus_exact h.normal hother.normal (by have := hother.seconds; omega)
  obtain ⟨hs,hs',hn,hn'⟩ := h
  obtain ⟨ho,-,hp,-⟩ := hother
  have hbound : d.total-other.total < 2 ^ 63*nanosecondsPerSecond := by
    simp only [total,nanosecondsPerSecond] at *
    omega
  simp only [nanosecondsPerSecond] at hsplit hbound
  obtain ⟨r,-,hnormal,htotal⟩ := new_ok 0 (d.total-other.total) (by simp only [nanosecondsPerSecond]; omega)
    (by simp only [nanosecondsPerSecond]; omega)
  rw [zero_mul,zero_add] at htotal
  exact ⟨r,hexact.1 r hnormal htotal,htotal⟩

end Duration

namespace SystemTime

variable {t r : SystemTime}

theorem secondsForward_eq {l e n : ℤ} (hlater : l < 2 ^ 63) (hearlier : -2 ^ 63 ≤ e)
    (hle : e ≤ l) : secondsForward l e n = asInt (l-e-if n < 0 then 1 else 0) := by
  unfold secondsForward
  split
  · have hsum : l + -(e+1) = l-e-1 := by omega
    rw [hsum]
    by_cases hover : 2 ^ 63 ≤ l-e-1
    · rw [asInt_overflow hover,error_bind,asInt_overflow (by split <;> omega)]
    rw [asInt_ok (by omega) (by omega),ok_bind]
    by_cases hneg : n < 0
    · rw [if_neg (by omega),if_pos hneg,asInt_ok (by omega) (by omega)]
    rw [if_pos (by omega),if_neg hneg]
    congr 1
    omega
  · rw [asInt_ok (by omega) (by omega),ok_bind]
    split
    · rfl
    · rw [sub_zero,asInt_ok (by omega) (by omega)]

section
variable (ht : t.Valid) (hr : r.Valid)
include ht hr

theorem nanoseconds_ok : asInt (t.nanoseconds-r.nanoseconds) = .ok (t.nanoseconds-r.nanoseconds) := by
  obtain ⟨-,-,ht₃,ht₄⟩ := ht
  obtain ⟨-,-,hr₃,hr₄⟩ := hr
  simp only [nanosecondsPerSecond] at *
  exact asInt_ok (by omega) (by omega)

theorem durationSince_overflow
    (hf : 2 ^ 63*nanosecondsPerSecond ≤ t.total-r.total) : t.durationSince r = .error .overflow := by
  have hnanoseconds := nanoseconds_ok ht hr
  obtain ⟨ht₁,ht₂,ht₃,ht₄⟩ := ht
  obtain ⟨hr₁,hr₂,hr₃,hr₄⟩ := hr
  simp only [total,nanosecondsPerSecond] at *
  rw [durationSince,hnanoseconds,ok_bind,if_pos (by omega),secondsForward_eq ht₂ hr₁ (by omega),
    asInt_overflow (by split <;> omega),error_bind]

theorem compare_eq : t.compare r = Ord.compare t.total r.total := by
  obtain ⟨-,-,ht,ht'⟩ := ht
  obtain ⟨-,-,hr,hr'⟩ := hr
  refine compareParts_eq ?_ ?_ <;> simp only [nanosecondsPerSecond] at * <;> omega

theorem Valid.total_inj (heq : t.total = r.total) : t = r := by
  obtain ⟨s,n⟩ := t
  obtain ⟨seconds',nanoseconds'⟩ := r
  obtain ⟨-,-,ht,ht'⟩ := ht
  obtain ⟨-,-,hr,hr'⟩ := hr
  simp only [total,nanosecondsPerSecond,mk.injEq] at *
  omega

end

theorem partsBackward_bind (l e n : ℤ) : (partsBackward l e n >>= fun (s,n) => Duration.new s n) =
    if l < 0 ∧ e ≥ 0 ∧ n > 0 then
      asInt (l-e+1) >>= fun s => Duration.new s (n-nanosecondsPerSecond)
    else asInt (l-e) >>= fun s => Duration.new s n := by
  unfold partsBackward
  split
  · rw [show l-e+1 = if e = 0 then l+1 else l-(e-1) by split <;> omega]
    split
    · cases asInt (l+1) <;> rfl
    · cases asInt (l-(e-1)) <;> rfl
  · cases asInt (l-e) <;> rfl

/-- The difference of two times is exact in both directions. -/
theorem durationSince_exact (ht : t.Valid) (hr : r.Valid) : Duration.Exact (t.durationSince r) (t.total-r.total) := by
  rw [durationSince,nanoseconds_ok ht hr,ok_bind]
  obtain ⟨ht₁,ht₂,ht₃,ht₄⟩ := ht
  obtain ⟨hr₁,hr₂,hr₃,hr₄⟩ := hr
  split
  next hle =>
    rw [secondsForward_eq ht₂ hr₁ hle]
    refine Duration.seconds_exact ?_ fun d ⟨hd₁,hd₂,hd₃⟩ heq => ?_ <;>
      simp only [total,Duration.total,nanosecondsPerSecond] at * <;> split <;> omega
  next =>
    rw [partsBackward_bind]
    split
    · refine Duration.seconds_exact ?_ fun d ⟨hd₁,hd₂,hd₃⟩ heq => ?_ <;>
        simp only [total,Duration.total,nanosecondsPerSecond] at * <;> omega
    · refine Duration.seconds_exact ?_ fun d ⟨hd₁,hd₂,hd₃⟩ heq => ?_ <;>
        simp only [total,Duration.total,nanosecondsPerSecond] at * <;> omega

/-- The duration since an earlier time, if it has few enough seconds. -/
theorem durationSince_ok (ht : t.Valid) (hr : r.Valid) (hle : r.total ≤ t.total)
    (hf : t.total-r.total < 2 ^ 63*nanosecondsPerSecond) :
    ∃ d, t.durationSince r = .ok d ∧ d.Nonneg ∧ d.total = t.total-r.total := by
  have hnn : Duration.Nonneg ⟨(t.total-r.total) / nanosecondsPerSecond,(t.total-r.total) % nanosecondsPerSecond⟩ := by
    simp only [nanosecondsPerSecond] at hf
    refine ⟨?_,?_,?_,?_⟩ <;> simp only [nanosecondsPerSecond] <;> omega
  have htotal := Int.ediv_mul_add_emod (t.total-r.total) nanosecondsPerSecond
  exact ⟨_,(durationSince_exact ht hr).1 _ hnn.normal htotal,hnn,htotal⟩

theorem plus_eq {d : Duration} (hr : r.Valid) (hd : d.Normal) (ht : t.Valid) (h : r.total+d.total = t.total) :
    r.plus d = .ok t := by
  have hsplit := Duration.nanoseconds_split (r.nanoseconds+d.nanoseconds)
  obtain ⟨ht₁,ht₂,ht₃,ht₄⟩ := ht
  obtain ⟨hr₁,hr₂,hr₃,hr₄⟩ := hr
  obtain ⟨hd₁,hd₂,hd₃⟩ := hd
  rw [total,Duration.total,total] at h
  generalize hdiv : (r.nanoseconds+d.nanoseconds).tdiv nanosecondsPerSecond = quotient at *
  generalize hmod : (r.nanoseconds+d.nanoseconds).tmod nanosecondsPerSecond = remainder at *
  simp only [nanosecondsPerSecond] at *
  rw [plus,asInt_ok (by omega) (by omega),ok_bind,asInt_ok (by omega) (by omega),ok_bind,
    show nanosecondsPerSecond = 1000000000 from rfl,hdiv,hmod,asInt_ok (by omega) (by omega),ok_bind]
  dsimp only
  split
  · rw [asInt_ok (by omega) (by omega),ok_bind]
    exact congrArg ok (congrArg₂ mk (by omega) (by omega))
  · exact congrArg ok (congrArg₂ mk (by omega) (by omega))

/-- A time moved forward by a duration, to a time before one of the clock. -/
theorem plus_ok {d : Duration} (hr : r.Valid) (hd : d.Nonneg) (ht : t.Valid) (hle : r.total+d.total ≤ t.total) :
    ∃ moved, r.plus d = .ok moved ∧ moved.Valid ∧ moved.total = r.total+d.total := by
  have hnn := hd.total_nonneg
  have hvalid : Valid ⟨(r.total+d.total) / nanosecondsPerSecond,(r.total+d.total) % nanosecondsPerSecond⟩ := by
    obtain ⟨ht₁,ht₂,ht₃,ht₄⟩ := ht
    obtain ⟨hr₁,hr₂,hr₃,hr₄⟩ := hr
    refine ⟨?_,?_,?_,?_⟩ <;> simp only [total,nanosecondsPerSecond] at * <;> omega
  have htotal := Int.ediv_mul_add_emod (r.total+d.total) nanosecondsPerSecond
  exact ⟨_,plus_eq hr hd.normal hvalid htotal.symm,hvalid,htotal⟩

/-- Times with less than a second of nanoseconds are ordered and measured by the instants they stand for. -/
theorem instants_exact (ht : t.Valid) (hr : r.Valid) :
    t.compare r = Ord.compare t.total r.total ∧ (t.equals r = true ↔ t.total = r.total) ∧
    Duration.Exact (t.durationSince r) (t.total-r.total) ∧ ∀ d, t.durationSince r = .ok d → r.plus d = .ok t := by
  have hexact := durationSince_exact ht hr
  refine ⟨compare_eq ht hr,?_,hexact,fun d hd => ?_⟩
  · rw [equals,Bool.and_eq_true,beq_iff_eq,beq_iff_eq]
    refine ⟨fun ⟨hs,hn⟩ => by rw [total,total,hs,hn],fun heq => ?_⟩
    cases ht.total_inj hr heq
    exact ⟨rfl,rfl⟩
  · obtain ⟨hnormal,htotal⟩ := hexact.normal hd
    exact plus_eq hr hnormal ht (by omega)

theorem instants_exact_epoch : (fromUnixTimestamp 5 7).compare (fromUnixTimestamp 0 0) = .gt := by
  have ht : (fromUnixTimestamp 5 7).Valid := ⟨by decide,by decide,by decide,by decide⟩
  have hr : (fromUnixTimestamp 0 0).Valid := ⟨by decide,by decide,by decide,by decide⟩
  exact (instants_exact ht hr).1

theorem fromUnixTimestamp_misordered : (fromUnixTimestamp 1 0).total < (fromUnixTimestamp 0 1500000000).total ∧
    (fromUnixTimestamp 0 1500000000).compare (fromUnixTimestamp 1 0) = .lt :=
  ⟨by decide,rfl⟩

end SystemTime
end
end Whim
