import Whim.TokenBucket

/-!
# Throttle arithmetic

The arithmetic of the rate limiters on unsigned integers that throw where they leave their range. The quotients and
products are exact, and nothing in between is out of range.
-/

namespace Whim
namespace Throttle

/-- The result of an operation on unsigned integers of the language. -/
def asUint (n : ℤ) : Except Fault ℕ :=
  if n < 0 then .error .underflow else if 2 ^ 64 ≤ n then .error .overflow else .ok n.toNat

def castUint (n : ℤ) : Except Fault ℕ := if 0 ≤ n then .ok n.toNat else .error .incompatible

def castInt (n : ℕ) : Except Fault ℤ := if n < 2 ^ 63 then .ok n else .error .incompatible

def wideProduct (left right : ℕ) : Except Fault (ℕ × ℕ) := do
  let rightHigh := right / 1000000000
  let rightLow := right % 1000000000
  let lowProduct ← asUint (left*rightLow : ℕ)
  let highProduct ← asUint (left*rightHigh : ℕ)
  let high ← asUint (highProduct+lowProduct / 1000000000 : ℕ)
  return (high,lowProduct % 1000000000)

def productParts (duration : Duration) (factor : ℕ) : Except Fault (Option (ℤ × ℤ)) := do
  let wholes ← castUint duration.seconds
  if duration.seconds ≠ 0 ∧ TokenBucket.intMax / wholes < factor then return none
  let seconds ← asUint (wholes*factor : ℕ)
  let parts ← castUint duration.nanoseconds
  let (carry,nanoseconds) ← wideProduct parts factor
  let room ← asUint (TokenBucket.intMax-seconds)
  if room < carry then return none
  let seconds ← castInt (← asUint (seconds+carry : ℕ))
  let nanoseconds ← castInt nanoseconds
  return some (seconds,nanoseconds)

def productIsAtMost (duration : Duration) (factor : ℕ) (limit : Duration) : Except Fault Bool := do
  match ← productParts duration factor with
  | none => return false
  | some (seconds,nanoseconds) =>
    return seconds < limit.seconds || seconds == limit.seconds && nanoseconds ≤ limit.nanoseconds

/-- The loop of both quotients: the last number that passes the test. -/
def searchLoop (test : ℕ → Except Fault Bool) (lower upper : ℕ) : Except Fault ℕ :=
  if lower < upper then
    let distance := upper-lower
    let middle := lower+distance / 2+distance % 2
    -- the larger of the two sums
    asUint middle >>= fun _ => test middle >>= fun passes =>
      if passes then searchLoop test middle upper
      else asUint (middle-1 : ℤ) >>= fun _ => searchLoop test lower (middle-1)
  else .ok lower
termination_by upper-lower
decreasing_by all_goals omega

def durationQuotientCapped (numerator denominator : Duration) (cap : ℕ) : Except Fault ℕ :=
  searchLoop (productIsAtMost denominator · numerator) 0 cap

def multiplyDuration (duration : Duration) (factor : ℕ) : Except Fault Duration := do
  match ← productParts duration factor with
  | none => .error .incompatible
  | some (seconds,nanoseconds) => Duration.new seconds nanoseconds

def fractionalQuotient (seconds nanoseconds divisor : ℕ) : Except Fault ℕ :=
  searchLoop (fun middle => do
    let (high,low) ← wideProduct middle divisor
    return high < seconds || high == seconds && low ≤ nanoseconds) 0 999999999

/-- A divisor is not zero. -/
def divideDuration (duration : Duration) (divisor : ℕ) : Except Fault Duration := do
  let wholes ← castUint duration.seconds
  let seconds := wholes / divisor
  let remainder := wholes % divisor
  let nanoseconds ← fractionalQuotient remainder (← castUint duration.nanoseconds) divisor
  if seconds = 0 ∧ nanoseconds = 0 then Duration.new 0 1
  else Duration.new (← castInt seconds) (← castInt nanoseconds)

theorem asUint_ok {n : ℕ} (h : n < 2 ^ 64) : asUint n = .ok n := by
  rw [asUint,if_neg (by omega),if_neg (by omega),Int.toNat_natCast]

theorem castUint_ok (n : ℕ) : castUint n = .ok n := by
  rw [castUint,if_pos (by omega),Int.toNat_natCast]

theorem castInt_ok {n : ℕ} (h : n < 2 ^ 63) : castInt n = .ok n := if_pos h

theorem wideProduct_eq {left right : ℕ} (hleft : left < 1000000000) (hright : right < 2 ^ 64) :
    wideProduct left right = .ok (TokenBucket.wideProduct left right) := by
  have hlow : left*(right % 1000000000) < 1000000000*1000000000 :=
    Nat.mul_lt_mul'' hleft (Nat.mod_lt right (by decide))
  have hhigh : left*(right / 1000000000) ≤ 999999999*(right / 1000000000) := Nat.mul_le_mul_right _ (by omega)
  rw [wideProduct,asUint_ok (by omega),ok_bind,asUint_ok (by omega),ok_bind,asUint_ok (by omega),ok_bind]
  rfl

/-- The parts are those computed without checks. -/
theorem productParts_eq {d : Duration} (h : d.Nonneg) {factor : ℕ} (hfactor : factor < 2 ^ 64) :
    productParts d factor = .ok ((TokenBucket.productParts d factor).map fun (s,n) => (s,n)) := by
  obtain ⟨wholes,hwholes⟩ := Int.eq_ofNat_of_zero_le h.seconds
  obtain ⟨parts,hparts⟩ := Int.eq_ofNat_of_zero_le h.nanoseconds
  have hparts' : parts < 1000000000 := by
    have hlt := h.nanoseconds_lt
    simp only [hparts,nanosecondsPerSecond] at hlt
    omega
  have hcarry := TokenBucket.wideProduct_eq parts factor
  unfold productParts TokenBucket.productParts
  rw [hwholes,hparts,castUint_ok,ok_bind,castUint_ok,Int.toNat_natCast,Int.toNat_natCast]
  split
  · rfl
  next hsmall =>
    have hle := TokenBucket.seconds_le_intMax hsmall
    have hroom : asUint (TokenBucket.intMax-(wholes*factor : ℕ)) = .ok (TokenBucket.intMax-wholes*factor) := by
      rw [← Nat.cast_sub hle]
      exact asUint_ok (by simp only [TokenBucket.intMax]; omega)
    simp only [TokenBucket.intMax] at hle
    rw [asUint_ok (by omega),ok_bind,ok_bind,wideProduct_eq hparts' hfactor,ok_bind,hcarry]
    dsimp only
    rw [hroom,ok_bind]
    split
    · rfl
    next hfits =>
      simp only [TokenBucket.intMax] at hfits
      rw [asUint_ok (by omega),ok_bind,castInt_ok (by omega),ok_bind,castInt_ok (by omega),ok_bind]
      rfl

theorem productIsAtMost_eq {d limit : Duration} (h : d.Nonneg) {factor : ℕ} (hfactor : factor < 2 ^ 64) :
    productIsAtMost d factor limit = .ok (TokenBucket.productIsAtMost d factor limit) := by
  rw [productIsAtMost,productParts_eq h hfactor,ok_bind,TokenBucket.productIsAtMost]
  cases TokenBucket.productParts d factor <;> rfl

/-- The loop finds the last number that passes, up to the upper bound. -/
theorem searchLoop_eq {test : ℕ → Except Fault Bool} {q lower upper : ℕ} (hupper : upper < 2 ^ 64)
    (htest : ∀ m ≤ upper, test m = .ok (decide (m ≤ q))) (hle : lower ≤ upper) (hlower : lower ≤ q) :
    searchLoop test lower upper = .ok (min upper q) := by
  fun_induction searchLoop test lower upper with
  | case1 _ _ _ _ middle ih ih' =>
    rw [asUint_ok (by omega),ok_bind,htest middle (by omega),ok_bind]
    by_cases hmiddle : middle ≤ q
    · rw [if_pos (decide_eq_true hmiddle)]
      exact ih hupper htest (by omega) hmiddle
    · have hpred : (middle-1 : ℤ) = (middle-1 : ℕ) := by omega
      rw [if_neg (by simpa using hmiddle),hpred,asUint_ok (by omega),ok_bind,
        ih' (by omega) (fun m hm => htest m (by omega)) (by omega) hlower]
      congr 1
      omega
  | case2 =>
    congr 1
    omega

theorem fractionalQuotient_eq {seconds nanoseconds divisor : ℕ} (hdivisor : divisor < 2 ^ 64)
    (hseconds : seconds < divisor) (hnanoseconds : nanoseconds < 1000000000) :
    fractionalQuotient seconds nanoseconds divisor = .ok ((seconds*1000000000+nanoseconds) / divisor) := by
  have hlt : (seconds*1000000000+nanoseconds) / divisor < 1000000000 :=
    (Nat.div_lt_iff_lt_mul (by omega)).mpr (by omega)
  rw [fractionalQuotient,searchLoop_eq (q := (seconds*1000000000+nanoseconds) / divisor) (by decide) ?_ (by omega)
    (Nat.zero_le _)]
  · congr 1
    omega
  intro m hm
  rw [wideProduct_eq (by omega) hdivisor,ok_bind,TokenBucket.wideProduct_eq]
  refine congrArg Except.ok ?_
  rw [Bool.eq_iff_iff,decide_eq_true_iff,Nat.le_div_iff_mul_le (by omega)]
  simp only [Bool.or_eq_true,Bool.and_eq_true,decide_eq_true_eq,beq_iff_eq]
  omega

/-- A duration divided is rounded down to nanoseconds, but not to zero. -/
theorem divideDuration_eq {d : Duration} (h : d.Nonneg) {n : ℕ} (hn : n < 2 ^ 64) (hpos : 0 < n) :
    ∃ r, divideDuration d n = .ok r ∧ r.Nonneg ∧ r.total = max 1 (d.total / n) := by
  obtain ⟨wholes,hwholes⟩ := Int.eq_ofNat_of_zero_le h.seconds
  obtain ⟨parts,hparts⟩ := Int.eq_ofNat_of_zero_le h.nanoseconds
  have hs := h.seconds_lt
  have hlt := h.nanoseconds_lt
  simp only [hwholes,hparts,nanosecondsPerSecond] at hs hlt
  have hfraction := fractionalQuotient_eq hn (Nat.mod_lt wholes hpos) (show parts < 1000000000 by omega)
  have hfractionLt : (wholes % n*1000000000+parts) / n < 1000000000 := by
    have hmod := Nat.mod_lt wholes hpos
    exact (Nat.div_lt_iff_lt_mul hpos).mpr (by omega)
  have hquotient : wholes / n ≤ wholes := Nat.div_le_self wholes n
  have htotal : d.total / n = ((wholes / n*1000000000+(wholes % n*1000000000+parts) / n : ℕ) : ℤ) := by
    have hsplit : wholes*1000000000+parts = wholes / n*1000000000*n+(wholes % n*1000000000+parts) := by
      have hdivmod := Nat.div_add_mod wholes n
      nlinarith
    rw [Duration.total,hwholes,hparts,← Nat.mul_add_div hpos,mul_comm n,← hsplit]
    simp only [nanosecondsPerSecond]
    push_cast
    rfl
  rw [divideDuration,hwholes,castUint_ok,ok_bind,hparts,castUint_ok,ok_bind,hfraction,ok_bind,htotal]
  generalize (wholes % n*1000000000+parts) / n = fraction at *
  generalize wholes / n = quotient at *
  split
  next hzero =>
    obtain ⟨rfl,rfl⟩ := hzero
    exact ⟨⟨0,1⟩,Duration.new_of_nonneg (by decide) (by decide) (by decide) (by decide),
      ⟨by decide,by decide,by decide,by decide⟩,by decide⟩
  next =>
    rw [castInt_ok (by omega),ok_bind,castInt_ok (by omega),ok_bind]
    have hnonneg : Duration.Nonneg ⟨quotient,fraction⟩ := by
      refine ⟨?_,?_,?_,?_⟩ <;> simp only [nanosecondsPerSecond] <;> omega
    refine ⟨_,Duration.new_of_nonneg hnonneg.1 hnonneg.2 hnonneg.3 hnonneg.4,hnonneg,?_⟩
    simp only [Duration.total,nanosecondsPerSecond]
    push_cast
    omega

theorem durationQuotientCapped_eq {numerator denominator : Duration} (hn : numerator.Nonneg) (hd : denominator.Nonneg)
    (hpos : 0 < denominator.total) {cap : ℕ} (hcap : cap < 2 ^ 64) :
    ∃ q, durationQuotientCapped numerator denominator cap = .ok q ∧
      (q : ℤ) = min (cap : ℤ) (numerator.total / denominator.total) := by
  obtain ⟨q,hq⟩ := Int.eq_ofNat_of_zero_le (Int.ediv_nonneg hn.total_nonneg hpos.le)
  refine ⟨min cap q,searchLoop_eq hcap (fun m hm => ?_) (Nat.zero_le cap) (Nat.zero_le q),by omega⟩
  rw [productIsAtMost_eq hd (by omega)]
  refine congrArg Except.ok ?_
  rw [Bool.eq_iff_iff,TokenBucket.productIsAtMost_iff hd hn,decide_eq_true_iff,mul_comm,
    ← Int.le_ediv_iff_mul_le hpos,hq]
  exact Int.ofNat_le

theorem multiplyDuration_eq {d : Duration} (h : d.Nonneg) {factor : ℕ} (hfactor : factor < 2 ^ 64) :
    multiplyDuration d factor = TokenBucket.multiplyDuration d factor := by
  rw [multiplyDuration,productParts_eq h hfactor,ok_bind,TokenBucket.multiplyDuration]
  cases TokenBucket.productParts d factor <;> rfl

/-- Quotients and products of durations are exact, and no intermediate value overflows. A product that does not fit
is refused. -/
theorem durations_exact {d e : Duration} (hd : d.Nonneg) (he : e.Nonneg) (hpos : 0 < e.total) {n : ℕ}
    (hn : n < 2 ^ 64) :
    (0 < n → 0 < d.total → ∃ r, divideDuration d n = .ok r ∧ r.Nonneg ∧ r.total = max 1 (d.total / n)) ∧
    (∃ q, durationQuotientCapped d e n = .ok q ∧ (q : ℤ) = min (n : ℤ) (d.total / e.total)) ∧
    (e.total*n < 2 ^ 63*nanosecondsPerSecond → ∃ r, multiplyDuration e n = .ok r ∧ r.Nonneg ∧ r.total = e.total*n) ∧
    (2 ^ 63*nanosecondsPerSecond ≤ e.total*n → multiplyDuration e n = .error .incompatible) := by
  refine ⟨fun hdivisor _ => divideDuration_eq hd hn hdivisor,durationQuotientCapped_eq hd he hpos hn,?_,?_⟩
  · intro hfits
    rw [multiplyDuration_eq he hn]
    have hlimit : (Duration.mk (2 ^ 63-1) 999999999).Nonneg := ⟨by decide,by decide,by decide,by decide⟩
    refine TokenBucket.multiplyDuration_ok he hlimit ?_
    simp only [Duration.total,nanosecondsPerSecond] at *
    omega
  · intro hlarge
    rw [multiplyDuration_eq he hn,TokenBucket.multiplyDuration]
    rcases TokenBucket.productParts_spec he n with ⟨hnone,-⟩ | ⟨seconds,nanoseconds,-,hs,hparts,heq⟩
    · rw [hnone]
    · simp only [nanosecondsPerSecond] at *
      omega

/-- Ten seconds in three parts, and seven nanoseconds three times. -/
theorem durations_exact_thirds : divideDuration ⟨10,0⟩ 3 = .ok ⟨3,333333333⟩ ∧
    durationQuotientCapped ⟨10,0⟩ ⟨0,7⟩ 3 = .ok 3 ∧ multiplyDuration ⟨0,7⟩ 3 = .ok ⟨0,21⟩ := by
  obtain ⟨hdivide,⟨q,hquotient,hq⟩,hmultiply,-⟩ := durations_exact
    (show (Duration.mk 10 0).Nonneg from ⟨by decide,by decide,by decide,by decide⟩)
    (show (Duration.mk 0 7).Nonneg from ⟨by decide,by decide,by decide,by decide⟩) (by decide) (show 3 < 2 ^ 64 by decide)
  obtain ⟨third,hthird,hnonneg,htotal⟩ := hdivide (by decide) (by decide)
  obtain ⟨product,hproduct,hnonneg',htotal'⟩ := hmultiply (by decide)
  have hcapped : q = 3 := by
    have hmin : min (3 : ℤ) ((Duration.mk 10 0).total / (Duration.mk 0 7).total) = 3 := by decide
    exact Int.ofNat_inj.mp (hq.trans hmin)
  have hthirdNormal : (Duration.mk 3 333333333).Normal := ⟨by decide,by decide,by decide⟩
  have hproductNormal : (Duration.mk 0 21).Normal := ⟨by decide,by decide,by decide⟩
  rw [hthird,hquotient,hproduct,hcapped,hnonneg.normal.total_inj hthirdNormal (htotal.trans (by decide)),
    hnonneg'.normal.total_inj hproductNormal (htotal'.trans (by decide))]
  exact ⟨rfl,rfl,rfl⟩

end Throttle
end Whim
