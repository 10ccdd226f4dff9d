import Mathlib.Tactic.Ring
import Whim.Time

/-!
# Token buckets

A limiter keeps for each key its permits and the time up to which they are settled. A call that throws leaves what it
has not yet stored.
-/

namespace Whim.TokenBucket

open OrderedMap

section

/-- A product with nanoseconds, as whole seconds and the nanoseconds left. -/
def wideProduct (left right : ℕ) : ℕ × ℕ :=
  let rightHigh := right / 1000000000
  let rightLow := right % 1000000000
  let lowProduct := left*rightLow
  (left*rightHigh+lowProduct / 1000000000,lowProduct % 1000000000)

def intMax : ℕ := 2 ^ 63-1

/-- The product of a duration that is not negative, unless it has too many seconds. -/
def productParts (duration : Duration) (factor : ℕ) : Option (ℕ × ℕ) :=
  if duration.seconds ≠ 0 ∧ intMax / duration.seconds.toNat < factor then none
  else
    let seconds := duration.seconds.toNat*factor
    let (carry,nanoseconds) := wideProduct duration.nanoseconds.toNat factor
    if intMax-seconds < carry then none else some (seconds+carry,nanoseconds)

def productIsAtMost (duration : Duration) (factor : ℕ) (limit : Duration) : Bool :=
  match productParts duration factor with
  | none => false
  | some (seconds,nanoseconds) =>
    (seconds : ℤ) < limit.seconds || (seconds : ℤ) == limit.seconds && (nanoseconds : ℤ) ≤ limit.nanoseconds

/-- The loop of `duration_quotient_capped`. -/
def quotientLoop (numerator denominator : Duration) (lower upper : ℕ) : ℕ :=
  if lower < upper then
    let distance := upper-lower
    let middle := lower+distance / 2+distance % 2
    if productIsAtMost denominator middle numerator then quotientLoop numerator denominator middle upper
    else quotientLoop numerator denominator lower (middle-1)
  else lower
termination_by upper-lower
decreasing_by all_goals omega

def durationQuotientCapped (numerator denominator : Duration) (cap : ℕ) : ℕ :=
  quotientLoop numerator denominator 0 cap

/-- The cast of the parts throws where there is no product. -/
def multiplyDuration (duration : Duration) (factor : ℕ) : Except Fault Duration :=
  match productParts duration factor with
  | none => .error .incompatible
  | some (seconds,nanoseconds) => Duration.new seconds nanoseconds

end

/-- A limiter with its settings. Permits are counted up to the burst, and one appears each interval. -/
structure Limiter where
  burst : ℕ
  interval : Duration
  burst_pos : 0 < burst
  burst_lt : burst < 2 ^ 64
  nonneg : interval.Nonneg
  positive : 0 < interval.total

variable {K : Type} [BEq K]

/-- The permits of the keys, with the times up to which they are settled. -/
abbrev Buckets (K : Type) := List (K × ℕ × SystemTime)

inductive Decision
  | allowed (remaining : ℕ)
  | denied (retryAfter : Duration)
  deriving DecidableEq

namespace Limiter

variable (limiter : Limiter)

/-- The permits and the time of a key after the time `elapsed` since it was settled. -/
def settle (permits : ℕ) (refilled now : SystemTime) (elapsed : Duration) : Except Fault (ℕ × SystemTime) :=
  if elapsed.isNegative then .ok (permits,now)
  else if elapsed.isLessThan limiter.interval then .ok (permits,refilled)
  else
    let missing := limiter.burst-permits
    let earned := durationQuotientCapped elapsed limiter.interval missing
    if earned = missing then .ok (limiter.burst,now)
    else do
      let added ← multiplyDuration limiter.interval earned
      let settled ← refilled.plus added
      return (permits+earned,settled)

/-- `refill`: the buckets with the settled state of the key, and that state. -/
def refill (buckets : Buckets K) (key : K) (now : SystemTime) : Except Fault (Buckets K × ℕ × SystemTime) :=
  match lookup buckets key with
  | none => .ok (insert buckets key (limiter.burst,now),limiter.burst,now)
  | some (permits,refilled) => do
    let elapsed ← now.durationSince refilled
    let state ← limiter.settle permits refilled now elapsed
    return (insert buckets key state,state)

/-- The decision for a key without permits. -/
def deny (refilled now : SystemTime) : Except Fault Decision := do
  let elapsed ← now.durationSince refilled
  let retryAfter ← limiter.interval.minus elapsed
  return .denied retryAfter

/-- A call leaves buckets also when it throws. -/
def hit (buckets : Buckets K) (key : K) (now : SystemTime) : Buckets K × Except Fault Decision :=
  match limiter.refill buckets key now with
  | .error fault => (buckets,.error fault)
  | .ok (buckets,permits,refilled) =>
    if permits = 0 then (buckets,limiter.deny refilled now)
    else (insert buckets key (permits-1,refilled),.ok (.allowed (permits-1)))

def peek (buckets : Buckets K) (key : K) (now : SystemTime) : Buckets K × Except Fault Decision :=
  match limiter.refill buckets key now with
  | .error fault => (buckets,.error fault)
  | .ok (buckets,permits,refilled) =>
    if permits = 0 then (buckets,limiter.deny refilled now) else (buckets,.ok (.allowed permits))

end Limiter

section

variable {d m : Duration}

theorem wideProduct_eq (left r : ℕ) : wideProduct left r = (left*r / 1000000000,left*r % 1000000000) := by
  have hsplit : left*r = 1000000000*(left*(r / 1000000000))+left*(r % 1000000000) := by
    rw [Nat.mul_left_comm,← Nat.mul_add,Nat.div_add_mod]
  rw [wideProduct,hsplit,Nat.mul_add_div (by decide),Nat.mul_add_mod]

theorem seconds_le_intMax {wholes f : ℕ} (h : ¬((wholes : ℤ) ≠ 0 ∧ intMax / wholes < f)) : wholes*f ≤ intMax := by
  rcases Nat.eq_zero_or_pos wholes with rfl | hpos
  · rw [Nat.zero_mul]
    exact Nat.zero_le _
  · rw [mul_comm]
    exact (Nat.le_div_iff_mul_le hpos).mp (Nat.le_of_not_lt fun hlt => h ⟨by omega,hlt⟩)

/-- The parts of a product, where it has few enough seconds, have its nanoseconds. -/
theorem productParts_spec (h : d.Nonneg) (f : ℕ) :
    (productParts d f = none ∧ 2 ^ 63*nanosecondsPerSecond ≤ d.total*f) ∨
    ∃ seconds nanoseconds, productParts d f = some (seconds,nanoseconds) ∧ seconds < 2 ^ 63 ∧
      nanoseconds < 1000000000 ∧ (seconds*nanosecondsPerSecond+nanoseconds : ℤ) = d.total*f := by
  obtain ⟨wholes,hwholes⟩ := Int.eq_ofNat_of_zero_le h.seconds
  obtain ⟨parts,hparts⟩ := Int.eq_ofNat_of_zero_le h.nanoseconds
  have htotal : d.total*f = (wholes*f : ℕ)*nanosecondsPerSecond+(parts*f : ℕ) := by
    rw [Duration.total,hwholes,hparts]
    push_cast
    ring
  have hdivmod := Nat.div_add_mod (parts*f) 1000000000
  have hmod := Nat.mod_lt (parts*f) (show 0 < 1000000000 by decide)
  unfold productParts
  rw [hwholes,hparts,wideProduct_eq]
  simp only [Int.toNat_natCast,nanosecondsPerSecond] at *
  split
  next hlarge =>
    refine .inl ⟨rfl,?_⟩
    have hlt : intMax < wholes*f := by
      rw [mul_comm]
      exact (Nat.div_lt_iff_lt_mul (by omega)).mp hlarge.2
    rw [htotal]
    simp only [intMax] at hlt
    omega
  next hsmall =>
    have hle := seconds_le_intMax hsmall
    simp only [intMax] at hle
    by_cases hcarry : intMax-wholes*f < parts*f / 1000000000
    · rw [if_pos hcarry]
      simp only [intMax] at hcarry
      refine .inl ⟨rfl,?_⟩
      rw [htotal]
      omega
    · rw [if_neg hcarry]
      simp only [intMax] at hcarry
      refine .inr ⟨_,_,rfl,?_,hmod,?_⟩
      · omega
      rw [htotal]
      push_cast
      omega

theorem productIsAtMost_iff (h : d.Nonneg) (hlimit : m.Nonneg) (f : ℕ) :
    productIsAtMost d f m ↔ d.total*f ≤ m.total := by
  unfold productIsAtMost
  obtain ⟨hs,hs',hn,hn'⟩ := hlimit
  rcases productParts_spec h f with ⟨hnone,hlarge⟩ | ⟨seconds,nanoseconds,hsome,-,hlt,heq⟩
  · simp only [hnone,Bool.false_eq_true,false_iff,not_le]
    refine lt_of_lt_of_le ?_ hlarge
    simp only [Duration.total,nanosecondsPerSecond] at *
    omega
  · simp only [hsome,Bool.or_eq_true,Bool.and_eq_true,decide_eq_true_eq,beq_iff_eq,← heq]
    simp only [Duration.total,nanosecondsPerSecond] at *
    omega

section
variable {n denominator : Duration} (hn : n.Nonneg) (hd : denominator.Nonneg) (hpos : 0 < denominator.total)
include hn hd hpos

/-- The loop finds the quotient, up to the cap. -/
theorem quotientLoop_eq {lower upper : ℕ} (hle : lower ≤ upper) (hlower : (lower : ℤ) ≤ n.total / denominator.total) :
    (quotientLoop n denominator lower upper : ℤ) = min (upper : ℤ) (n.total / denominator.total) := by
  fun_induction quotientLoop n denominator lower upper with
  | case1 _ _ _ _ _ hmost ih =>
    rw [productIsAtMost_iff hd hn,mul_comm,← Int.le_ediv_iff_mul_le hpos] at hmost
    exact ih (by omega) hmost
  | case2 _ _ _ _ _ hmost ih =>
    rw [productIsAtMost_iff hd hn,mul_comm,← Int.le_ediv_iff_mul_le hpos] at hmost
    rw [ih (by omega) hlower]
    omega
  | case3 => omega

theorem durationQuotientCapped_eq (cap : ℕ) :
    (durationQuotientCapped n denominator cap : ℤ) = min (cap : ℤ) (n.total / denominator.total) :=
  quotientLoop_eq hn hd hpos (Nat.zero_le cap) (Int.ediv_nonneg hn.total_nonneg hpos.le)

end

theorem multiplyDuration_ok (h : d.Nonneg) (hlimit : m.Nonneg) {f : ℕ} (hle : d.total*f ≤ m.total) :
    ∃ product, multiplyDuration d f = .ok product ∧ product.Nonneg ∧ product.total = d.total*f := by
  rcases productParts_spec h f with ⟨-,hlarge⟩ | ⟨seconds,nanoseconds,hsome,hs,hn,heq⟩
  · have hlt : m.total < 2 ^ 63*nanosecondsPerSecond := by
      have hs := hlimit.seconds_lt
      have hn := hlimit.nanoseconds_lt
      simp only [Duration.total,nanosecondsPerSecond] at *
      omega
    omega
  · have hn' : (nanoseconds : ℤ) < nanosecondsPerSecond := by
      simp only [nanosecondsPerSecond]
      omega
    refine ⟨⟨seconds,nanoseconds⟩,?_,⟨by simp,by simp; omega,by simp,hn'⟩,heq⟩
    simp only [multiplyDuration,hsome]
    exact Duration.new_of_nonneg (by omega) (by omega) (by omega) hn'

end

section

variable {limiter : Limiter}

/-- What a key may still be granted up to a time. -/
def Limiter.credit (limiter : Limiter) (state : ℕ × SystemTime) (stop : ℤ) : ℤ :=
  state.1+(stop-state.2.total) / limiter.interval.total

/-- A state that is settled at the time `now`. -/
structure Limiter.Current (limiter : Limiter) (now : SystemTime) (state : ℕ × SystemTime) : Prop where
  le_burst : state.1 ≤ limiter.burst
  valid : state.2.Valid
  le_now : state.2.total ≤ now.total
  recent : now.total-state.2.total < limiter.interval.total

/-- Settling grants nothing new, and gives a permit as soon as an interval has passed. -/
structure Limiter.Settles (limiter : Limiter) (before : ℕ × SystemTime) (now : SystemTime)
    (after : ℕ × SystemTime) : Prop where
  fits : now.total-before.2.total < 2 ^ 63*nanosecondsPerSecond
  current : limiter.Current now after
  credit_le : ∀ stop, now.total ≤ stop → limiter.credit after stop ≤ limiter.credit before stop
  pos_iff : 0 < after.1 ↔ 0 < before.1 ∨ limiter.interval.total ≤ now.total-before.2.total

theorem Limiter.current_burst {now : SystemTime} (h : now.Valid) : limiter.Current now (limiter.burst,now) where
  le_burst := le_rfl
  valid := h
  le_now := le_rfl
  recent := by
    rw [sub_self]
    exact limiter.positive

section
variable {permits : ℕ} {refilled now : SystemTime} (hle : permits ≤ limiter.burst)
include hle

/-- A full bucket forgets the time it has waited. -/
theorem Limiter.credit_burst_le
    (hearned : (limiter.burst-permits : ℕ) ≤ (now.total-refilled.total) / limiter.interval.total) (stop : ℤ) :
    limiter.credit (limiter.burst,now) stop ≤ limiter.credit (permits,refilled) stop := by
  have hmul : (now.total-refilled.total) / limiter.interval.total*limiter.interval.total ≤
      now.total-refilled.total := Int.ediv_mul_le _ limiter.positive.ne'
  have hdiv : (stop-now.total) / limiter.interval.total+(now.total-refilled.total) / limiter.interval.total ≤
      (stop-refilled.total) / limiter.interval.total := by
    rw [← Int.add_mul_ediv_right _ _ limiter.positive.ne']
    exact Int.ediv_le_ediv limiter.positive (by omega)
  simp only [Limiter.credit]
  omega

theorem Limiter.settle_settles {elapsed : Duration} (hrefilled : refilled.Valid) (hnow : now.Valid)
    (helapsed : elapsed.Nonneg)
    (htotal : elapsed.total = now.total-refilled.total) :
    ∃ state, limiter.settle permits refilled now elapsed = .ok state ∧
      limiter.Settles (permits,refilled) now state := by
  have hpos := limiter.positive
  have hnn := helapsed.total_nonneg
  have hf : now.total-refilled.total < 2 ^ 63*nanosecondsPerSecond := by
    have hs := helapsed.seconds_lt
    have hn := helapsed.nanoseconds_lt
    rw [← htotal]
    simp only [Duration.total,nanosecondsPerSecond] at *
    omega
  unfold Limiter.settle
  rw [if_neg (by rw [helapsed.isNegative]; decide)]
  by_cases hshort : elapsed.isLessThan limiter.interval = true
  · rw [if_pos hshort]
    rw [helapsed.isLessThan limiter.nonneg,htotal] at hshort
    have hle' : refilled.total ≤ now.total := by omega
    exact ⟨_,rfl,hf,⟨hle,hrefilled,hle',hshort⟩,fun _ _ => le_rfl,.inl,fun h => h.resolve_right hshort.not_ge⟩
  rw [if_neg hshort]
  rw [helapsed.isLessThan limiter.nonneg,htotal,not_lt] at hshort
  have hearned := durationQuotientCapped_eq helapsed limiter.nonneg hpos (limiter.burst-permits)
  rw [htotal] at hearned
  dsimp only
  generalize durationQuotientCapped elapsed limiter.interval (limiter.burst-permits) = earned at *
  split
  next =>
    refine ⟨_,rfl,hf,Limiter.current_burst hnow,fun stop _ => Limiter.credit_burst_le hle (by omega) stop,?_⟩
    exact ⟨fun _ => .inr hshort,fun _ => limiter.burst_pos⟩
  next =>
    have hquotient : (earned : ℤ) = (now.total-refilled.total) / limiter.interval.total := by omega
    have hdivmod := Int.mul_ediv_add_emod (now.total-refilled.total) limiter.interval.total
    have hmod := Int.emod_lt_of_pos (now.total-refilled.total) hpos
    have hmod' := Int.emod_nonneg (now.total-refilled.total) hpos.ne'
    rw [← hquotient] at hdivmod
    obtain ⟨added,hadded,hadded',haddedTotal⟩ :=
      multiplyDuration_ok limiter.nonneg helapsed (show limiter.interval.total*earned ≤ elapsed.total by omega)
    obtain ⟨moved,hmoved,hmoved',hmovedTotal⟩ := SystemTime.plus_ok hrefilled hadded' hnow (by omega)
    rw [hadded,ok_bind,hmoved,ok_bind]
    refine ⟨_,rfl,hf,⟨?_,hmoved',?_,?_⟩,?_,?_⟩
    · omega
    · show moved.total ≤ now.total
      omega
    · show now.total-moved.total < limiter.interval.total
      omega
    · -- the intervals that were waited for turn into permits
      intro stop _
      have hshift : stop-refilled.total = stop-moved.total+earned*limiter.interval.total := by
        rw [hmovedTotal,haddedTotal]
        ring
      simp only [Limiter.credit,hshift,Int.add_mul_ediv_right _ _ hpos.ne',Nat.cast_add]
      omega
    · have hearnedPos : 0 < earned := by
        have hone : 1 ≤ (now.total-refilled.total) / limiter.interval.total :=
          (Int.le_ediv_iff_mul_le hpos).mpr (by omega)
        omega
      exact ⟨fun _ => .inr hshort,fun _ => Nat.add_pos_right _ hearnedPos⟩

end

end
end Whim.TokenBucket
