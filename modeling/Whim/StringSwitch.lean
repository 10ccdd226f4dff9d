import Mathlib.Data.List.Induction
import Whim.Verify

/-!
# Switches on strings

The arms stand in buckets with open addressing: an arm takes the first free bucket from the one its hash chooses, and a
lookup walks the same way.
-/

namespace Whim.Verify

open List Option

section

variable (arms : List (Atom × Int32)) (buckets : List ℕ) (value : List UInt8)

/-- The loop of `string_switch_lookup`. -/
def lookupFrom (mask : ℕ) : ℕ → ℕ → Option ℕ
  | 0, _ => none
  | fuel+1, bucket =>
    let entry := buckets.getD bucket 0
    if entry = 0 then none
    else do
      let arm ← arms[entry-1]?
      if arm.1.bytes = value then some (entry-1) else lookupFrom mask fuel ((bucket+1) &&& mask)

def stringSwitchLookup (xxh3 : List UInt8 → UInt64) : Option ℕ :=
  if buckets.length = 0 then none
  else
    let mask := buckets.length-1
    lookupFrom arms buckets value mask buckets.length (stringSwitchBucket xxh3 value mask)

/-- `switch_string_target` over a string table, for a subject with these bytes. -/
def switchStringTarget (xxh3 : List UInt8 → UInt64) (default : Int32) : Int32 :=
  ((stringSwitchLookup arms buckets value xxh3).bind (arms[·]?)).elim default Prod.snd

end

section

variable {buckets : List ℕ} {mask fuel b k : ℕ}

theorem freeBucket_of_taken (h : buckets.getD b 0 ≠ 0) :
    freeBucket buckets mask (fuel+1) b = freeBucket buckets mask fuel ((b+1) &&& mask) := if_pos h

theorem freeBucket_of_free (h : buckets.getD b 0 = 0) : freeBucket buckets mask fuel b = b := by
  cases fuel with
  | zero => rfl
  | succ => exact if_neg (not_not.mpr h)

theorem freeBucket_succ (h : buckets.getD (freeBucket buckets mask fuel b) 0 = 0) :
    freeBucket buckets mask (fuel+1) b = freeBucket buckets mask fuel b := by
  induction fuel generalizing b with
  | zero => exact freeBucket_of_free h
  | succ _ ih =>
    by_cases hb : buckets.getD b 0 = 0
    · rw [freeBucket_of_free hb,freeBucket_of_free hb]
    · rw [freeBucket_of_taken hb] at h ⊢
      rw [freeBucket_of_taken hb,ih h]

theorem freeBucket_le (h : b ≤ mask) : freeBucket buckets mask fuel b ≤ mask := by
  induction fuel generalizing b with
  | zero => exact h
  | succ _ ih =>
    rw [freeBucket]
    split
    · exact ih Nat.and_le_right
    · exact h

/-- A walk that ends at a taken bucket has seen a taken one at every distance. -/
theorem taken_of_freeBucket {d : ℕ} (h : buckets.getD (freeBucket buckets (2^k-1) fuel (b%2^k)) 0 ≠ 0)
    (hd : d ≤ fuel) : buckets.getD ((b+d)%2^k) 0 ≠ 0 := by
  induction fuel generalizing b d with
  | zero =>
    obtain rfl : d = 0 := by omega
    exact h
  | succ _ ih =>
    have hb : buckets.getD (b%2^k) 0 ≠ 0 := fun hb => h (by rwa [freeBucket_of_free hb])
    cases d with
    | zero => exact hb
    | succ d =>
      rw [freeBucket_of_taken hb,Nat.and_two_pow_sub_one_eq_mod,Nat.mod_add_mod] at h
      rw [Nat.add_comm d,← Nat.add_assoc]
      exact ih h (Nat.le_of_succ_le_succ hd)

theorem free_freeBucket (hlen : buckets.length = 2^k) (hfree : 0 ∈ buckets) (hash : ℕ) :
    buckets.getD (freeBucket buckets (2^k-1) (2^k-1) (hash &&& (2^k-1))) 0 = 0 := by
  rw [Nat.and_two_pow_sub_one_eq_mod]
  by_contra h
  obtain ⟨free,hlt,hz⟩ := getElem_of_mem hfree
  rw [hlen] at hlt
  rw [← Nat.mod_mod] at h
  have hstart := Nat.mod_lt hash (Nat.two_pow_pos k)
  have hdistance := Nat.mod_lt (free+2^k-hash%2^k) (Nat.two_pow_pos k)
  have := taken_of_freeBucket h (Nat.le_sub_one_of_lt hdistance)
  rw [Nat.add_mod_mod,Nat.add_sub_cancel' (by omega),Nat.add_mod_right,Nat.mod_eq_of_lt hlt] at this
  simp [hlen,hlt,hz] at this

end

section

variable {xxh3 : List UInt8 → UInt64} {arms : List (Atom × Int32)} {arm : Atom × Int32}
  {buckets : List ℕ} {value : List UInt8} {mask fuel b f i : ℕ}

theorem lookupFrom_taken {e : ℕ} (h : buckets.getD b 0 = e+1) :
    lookupFrom arms buckets value mask (fuel+1) b = arms[e]?.bind fun found =>
      if found.1.bytes = value then some e else lookupFrom arms buckets value mask fuel ((b+1) &&& mask) := by
  simp only [lookupFrom,h,Nat.add_one_ne_zero,if_false,Nat.add_sub_cancel,bind_eq_bind]

theorem lookupFrom_free (h : buckets.getD b 0 = 0) : lookupFrom arms buckets value mask fuel b = none := by
  cases fuel with
  | zero => rfl
  | succ => exact if_pos h

theorem lookupFrom_miss (h : ∀ found ∈ arms, found.1.bytes ≠ value) :
    lookupFrom arms buckets value mask fuel b = none := by
  induction fuel generalizing b with
  | zero => rfl
  | succ _ ih =>
    cases hentry : buckets.getD b 0 with
    | zero => exact lookupFrom_free hentry
    | succ =>
      rw [lookupFrom_taken hentry,bind_eq_none_iff]
      intro found harm
      rw [if_neg (h found (mem_of_getElem? harm)),ih]

variable (hentries : ∀ b, buckets.getD b 0 ≤ arms.length) (hfree : buckets.getD f 0 = 0)
include hentries hfree

/-- A taken bucket and its arm are as before after one more arm went into a free bucket. -/
theorem taken_insert (arm : Atom × Int32) (h : buckets.getD b 0 ≠ 0) : ∃ e found, buckets.getD b 0 = e+1 ∧
    (buckets.set f (arms.length+1)).getD b 0 = e+1 ∧ arms[e]? = some found ∧ (arms++[arm])[e]? = some found := by
  obtain ⟨e,hentry⟩ := Nat.exists_eq_succ_of_ne_zero h
  have hlt : e < arms.length := by have := hentries b; omega
  have hne : f ≠ b := fun hfb => h (hfb ▸ hfree)
  refine ⟨e,arms[e],hentry,?_,getElem?_eq_getElem hlt,?_⟩
  · rw [getD_eq_getElem?_getD,getElem?_set_ne hne,← getD_eq_getElem?_getD,hentry]
  · rw [getElem?_append_left hlt,getElem?_eq_getElem hlt]

theorem lookupFrom_insert (h : lookupFrom arms buckets value mask fuel b = some i) :
    lookupFrom (arms++[arm]) (buckets.set f (arms.length+1)) value mask fuel b = some i := by
  induction fuel generalizing b with
  | zero => cases h
  | succ _ ih =>
    have htaken : buckets.getD b 0 ≠ 0 := fun hb => by cases (lookupFrom_free hb).symm.trans h
    obtain ⟨e,found,hentry,hentry',harm,harm'⟩ := taken_insert hentries hfree arm htaken
    rw [lookupFrom_taken hentry,harm,bind_some] at h
    rw [lookupFrom_taken hentry',harm',bind_some]
    split at h
    next heq => rwa [if_pos heq]
    next hne => rw [if_neg hne,ih h]

theorem lookupFrom_inserted (hmiss : ∀ found ∈ arms, found.1.bytes ≠ arm.1.bytes) (hlt : f < buckets.length)
    (hf : freeBucket buckets mask fuel b = f) :
    lookupFrom (arms++[arm]) (buckets.set f (arms.length+1)) arm.1.bytes mask (fuel+1) b = some arms.length := by
  have hnew : (buckets.set f (arms.length+1)).getD f 0 = arms.length+1 := by simp [hlt]
  induction fuel generalizing b with
  | zero =>
    obtain rfl : b = f := hf
    simp [lookupFrom_taken hnew]
  | succ _ ih =>
    by_cases hb : buckets.getD b 0 = 0
    · obtain rfl : b = f := (freeBucket_of_free hb).symm.trans hf
      simp [lookupFrom_taken hnew]
    · obtain ⟨e,found,-,hentry,harm,harm'⟩ := taken_insert hentries hfree arm hb
      rw [lookupFrom_taken hentry,harm',bind_some,if_neg (hmiss found (mem_of_getElem? harm))]
      exact ih ((freeBucket_of_taken hb).symm.trans hf)

end

section

variable (xxh3 : List UInt8 → UInt64)

/-- The buckets after the first arms of a table of a given width. -/
structure Built (width : ℕ) (arms : List (Atom × Int32)) (buckets : List ℕ) : Prop where
  length : buckets.length = width
  entries : ∀ b, buckets.getD b 0 ≤ arms.length
  free : buckets.count 0+arms.length = width
  lookup : ∀ value, stringSwitchLookup arms buckets value xxh3 = arms.findIdx? fun arm => arm.1.bytes = value

/-- What one turn of the loop of `string_switch_buckets` does. -/
def placeArm (width : ℕ) (buckets : List ℕ) (arm : (Atom × Int32) × ℕ) : List ℕ :=
  buckets.set (freeBucket buckets (width-1) width (stringSwitchBucket xxh3 arm.1.1.bytes (width-1))) (arm.2+1)

variable {xxh3} {arms : List (Atom × Int32)} {buckets : List ℕ} {k : ℕ}

theorem Built.insert {arm : Atom × Int32} {f : ℕ} (h : Built xxh3 (2^k) arms buckets)
    (hf : freeBucket buckets (2^k-1) (2^k-1) (stringSwitchBucket xxh3 arm.1.bytes (2^k-1)) = f)
    (hlt : f < buckets.length) (hfree : buckets.getD f 0 = 0) :
    Built xxh3 (2^k) (arms++[arm]) (buckets.set f (arms.length+1)) := by
  have hpos := Nat.two_pow_pos k
  constructor
  case length => rw [length_set,h.length]
  case entries =>
    intro b
    have := h.entries b
    rw [getD_eq_getElem?_getD] at this ⊢
    rw [getElem?_set,length_append,length_singleton]
    split_ifs
    · exact le_rfl
    · exact this.trans (Nat.le_add_right ..)
  case free =>
    have hcount := count_set (a := arms.length+1) (b := 0) hlt
    have hget : buckets[f] = 0 := by simpa [hlt] using hfree
    have hsum := h.free
    have hmem : 0 < buckets.count 0 := count_pos_iff.mpr (hget ▸ getElem_mem hlt)
    simp [hget] at hcount
    simp [hcount]
    omega
  case lookup =>
    intro value
    have hold := h.lookup value
    rw [stringSwitchLookup,if_neg (by rw [h.length]; omega),h.length] at hold
    rw [stringSwitchLookup,if_neg (by rw [length_set,h.length]; omega),length_set,h.length,
      findIdx?_append,← hold]
    cases hfound : lookupFrom arms buckets value (2^k-1) (2^k) (stringSwitchBucket xxh3 value (2^k-1)) with
    | some => exact lookupFrom_insert h.entries hfree hfound
    | none =>
      rw [hfound,eq_comm,findIdx?_eq_none_iff] at hold
      have hmiss : ∀ found ∈ arms, found.1.bytes ≠ value := fun found hmem => by simpa using hold found hmem
      by_cases heq : arm.1.bytes = value
      · subst heq
        have := lookupFrom_inserted h.entries hfree hmiss hlt hf
        rw [Nat.sub_add_cancel hpos] at this
        simp [this]
      · rw [lookupFrom_miss]
        · simp [heq]
        · simpa [heq,or_imp,forall_and] using hmiss

theorem Built.place (h : Built xxh3 (2^k) arms buckets) (arm : Atom × Int32) (hr : arms.length < 2^k) :
    Built xxh3 (2^k) (arms++[arm]) (placeArm xxh3 (2^k) buckets (arm,arms.length)) := by
  have hpos := Nat.two_pow_pos k
  have hmem : 0 ∈ buckets := count_pos_iff.mp (by have := h.free; omega)
  have hfree := free_freeBucket h.length hmem (xxh3 arm.1.bytes).toNat
  have hsame := freeBucket_succ hfree
  have hle : freeBucket buckets (2^k-1) (2^k-1) ((xxh3 arm.1.bytes).toNat &&& (2^k-1)) ≤ 2^k-1 :=
    freeBucket_le Nat.and_le_right
  rw [Nat.sub_add_cancel hpos] at hsame
  rw [placeArm,stringSwitchBucket,hsame]
  exact h.insert rfl (by rw [h.length]; omega) hfree

/-- The loop over the arms; a table has room for more arms than it gets. -/
theorem built_place (harms : arms.length < 2^k) :
    Built xxh3 (2^k) arms (arms.zipIdx.foldl (placeArm xxh3 (2^k)) (List.replicate (2^k) 0)) := by
  induction arms using List.reverseRecOn with
  | nil =>
    constructor
    case entries =>
      intro b
      change (List.replicate (2^k) 0).getD b 0 ≤ 0
      rw [getD_eq_getElem?_getD,getElem?_replicate]
      split <;> exact le_rfl
    case lookup =>
      intro value
      rw [stringSwitchLookup,lookupFrom_miss (by simp),ite_self]
      rfl
    all_goals simp
  | append_singleton _ arm ih =>
    rw [length_append,length_singleton] at harms
    simpa [zipIdx_append] using (ih (by omega)).place arm (by omega)

open private Nat.nextPowerOfTwo.go from Init.Data.Nat.Power2.Basic

theorem le_nextPowerOfTwo (n : ℕ) : n ≤ n.nextPowerOfTwo := by
  have hgo (power : ℕ) (h : 0 < power) : n ≤ Nat.nextPowerOfTwo.go n power h := by
    fun_induction Nat.nextPowerOfTwo.go n power h with
    | case1 _ _ _ ih => exact ih
    | case2 => omega
  unfold Nat.nextPowerOfTwo
  exact hgo 1 _

theorem stringSwitchBuckets_built (xxh3 : List UInt8 → UInt64) (arms : List (Atom × Int32)) :
    ∃ width, Built xxh3 width arms (stringSwitchBuckets xxh3 arms) := by
  obtain ⟨k,hk⟩ := Nat.isPowerOfTwo_nextPowerOfTwo (max arms.length 1)
  refine ⟨2^(k+1),?_⟩
  have hle : max arms.length 1 ≤ 2^k := hk ▸ le_nextPowerOfTwo _
  rw [stringSwitchBuckets,hk,← pow_succ]
  exact built_place (by rw [pow_succ]; omega)

/-- A string switch takes the arm with the bytes of the subject, and its default when there is none,
whatever the hash. -/
theorem switchString_takes_arm (xxh3 : List UInt8 → UInt64) (arms : List (Atom × Int32)) (default : Int32)
    (value : List UInt8) (hdistinct : arms.Pairwise fun first second => first.1.bytes ≠ second.1.bytes) :
    (∀ i arm, arms[i]? = some arm → arm.1.bytes = value →
      stringSwitchLookup arms (stringSwitchBuckets xxh3 arms) value xxh3 = some i ∧
        switchStringTarget arms (stringSwitchBuckets xxh3 arms) value xxh3 default = arm.2) ∧
    ((∀ arm ∈ arms, arm.1.bytes ≠ value) → stringSwitchLookup arms (stringSwitchBuckets xxh3 arms) value xxh3 = none ∧
        switchStringTarget arms (stringSwitchBuckets xxh3 arms) value xxh3 default = default) := by
  obtain ⟨width,hbuilt⟩ := stringSwitchBuckets_built xxh3 arms
  rw [switchStringTarget,hbuilt.lookup value]
  constructor
  · intro i arm harm heq
    obtain ⟨hlt,rfl⟩ := List.getElem?_eq_some_iff.mp harm
    have hfound : (arms.findIdx? fun arm => arm.1.bytes = value) = some i := by
      refine findIdx?_eq_some_iff_getElem.mpr ⟨hlt,by simpa using heq,fun j hj => ?_⟩
      have := pairwise_iff_getElem.mp hdistinct j i (hj.trans hlt) hlt hj
      simpa [← heq] using this
    rw [hfound]
    exact ⟨rfl,by rw [bind_some,harm]; rfl⟩
  · intro hmiss
    have hnone : (arms.findIdx? fun arm => arm.1.bytes = value) = none :=
      findIdx?_eq_none_iff.mpr fun arm hmem => by simpa using hmiss arm hmem
    rw [hnone]
    exact ⟨rfl,rfl⟩

theorem switchString_takes_arm_collided :
    let arms : List (Atom × Int32) := [(⟨[97],by decide⟩,4),(⟨[98],by decide⟩,7)]
    stringSwitchLookup arms (stringSwitchBuckets (fun _ => 3) arms) [98] (fun _ => 3) = some 1 :=
  ((switchString_takes_arm (fun _ => 3) [(⟨[97],by decide⟩,4),(⟨[98],by decide⟩,7)] 0 [98]
    (by decide)).1 1 (⟨[98],by decide⟩,7) rfl rfl).1

end

end Whim.Verify
