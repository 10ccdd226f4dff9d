import Mathlib.Tactic

/-!
# Sets of lengths as ranges

Lists of ranges below a largest bound. On sorted lists with gaps the operations compute those on sets.
-/

namespace Whim.LengthSets

open List

structure Range where
  min : ℤ
  max : Option ℤ
  deriving DecidableEq

/-- `i64::MAX`. -/
def largest : ℤ := 2 ^ 63-1

def all : List Range := [⟨0,none⟩]

def one (min : ℤ) (max : Option ℤ) : List Range :=
  if max.any (· < Max.max min 0) then [] else [⟨Max.max min 0,max⟩]

def upperBoundContains : Option ℤ → Option ℤ → Bool
  | none, _ => true
  | some _, none => false
  | some expected, some actual => actual ≤ expected

def minimumUpperBound : Option ℤ → Option ℤ → Option ℤ
  | none, right => right
  | left, none => left
  | some left, some right => some (Min.min left right)

def maximumUpperBound : Option ℤ → Option ℤ → Option ℤ
  | some left, some right => some (Max.max left right)
  | _, _ => none

/-- The loop of `normalize` over sorted ranges; the last range put out so far stands apart. -/
def coalesce : Range → List Range → List Range
  | previous, [] => [previous]
  | previous, range::rest =>
    if previous.max.all (fun max => range.min ≤ Min.min (max+1) largest) then
      coalesce ⟨previous.min,maximumUpperBound previous.max range.max⟩ rest
    else previous::coalesce range rest

/-- Ranges by their start. -/
def Range.Starts (a b : Range) : Prop := a.min ≤ b.min

instance : DecidableRel Range.Starts := fun a b => inferInstanceAs (Decidable (a.min ≤ b.min))
instance : Std.Total Range.Starts := ⟨fun a b => le_total a.min b.min⟩
instance : IsTrans Range Range.Starts := ⟨fun _ _ _ h h' => le_trans h h'⟩

/-- What order ranges with one start are sorted in does not matter, they make one range. -/
def normalize (ranges : List Range) : List Range :=
  match ranges.insertionSort Range.Starts with
  | [] => []
  | range::rest => coalesce range rest

def union (s t : List Range) : List Range := normalize (s++t)

def meet (left right : Range) : Option Range :=
  let range := ⟨Max.max left.min right.min,minimumUpperBound left.max right.max⟩
  if range.max.all (range.min ≤ ·) then some range else none

def intersection (s t : List Range) : List Range := normalize (s.flatMap fun left => t.filterMap (meet left))

/-- The lengths before a range. -/
def gap (min : ℤ) (range : Range) : List Range := if min < range.min then [⟨min,some (range.min-1)⟩] else []

/-- The loop of `complement`, which ends at an upper bound without a successor. -/
def complementFrom (min : ℤ) : List Range → List Range
  | [] => [⟨min,none⟩]
  | range::rest =>
    gap min range ++
      match range.max with
      | none => []
      | some max => if max = largest then [] else complementFrom (max+1) rest

def complement (s : List Range) : List Range := complementFrom 0 s

def isSubsetOf (s t : List Range) : Bool :=
  s.all fun actual => t.any fun expected =>
    decide (expected.min ≤ actual.min) && upperBoundContains expected.max actual.max

/-! ## What lists of ranges mean -/

def Range.Has (r : Range) (n : ℤ) : Prop := r.min ≤ n ∧ ∀ m, r.max = some m → n ≤ m

def Has (s : List Range) (n : ℤ) : Prop := ∃ r ∈ s, r.Has n

/-- A range that is not empty, with bounds below the largest one. -/
structure Range.Valid (r : Range) : Prop where
  nonneg : 0 ≤ r.min
  le : r.min ≤ largest
  bounded : ∀ m, r.max = some m → r.min ≤ m ∧ m < largest

/-- Between two ranges lies a gap. -/
def Apart (r r' : Range) : Prop := ∃ m, r.max = some m ∧ m+1 < r'.min

structure Normal (s : List Range) : Prop where
  valid : ∀ r ∈ s, r.Valid
  apart : s.Pairwise Apart

variable {s t : List Range} {r r' : Range} {n lower : ℤ}

@[simp] theorem has_cons : Has (r::s) n ↔ r.Has n ∨ Has s n := by simp [Has]

@[simp] theorem has_append : Has (s++t) n ↔ Has s n ∨ Has t n := by simp [Has,or_and_right,exists_or]

@[simp] theorem not_has_nil : ¬Has [] n := by simp [Has]

/-- The ranges put out start no earlier than those put in. -/
theorem lower_coalesce (hr : lower ≤ r.min) (hs : ∀ r ∈ s, lower ≤ r.min) : ∀ x ∈ coalesce r s, lower ≤ x.min := by
  induction s generalizing r with
  | nil => simpa [coalesce] using hr
  | cons x s ih =>
    obtain ⟨hx,hs⟩ := forall_mem_cons.mp hs
    unfold coalesce
    split
    · exact ih hr hs
    · exact forall_mem_cons.mpr ⟨hr,ih hx hs⟩

/-- Two ranges that overlap or touch make one. -/
theorem has_joined (hr : r.Valid) (hr' : r'.Valid) (hle : r.min ≤ r'.min)
    (htouch : ∀ m, r.max = some m → r'.min ≤ m+1) : (Range.mk r.min (maximumUpperBound r.max r'.max)).Valid ∧
      ((Range.mk r.min (maximumUpperBound r.max r'.max)).Has n ↔ r.Has n ∨ r'.Has n) := by
  obtain ⟨min,max⟩ := r
  obtain ⟨min',max'⟩ := r'
  obtain ⟨h1,h2,h3⟩ := hr
  obtain ⟨h1',h2',h3'⟩ := hr'
  refine ⟨⟨h1,h2,?_⟩,?_⟩ <;> cases max <;> cases max' <;>
    simp_all [maximumUpperBound,Range.Has] <;> omega

theorem coalesce_spec (hr : r.Valid) (hs : ∀ x ∈ s, x.Valid) (hsorted : (r::s).Pairwise Range.Starts) :
    Normal (coalesce r s) ∧ (Has (coalesce r s) n ↔ r.Has n ∨ Has s n) := by
  induction s generalizing r with
  | nil => exact ⟨⟨by simpa [coalesce] using hr,by simp [coalesce]⟩,by simp [coalesce]⟩
  | cons x s ih =>
    obtain ⟨hx,hs⟩ := forall_mem_cons.mp hs
    obtain ⟨hle,hsorted⟩ := pairwise_cons.mp hsorted
    obtain ⟨hrx,hle⟩ := forall_mem_cons.mp hle
    unfold coalesce
    split
    next htouch =>
      have htouch' : ∀ m, r.max = some m → x.min ≤ m+1 := by
        intro m hm
        simp only [hm,Option.all_some,decide_eq_true_eq] at htouch
        omega
      obtain ⟨hvalid,hhas⟩ := has_joined (n := n) hr hx hrx htouch'
      obtain ⟨hnormal,hrest⟩ := ih hvalid hs (pairwise_cons.mpr ⟨hle,hsorted.of_cons⟩)
      refine ⟨hnormal,hrest.trans ?_⟩
      rw [hhas,has_cons,or_assoc]
    next hgap =>
      obtain ⟨hnormal,hrest⟩ := ih hx hs hsorted
      have hapart : ∃ m, r.max = some m ∧ m+1 < x.min := by
        cases hmax : r.max with
        | none => simp [hmax] at hgap
        | some m =>
          have hm := (hr.bounded m hmax).2
          simp only [hmax,Option.all_some,decide_eq_true_eq] at hgap
          exact ⟨m,rfl,by omega⟩
      obtain ⟨m,hm,hlt⟩ := hapart
      have hlower := lower_coalesce (le_refl x.min) (pairwise_cons.mp hsorted).1
      refine ⟨⟨forall_mem_cons.mpr ⟨hr,hnormal.valid⟩,pairwise_cons.mpr ⟨?_,hnormal.apart⟩⟩,?_⟩
      · exact fun y hy => ⟨m,hm,lt_of_lt_of_le hlt (hlower y hy)⟩
      · rw [has_cons,hrest,has_cons]

theorem normalize_spec (hs : ∀ r ∈ s, r.Valid) : Normal (normalize s) ∧ (Has (normalize s) n ↔ Has s n) := by
  have hhas : Has (s.insertionSort Range.Starts) n ↔ Has s n := by simp [Has]
  have hvalid : ∀ r ∈ s.insertionSort Range.Starts, r.Valid := by simpa using hs
  have hsorted := pairwise_insertionSort Range.Starts s
  unfold normalize
  rw [← hhas]
  cases hsort : s.insertionSort Range.Starts with
  | nil => exact ⟨⟨nofun,.nil⟩,Iff.rfl⟩
  | cons =>
    rw [hsort] at hvalid hsorted
    obtain ⟨hr,hrest⟩ := forall_mem_cons.mp hvalid
    rw [has_cons]
    exact coalesce_spec hr hrest hsorted

theorem union_spec (hs : Normal s) (ht : Normal t) : Normal (union s t) ∧ (Has (union s t) n ↔ Has s n ∨ Has t n) := by
  rw [← has_append]
  exact normalize_spec (forall_mem_append.mpr ⟨hs.valid,ht.valid⟩)

theorem meet_spec (hr : r.Valid) (hr' : r'.Valid) :
    (∀ x ∈ meet r r', x.Valid) ∧ ((∃ x, meet r r' = some x ∧ x.Has n) ↔ r.Has n ∧ r'.Has n) := by
  obtain ⟨min,max⟩ := r
  obtain ⟨min',max'⟩ := r'
  obtain ⟨h1,h2,h3⟩ := hr
  obtain ⟨h1',h2',h3'⟩ := hr'
  unfold meet
  cases max <;> cases max' <;> simp_all [minimumUpperBound,Range.Has] <;> grind [Range.Valid]

theorem intersection_spec (hs : Normal s) (ht : Normal t) :
    Normal (intersection s t) ∧ (Has (intersection s t) n ↔ Has s n ∧ Has t n) := by
  have hvalid : ∀ x ∈ s.flatMap fun left => t.filterMap (meet left), x.Valid := by
    simp only [mem_flatMap,mem_filterMap]
    rintro x ⟨left,hleft,right,hright,hx⟩
    exact (meet_spec (n := 0) (hs.valid left hleft) (ht.valid right hright)).1 x hx
  have hhas : Has (s.flatMap fun left => t.filterMap (meet left)) n ↔ Has s n ∧ Has t n := by
    simp only [Has,mem_flatMap,mem_filterMap]
    constructor
    · rintro ⟨x,⟨left,hleft,right,hright,hx⟩,hn⟩
      obtain ⟨hl,hr⟩ := (meet_spec (hs.valid left hleft) (ht.valid right hright)).2.mp ⟨x,hx,hn⟩
      exact ⟨⟨left,hleft,hl⟩,right,hright,hr⟩
    · rintro ⟨⟨left,hleft,hl⟩,right,hright,hr⟩
      obtain ⟨x,hx,hn⟩ := (meet_spec (hs.valid left hleft) (ht.valid right hright)).2.mpr ⟨hl,hr⟩
      exact ⟨x,⟨left,hleft,right,hright,hx⟩,hn⟩
  rw [← hhas]
  exact normalize_spec hvalid

theorem lower_of_has (hs : ∀ r ∈ s, lower ≤ r.min) (h : Has s n) : lower ≤ n := by
  obtain ⟨r,hr,hn⟩ := h
  exact (hs r hr).trans hn.1

theorem gap_spec {min : ℤ} (hmin : 0 ≤ min) (hle : min ≤ largest) (hr : r.Valid) :
    Normal (gap min r) ∧ (∀ x ∈ gap min r, x = ⟨min,some (r.min-1)⟩) ∧ (Has (gap min r) n ↔ min ≤ n ∧ n < r.min) := by
  have hrle := hr.le
  unfold gap
  split
  next =>
    refine ⟨⟨forall_mem_singleton.mpr ⟨hmin,hle,?_⟩,by simp⟩,by simp,by simp [Range.Has]⟩
    rintro m hm
    cases hm
    dsimp only
    omega
  next => exact ⟨⟨nofun,.nil⟩,nofun,by simp; omega⟩

theorem complementFrom_spec {min : ℤ} (hmin : 0 ≤ min) (hle : min ≤ largest) (hs : Normal s)
    (hlower : ∀ r ∈ s, min ≤ r.min) : Normal (complementFrom min s) ∧ (∀ r ∈ complementFrom min s, min ≤ r.min) ∧
      (Has (complementFrom min s) n ↔ min ≤ n ∧ ¬Has s n) := by
  induction s generalizing min with
  | nil =>
    refine ⟨⟨?_,by simp [complementFrom]⟩,by simp [complementFrom],by simp [complementFrom,Range.Has]⟩
    exact forall_mem_singleton.mpr ⟨hmin,hle,fun m hm => by cases hm⟩
  | cons r s ih =>
    obtain ⟨hr,hvalid⟩ := forall_mem_cons.mp hs.valid
    obtain ⟨hapart,hpairwise⟩ := pairwise_cons.mp hs.apart
    obtain ⟨hminr,-⟩ := forall_mem_cons.mp hlower
    obtain ⟨hgap,hmem,hhas⟩ := gap_spec (n := n) hmin hle hr
    unfold complementFrom
    cases hmax : r.max with
    | none =>
      have hnil : ¬Has s n := by
        rintro ⟨x,hx,-⟩
        obtain ⟨m,hm,-⟩ := hapart x hx
        cases hmax.symm.trans hm
      rw [append_nil]
      refine ⟨hgap,fun x hx => by rw [hmem x hx],hhas.trans ?_⟩
      simp [Range.Has,hmax,hnil]
    | some max =>
      obtain ⟨hlow,hhigh⟩ := hr.bounded max hmax
      have hnext : ∀ x ∈ s, max+1 ≤ x.min := by
        intro x hx
        obtain ⟨m,hm,hlt⟩ := hapart x hx
        cases hmax.symm.trans hm
        omega
      have hafter : Has s n → max+1 ≤ n := lower_of_has hnext
      obtain ⟨hnormal,hbelow,hhas'⟩ := ih (by omega) (by omega) ⟨hvalid,hpairwise⟩ hnext
      dsimp only
      rw [if_neg (by omega),has_append,hhas,hhas',has_cons]
      refine ⟨⟨forall_mem_append.mpr ⟨hgap.valid,hnormal.valid⟩,pairwise_append.mpr
        ⟨hgap.apart,hnormal.apart,fun x hx y hy => ?_⟩⟩,forall_mem_append.mpr ⟨fun x hx => ?_,fun y hy => ?_⟩,?_⟩
      · have := hbelow y hy
        rw [hmem x hx]
        exact ⟨_,rfl,by omega⟩
      · rw [hmem x hx]
      · have := hbelow y hy
        omega
      simp only [Range.Has,hmax,Option.some.injEq,forall_eq']
      by_cases hn : Has s n
      · have := hafter hn
        simp [hn]
        omega
      · simp [hn]
        omega

section
variable (hs : Normal s)
include hs

theorem complement_spec : Normal (complement s) ∧ (Has (complement s) n ↔ 0 ≤ n ∧ ¬Has s n) := by
  obtain ⟨hnormal,-,hhas⟩ := complementFrom_spec (le_refl 0) (by decide) hs fun r hr => (hs.valid r hr).nonneg
  exact ⟨hnormal,hhas⟩

/-- No range goes on where another one ends. -/
theorem Normal.not_has_next (hr : r ∈ s) {m : ℤ} (hm : r.max = some m) : ¬Has s (m+1) := by
  rintro ⟨r',hr',hmin,hmax⟩
  have hle := ((hs.valid r hr).bounded m hm).1
  obtain ⟨i,hi,rfl⟩ := mem_iff_getElem.mp hr
  obtain ⟨j,hj,rfl⟩ := mem_iff_getElem.mp hr'
  rcases lt_trichotomy i j with hlt | rfl | hlt
  · obtain ⟨k,hk,hgap⟩ := pairwise_iff_getElem.mp hs.apart i j hi hj hlt
    cases hm.symm.trans hk
    omega
  · have := hmax m hm
    omega
  · obtain ⟨k,hk,hgap⟩ := pairwise_iff_getElem.mp hs.apart j i hj hi hlt
    have := hmax k hk
    omega

theorem isSubsetOf_iff (ht : Normal t) : isSubsetOf s t ↔ ∀ n, Has s n → Has t n := by
  simp only [isSubsetOf,all_eq_true,any_eq_true,Bool.and_eq_true,decide_eq_true_eq]
  constructor
  · rintro h n ⟨r,hr,hn⟩
    obtain ⟨x,hx,hmin,hmax⟩ := h r hr
    refine ⟨x,hx,hmin.trans hn.1,fun m hm => ?_⟩
    rw [hm] at hmax
    cases hbound : r.max with
    | none => simp [hbound,upperBoundContains] at hmax
    | some k =>
      simp only [hbound,upperBoundContains,decide_eq_true_eq] at hmax
      exact (hn.2 k hbound).trans hmax
  · intro h r hr
    have hvalid := hs.valid r hr
    obtain ⟨x,hx,hmin,hmax⟩ := h r.min ⟨r,hr,le_refl _,fun m hm => (hvalid.bounded m hm).1⟩
    refine ⟨x,hx,hmin,?_⟩
    cases hbound : x.max with
    | none => rfl
    | some m =>
      by_contra hcontains
      -- the range goes beyond the end of the one that holds its start
      refine ht.not_has_next hx hbound (h (m+1) ⟨r,hr,?_,fun k hk => ?_⟩)
      · have := hmax m hbound
        omega
      · rw [hk] at hcontains
        simp only [upperBoundContains,decide_eq_true_eq] at hcontains
        omega

/-- Beyond the bounds all lengths are alike. -/
theorem has_large (hn : largest ≤ n) : Has s n ↔ Has s largest := by
  refine exists_congr fun r => and_congr_right fun hr => ?_
  have := (hs.valid r hr).le
  have := (hs.valid r hr).bounded
  unfold Range.Has
  grind

/-- Lengths beyond the largest bound behave like it. -/
theorem isSubsetOf_iff_below (ht : Normal t) {bound : ℕ} (hbound : 2 ^ 63 ≤ bound) :
    isSubsetOf s t ↔ ∀ n : ℕ, n < bound → Has s n → Has t n := by
  rw [isSubsetOf_iff hs ht]
  refine ⟨fun h n _ => h n,fun h n hhas => ?_⟩
  have hnn : 0 ≤ n := lower_of_has (fun r hr => (hs.valid r hr).nonneg) hhas
  rcases lt_or_ge n largest with hlt | hge
  · lift n to ℕ using hnn
    exact h n (by unfold largest at hlt; omega) hhas
  · rw [has_large ht hge]
    exact h (2 ^ 63-1) (by omega) ((has_large hs hge).mp hhas)

end

end Whim.LengthSets
