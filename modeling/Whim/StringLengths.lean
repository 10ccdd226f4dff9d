import Whim.Denotation
import Whim.LengthSets

/-!
# Proofs about string lengths

`summarize` computes the lengths that the strings of a type can have and those that are guaranteed; on types built from
strings and lengths the two agree.
-/

namespace Whim.StringLengths

open LengthSets TypeDescriptor

mutual

/-- `descriptor_mask`: null, bool, int, float, string, object, vector, dictionary, tuple, callable, uint, fresh. -/
def descriptorMask : TypeDescriptor → Option UInt16
  | .wildcard | .mixed | .negated _ => some 0xffff
  | .void | .null => some 1
  | .never => some 0
  | .bool | .trueLiteral | .falseLiteral => some 2
  | .int | .intLiteral _ | .intRange _ _ => some 4
  | .float | .floatLiteral _ => some 8
  | .string | .stringLength _ _ | .stringLiteral _ | .classname _ => some 16
  | .object | .staticClass | .objectShape _ _ => some 32
  | .vector _ | .vectorShape _ _ => some 64
  | .dictionary _ | .dictionaryShape _ _ => some 128
  | .tuple _ | .tupleRest _ _ | .tupleAny => some 256
  | .array _ => some (64 ||| 128 ||| 256)
  | .callable _ => some 512
  | .uint | .uintLiteral _ | .uintRange _ _ => some 1024
  | .fresh => some 2048
  | .named _ _ _ | .member _ _ _ _ | .parameter _ => none
  | .union members => unionMask 0 members
  | .intersection members => intersectionMask none members

def unionMask (mask : UInt16) : List TypeDescriptor → Option UInt16
  | [] => some mask
  | d::ds => (descriptorMask d).bind fun other => unionMask (mask ||| other) ds

def intersectionMask (mask : Option UInt16) : List TypeDescriptor → Option UInt16
  | [] => mask
  | d::ds =>
    match descriptorMask d with
    | none => intersectionMask mask ds
    | some other => intersectionMask (some (mask.elim other (· &&& other))) ds

end

structure Summary where
  possible : List Range
  guaranteed : List Range

namespace Summary

def empty : Summary := ⟨[],[]⟩
def all : Summary := ⟨LengthSets.all,LengthSets.all⟩
def exact (set : List Range) : Summary := ⟨set,set⟩
def union (s t : Summary) : Summary :=
  ⟨LengthSets.union s.possible t.possible,LengthSets.union s.guaranteed t.guaranteed⟩
def intersection (s t : Summary) : Summary :=
  ⟨LengthSets.intersection s.possible t.possible,LengthSets.intersection s.guaranteed t.guaranteed⟩
def complement (s : Summary) : Summary := ⟨LengthSets.complement s.guaranteed,LengthSets.complement s.possible⟩

end Summary

mutual

def summarize (depth : ℕ) (descriptor : TypeDescriptor) : Option Summary :=
  if maxTypeDepth < depth then none
  else
    match descriptor with
    | .wildcard | .mixed | .string => some .all
    | .stringLength min max => some (.exact (one min.toInt (max.map Int64.toInt)))
    | .stringLiteral value =>
      if value.bytes.length < 2 ^ 63 then
        some ⟨one value.bytes.length (some value.bytes.length),if value.bytes.length = 0 then one 0 (some 0) else []⟩
      else none
    | .classname _ => some ⟨all,[]⟩
    | .union members => summarizeUnion depth .empty members
    | .intersection members => summarizeIntersection depth .all members
    | .negated excluded => (summarize (depth+1) excluded).map Summary.complement
    | .named _ _ _ | .member _ _ _ _ | .parameter _ => none
    | _ => some .empty

def summarizeUnion (depth : ℕ) (summary : Summary) : List TypeDescriptor → Option Summary
  | [] => some summary
  | d::ds => (summarize (depth+1) d).bind fun other => summarizeUnion depth (summary.union other) ds

def summarizeIntersection (depth : ℕ) (summary : Summary) : List TypeDescriptor → Option Summary
  | [] => some summary
  | d::ds => (summarize (depth+1) d).bind fun other => summarizeIntersection depth (summary.intersection other) ds

end

def isComposed : TypeDescriptor → Bool
  | .union _ | .intersection _ | .negated _ => true
  | _ => false

def stringLengthsProve (actual expected : TypeDescriptor) (depth : ℕ) : Bool :=
  if maxTypeDepth < depth ∨ !isComposed actual ∧ !isComposed expected ∨ descriptorMask actual ≠ some 16 then false
  else
    match summarize (depth+1) actual, summarize (depth+1) expected with
    | some actual, some expected => isSubsetOf actual.possible expected.guaranteed
    | _, _ => false

/-! ## Types of lengths -/

/-- Types built from strings and lengths with a bound below the largest one. -/
inductive OfLengths : TypeDescriptor → Prop
  | string : OfLengths .string
  | mixed : OfLengths .mixed
  | length {min : Int64} {max : Option Int64} (h : ∀ m ∈ max, m.toInt < largest) : OfLengths (.stringLength min max)
  | union {members : List TypeDescriptor} (h : ∀ d ∈ members, OfLengths d) : OfLengths (.union members)
  | intersection {members : List TypeDescriptor} (h : ∀ d ∈ members, OfLengths d) : OfLengths (.intersection members)
  | negated {excluded : TypeDescriptor} (h : OfLengths excluded) : OfLengths (.negated excluded)

mutual

/-- How deep members are nested. -/
def nesting : TypeDescriptor → ℕ
  | .union members | .intersection members => nestingAll members
  | .negated excluded => nesting excluded+1
  | _ => 0

def nestingAll : List TypeDescriptor → ℕ
  | [] => 0
  | d::ds => max (nesting d+1) (nestingAll ds)

end

section

variable {ts : Tables} {s t : List Range} {P Q : Value → Prop}

/-- The set has the lengths of the strings with a property. -/
structure Decides (s : List Range) (P : Value → Prop) : Prop where
  normal : Normal s
  has_iff : ∀ (v : Value) (n : ℕ), v.asStringLen = some n → n < 2 ^ 63 → (Has s n ↔ P v)

theorem Decides.union (hs : Decides s P) (ht : Decides t Q) : Decides (LengthSets.union s t) fun v => P v ∨ Q v where
  normal := (union_spec (n := 0) hs.normal ht.normal).1
  has_iff v n hv hn := by rw [(union_spec hs.normal ht.normal).2,hs.has_iff v n hv hn,ht.has_iff v n hv hn]

theorem Decides.intersection (hs : Decides s P) (ht : Decides t Q) :
    Decides (LengthSets.intersection s t) fun v => P v ∧ Q v where
  normal := (intersection_spec (n := 0) hs.normal ht.normal).1
  has_iff v n hv hn := by rw [(intersection_spec hs.normal ht.normal).2,hs.has_iff v n hv hn,ht.has_iff v n hv hn]

theorem Decides.complement (hs : Decides s P) : Decides (LengthSets.complement s) fun v => ¬P v where
  normal := (complement_spec (n := 0) hs.normal).1
  has_iff v n hv hn := by simp [(complement_spec hs.normal).2,hs.has_iff v n hv hn]

theorem Decides.congr (hs : Decides s P) (h : ∀ v, P v ↔ Q v) : Decides s Q where
  normal := hs.normal
  has_iff v n hv hn := (hs.has_iff v n hv hn).trans (h v)

theorem decides_all (h : ∀ v, (v.asStringLen).isSome → P v) : Decides all P where
  normal := ⟨List.forall_mem_singleton.mpr ⟨by decide,by decide,nofun⟩,List.pairwise_singleton ..⟩
  has_iff v n hv hn := by simp [all,Range.Has,h v (by simp [hv])]

theorem decides_one {min : Int64} {max : Option Int64} (h : ∀ m ∈ max, m.toInt < largest) :
    Decides (one min.toInt (max.map Int64.toInt)) ((stringLength min max).Denotes ts) := by
  have hmin : min.toInt ≤ largest := Int.le_sub_one_of_lt min.toInt_lt
  have hmatches : ∀ (v : Value) (n : ℕ), v.asStringLen = some n → n < 2 ^ 63 →
      ((stringLength min max).Denotes ts v ↔
        min.toInt ≤ n ∧ ∀ m ∈ max, (n : ℤ) ≤ m.toInt) := by
    intro v n hv hn
    simp only [TypeDescriptor.Denotes,hv,TypeCheck.stringLengthMatches,Option.some.injEq,exists_eq_left',hn,
      Bool.and_eq_true,decide_eq_true_eq,Option.all_eq_true,Option.mem_def,true_and]
  unfold one
  split
  next hnil =>
    refine ⟨⟨nofun,.nil⟩,fun v n hv hn => ?_⟩
    rw [hmatches v n hv hn]
    cases max with
    | none => cases hnil
    | some =>
      simp at hnil ⊢
      omega
  next hbounds =>
    refine ⟨⟨List.forall_mem_singleton.mpr ⟨le_max_right ..,max_le hmin (by decide),?_⟩,List.pairwise_singleton ..⟩,?_⟩
    · intro m hm
      obtain ⟨k,rfl,rfl⟩ := Option.map_eq_some_iff.mp hm
      refine ⟨?_,h k rfl⟩
      simpa using hbounds
    · intro v n hv hn
      rw [hmatches v n hv hn]
      cases max <;> simp [Range.Has]

/-- Both sets of a summary are exact. -/
def Exact (summary : Summary) (P : Value → Prop) : Prop := Decides summary.possible P ∧ Decides summary.guaranteed P

theorem Exact.congr {summary : Summary} (hs : Exact summary P) (h : ∀ v, P v ↔ Q v) : Exact summary Q :=
  ⟨hs.1.congr h,hs.2.congr h⟩

section
variable {summary other : Summary} (h : Exact summary P) (h' : Exact other Q)
include h h'

theorem Exact.union : Exact (summary.union other) fun v => P v ∨ Q v := ⟨h.1.union h'.1,h.2.union h'.2⟩

theorem Exact.intersection :
    Exact (summary.intersection other) fun v => P v ∧ Q v := ⟨h.1.intersection h'.1,h.2.intersection h'.2⟩

end

/-- Within the depth the summary is exact, beyond it there is none. -/
def Summarized (tables : Tables) (d : TypeDescriptor) : Prop :=
  ∀ depth, (depth+nesting d ≤ maxTypeDepth →
      ∃ summary, summarize depth d = some summary ∧ Exact summary (d.Denotes tables)) ∧
    (maxTypeDepth < depth+nesting d → summarize depth d = none)

variable {d : TypeDescriptor}

section

variable {ds : List TypeDescriptor} {summary : Summary} {others : List Summary}

theorem summarizeUnion_eq (n : ℕ) : summarizeUnion n summary ds =
    (ds.mapM (summarize (n+1))).map (List.foldl Summary.union summary) := by
  induction ds generalizing summary with
  | nil => simp [summarizeUnion]
  | cons d ds ih =>
    cases h : summarize (n+1) d <;> cases h' : ds.mapM (summarize (n+1)) <;>
      simp [summarizeUnion,h,ih,h']

theorem summarizeIntersection_eq (n : ℕ) : summarizeIntersection n summary ds =
    (ds.mapM (summarize (n+1))).map (List.foldl Summary.intersection summary) := by
  induction ds generalizing summary with
  | nil => simp [summarizeIntersection]
  | cons d ds ih =>
    cases h : summarize (n+1) d <;> cases h' : ds.mapM (summarize (n+1)) <;>
      simp [summarizeIntersection,h,ih,h']

/-- The summaries of all members, or none if one is nested too deep. -/
theorem members_spec {n : ℕ} (hdepth : n ≤ maxTypeDepth) (h : ∀ d ∈ ds, Summarized ts d) :
    (n+nestingAll ds ≤ maxTypeDepth → ∃ others, ds.mapM (summarize (n+1)) = some others ∧
      List.Forall₂ (fun d other => Exact other (d.Denotes ts)) ds others) ∧
    (maxTypeDepth < n+nestingAll ds → ds.mapM (summarize (n+1)) = none) := by
  induction ds with
  | nil => exact ⟨fun _ => ⟨[],rfl,.nil⟩,fun hlt => absurd hdepth (Nat.not_le.mpr hlt)⟩
  | cons d _ ih =>
    obtain ⟨hd,hds⟩ := List.forall_mem_cons.mp h
    obtain ⟨hfound,hn⟩ := hd (n+1)
    obtain ⟨hall,hless⟩ := ih hds
    rw [nestingAll]
    refine ⟨fun hle => ?_,fun hlt => ?_⟩
    · obtain ⟨other,ho,hexact⟩ := hfound (by omega)
      obtain ⟨others,hothers,hexacts⟩ := hall (by omega)
      exact ⟨other::others,by simp [ho,hothers],.cons hexact hexacts⟩
    · by_cases hdeep : maxTypeDepth < n+1+nesting d
      · simp [hn hdeep]
      · simp [hless (by omega)]

section
variable (hs : Exact summary P) (h : List.Forall₂ (fun d other => Exact other (d.Denotes ts)) ds others)
include hs h

theorem exact_union : Exact (others.foldl Summary.union summary) fun v => P v ∨ ∃ d ∈ ds, d.Denotes ts v := by
  induction h generalizing summary P with
  | nil => simpa using hs
  | cons hd _ ih =>
    have hr := ih (hs.union hd)
    simpa [or_assoc] using hr

theorem exact_intersection :
    Exact (others.foldl Summary.intersection summary) fun v => P v ∧ ∀ d ∈ ds, d.Denotes ts v := by
  induction h generalizing summary P with
  | nil => simpa using hs
  | cons hd _ ih =>
    have hr := ih (hs.intersection hd)
    simpa [and_assoc] using hr

end

theorem summarize_limit {n : ℕ} (h : maxTypeDepth < n) (d : TypeDescriptor) : summarize n d = none := by
  unfold summarize
  rw [if_pos h]

/-- A type that combines the summaries of its members. -/
theorem summarized_members (combine : Summary → Summary → Summary) (summary : Summary)
    (hnesting : nesting d = nestingAll ds) (hsummary : ∀ n, ¬maxTypeDepth < n →
      summarize n d = (ds.mapM (summarize (n+1))).map (List.foldl combine summary))
    (hexact : ∀ others, List.Forall₂ (fun d other => Exact other (d.Denotes ts)) ds others →
      Exact (others.foldl combine summary) (d.Denotes ts))
    (h : ∀ d ∈ ds, Summarized ts d) : Summarized ts d := by
  intro n
  rw [hnesting]
  by_cases hdepth : maxTypeDepth < n
  · exact ⟨fun h => by omega,fun _ => summarize_limit hdepth d⟩
  obtain ⟨hall,hn⟩ := members_spec (Nat.not_lt.mp hdepth) h
  rw [hsummary n hdepth]
  refine ⟨fun h => ?_,fun h => by rw [hn h,Option.map_none]⟩
  obtain ⟨others,hothers,hothers'⟩ := hall h
  exact ⟨_,by rw [hothers,Option.map_some],hexact others hothers'⟩

end

theorem exact_all (h : ∀ v, (v.asStringLen).isSome → P v) : Exact .all P := ⟨decides_all h,decides_all h⟩

theorem exact_empty : Exact .empty fun _ => False := by
  constructor <;> exact ⟨⟨nofun,.nil⟩,fun v n hv hn => by simp [Summary.empty]⟩

theorem summarized_leaf (summary : Summary) (hnesting : nesting d = 0)
    (hsummary : ∀ n, ¬maxTypeDepth < n → summarize n d = some summary)
    (hexact : Exact summary (d.Denotes ts)) : Summarized ts d := by
  intro n
  rw [hnesting,Nat.add_zero]
  exact ⟨fun h => ⟨summary,hsummary n (Nat.not_lt.mpr h),hexact⟩,fun h => summarize_limit h d⟩

theorem summarize_spec (ts : Tables) (h : OfLengths d) : Summarized ts d := by
  induction h with
  | string =>
    exact summarized_leaf .all (by simp [nesting]) (fun n h => by simp [summarize,h])
      (exact_all fun v hv => by simpa [TypeDescriptor.Denotes,Value.asStringLen] using hv)
  | mixed =>
    exact summarized_leaf .all (by simp [nesting]) (fun n h => by simp [summarize,h])
      (exact_all fun v _ => by simp [TypeDescriptor.Denotes])
  | @length min max hbound =>
    exact summarized_leaf (.exact (one min.toInt (max.map Int64.toInt))) (by simp [nesting])
      (fun n h => by simp [summarize,h]) ⟨decides_one hbound,decides_one hbound⟩
  | union _ ih =>
    refine summarized_members .union .empty (by rw [nesting])
      (fun n h => by simp [summarize,h,summarizeUnion_eq]) (fun others hothers => ?_) ih
    exact (exact_union exact_empty hothers).congr fun v => by simp [denotes_union]
  | intersection _ ih =>
    refine summarized_members .intersection .all (by rw [nesting])
      (fun n h => by simp [summarize,h,summarizeIntersection_eq]) (fun others hothers => ?_) ih
    exact (exact_intersection (exact_all fun _ _ => trivial) hothers).congr fun v => by
      simp [denotes_intersection]
  | @negated excluded _ ih =>
    intro n
    rw [nesting]
    obtain ⟨hfound,hn⟩ := ih (n+1)
    refine ⟨fun h => ?_,fun h => ?_⟩
    · obtain ⟨summary,hsummary,hexact⟩ := hfound (by omega)
      have hnegated : Exact summary.complement fun v => ¬excluded.Denotes ts v :=
        ⟨hexact.2.complement,hexact.1.complement⟩
      exact ⟨summary.complement,by simp [summarize,hsummary,show ¬maxTypeDepth < n by omega],
        hnegated.congr fun v => by simp [TypeDescriptor.Denotes]⟩
    · simp [summarize,hn (show maxTypeDepth < n+1+nesting excluded by omega)]

end

section

variable {ts : Tables} {P Q : Value → Prop} {s t : List Range}

theorem exists_string {n : ℕ} (h : n < 2 ^ 64) : ∃ v : Value, v.asStringLen = some n := by
  have hlen : (List.replicate n (0 : UInt8)).length < 2 ^ 64 := by rwa [List.length_replicate]
  refine ⟨.mk (.string ⟨_,hlen⟩) none,?_⟩
  exact congrArg some List.length_replicate

/-- The subset test decides the inclusion of properties of strings. -/
theorem Decides.isSubsetOf_iff (hs : Decides s P) (ht : Decides t Q) :
    isSubsetOf s t ↔ ∀ (v : Value) (n : ℕ), v.asStringLen = some n → n < 2 ^ 63 → P v → Q v := by
  rw [isSubsetOf_iff_below hs.normal ht.normal le_rfl]
  constructor
  · intro h v n hv hn hP
    exact (ht.has_iff v n hv hn).mp (h n hn ((hs.has_iff v n hv hn).mpr hP))
  · intro h n hn hhas
    obtain ⟨v,hv⟩ := exists_string (n := n) (by omega)
    exact (ht.has_iff v n hv hn).mpr (h v n hv hn ((hs.has_iff v n hv hn).mp hhas))

end

/-- A string of this length is one of the type. -/
def Admits (tables : Tables) (d : TypeDescriptor) (n : ℕ) : Prop := ∃ v :
    Value, v.asStringLen = some n ∧ d.Denotes tables v

theorem denotes_string {ts : Tables} {v : Value} {n : ℕ} (h : v.asStringLen = some n) : string.Denotes ts v := by
  have hsome : v.asStringLen.isSome := by rw [h]; rfl
  simpa only [TypeDescriptor.Denotes,Value.asStringLen,Option.isSome_map] using hsome

/-- Only the length of a string counts. -/
theorem OfLengths.denotes_congr {ts : Tables} {d : TypeDescriptor} (h : OfLengths d) {v w : Value} {n : ℕ}
    (hv : v.asStringLen = some n) (hw : w.asStringLen = some n) : d.Denotes ts v ↔ d.Denotes ts w := by
  induction h with
  | string => exact iff_of_true (denotes_string hv) (denotes_string hw)
  | mixed => simp only [TypeDescriptor.Denotes]
  | length => simp only [TypeDescriptor.Denotes,hv,hw]
  | union _ ih =>
    simp only [denotes_union]
    exact exists_congr fun d => and_congr_right fun hd => ih d hd
  | intersection _ ih =>
    simp only [denotes_intersection]
    exact forall_congr' fun d => imp_congr_right fun hd => ih d hd
  | negated _ ih => simp only [TypeDescriptor.Denotes,ih]

/-- Inclusion of the strings is inclusion of their lengths. -/
theorem included_iff_admits {tables : Tables} {actual expected : TypeDescriptor} (hexpected : OfLengths expected) :
    (∀ (v : Value) (n : ℕ), v.asStringLen = some n → n < 2 ^ 63 →
      actual.Denotes tables v → expected.Denotes tables v) ↔
    ∀ n : ℕ, n < 2 ^ 63 → Admits tables actual n → Admits tables expected n := by
  constructor
  · rintro h n hn ⟨v,hv,hactual⟩
    exact ⟨v,hv,h v n hv hn hactual⟩
  · intro h v n hv hn hactual
    obtain ⟨w,hw,hadmitted⟩ := h n hn ⟨v,hv,hactual⟩
    exact (hexpected.denotes_congr hw hv).mp hadmitted

/-- The operations on ranges are those on sets of lengths. On types of lengths the proof succeeds exactly when one type
is composed, the first has only strings, neither is nested too deep, and every string of the first is one of the
second. -/
theorem string_lengths_prove_iff : (∀ {s t : List Range}, Normal s → Normal t →
      (∀ n : ℕ, n < 2 ^ 64 → (Has (union s t) n ↔ Has s n ∨ Has t n) ∧ (Has (intersection s t) n ↔ Has s n ∧ Has t n) ∧
        (Has (complement s) n ↔ ¬Has s n)) ∧ (isSubsetOf s t = true ↔ ∀ n : ℕ, n < 2 ^ 64 → Has s n → Has t n) ∧
      Normal (union s t) ∧ Normal (intersection s t) ∧ Normal (complement s)) ∧
    ∀ (tables : Tables) {actual expected : TypeDescriptor} (depth : ℕ), OfLengths actual → OfLengths expected →
      (stringLengthsProve actual expected depth = true ↔
        (isComposed actual = true ∨ isComposed expected = true) ∧ descriptorMask actual = some 16 ∧
        depth+1+max (nesting actual) (nesting expected) ≤ maxTypeDepth ∧
        ∀ (v : Value) (n : ℕ), v.asStringLen = some n → n < 2 ^ 63 →
          actual.Denotes tables v → expected.Denotes tables v) ∧
      ((∀ (v : Value) (n : ℕ), v.asStringLen = some n → n < 2 ^ 63 →
          actual.Denotes tables v → expected.Denotes tables v) ↔
        ∀ n : ℕ, n < 2 ^ 63 → Admits tables actual n → Admits tables expected n) := by
  refine ⟨fun {s t} hs ht => ⟨fun n _ => ?_,isSubsetOf_iff_below hs ht (by omega),(union_spec (n := 0) hs ht).1,
    (intersection_spec (n := 0) hs ht).1,(complement_spec (n := 0) hs).1⟩,
    fun tables {actual expected} depth hactual hexpected => ⟨?_,included_iff_admits hexpected⟩⟩
  · refine ⟨(union_spec hs ht).2,(intersection_spec hs ht).2,(complement_spec hs).2.trans ?_⟩
    simp
  obtain ⟨hfound,hnone⟩ := summarize_spec tables hactual (depth+1)
  obtain ⟨hfound',hnone'⟩ := summarize_spec tables hexpected (depth+1)
  unfold stringLengthsProve
  split
  next hguard =>
    refine ⟨nofun,fun ⟨hcomposed,hmask,hdepth,_⟩ => ?_⟩
    rcases hguard with hlt | ⟨hleft,hright⟩ | hne
    · omega
    · simp_all
    · exact absurd hmask hne
  next hguard =>
    simp only [not_or,not_and_or,Bool.not_eq_true',Bool.not_eq_false,not_not] at hguard
    by_cases hdepth : depth+1+max (nesting actual) (nesting expected) ≤ maxTypeDepth
    · obtain ⟨summary,hsummary,hexact⟩ := hfound (by omega)
      obtain ⟨summary',hsummary',hexact'⟩ := hfound' (by omega)
      rw [hsummary,hsummary']
      exact (hexact.1.isSubsetOf_iff hexact'.2).trans
        ⟨fun h => ⟨hguard.2.1,hguard.2.2,hdepth,h⟩,fun h => h.2.2.2⟩
    · refine ⟨fun h => ?_,fun h => absurd h.2.2.1 hdepth⟩
      by_cases hdeep : maxTypeDepth < depth+1+nesting actual
      · rw [hnone hdeep] at h
        cases h
      · rw [hnone' (by omega)] at h
        generalize summarize (depth+1) actual = summary at h
        cases summary <;> cases h

/-- The lengths on both sides of a gap are all but those inside. -/
theorem string_lengths_prove_iff_gap : stringLengthsProve (.union [.stringLength 0 (some 3),.stringLength 5 none])
      (.negated (.stringLength 4 (some 4))) 0 = true ∧
    ∀ (tables : Tables) (v : Value) (n : ℕ), v.asStringLen = some n → n < 2 ^ 63 →
      (union [.stringLength 0 (some 3),.stringLength 5 none]).Denotes tables v →
      (negated (.stringLength 4 (some 4))).Denotes tables v := by
  have hproved : stringLengthsProve (.union [.stringLength 0 (some 3),.stringLength 5 none])
      (.negated (.stringLength 4 (some 4))) 0 = true := by decide +kernel
  have hactual : OfLengths (.union [.stringLength 0 (some 3),.stringLength 5 none]) := by
    refine .union fun d hd => ?_
    rcases List.mem_pair.mp hd with rfl | rfl <;> refine .length ?_ <;> rintro _ ⟨⟩
    decide
  have hexpected : OfLengths (.negated (.stringLength 4 (some 4))) :=
    .negated (.length (by rintro _ ⟨⟩; decide))
  exact ⟨hproved,fun tables => ((string_lengths_prove_iff.2 tables 0 hactual hexpected).1.mp hproved).2.2.2⟩

/-- Nothing is proved of two types that are not composed, of an empty union, or against a bound of the largest length,
whose complement is empty; and strings whose length is no `i64` are left out. -/
theorem string_lengths_incomplete :
    stringLengthsProve .string .string 0 = false ∧ stringLengthsProve (.union []) .string 0 = false ∧
    complement (one 0 (some largest)) = [] ∧
    stringLengthsProve (.union [.string]) (.stringLength 0 (some 0x7fffffffffffffff)) 0 = false ∧
    stringLengthsProve (.union [.string])
      (.negated (.negated (.stringLength 0 (some 0x7fffffffffffffff)))) 0 = true ∧
    stringLengthsProve (.union [.string]) (.stringLength 0 none) 0 = true ∧
    ∀ tables : Tables, (union [.string]).Denotes tables longString ∧
      ¬(stringLength 0 none).Denotes tables longString := by
  refine ⟨?_,?_,?_,?_,?_,?_,fun tables => ⟨?_,?_⟩⟩
  iterate 6 decide +kernel
  · exact denotes_union.mpr ⟨.string,List.mem_singleton.mpr rfl,denotes_string longString_len⟩
  · simp only [TypeDescriptor.Denotes]
    rintro ⟨n,hn,hmatches⟩
    rw [longString_len] at hn
    cases hn
    cases hmatches

end Whim.StringLengths
