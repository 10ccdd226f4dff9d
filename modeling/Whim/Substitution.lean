import Whim.Denotation

/-!
# Substitution

Binding type parameters rebuilds a descriptor from its children. A rebuilt intersection bounds the length of strings,
which means the same if lengths are an `i64`.
-/

namespace Whim.TypeDescriptor

open Option List

/-- The bounds of a `string` or length type. -/
def stringBounds : TypeDescriptor → Option (Int64 × Option Int64)
  | string => some (0,none)
  | stringLength low high => some (low,high)
  | _ => none

/-- The complement of the empty string. -/
def excludesEmpty : TypeDescriptor → Bool
  | negated (stringLiteral value) => value.bytes.isEmpty
  | _ => false

def wrapMembers : List TypeDescriptor → TypeDescriptor
  | [d] => d
  | members => intersection members

/-- `TypeDescriptor::intersection`. -/
def intersectionOf (members : List TypeDescriptor) : TypeDescriptor :=
  let text := members.zipIdx.findSome? fun (d,index) => d.stringBounds.map fun bounds => (index,bounds)
  match text, members.findIdx? excludesEmpty with
  | some (text,low,high), some nonEmpty =>
    if high = some 0 then never
    else
      let others := (members.eraseIdx (max text nonEmpty)).eraseIdx (min text nonEmpty)
      wrapMembers (others++[stringLength (if 1 ≤ low then low else 1) high])
  | _, _ => wrapMembers members

/-- `map_children`, which rebuilds a descriptor after transforming its children. -/
def mapChildren (map : TypeDescriptor → TypeDescriptor) : TypeDescriptor → TypeDescriptor
  | named name arguments recursive => named name (arguments.map (List.map map)) recursive
  | member owner ownerArguments name memberArguments =>
    member owner (ownerArguments.map (List.map map)) name (memberArguments.map (List.map map))
  | array arguments => array (arguments.map fun pair => (map pair.1,map pair.2))
  | vector element => vector (element.map map)
  | vectorShape elements rest => vectorShape (elements.map map) (rest.map map)
  | dictionary arguments => dictionary (arguments.map fun pair => (map pair.1,map pair.2))
  | objectShape entries isOpen => objectShape (entries.map fun entry => (entry.1,map entry.2)) isOpen
  | dictionaryShape entries rest =>
    dictionaryShape (entries.map fun entry => (entry.1,map entry.2)) (rest.map fun pair => (map pair.1,map pair.2))
  | callable signature => callable (signature.map fun signature =>
      (signature.1.map fun parameter => (map parameter.1,parameter.2),map signature.2))
  | classname inner => classname (map inner)
  | tuple members => tuple (members.map map)
  | tupleRest elements rest => tupleRest (elements.map map) (map rest)
  | union members => union (members.map map)
  | intersection members => intersectionOf (members.map map)
  | negated inner => negated (map inner)
  | descriptor => descriptor

abbrev Bindings := List (Atom × TypeDescriptor)

/-- What a parameter is bound to; an unbound one stays. -/
def bound (bindings : Bindings) (name : Atom) : TypeDescriptor :=
  match bindings.find? fun binding => binding.1 = name with
  | some binding => binding.2
  | none => parameter name

def substitute (descriptor : TypeDescriptor) (bindings : Bindings) (depth : ℕ) : TypeDescriptor :=
  if maxTypeDepth < depth then descriptor
  else
    match descriptor with
    | parameter name => bound bindings name
    | descriptor => descriptor.mapChildren fun child => substitute child bindings (depth+1)
termination_by maxTypeDepth+1-depth

theorem substitute_parameter (name : Atom) (bs : Bindings) {n : ℕ} (h : n ≤ maxTypeDepth) :
    (parameter name).substitute bs n = bound bs name := by
  rw [substitute.eq_def,if_neg (Nat.not_lt.mpr h)]

theorem substitute_other {d : TypeDescriptor} (hd : ∀ name, d ≠ parameter name) (bs : Bindings) {n : ℕ}
    (h : n ≤ maxTypeDepth) :
    d.substitute bs n = d.mapChildren fun c => c.substitute bs (n+1) := by
  rw [substitute.eq_def,if_neg (Nat.not_lt.mpr h)]
  split
  next name => exact absurd rfl (hd name)
  next => rfl

section

open TypeCheck

variable {ts : Tables} {v : Value} {members : List TypeDescriptor}

theorem denotes_wrapMembers : Denotes ts (wrapMembers members) v ↔ ∀ d ∈ members, Denotes ts d v := by
  unfold wrapMembers
  split
  · simp
  · exact denotes_intersection

theorem forall_mem_eraseIdx {α : Type} {P : α → Prop} {l : List α} {i : ℕ} {x : α} (hx : l[i]? = some x) :
    (∀ d ∈ l, P d) ↔ P x ∧ ∀ d ∈ l.eraseIdx i, P d := by
  obtain ⟨hi,rfl⟩ := List.getElem?_eq_some_iff.mp hx
  rw [← forall_mem_cons]
  exact forall_congr' fun d => imp_congr_left (getElem_cons_eraseIdx_perm hi).symm.mem_iff

/-- All members, with two of them taken out. -/
theorem forall_mem_eraseIdx_two {α : Type} {P : α → Prop} {l : List α} {i j : ℕ} {x y : α}
    (hx : l[i]? = some x) (hy : l[j]? = some y) (hij : i ≠ j) :
    (∀ d ∈ l, P d) ↔ (P x ∧ P y) ∧ ∀ d ∈ (l.eraseIdx (max i j)).eraseIdx (min i j), P d := by
  rcases Nat.lt_or_gt_of_ne hij with hlt | hlt
  · rw [Nat.max_eq_right hlt.le,Nat.min_eq_left hlt.le,forall_mem_eraseIdx hy,
      forall_mem_eraseIdx (x := x) (by rwa [getElem?_eraseIdx_of_lt hlt])]
    tauto
  · rw [Nat.max_eq_left hlt.le,Nat.min_eq_right hlt.le,forall_mem_eraseIdx hx,
      forall_mem_eraseIdx (x := y) (by rwa [getElem?_eraseIdx_of_lt hlt]),and_assoc]

variable {d e : TypeDescriptor} {high : Option Int64}

theorem denotes_stringBounds {low : Int64}
    (hd : d.stringBounds = some (low,high)) (hshort : ∀ n, v.asStringLen = some n → n < 2 ^ 63) :
    Denotes ts d v ↔ ∃ n, v.asStringLen = some n ∧ stringLengthMatches n low high := by
  cases d <;> cases hd
  case string =>
    rw [Denotes]
    cases h : v.asStringBytes with
    | none => simp [Value.asStringLen,h]
    | some bs =>
      have hlen : v.asStringLen = some bs.length := by rw [Value.asStringLen,h,map_some]
      simpa [h,hlen,stringLengthMatches] using hshort _ hlen
  case stringLength => rw [Denotes]

theorem denotes_excludesEmpty (he : e.excludesEmpty) : Denotes ts e v ↔ v.asStringLen ≠ some 0 := by
  unfold excludesEmpty at he
  split at he
  next =>
    rw [Denotes,Denotes,isEmpty_iff.mp he,Value.asStringLen]
    cases h : v.asStringBytes <;> simp [h]
  next => cases he

theorem nonEmpty_le_iff (low : Int64) (n : ℕ) : (if 1 ≤ low then low else 1).toInt ≤ n ↔ low.toInt ≤ n ∧ n ≠ 0 := by
  have hone : (1 : Int64).toInt = 1 := rfl
  split
  next h =>
    rw [Int64.le_iff_toInt_le] at h
    omega
  next h =>
    rw [Int64.le_iff_toInt_le] at h
    omega

/-- A length bound of a non-empty string. -/
theorem denotes_nonEmpty {low : Int64}
    (hd : d.stringBounds = some (low,high)) (he : e.excludesEmpty)
    (hshort : ∀ n, v.asStringLen = some n → n < 2 ^ 63) : Denotes ts d v ∧ Denotes ts e v ↔
      Denotes ts (stringLength (if 1 ≤ low then low else 1) high) v := by
  rw [denotes_stringBounds hd hshort,denotes_excludesEmpty he,Denotes]
  cases h : v.asStringLen with
  | none => simp [h]
  | some =>
    simp only [h,stringLengthMatches,some_inj,Bool.and_eq_true,decide_eq_true_eq,exists_eq_left',
      nonEmpty_le_iff,ne_eq]
    tauto

theorem not_denotes_nonEmpty (low : Int64) : ¬Denotes ts (stringLength (if 1 ≤ low then low else 1) (some 0)) v := by
  rw [Denotes]
  rintro ⟨n,-,h⟩
  simp only [stringLengthMatches,Bool.and_eq_true,decide_eq_true_eq,nonEmpty_le_iff,all_some,
    Int64.toInt_zero] at h
  omega

theorem denotes_intersectionOf (hshort : ∀ n, v.asStringLen = some n → n < 2 ^ 63) :
    Denotes ts (intersectionOf members) v ↔ ∀ d ∈ members, Denotes ts d v := by
  unfold intersectionOf
  dsimp only
  split
  next nonEmpty ht hnil =>
    obtain ⟨⟨d,i⟩,hmem,hd⟩ := exists_of_findSome?_eq_some ht
    obtain ⟨bounds,hbounds,heq⟩ := map_eq_some_iff.mp hd
    cases heq
    obtain ⟨hj,he,-⟩ := findIdx?_eq_some_iff_getElem.mp hnil
    have hx : members[i]? = some d := mem_zipIdx_iff_getElem?.mp hmem
    have hy := getElem?_eq_getElem hj
    have hij : i ≠ nonEmpty := by
      rintro rfl
      rw [hx,some_inj] at hy
      rw [← hy] at he
      cases d <;> first | cases he | cases hbounds
    rw [forall_mem_eraseIdx_two hx hy hij,denotes_nonEmpty hbounds he hshort]
    split
    next hhigh =>
      rw [hhigh,Denotes]
      exact iff_of_false id fun h => not_denotes_nonEmpty _ h.1
    next =>
      rw [denotes_wrapMembers,forall_mem_append,forall_mem_singleton,and_comm]
  next => exact denotes_wrapMembers

/-- Simplified or not, nested or flat, an intersection means all of its members. -/
theorem intersectionOf_nested (ts : Tables) (members others : List TypeDescriptor) (v : Value)
    (hshort : ∀ n, v.asStringLen = some n → n < 2 ^ 63) :
    (Denotes ts (intersectionOf members) v ↔ Denotes ts (intersection members) v) ∧
    (Denotes ts (intersectionOf (intersectionOf members::others)) v ↔
      Denotes ts (intersectionOf (members++others)) v) := by
  rw [denotes_intersection,denotes_intersectionOf hshort]
  refine ⟨Iff.rfl,?_⟩
  rw [denotes_intersectionOf hshort,denotes_intersectionOf hshort,forall_mem_cons,denotes_intersectionOf hshort,
    forall_mem_append]

/-- The string `a`. -/
def letterA : Value := .mk (.string ⟨[97],by decide⟩) none

def notEmpty : TypeDescriptor := negated (stringLiteral ⟨[],by decide⟩)

/-- The string bound and the exclusion of the empty string are merged, and `a` is a value of each form. -/
theorem intersectionOf_nested_text : ∃ ts : Tables, intersectionOf [string,notEmpty] = stringLength 1 none ∧
    Denotes ts (intersection [string,notEmpty]) letterA ∧ Denotes ts (intersectionOf [string,notEmpty]) letterA ∧
    Denotes ts (intersectionOf ([string,notEmpty]++[stringLength 0 (some 3)])) letterA ∧
    Denotes ts (intersectionOf [intersectionOf [string,notEmpty],stringLength 0 (some 3)]) letterA := by
  have hbytes : letterA.asStringBytes = some [97] := rfl
  have hlen : letterA.asStringLen = some 1 := rfl
  have hshort : ∀ n, letterA.asStringLen = some n → n < 2 ^ 63 := by
    rintro _ ⟨⟩
    decide
  obtain ⟨hflat,hnested⟩ := intersectionOf_nested ⟨fun _ => ⟨[],fun _ => none⟩,fun _ _ _ => false⟩ [string,notEmpty]
    [stringLength 0 (some 3)] letterA hshort
  have hmembers : ∀ d ∈ [string,notEmpty]++[stringLength 0 (some 3)],
      Denotes ⟨fun _ => ⟨[],fun _ => none⟩,fun _ _ _ => false⟩ d letterA := by
    simp [notEmpty,Denotes,hbytes,hlen,stringLengthMatches]
  have hplain := denotes_intersection.mpr fun d hd => hmembers d (mem_append_left _ hd)
  have hall := (denotes_intersectionOf hshort).mpr hmembers
  exact ⟨_,rfl,hplain,hflat.mpr hplain,hall,hnested.mpr hall⟩

end

end Whim.TypeDescriptor
