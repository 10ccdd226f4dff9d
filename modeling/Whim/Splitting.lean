import Mathlib.Data.List.Infix
import Mathlib.Algebra.Order.Ring.Nat

/-!
# Splitting, joining and replacing

Splitting cuts a string at the positions of its delimiter. Replacing copies between them, with a path of its own for a
single match of one byte. The search for positions is leftmost and without overlaps.
-/

namespace Whim.Splitting

open Option List

abbrev Bytes := List UInt8

/-- The positions at which a search finds the needle, after it has passed over some bytes. -/
def search (needle : Bytes) : (skip offset : ℕ) → Bytes → List ℕ
  | _,_,[] => []
  | skip+1,offset,_::rest => search needle skip (offset+1) rest
  | 0,offset,b::rest =>
    if needle.isPrefixOf (b::rest) then offset::search needle (needle.length-1) (offset+1) rest
    else search needle 0 (offset+1) rest

def findBytesPositions (haystack needle : Bytes) : List ℕ := search needle 0 0 haystack

def findBytePositions (byte : UInt8) (haystack : Bytes) : List ℕ := search [byte] 0 0 haystack

-- Indexing with a range fails when the range is not inside the bytes.
def slice (bytes : Bytes) (start stop : ℕ) : Option Bytes :=
  if start ≤ stop ∧ stop ≤ bytes.length then some ((bytes.drop start).take (stop-start)) else none

def shortCapacity : ℕ := 7

def inlineCapacity : ℕ := 23

/-! ## Splitting -/

def splitPart (source : Option Bytes) (bytes : Bytes) (start stop : ℕ) : Option Bytes :=
  if stop-start ≤ shortCapacity then slice (source.getD bytes) start stop
  else source.bind fun source => slice source start stop

def splitLoop (source : Option Bytes) (haystack : Bytes) (delimiterLength limit : ℕ) :
    (parts : List Bytes) → (start : ℕ) → (positions : List ℕ) → Option (List Bytes)
  | parts,start,[] => (splitPart source haystack start haystack.length).map (parts++[·])
  | parts,start,position::positions =>
    if limit ≠ 0 ∧ parts.length+1 = limit then
      (splitPart source haystack start haystack.length).map (parts++[·])
    else (splitPart source haystack start position).bind fun part =>
      splitLoop source haystack delimiterLength limit (parts++[part]) (position+delimiterLength) positions

-- A string that fits into a short one has no heap string to take slices of.
def splitSource (haystack : Bytes) : Option Bytes := if shortCapacity < haystack.length then some haystack else none

def splitAtPositions (haystack : Bytes) (delimiterLength limit : ℕ) (positions : List ℕ) : Option (List Bytes) :=
  if positions = [] then some [haystack]
  else splitLoop (splitSource haystack) haystack delimiterLength limit [] 0 positions

def stringSplit (haystack delimiter : Bytes) (limit : ℕ) : Option (List Bytes) :=
  if delimiter = [] ∨ limit = 1 then some [haystack]
  else match delimiter with
    | [byte] => splitAtPositions haystack 1 limit (findBytePositions byte haystack)
    | _ => splitAtPositions haystack delimiter.length limit (findBytesPositions haystack delimiter)

/-! ## Joining and replacing -/

def stringJoin (values : List Bytes) (separator : Bytes) : Bytes :=
  (values.foldl (fun s bytes => ((if s.2 then s.1 else s.1++separator)++bytes,false)) (([],true) : Bytes × Bool)).1

def toAsciiLowercase (bytes : Bytes) : Bytes := bytes.map fun b => if 0x41 ≤ b ∧ b ≤ 0x5a then b+0x20 else b

def copyFromSlice (buffer : Bytes) (start stop : ℕ) (bytes : Bytes) : Option Bytes :=
  if start ≤ stop ∧ stop ≤ buffer.length ∧ bytes.length = stop-start then
    some (buffer.take start++bytes++buffer.drop stop)
  else none

/-- The matches are appended, then the rest unless nothing has been found. -/
def appendMatches (haystack needle replacement : Bytes) : (result : Bytes) → (start : ℕ) → List ℕ → Option Bytes
  | result,start,[] => if start = 0 then some haystack else (slice haystack start haystack.length).map (result++·)
  | result,start,position::positions => (slice haystack start position).bind fun part =>
    appendMatches haystack needle replacement (result++part++replacement) (position+needle.length) positions

/-- The path for one match whose result fits into a string object. -/
def replaceInline (haystack replacement : Bytes) (first capacity : ℕ) : Option Bytes := do
  let buffer := replicate inlineCapacity 0
  let stop := first+replacement.length
  let buffer ← copyFromSlice buffer 0 first (← slice haystack 0 first)
  let buffer ← copyFromSlice buffer first stop replacement
  let buffer ← copyFromSlice buffer stop capacity (← slice haystack (first+1) haystack.length)
  slice buffer 0 capacity

def stringReplace (haystack needle replacement : Bytes) (ci : Bool) : Option Bytes :=
  let capacity := haystack.length-needle.length+replacement.length
  if needle = [] then some haystack
  else if ci then appendMatches haystack needle replacement [] 0
    (findBytesPositions (toAsciiLowercase haystack) (toAsciiLowercase needle))
  else match needle,findBytePositions (needle.headD 0) haystack with
    | [_],[] => some haystack
    | [_],[first] =>
      if capacity ≤ inlineCapacity then replaceInline haystack replacement first capacity
      else appendMatches haystack needle replacement [] 0 [first]
    | [_],positions => appendMatches haystack needle replacement [] 0 positions
    | _,_ => appendMatches haystack needle replacement [] 0 (findBytesPositions haystack needle)

/-! ## What a search finds -/

/-- The positions found in a text, and the parts between them. -/
inductive Cut (d : Bytes) : (offset : ℕ) → Bytes → List ℕ → List Bytes → Prop
  | last {i t} : ¬d <:+: t → Cut d i t [] [t]
  | part {i a u ps parts} : ¬d <:+: a → Cut d (i+a.length+d.length) u ps parts →
    Cut d i (a++d++u) ((i+a.length)::ps) (a::parts)

variable {d t : Bytes} {i : ℕ} {ps : List ℕ} {parts : List Bytes}

theorem Cut.cons {b : UInt8} (h : Cut d (i+1) t ps parts) (hb : ¬d <+: b::t) : ∃ parts, Cut d i (b::t) ps parts := by
  cases h with
  | last ht => exact ⟨_,.last fun h => (infix_cons_iff.mp h).elim hb ht⟩
  | @part i' a u ps parts ha h =>
    have hba : ¬d <:+: b::a := fun h => (infix_cons_iff.mp h).elim
      (fun h => hb (h.trans ⟨d++u,by simp⟩)) ha
    have heq : i+1+a.length = i+(b::a).length := by simp; omega
    rw [heq] at h ⊢
    exact ⟨_,Cut.part hba h⟩

theorem search_skip (skip o : ℕ) (t : Bytes) : search d skip o t = search d 0 (o+skip) (t.drop skip) := by
  induction skip generalizing o t with
  | zero => simp
  | succ n ih =>
    rcases t with _ | ⟨b,t⟩
    · simp [search]
    · rw [search,ih,drop_succ_cons,Nat.add_right_comm,Nat.add_assoc]

theorem search_cut (hd : d ≠ []) (i : ℕ) (t : Bytes) : ∃ parts, Cut d i t (search d 0 i t) parts := by
  induction hn : t.length using Nat.strong_induction_on generalizing t i with
  | _ n ih =>
    rcases t with _ | ⟨b,t⟩
    · exact ⟨_,.last (by simpa using hd)⟩
    · by_cases hb : d <+: b::t
      · obtain ⟨u,hu⟩ := hb
        obtain ⟨m,hm⟩ : ∃ m, d.length = m+1 := Nat.exists_eq_succ_of_ne_zero (by simpa using hd)
        have hlen := congrArg length hu
        simp only [length_append,length_cons] at hlen hn
        obtain ⟨parts,hparts⟩ := ih u.length (by omega) (i+d.length) u rfl
        have hdrop : t.drop m = u := by simpa [hm] using (congrArg (drop d.length) hu).symm
        have hsearch : search d 0 i (b::t) = i::search d 0 (i+d.length) u := by
          rw [search,if_pos (List.isPrefixOf_iff_prefix.mpr ⟨u,hu⟩),search_skip,hm,Nat.add_sub_cancel,hdrop,
            Nat.add_assoc,Nat.add_comm 1]
        rw [hsearch,← hu]
        exact ⟨_,by simpa using Cut.part (a := []) (by simpa using hd) (by simpa using hparts)⟩
      · obtain ⟨parts,hparts⟩ := ih t.length (by simp [← hn]) (i+1) t rfl
        rw [search,if_neg (mt isPrefixOf_iff_prefix.mp hb)]
        exact hparts.cons hb

/-! ## The parts -/

theorem stringJoin_eq (vs : List Bytes) (sep : Bytes) : stringJoin vs sep = sep.intercalate vs := by
  have hloop : ∀ (vs : List Bytes) (r : Bytes), (vs.foldl (fun s bs =>
      ((if s.2 then s.1 else s.1++sep)++bs,false)) (r,false)).1 =
        r++vs.flatMap (sep++·) := by
    intro vs
    induction vs with
    | nil => simp
    | cons v vs ih => intro r; simp [ih]
  rcases vs with _ | ⟨v,vs⟩
  · rfl
  · simp only [stringJoin,foldl_cons,if_true,nil_append,hloop]
    induction vs generalizing v with
    | nil => simp
    | cons next vs ih => simp [← ih]

theorem Cut.ne_nil (h : Cut d i t ps parts) : parts ≠ [] := by
  cases h <;> simp

theorem Cut.join (h : Cut d i t ps parts) : d.intercalate parts = t := by
  induction h with
  | last => simp
  | part _ h ih =>
    obtain ⟨p,parts,rfl⟩ := exists_cons_of_ne_nil h.ne_nil
    simp [intercalate_cons_cons,ih]

theorem Cut.not_infix (h : Cut d i t ps parts) : ∀ p ∈ parts, ¬d <:+: p := by
  induction h with
  | last ht => simpa using ht
  | part ha _ ih => simpa using ⟨ha,ih⟩

section
variable {s a b c : Bytes} {j : ℕ}

theorem slice_eq (hs : s = a++b++c) (hi : i = a.length) (hj : j = a.length+b.length) : slice s i j = some b := by
  simp [slice,hs,hi,hj]

theorem copyFromSlice_eq (hs : s = a++c) (hi : i = a.length) (hj : j = a.length+b.length) (h : b.length ≤ c.length) :
    copyFromSlice s i j b = some (a++b++c.drop b.length) := by
  simp [copyFromSlice,hs,hi,hj,h]

theorem splitPart_eq (hs : s = a++b++c) (hi : i = a.length) (hj : j = a.length+b.length) :
    splitPart (splitSource s) s i j = some b := by
  have hslice := slice_eq hs hi hj
  by_cases hlong : shortCapacity < s.length
  · simp [splitPart,splitSource,hlong,hslice]
  · have hsh : j-i ≤ shortCapacity := by
      simp [hs] at hlong
      omega
    simp [splitPart,splitSource,hlong,hsh,hslice]

end

/-- The parts when there may be only so many of them, with zero for no limit. -/
def limited (d : Bytes) (limit : ℕ) (parts : List Bytes) : List Bytes :=
  if limit = 0 then parts
  else parts.take (limit-1)++if limit ≤ parts.length then [d.intercalate (parts.drop (limit-1))] else []

variable {m : ℕ}

theorem limited_cons (a : Bytes) (h : m ≠ 1) : limited d m (a::parts) = a::limited d (m-1) parts := by
  rcases m with _ | _ | n
  · simp [limited]
  · contradiction
  · simp [limited]

theorem limited_one (h : parts ≠ []) : limited d 1 parts = [d.intercalate parts] := by
  have := length_pos_of_ne_nil h
  simp [limited,Nat.succ_le_of_lt this]

theorem limited_single : limited d m [t] = [t] := by
  by_cases hlimit : m = 1
  · simp [hlimit,limited_one]
  · rw [limited_cons t hlimit]
    simp [limited]

theorem intercalate_limited (m : ℕ) (h : parts ≠ []) :
    limited d m parts ≠ [] ∧ d.intercalate (limited d m parts) = d.intercalate parts := by
  induction parts generalizing m with
  | nil => contradiction
  | cons a parts ih =>
    by_cases hlimit : m = 1
    · simp [hlimit,limited_one]
    · rcases parts with _ | ⟨p,parts⟩
      · simp [limited_single]
      · obtain ⟨hne,heq⟩ := ih (m-1) (by simp)
        obtain ⟨q,rest,hq⟩ := exists_cons_of_ne_nil hne
        rw [hq] at heq
        simp [limited_cons a hlimit,hq,intercalate_cons_cons,heq]

theorem Cut.splitLoop_eq (h : Cut d i t ps parts) {s : Bytes} (before : Bytes) (hs : s = before++t)
    (hi : i = before.length) {acc : List Bytes} (hacc : m ≠ 0 → acc.length < m) :
    splitLoop (splitSource s) s d.length m acc i ps = some (acc++limited d (m-acc.length) parts) := by
  have hl {i : ℕ} {before t : Bytes} (hs : s = before++t) (hi : i = before.length) :
      splitPart (splitSource s) s i s.length = some t :=
    splitPart_eq (c := []) (by simp [hs]) hi (by simp [hs])
  induction h generalizing before acc with
  | last => simp [splitLoop,hl hs hi,limited_single]
  | @part i a u ps parts ha h ih =>
    rw [splitLoop]
    by_cases hlimit : m ≠ 0 ∧ acc.length+1 = m
    · have hjoin := (Cut.part ha h).join
      rw [if_pos hlimit,← hlimit.2,Nat.add_sub_cancel_left,limited_one (by simp),hjoin,hl hs hi,map_some]
    · have hne : m-acc.length ≠ 1 := by omega
      rw [if_neg hlimit,splitPart_eq (a := before) (b := a) (c := d++u) (by simp [hs]) hi (by omega),bind_some,
        limited_cons a hne,ih (before++a++d) (by simp [hs]) (by simp [hi]; omega) (by simp; omega)]
      simp [Nat.sub_sub]

theorem Cut.appendMatches_eq (h : Cut d i t ps parts) (hd : d ≠ []) (r : Bytes) {s : Bytes} (before res : Bytes)
    (hs : s = before++t) (hi : i = before.length) (hres : i = 0 → res = []) :
    appendMatches s d r res i ps = some (res++r.intercalate parts) := by
  induction h generalizing before res with
  | @last i t =>
    rw [appendMatches]
    split_ifs with hz
    · obtain rfl : before = [] := eq_nil_of_length_eq_zero (hi ▸ hz)
      simp [hres hz,hs]
    · rw [slice_eq (a := before) (b := t) (c := []) (by simp [hs]) hi (by simp [hs])]
      simp
  | @part i a u ps parts ha h ih =>
    have hpos := length_pos_of_ne_nil hd
    obtain ⟨p,parts,rfl⟩ := exists_cons_of_ne_nil h.ne_nil
    rw [appendMatches,slice_eq (a := before) (b := a) (c := d++u) (by simp [hs]) hi (by omega),bind_some,
      ih (before++a++d) (res++a++r) (by simp [hs]) (by simp [hi]; omega) (by omega)]
    simp [intercalate_cons_cons]

theorem replaceInline_eq {a u r : Bytes} (b : UInt8) (h : a.length+r.length+u.length ≤ inlineCapacity) :
    replaceInline (a++[b]++u) r a.length (a.length+r.length+u.length) = some (a++r++u) := by
  simp only [replaceInline,bind_eq_bind]
  rw [slice_eq (a := []) (b := a) (c := [b]++u) (i := 0) (by simp) rfl (by simp),bind_some,
    copyFromSlice_eq (a := []) (i := 0) (nil_append _).symm rfl (by simp) (by simp; omega),bind_some,
    nil_append,copyFromSlice_eq (a := a) rfl rfl rfl (by simp; omega),bind_some,
    slice_eq (a := a++[b]) (b := u) (c := []) (by simp) (by simp) (by simp; omega),bind_some,
    copyFromSlice_eq (a := a++r) rfl (by simp) (by simp) (by simp; omega),bind_some]
  exact slice_eq (a := []) rfl rfl (by simp; omega)

theorem Cut.splitAtPositions_eq (h : Cut d 0 t ps parts) :
    splitAtPositions t d.length m ps = some (limited d m parts) := by
  unfold splitAtPositions
  split_ifs with hps
  · subst hps
    cases h
    rw [limited_single]
  · exact h.splitLoop_eq [] rfl rfl (by simp; omega)

theorem Cut.stringSplit_eq (h : Cut d 0 t (search d 0 0 t) parts) (hd : d ≠ []) (m : ℕ) :
    stringSplit t d m = some (limited d m parts) := by
  unfold stringSplit
  by_cases hlimit : m = 1
  · simp [hlimit,limited_one h.ne_nil,h.join]
  · rw [if_neg (by simp [hd,hlimit])]
    split
    · exact h.splitAtPositions_eq
    · exact h.splitAtPositions_eq

theorem Cut.single {f : ℕ} (h : Cut d 0 t [f] parts) : ∃ a u, t = a++d++u ∧ f = a.length ∧ parts = [a,u] := by
  generalize hi : 0 = i at h
  cases h with
  | @part _ a u _ _ _ h =>
    cases h
    exact ⟨a,u,rfl,by omega,rfl⟩

theorem Cut.stringReplace_eq (h : Cut d 0 t (search d 0 0 t) parts) (hd : d ≠ []) (r : Bytes) :
    stringReplace t d r false = some (r.intercalate parts) := by
  have hgen := h.appendMatches_eq hd r [] [] rfl rfl (fun _ => rfl)
  rw [nil_append] at hgen
  simp only [stringReplace,if_neg hd,Bool.false_eq_true,if_false]
  split
  case h_1 b hps =>
    rw [show search [b] 0 0 t = [] from hps] at h
    cases h
    simp
  case h_2 b f hps =>
    rw [show search [b] 0 0 t = [f] from hps] at h hgen
    split_ifs with hinline
    · obtain ⟨a,u,rfl,rfl,rfl⟩ := h.single
      have hsize : (a++[b]++u).length-[b].length+r.length = a.length+r.length+u.length := by simp; omega
      rw [hsize] at hinline ⊢
      simpa [intercalate_cons_cons] using replaceInline_eq b hinline
    · exact hgen
  case h_3 => exact hgen
  case h_4 => exact hgen

/-- The parts of a string, joined with the delimiter, give the string, and joined with another string what replacing
gives. None of them holds the delimiter, and a limit leaves the last parts together. -/
theorem split_join_replace (s d r : Bytes) (hd : d ≠ []) : ∃ parts, stringSplit s d 0 = some parts ∧
    (∀ p ∈ parts, ¬d <:+: p) ∧ stringReplace s d r false = some (stringJoin parts r) ∧
    ∀ limit, ∃ q, stringSplit s d limit = some q ∧ stringJoin q d = s ∧ (0 < limit → q =
      parts.take (limit-1)++if limit ≤ parts.length then [stringJoin (parts.drop (limit-1)) d] else []) := by
  obtain ⟨parts,h⟩ := search_cut hd 0 s
  simp only [stringJoin_eq]
  refine ⟨parts,h.stringSplit_eq hd 0,h.not_infix,h.stringReplace_eq hd r,
    fun limit => ⟨_,h.stringSplit_eq hd limit,?_,?_⟩⟩
  · rw [(intercalate_limited limit h.ne_nil).2,h.join]
  · intro hlimit
    rw [limited,if_neg hlimit.ne']

theorem split_join_replace_comma : ([0x2c] : Bytes) ≠ [] ∧
    stringReplace [0x61,0x2c,0x62] [0x2c] [0x3b] false = some [0x61,0x3b,0x62] ∧
    ∃ parts, stringSplit [0x61,0x2c,0x62] [0x2c] 0 = some parts ∧ stringJoin parts [0x3b] = [0x61,0x3b,0x62] := by
  obtain ⟨parts,hsplit,_,hreplace,_⟩ := split_join_replace [0x61,0x2c,0x62] [0x2c] [0x3b] (by decide)
  exact ⟨by decide,by decide,parts,hsplit,(some.inj hreplace).symm⟩

end Whim.Splitting
