import Mathlib.Algebra.Order.Ring.Nat
import Mathlib.Data.List.Basic

/-!
# Sequences in chunks

Two sequences given as lists of chunks are compared chunk by chunk, and one is regrouped into blocks of fixed size.
Both depend on the concatenation only.
-/

namespace Whim.Chunked

open List

variable {α : Type}

section

theorem length_take_min (l r : List α) :
    (l.take (min l.length r.length)).length = (r.take (min l.length r.length)).length := by
  simp

variable [Ord α]

/-- Lexicographic comparison of two sequences. -/
def lex : List α → List α → Ordering
  | [], [] => .eq
  | [], _::_ => .lt
  | _::_, [] => .gt
  | a::l, b::r => (compare a b).then (lex l r)

/-- Comparison of two chunked sequences: `left` and `right` are the chunks still to come, `l` and `r`
what is left of the current ones. -/
def lexChunks (left right : List (List α)) (l r : List α) : Ordering :=
  match l, left with
  | [], c::left => lexChunks left right c r
  | l, left =>
    match r, right with
    | [], c::right => lexChunks left right l c
    | r, right =>
      match l, r with
      | [], [] => .eq
      | [], _::_ => .lt
      | _::_, [] => .gt
      | a::l, b::r =>
        let shared := min (a::l).length (b::r).length
        match lex ((a::l).take shared) ((b::r).take shared) with
        | .eq => lexChunks left right ((a::l).drop shared) ((b::r).drop shared)
        | ordering => ordering
termination_by (left.map fun c => c.length+1).sum+(right.map fun c => c.length+1).sum +
  l.length+r.length
decreasing_by
  · simp only [map_cons,sum_cons,length_nil]
    omega
  · simp only [map_cons,sum_cons,length_nil]
    omega
  · simp only [length_drop,length_cons]
    omega

theorem lex_append {a b : List α} (hlen : a.length = b.length) (l r : List α) :
    lex (a++l) (b++r) = (lex a b).then (lex l r) := by
  induction a generalizing b with
  | nil =>
    cases b with
    | nil => rfl
    | cons => cases hlen
  | cons x a ih =>
    cases b with
    | nil => cases hlen
    | cons => simp only [cons_append,lex,ih (by simpa using hlen),Ordering.then_assoc]

/-- Two sequences are compared over the length of the shorter first parts. -/
theorem lex_shared (l r left right : List α) : lex (l++left) (r++right) =
    (lex (l.take (min l.length r.length)) (r.take (min l.length r.length))).then
      (lex (l.drop (min l.length r.length)++left) (r.drop (min l.length r.length)++right)) := by
  rw [← lex_append (length_take_min l r),← append_assoc,← append_assoc,take_append_drop,take_append_drop]

theorem lexChunks_eq (left right : List (List α)) (l r : List α) :
    lexChunks left right l r = lex (l++left.flatten) (r++right.flatten) := by
  fun_induction lexChunks left right l r with
  | case1 _ _ _ _ ih => simpa using ih
  | case2 _ _ _ _ _ ih => simpa using ih
  | case3 left right hl hr =>
    cases left with
    | nil =>
      cases right with
      | nil => rfl
      | cons c right => exact absurd rfl (hr c right rfl)
    | cons c left => exact absurd rfl (hl c left rfl)
  | case4 left _ _ _ hl =>
    cases left with
    | nil => rfl
    | cons c left => exact absurd rfl (hl c left rfl)
  | case5 _ right _ _ _ hr =>
    cases right with
    | nil => rfl
    | cons c right => exact absurd rfl (hr c right rfl)
  | case6 _ _ a l b r _ heq _ _ ih =>
    rw [ih,lex_shared (a::l) (b::r)]
    exact (congrArg (Ordering.then · _) heq).symm
  | case7 _ _ a l b r shared _ _ hne =>
    rw [lex_shared (a::l) (b::r)]
    generalize lex ((a::l).take shared) ((b::r).take shared) = ordering at hne ⊢
    cases ordering <;> first | rfl | exact absurd rfl hne

theorem lex_eq_iff [Std.LawfulEqOrd α] {l r : List α} : lex l r = .eq ↔ l = r := by
  induction l generalizing r with
  | nil => cases r <;> simp [lex]
  | cons a l ih =>
    cases r with
    | nil => simp [lex]
    | cons =>
      simp only [lex,Ordering.then_eq_eq,Std.LawfulEqOrd.compare_eq_iff_eq,ih,List.cons.injEq]

end

section

/-- The consecutive blocks of `n` elements, the last one possibly shorter. -/
def blocks (n : ℕ) (l : List α) : List (List α) :=
  if l = [] ∨ n = 0 then [] else l.take n::blocks n (l.drop n)
termination_by l.length
decreasing_by
  rename_i h
  have hpos := length_pos_iff.mpr fun hl => h (.inl hl)
  simp only [length_drop]
  omega

theorem blocks_nil (n : ℕ) : blocks n ([] : List α) = [] := by
  rw [blocks]
  simp

variable {n : ℕ}

theorem blocks_of_length_le {l : List α} (hl : l ≠ []) (h : l.length ≤ n) : blocks n l = [l] := by
  have hpos := length_pos_iff.mpr hl
  rw [blocks,if_neg (by simp [hl]; omega),take_of_length_le h,drop_of_length_le h,blocks_nil]

theorem blocks_append {b : List α} (hn : 0 < n) (hb : b.length = n) (l : List α) :
    blocks n (b++l) = b::blocks n l := by
  have hne : b++l ≠ [] := by
    have hb' : b ≠ [] := length_pos_iff.mp (by omega)
    simp [hb']
  rw [blocks,if_neg (by simp only [hne,false_or]; omega),← hb,take_left,drop_left]

/-- Regrouping state: the full blocks written so far and the elements waiting for the next one. -/
structure Regroup (α : Type) where
  written : List (List α)
  pending : List α

/-- Take one chunk in. A full block at the start of an empty buffer is written without copying. -/
def feed (n : ℕ) (s : Regroup α) (fragment : List α) : Regroup α :=
  if fragment = [] ∨ n ≤ s.pending.length then s
  else if s.pending = [] ∧ n ≤ fragment.length then
    feed n ⟨s.written++[fragment.take n],[]⟩ (fragment.drop n)
  else
    let copied := min (n-s.pending.length) fragment.length
    let pending := s.pending++fragment.take copied
    if pending.length = n then feed n ⟨s.written++[pending],[]⟩ (fragment.drop copied)
    else feed n ⟨s.written,pending⟩ (fragment.drop copied)
termination_by fragment.length
decreasing_by
  all_goals
    have h := ‹¬ (fragment = [] ∨ n ≤ s.pending.length)›
    have hpos := length_pos_iff.mpr fun hf => h (.inl hf)
    simp only [length_drop]
    omega

/-- What was fed so far is in the state, and the buffer has room. -/
structure Regrouped (n : ℕ) (s : Regroup α) (fed : List α) : Prop where
  blocks_eq : ∀ rest, blocks n (fed++rest) = s.written++blocks n (s.pending++rest)
  room : s.pending.length < n

theorem regrouped_nil (hn : 0 < n) : Regrouped n (⟨[],[]⟩ : Regroup α) [] := ⟨fun _ => rfl,hn⟩

variable {s : Regroup α} {fed : List α}

theorem Regrouped.feed (h : Regrouped n s fed) (f : List α) :
    Regrouped n (Chunked.feed n s f) (fed++f) := by
  fun_induction Chunked.feed n s f generalizing fed with
  | case1 _ _ hstop =>
    rcases hstop with rfl | hfull
    · simpa using h
    · exact absurd h.room (by omega)
  | case2 s f _ hblock ih =>
    have hlen : (f.take n).length = n := by simp [hblock.2]
    have hnext : Regrouped n ⟨s.written++[f.take n],[]⟩ (fed++f.take n) := by
      refine ⟨fun rest => ?_,by have := h.room; simp only [length_nil]; omega⟩
      rw [append_assoc,h.blocks_eq,hblock.1,nil_append,
        blocks_append (by have := h.room; omega) hlen]
      simp
    simpa using ih hnext
  | case3 s f _ _ copied ps hfull =>
    rename_i ih
    have hnext : Regrouped n ⟨s.written++[ps],[]⟩ (fed++f.take copied) := by
      refine ⟨fun rest => ?_,by have := h.room; simp; omega⟩
      rw [append_assoc,h.blocks_eq,← append_assoc,
        blocks_append (by have := h.room; omega) hfull]
      simp
    simpa using ih hnext
  | case4 s f _ _ copied ps =>
    rename_i ih
    have hlen : ps.length ≤ n := by
      have := h.room
      simp only [ps,copied,length_append,length_take]
      omega
    have hnext : Regrouped n ⟨s.written,ps⟩ (fed++f.take copied) := by
      refine ⟨fun rest => ?_,by simp only; omega⟩
      rw [append_assoc,h.blocks_eq,← append_assoc]
    simpa using ih hnext

/-- Regroup a whole list of chunks, writing what is left in the buffer at the end. -/
def regroup (n : ℕ) (chunks : List (List α)) : List (List α) :=
  let s := chunks.foldl (feed n) ⟨[],[]⟩
  if s.pending = [] then s.written else s.written++[s.pending]

theorem Regrouped.foldl (h : Regrouped n s fed) (cs : List (List α)) :
    Regrouped n (cs.foldl (Chunked.feed n) s) (fed++cs.flatten) := by
  induction cs generalizing s fed with
  | nil => simpa using h
  | cons c _ ih => simpa using ih (h.feed c)

/-- Regrouping gives the blocks of the concatenation. -/
theorem regroup_eq (hn : 0 < n) (cs : List (List α)) : regroup n cs = blocks n cs.flatten := by
  have h := (regrouped_nil hn).foldl cs
  have hblocks := h.blocks_eq []
  simp only [append_nil,nil_append] at hblocks
  rw [hblocks]
  simp only [regroup]
  split
  · next hp => rw [hp,blocks_nil,append_nil]
  · next hp => rw [blocks_of_length_le hp (Nat.le_of_lt h.room)]

end

end Whim.Chunked
