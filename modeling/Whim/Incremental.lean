import Mathlib.Algebra.Order.Ring.Nat
import Mathlib.Data.List.Basic

/-!
# Incremental parsing

A parser that takes items off the front of its input, and the buffer that lets it run on input arriving in pieces. A
push that fails loses the items that it completed.
-/

namespace Whim

open List Option

inductive Next (β ε : Type)
  | more
  | item (value : β) (length : ℕ)
  | stop (error : ε)

/-- What the front of the input holds, decided once there is enough of it. -/
structure StreamParser (α β ε : Type) where
  next : List α → Next β ε
  progress : ∀ {xs value length}, next xs = .item value length → 0 < length ∧ length ≤ xs.length
  stable : ∀ {xs} ys, next xs ≠ .more → next (xs++ys) = next xs

namespace StreamParser

variable {α β ε : Type} (p : StreamParser α β ε)

/-- The items at the front, the input behind them, and the error the parser stopped at. -/
structure Parsed (α β ε : Type) where
  items : List β
  rest : List α
  error : Option ε

def parse (xs : List α) : Parsed α β ε :=
  match _hnext : p.next xs with
  | .more => ⟨[],xs,none⟩
  | .stop error => ⟨[],xs,some error⟩
  | .item value length =>
    let parsed := parse (xs.drop length)
    ⟨value::parsed.items,parsed.rest,parsed.error⟩
termination_by xs.length
decreasing_by
  have hprogress := p.progress _hnext
  simp only [length_drop]
  omega

variable {p} {xs : List α}

theorem parse_more (h : p.next xs = .more) : p.parse xs = ⟨[],xs,none⟩ := by
  rw [parse]
  split <;> simp_all

theorem parse_stop {e : ε} (h : p.next xs = .stop e) : p.parse xs = ⟨[],xs,some e⟩ := by
  rw [parse]
  split <;> simp_all

theorem parse_item {v : β} {n : ℕ} (h : p.next xs = .item v n) :
    p.parse xs = ⟨v::(p.parse (xs.drop n)).items,(p.parse (xs.drop n)).rest,(p.parse (xs.drop n)).error⟩ := by
  rw [parse]
  split <;> simp_all

/-- Induction along the items the parser takes off. -/
theorem parse_induction {motive : List α → Prop} (more : ∀ xs, p.next xs = .more → motive xs)
    (stop : ∀ xs e, p.next xs = .stop e → motive xs)
    (item : ∀ xs v len, p.next xs = .item v len → motive (xs.drop len) → motive xs) (xs : List α) : motive xs := by
  induction hn : xs.length using Nat.strong_induction_on generalizing xs with
  | h n ih =>
    cases h : p.next xs with
    | more => exact more xs h
    | stop e => exact stop xs e h
    | item v len =>
      have hprogress := p.progress h
      exact item xs v len h (ih _ (by simp only [length_drop]; omega) _ rfl)

/-- More input behind a stopped parser changes nothing. -/
theorem parse_append_of_error {e : ε} (h : (p.parse xs).error = some e) (ys : List α) :
    (p.parse (xs++ys)).items = (p.parse xs).items ∧ (p.parse (xs++ys)).error = some e := by
  induction xs using parse_induction (p := p) with
  | more _ hnext => simp [parse_more hnext] at h
  | stop _ _ hnext =>
    have hnext' := (p.stable ys (by simp [hnext])).trans hnext
    simpa [parse_stop hnext,parse_stop hnext'] using h
  | item _ _ _ hnext ih =>
    have hnext' := (p.stable ys (by simp [hnext])).trans hnext
    have hlen := (p.progress hnext).2
    rw [parse_item hnext] at h
    simpa [parse_item hnext,parse_item hnext',drop_append_of_le_length hlen] using ih h

/-- Without an error the input goes on behind the items taken off. -/
theorem parse_append (h : (p.parse xs).error = none) (ys : List α) :
    p.parse (xs++ys) = ⟨(p.parse xs).items++(p.parse ((p.parse xs).rest++ys)).items,
      (p.parse ((p.parse xs).rest++ys)).rest,(p.parse ((p.parse xs).rest++ys)).error⟩ := by
  induction xs using parse_induction (p := p) with
  | more _ hnext => simp [parse_more hnext]
  | stop _ _ hnext => simp [parse_stop hnext] at h
  | item _ _ _ hnext ih =>
    have hnext' := (p.stable ys (by simp [hnext])).trans hnext
    have hlen := (p.progress hnext).2
    rw [parse_item hnext] at h
    simp [parse_item hnext,parse_item hnext',drop_append_of_le_length hlen,ih h]

section

variable (p)

/-- One piece of input: the items it completes and the new buffer, or the error with everything kept. -/
def push (buffer piece : List α) : Except ε (List β) × List α :=
  match (p.parse (buffer++piece)).error with
  | none => (.ok (p.parse (buffer++piece)).items,(p.parse (buffer++piece)).rest)
  | some error => (.error error,buffer++piece)

/-- The outcomes of pushing the pieces one after the other, and the buffer behind them. -/
def run (buffer : List α) : List (List α) → List (Except ε (List β)) × List α
  | [] => ([],buffer)
  | piece::pieces =>
    let pushed := p.push buffer piece
    let rest := run pushed.2 pieces
    (pushed.1::rest.1,rest.2)

/-- The items of the pushes before the first one that fails. -/
def delivered : List (Except ε (List β)) → List β
  | .ok items::outcomes => items++delivered outcomes
  | _ => []

/-- The buffer behind an input: what its items leave, and after an error something the parser stops in. -/
def Buffers (input buffer : List α) : Prop :=
  (p.parse input).error = none ∧ buffer = (p.parse input).rest ∨
    (p.parse input).error ≠ none ∧ (p.parse buffer).error ≠ none

/-- What a push says about the input before and behind it. -/
def Reports (before behind : Parsed α β ε) (outcome : Except ε (List β)) : Prop :=
  (∃ items, outcome = .ok items ∧ before.error = none ∧ behind.error = none ∧
    behind.items = before.items++items) ∨ ∃ error, outcome = .error error ∧ behind.error ≠ none

variable {p} {input buffer : List α} {pieces : List (List α)}

theorem buffers_nil (h : p.next [] = .more) : Buffers p [] [] := by
  simp [Buffers,parse_more h]

theorem error_append (h : (p.parse xs).error ≠ none) (ys : List α) : (p.parse (xs++ys)).error ≠ none := by
  obtain ⟨e,herr⟩ := ne_none_iff_exists'.mp h
  simp [(parse_append_of_error herr ys).2]

theorem push_spec (h : Buffers p input buffer) (piece : List α) :
    Reports (p.parse input) (p.parse (input++piece)) (p.push buffer piece).1 ∧
      Buffers p (input++piece) (p.push buffer piece).2 := by
  rcases h with ⟨hn,rfl⟩ | ⟨hin,hbuffer⟩
  · have hparse := parse_append hn piece
    cases herr : (p.parse ((p.parse input).rest++piece)).error with
    | none =>
      rw [herr] at hparse
      exact ⟨.inl ⟨(p.parse ((p.parse input).rest++piece)).items,by simp [push,herr],hn,by rw [hparse],
        by rw [hparse]⟩,.inl ⟨by rw [hparse],by simp [push,herr,hparse]⟩⟩
    | some e =>
      rw [herr] at hparse
      exact ⟨.inr ⟨e,by simp [push,herr],by simp [hparse]⟩,.inr ⟨by simp [hparse],by simp [push,herr]⟩⟩
  · have hbehind := error_append hbuffer piece
    obtain ⟨e,herr⟩ := ne_none_iff_exists'.mp hbehind
    exact ⟨.inr ⟨e,by simp [push,herr],error_append hin piece⟩,
      .inr ⟨error_append hin piece,by simp [push,herr]⟩⟩

/-- The input seen by the first `n` pushes. -/
def seen (pieces : List (List α)) (n : ℕ) : List α := (pieces.take n).flatten

@[simp] theorem seen_zero : seen pieces 0 = [] := rfl

theorem seen_cons (piece : List α) (n : ℕ) : seen (piece::pieces) (n+1) = piece++seen pieces n := by
  simp [seen]

section
variable (h : Buffers p input buffer)
include h

theorem run_reports (pieces : List (List α)) {n : ℕ} {o : Except ε (List β)}
    (hn : (p.run buffer pieces).1[n]? = some o) :
    Reports (p.parse (input++seen pieces n)) (p.parse (input++seen pieces (n+1))) o := by
  induction pieces generalizing input buffer n with
  | nil => simp [run] at hn
  | cons piece _ ih =>
    obtain ⟨hreports,hbuffers⟩ := push_spec h piece
    cases n with
    | zero =>
      cases hn
      simpa [seen] using hreports
    | succ =>
      rw [seen_cons,seen_cons,← append_assoc,← append_assoc]
      exact ih hbuffers (by simpa [run] using hn)

theorem run_buffers (pieces : List (List α)) : Buffers p (input++pieces.flatten) (p.run buffer pieces).2 := by
  induction pieces generalizing input buffer with
  | nil => simpa [run] using h
  | cons piece _ ih => simpa [run] using ih (push_spec h piece).2

/-- The pushes before the first failing one deliver the items of the input they have seen; the next push, if
there is one, makes the parser stop. -/
theorem delivered_run (hin : (p.parse input).error = none)
    (pieces : List (List α)) : ∃ n ≤ pieces.length, (p.parse (input++seen pieces n)).error = none ∧
      (p.parse input).items++delivered (p.run buffer pieces).1 = (p.parse (input++seen pieces n)).items ∧
      (n < pieces.length → (p.parse (input++seen pieces (n+1))).error ≠ none) := by
  induction pieces generalizing input buffer with
  | nil => exact ⟨0,le_refl _,by simpa using hin,by simp [run,delivered],by simp⟩
  | cons piece _ ih =>
    obtain ⟨hreports,hbuffers⟩ := push_spec h piece
    rcases hreports with ⟨its,houtcome,-,hbehind,hitems⟩ | ⟨e,houtcome,hbehind⟩
    · obtain ⟨n,hn,hok,hdelivered,hfails⟩ := ih hbuffers hbehind
      refine ⟨n+1,by simpa using hn,?_,?_,?_⟩
      · rwa [seen_cons,← append_assoc]
      · rw [seen_cons,← append_assoc,← hdelivered,hitems,append_assoc]
        simp [run,houtcome,delivered]
      · intro hlt
        rw [seen_cons,← append_assoc]
        exact hfails (by simpa using hlt)
    · exact ⟨0,by simp,by simpa using hin,by simp [run,houtcome,delivered],by simpa [seen] using hbehind⟩

end

theorem seen_length (pieces : List (List α)) : seen pieces pieces.length = pieces.flatten := by
  simp [seen]

variable {n : ℕ}

theorem error_seen_mono {m : ℕ} (hmn : m ≤ n) (h : (p.parse (seen pieces m)).error ≠ none) :
    (p.parse (seen pieces n)).error ≠ none := by
  have hsplit : seen pieces n = seen pieces m++((pieces.take n).drop m).flatten := by
    rw [seen,seen,← flatten_append]
    congr 1
    conv_lhs => rw [← take_append_drop m (pieces.take n)]
    rw [take_take,min_eq_left hmn]
  rw [hsplit]
  exact error_append h _

theorem flatten_eq_seen (pieces : List (List α)) (n : ℕ) :
    pieces.flatten = seen pieces n++(pieces.drop n).flatten := by
  rw [seen,← flatten_append,take_append_drop]

theorem error_flatten (h : (p.parse (seen pieces n)).error ≠ none) : (p.parse pieces.flatten).error ≠ none := by
  rw [flatten_eq_seen pieces n]
  exact error_append h _

theorem items_flatten (h : (p.parse (seen pieces n)).error ≠ none) :
    (p.parse pieces.flatten).items = (p.parse (seen pieces n)).items := by
  obtain ⟨e,herr⟩ := ne_none_iff_exists'.mp h
  rw [flatten_eq_seen pieces n]
  exact (parse_append_of_error herr _).1

/-- The push in which the parser stops completes no item. -/
def StopsAlone (p : StreamParser α β ε) (pieces : List (List α)) : Prop :=
  ∀ n < pieces.length, (p.parse (seen pieces n)).error = none → (p.parse (seen pieces (n+1))).error ≠ none →
    (p.parse (seen pieces (n+1))).items = (p.parse (seen pieces n)).items

/-- All items before the error are delivered exactly when the failing push had none of its own. -/
theorem delivered_iff (hnil : p.next [] = .more) (pieces : List (List α)) :
    delivered (p.run [] pieces).1 = (p.parse pieces.flatten).items ↔ StopsAlone p pieces := by
  obtain ⟨n,hn,hok,hdelivered,hfails⟩ := delivered_run (buffers_nil hnil) (by simp [parse_more hnil]) pieces
  simp only [nil_append,parse_more hnil] at hok hdelivered hfails
  rw [hdelivered]
  rcases Nat.lt_or_eq_of_le hn with hlt | rfl
  · rw [items_flatten (hfails hlt)]
    constructor
    · intro heq m hm hnone herr
      have hmn : m = n := by
        by_contra hne
        rcases Nat.lt_or_gt_of_ne hne with h | h
        · exact error_seen_mono h herr hok
        · exact error_seen_mono h (hfails hlt) hnone
      rw [hmn,heq]
    · exact fun h => (h n hlt hok (hfails hlt)).symm
  · rw [seen_length] at hok ⊢
    refine ⟨fun _ m hm _ herr => ?_,fun _ => rfl⟩
    rw [← seen_length] at hok
    exact absurd hok (error_seen_mono hm herr)

/-- A push fails exactly when the parser stops in the input seen so far. -/
theorem fails_iff (hnil : p.next [] = .more) (pieces : List (List α)) {o : Except ε (List β)}
    (hn : (p.run [] pieces).1[n]? = some o) : (∃ e, o = .error e) ↔ (p.parse (seen pieces (n+1))).error ≠ none := by
  rcases run_reports (buffers_nil hnil) pieces hn with ⟨items,rfl,-,hbehind,-⟩ | ⟨e,rfl,hbehind⟩
  · simpa using hbehind
  · simpa using hbehind

end

end StreamParser
end Whim
