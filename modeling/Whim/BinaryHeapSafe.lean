import Whim.BinaryHeap
import Whim.HeapOrder

/-!
# Heaps keep their values

An operation does to the stored multiset what it says, or throws what the comparator threw and leaves the values as
they were.
-/

namespace Whim.DataStructure

open Throwing HeapOrder List

variable {α κ σ ε : Type} {k : Kind α κ} {cmp : κ → κ → EStateM ε σ Ordering} {order : κ → κ → Ordering}

/-- Where the comparator returns, it returns the order of its arguments. -/
def Faithful (comparator : κ → κ → EStateM ε σ Ordering) (order : κ → κ → Ordering) : Prop :=
  ∀ left right s ordering t, comparator left right s = .ok ordering t → ordering = order left right

/-- The values come in the order of their priorities. -/
def Before (kind : Kind α κ) (order : κ → κ → Ordering) (x y : α) : Prop :=
  (order (kind.priority x) (kind.priority y)).isLE = true

theorem before_of_lt {x y : α} (h : order (k.priority x) (k.priority y) = .lt) : Before k order x y := by
  rw [Before,h]
  rfl

section

variable [Std.TransCmp order] {x y : α}

theorem before_refl (x : α) : Before k order x x := by
  have hself : order (k.priority x) (k.priority x) = .eq := Std.ReflCmp.compare_self
  rw [Before,hself]
  rfl

theorem before_trans (x y z : α) (hxy : Before k order x y) (hyz : Before k order y z) :
    Before k order x z := Std.TransCmp.isLE_trans hxy hyz

theorem before_of_not_lt (h : order (k.priority x) (k.priority y) ≠ .lt) : Before k order y x := by
  have hswap : order (k.priority y) (k.priority x) = (order (k.priority x) (k.priority y)).swap :=
    Std.OrientedCmp.eq_swap
  rw [Before,hswap]
  cases hxy : order (k.priority x) (k.priority y)
  · exact absurd hxy h
  · rfl
  · rfl

end

/-! ## Between the operations -/

def Holding (xs : List α) (s : Store α σ) : Prop := s.values = xs ∧ s.comparing = false

/-- The comparator threw, and the stored values are as they were. -/
def Threw (xs : List α) (e : Error ε) (s : Store α σ) : Prop := (∃ error, e = .thrown error) ∧ Holding xs s

variable {xs : List α} {v x : α} {path : List ℕ} {c i m : ℕ}

section

variable {β : Type} {returns : β → Store α σ → Prop} {throws : Error ε → Store α σ → Prop}

theorem compare_bind {f : Ordering → Run α σ ε β} (hfaithful : Faithful cmp order) {left right : κ}
    (h : Triple (Holding xs) (f (order left right)) returns (Threw xs)) :
    Triple (Holding xs) (compare k cmp left right >>= f) returns (Threw xs) := by
  refine Triple.through (fun ordering s => Holding xs s ∧ ordering = order left right) ?_
    fun ordering => Triple.given fun hordering => hordering ▸ h
  rintro s ⟨hvalues,hcomparing⟩
  have hcompare : compare k cmp left right s =
      callComparator cmp left right { s with comparing := true } := by
    show (if s.comparing then _ else _ : Run α σ ε Ordering) s = _
    rw [hcomparing]
    rfl
  rw [hcompare,callComparator]
  cases hc : cmp left right s.comparator with
  | ok => exact ⟨⟨hvalues,rfl⟩,hfaithful _ _ _ _ _ hc⟩
  | error error => exact ⟨⟨error,rfl⟩,hvalues,rfl⟩

theorem read_bind {f : α → Run α σ ε β} (hx : xs[i]? = some x) (h : Triple (Holding xs) (f x) returns throws) :
    Triple (Holding xs) (read i >>= f) returns throws := by
  refine Triple.through (fun y s => Holding xs s ∧ y = x) ?_ fun y => Triple.given fun hy => hy ▸ h
  rintro s hs
  have hread : (read i : Run α σ ε α) s = .ok x s := by
    show present s.values[i]? s = _
    rw [hs.1,hx]
    rfl
  rw [hread]
  exact ⟨hs,rfl⟩

/-- The programs see how many values there are. -/
theorem get_bind {f : Store α σ → Run α σ ε β}
    (h : ∀ s, s.values.length = xs.length → Triple (Holding xs) (f s) returns throws) :
    Triple (Holding xs) (MonadState.get >>= f) returns throws :=
  fun s hs => h s (congrArg List.length hs.1) s hs

end

variable {throws : Error ε → Store α σ → Prop}

theorem assertMutable_holding :
    Triple (Holding xs) (assertMutable k : Run α σ ε Unit) (fun _ => Holding xs) throws := by
  rintro s hs
  show Holds _ _ ((if s.comparing then _ else _ : Run α σ ε Unit) s)
  rw [hs.2]
  exact hs

theorem write_holding (h : i < xs.length) :
    Triple (Holding xs) (write i v : Run α σ ε Unit) (fun _ => Holding (xs.set i v)) throws := by
  rintro s hs
  have hwrite : (write i v : Run α σ ε Unit) s = .ok () { s with values := s.values.set i v } := by
    show (if i < s.values.length then _ else _ : Run α σ ε Unit) s = _
    rw [if_pos (by rw [hs.1]; exact h)]
    rfl
  rw [hwrite]
  exact ⟨congrArg (·.set i v) hs.1,hs.2⟩

theorem follow_holding (hc : c < xs.length) (hp : ∀ j ∈ path, j < xs.length) :
    Triple (Holding xs) (follow v c path : Run α σ ε Unit) (fun _ => Holding (shift v xs c path)) throws := by
  induction path generalizing xs c with
  | nil => exact write_holding hc
  | cons next _ ih =>
    obtain ⟨hnext,hr⟩ := forall_mem_cons.mp hp
    have hx : xs[next]? = some xs[next] := getElem?_eq_getElem hnext
    rw [shift_step hx]
    refine read_bind hx ?_
    exact (write_holding hc).bind fun _ => ih (by simpa using hnext) (by simpa using hr)

/-! ## Paths -/

section

variable [Std.TransCmp order] (hfaithful : Faithful cmp order)
include hfaithful

theorem upwardPath_climbs (hi : i ≤ xs.length) :
    Triple (Holding xs) (upwardPath k cmp (k.priority v) i : Run α σ ε (List ℕ))
      (fun path s => Holding xs s ∧ Climbs (Before k order) xs v i path) (Threw xs) := by
  induction i using Nat.strong_induction_on with
  | _ i ih =>
  rw [upwardPath]
  split
  next hz =>
    subst hz
    exact Triple.pure fun s hs => ⟨hs,.root⟩
  next hpos =>
    have hpos : 0 < i := Nat.pos_of_ne_zero hpos
    have hlt : parent i < xs.length := Nat.lt_of_lt_of_le (parent_lt hpos) hi
    have hx : xs[parent i]? = some xs[parent i] := getElem?_eq_getElem hlt
    refine read_bind hx (compare_bind hfaithful ?_)
    refine Triple.ite (fun hnot => ?_) fun hlt => ?_
    · exact Triple.pure fun s hs => ⟨hs,.stop hpos hx (before_of_not_lt hnot)⟩
    have hbefore : Before k order v xs[parent i] := before_of_lt (not_not.mp hlt)
    refine (ih (parent i) (parent_lt hpos) (by omega)).bind fun path => Triple.given fun hp => ?_
    exact Triple.pure fun s hs => ⟨hs,.step hpos hx hbefore hp⟩

/-- The child taken is one of the children, and it comes before both. -/
theorem rightFirst_first (hlimit : m ≤ xs.length) (hleft : i*2+1 < m) :
    Triple (Holding xs) (rightFirst k cmp (i*2+1) m : Run α σ ε Bool)
      (fun isRight s => Holding xs s ∧ i*2+1+isRight.toNat < m ∧
        ∀ x j y, xs[i*2+1+isRight.toNat]? = some x → 0 < j → j < m → parent j = i → xs[j]? = some y →
          Before k order x y) (Threw xs) := by
  -- One of the children that comes before those there are.
  have hfirst {b : Bool} {z : α} (hz : xs[i*2+1+b.toNat]? = some z)
      (hl : ∀ y, xs[i*2+1]? = some y → Before k order z y)
      (hr : i*2+2 < m → ∀ y, xs[i*2+2]? = some y → Before k order z y) :
      ∀ x j y, xs[i*2+1+b.toNat]? = some x → 0 < j → j < m → parent j = i → xs[j]? = some y →
        Before k order x y := by
    intro x j y hx hpos hj hparent hy
    cases hz.symm.trans hx
    rcases children hpos hparent with rfl | rfl
    · exact hl y hy
    · exact hr hj y hy
  have hx : xs[i*2+1]? = some xs[i*2+1] := getElem?_eq_getElem (by omega)
  have hself {j : ℕ} {x y : α} (hx : xs[j]? = some x) (hy : xs[j]? = some y) : Before k order x y := by
    cases hx.symm.trans hy
    exact before_refl x
  refine Triple.ite (fun hright => ?_) fun hright => ?_
  · have hy : xs[i*2+1+1]? = some xs[i*2+1+1] := getElem?_eq_getElem (by omega)
    refine read_bind hy (read_bind hx (compare_bind hfaithful (Triple.pure fun s hs => ⟨hs,?_⟩)))
    by_cases hlt : order (k.priority xs[i*2+1+1]) (k.priority xs[i*2+1]) = .lt
    · rw [decide_eq_true hlt]
      refine ⟨hright,hfirst hy (fun y hl => ?_) fun _ y => hself hy⟩
      cases hx.symm.trans hl
      exact before_of_lt hlt
    · rw [decide_eq_false hlt]
      refine ⟨hleft,hfirst hx (fun y => hself hx) fun _ y hr => ?_⟩
      cases hy.symm.trans hr
      exact before_of_not_lt hlt
  · exact Triple.pure fun s hs => ⟨hs,hleft,hfirst hx (fun y => hself hx) fun hlt => absurd hlt hright⟩

theorem downwardPath_sinks (hlimit : m ≤ xs.length) :
    Triple (Holding xs) (downwardPath k cmp (k.priority v) m i : Run α σ ε (List ℕ))
      (fun path s => Holding xs s ∧ Sinks (Before k order) xs m v i path) (Threw xs) := by
  induction hn : m-i using Nat.strong_induction_on generalizing i with
  | _ n ih =>
  rw [downwardPath]
  split
  next =>
    refine Triple.pure fun s hs => ⟨hs,.stop fun j y hpos hj hparent _ => ?_⟩
    rcases children hpos hparent with rfl | rfl <;> omega
  next hl =>
    refine (rightFirst_first hfaithful hlimit (Nat.lt_of_not_le hl)).bind fun isRight => Triple.given fun hfirst => ?_
    obtain ⟨hlt,hbefore⟩ := hfirst
    have hone : isRight.toNat ≤ 1 := Bool.toNat_le isRight
    have hx : xs[i*2+1+isRight.toNat]? = some xs[i*2+1+isRight.toNat] :=
      getElem?_eq_getElem (by omega)
    refine read_bind hx (compare_bind hfaithful ?_)
    refine Triple.ite (fun hnot => ?_) fun hless => ?_
    · refine Triple.pure fun s hs => ⟨hs,.stop fun j y hpos hj hparent hy => ?_⟩
      exact before_trans v _ y (before_of_not_lt hnot) (hbefore _ j y hx hpos hj hparent hy)
    have hless : Before k order xs[i*2+1+isRight.toNat] v := before_of_lt (not_not.mp hless)
    have hparent : parent (i*2+1+isRight.toNat) = i := by
      cases isRight
      · exact parent_left i
      · exact parent_right i
    refine (ih _ (by omega) rfl).bind fun path => Triple.given fun hp => ?_
    refine Triple.pure fun s hs => ⟨hs,.step (by omega) hlt hparent hx hless ?_ hp⟩
    exact fun j y hpos hj hchild hy => hbefore _ j y hx hpos hj hchild hy

/-! ## Operations -/

/-- After an operation the heap holds `ys`, in heap order. -/
def Settled (kind : Kind α κ) (order : κ → κ → Ordering) (ys : List α) (s : Store α σ) : Prop :=
  ∃ zs, Holding zs s ∧ zs.Perm ys ∧ OrderedFrom (Before kind order) 0 zs

section
variable {index : ℕ} (hi : index < xs.length) (h : OrderedFrom (Before k order) (index+1) xs)
include hi h

theorem settle_ordered : Triple (Holding xs) (settle k cmp xs.length index : Run α σ ε Unit)
    (fun _ s => ∃ ys, Holding ys s ∧ ys.Perm xs ∧ OrderedFrom (Before k order) index ys) (Threw xs) := by
  refine read_bind (getElem?_eq_getElem hi) ?_
  refine (downwardPath_sinks hfaithful (Nat.le_refl _)).bind fun path => Triple.given fun hp => ?_
  refine (follow_holding hi hp.mem_lt).ensure fun _ s hs => ⟨_,hs,?_,hp.ordered (.start h)⟩
  exact (hp.perm hi).trans (by rw [set_getElem_self])

theorem heapifyFrom_ordered : Triple (Holding xs) (heapifyFrom k cmp xs.length index : Run α σ ε Unit)
    (fun _ => Settled k order xs) (fun e _ => ∃ error, e = .thrown error) := by
  induction index generalizing xs with
  | zero => exact (settle_ordered hfaithful hi h).weaken (fun _ => id) (fun _ _ hs => hs) fun _ _ he => he.1
  | succ index ih =>
    refine Triple.bind ((settle_ordered hfaithful hi h).weaken (fun _ => id) (fun _ _ hs => hs) fun _ _ he => he.1) ?_
    rintro _ s ⟨ys,hs,hp,hordered⟩
    have hlen := hp.length_eq
    have hr : Triple (Holding ys) (heapifyFrom k cmp ys.length index : Run α σ ε Unit)
        (fun _ => Settled k order ys) (fun e _ => ∃ error, e = .thrown error) := ih (by omega) hordered
    rw [hlen] at hr
    refine hr.ensure (fun _ t ht => ?_) s hs
    obtain ⟨zs,ht,hzs,hsorted⟩ := ht
    exact ⟨zs,ht,hzs.trans hp,hsorted⟩

end

theorem heapify_ordered : Triple (Holding xs) (heapify k cmp : Run α σ ε Unit)
    (fun _ => Settled k order xs) (fun e _ => ∃ error, e = .thrown error) := by
  intro s hs
  show Holds _ _ ((if s.values.length < 2 then _ else _ : Run α σ ε Unit) s)
  rw [hs.1]
  split
  next =>
    refine ⟨xs,hs,List.Perm.refl xs,fun i x y hpos _ hx hy => ?_⟩
    have hlen := (List.getElem?_eq_some_iff.mp hy).1
    have : i = 1 := by omega
    subst this
    omega
  next =>
    refine heapifyFrom_ordered hfaithful (by omega) (fun i x y hpos hparent hx hy => ?_) s hs
    have hlen := (List.getElem?_eq_some_iff.mp hy).1
    unfold parent at hparent
    omega

theorem construct_settled (values : List α) : Triple (Holding []) (construct k cmp values : Run α σ ε Unit)
    (fun _ => Settled k order values) (fun e _ => ∃ error, e = .thrown error) := by
  refine Triple.through (fun _ => Holding values) (Triple.modify fun s hs => ?_) fun _ => heapify_ordered hfaithful
  exact ⟨by rw [hs.1]; rfl,hs.2⟩

theorem push_settled (h : OrderedFrom (Before k order) 0 xs) (v : α) :
    Triple (Holding xs) (push k cmp v : Run α σ ε Unit) (fun _ => Settled k order (v::xs)) (Threw xs) := by
  refine assertMutable_holding.bind fun _ => ?_
  refine get_bind fun s hlen => ?_
  rw [hlen]
  refine (upwardPath_climbs hfaithful (Nat.le_refl _)).bind fun path => Triple.given fun hp => ?_
  refine Triple.through (fun _ => Holding (xs++[v])) (Triple.modify fun s hs => ⟨?_,hs.2⟩) fun _ => ?_
  · rw [hs.1]
  have hc : xs.length < (xs++[v]).length := by simp
  have hp' : Climbs (Before k order) (xs++[v]) v xs.length path :=
    hp.congr fun j hj => getElem?_append_left hj
  refine (follow_holding hc fun j hj => Nat.lt_trans (hp.mem_lt j hj) hc).ensure fun _ s hs => ?_
  refine ⟨_,hs,(hp'.perm hc).trans ?_,hp'.ordered before_trans (.append h)⟩
  rw [set_append_right _ _ (Nat.le_refl _),Nat.sub_self]
  exact perm_append_comm

/-- The root comes out, and the rest is in heap order. -/
theorem removeRoot_settled {rest : List α} (h : OrderedFrom (Before k order) 0 (x::rest)) :
    Triple (Holding (x::rest)) (removeRoot k cmp : Run α σ ε α)
      (fun root s => Settled k order rest s ∧ root = x) (Threw (x::rest)) := by
  refine Triple.through (fun s' s => Holding (x::rest) s ∧ s'.values.length = rest.length+1)
    (Triple.get fun s hs => ⟨hs,congrArg List.length hs.1⟩) fun s' => Triple.given fun hlen => ?_
  rw [hlen]
  refine read_bind (show (x::rest)[0]? = some x from rfl) ?_
  refine Triple.ite (fun hone => ?_) fun hmany => ?_
  · have hr : rest = [] := length_eq_zero_iff.mp (by omega)
    refine Triple.through (fun _ => Holding []) (Triple.modify fun s hs => ⟨rfl,hs.2⟩) fun _ => ?_
    refine Triple.pure fun s hs => ⟨⟨[],hs,by rw [hr],fun i x y _ _ hx _ => ?_⟩,rfl⟩
    cases hx
  · obtain ⟨init,last,rfl⟩ : ∃ init last, rest = init++[last] := by
      rcases eq_nil_or_concat rest with rfl | ⟨init,last,hr⟩
      · exact absurd rfl hmany
      · exact ⟨init,last,by rw [hr,concat_eq_append]⟩
    rw [length_append,length_singleton,Nat.add_sub_cancel]
    refine read_bind (show (x::(init++[last]))[init.length+1]? = some last by simp) ?_
    refine (downwardPath_sinks hfaithful (by simp)).bind fun path => Triple.given fun hp => ?_
    refine Triple.through (fun _ => Holding (x::init)) (Triple.modify fun s hs => ⟨?_,hs.2⟩) fun _ => ?_
    · rw [hs.1,← cons_append,dropLast_concat]
    have hsame : ∀ j, j < (x::init).length → (x::init)[j]? = (x::(init++[last]))[j]? := by
      intro j hj
      rw [← cons_append,getElem?_append_left hj]
    have hp' : Sinks (Before k order) (x::init) (x::init).length last 0 path :=
      hp.congr fun j _ hj => hsame j hj
    have hr : OrderedFrom (Before k order) 1 (x::init) := by
      intro i y z hpos _ hy hz
      have hi := (List.getElem?_eq_some_iff.mp hz).1
      have hup := parent_lt hpos
      exact h i y z hpos (Nat.zero_le _) ((hsame _ (by omega)).symm.trans hy) ((hsame i hi).symm.trans hz)
    refine (follow_holding (by simp) hp'.mem_lt).bind fun _ => Triple.pure fun s hs => ?_
    refine ⟨⟨_,hs,(hp'.perm (by simp)).trans ?_,hp'.ordered (.start hr)⟩,rfl⟩
    exact (perm_append_singleton last init).symm

theorem pop_settled (h : OrderedFrom (Before k order) 0 xs) :
    Triple (Holding xs) (pop k cmp : Run α σ ε (Option α))
      (fun value s => (value = none ∧ xs = [] ∧ Holding [] s) ∨ ∃ x rest, value = some x ∧ xs.Perm (x::rest) ∧
        (∀ y ∈ xs, Before k order x y) ∧ Settled k order rest s) (Threw xs) := by
  refine assertMutable_holding.bind fun _ => ?_
  refine get_bind fun s hlen => ?_
  rw [hlen]
  cases xs with
  | nil => exact Triple.pure fun s hs => .inl ⟨rfl,rfl,hs⟩
  | cons x rest =>
    rw [if_neg (by simp)]
    refine (removeRoot_settled hfaithful h).bind fun root => Triple.given fun hroot => ?_
    refine Triple.pure fun s hs => .inr ⟨x,rest,congrArg some hroot,List.Perm.refl _,fun y hy => ?_,hs⟩
    exact root_first before_trans before_refl h rfl hy

theorem drain_sorted {count : ℕ} (hcount : xs.length ≤ count) (h : OrderedFrom (Before k order) 0 xs) :
    Triple (Holding xs) (drain k cmp count : Run α σ ε (List α))
      (fun values _ => values.Perm xs ∧ values.Pairwise (Before k order))
      (fun e _ => ∃ error, e = .thrown error) := by
  induction count generalizing xs with
  | zero =>
    have hnil : xs = [] := length_eq_zero_iff.mp (by omega)
    subst hnil
    exact Triple.pure fun s hs => ⟨List.Perm.nil,List.Pairwise.nil⟩
  | succ count ih =>
    refine get_bind fun s hlen => ?_
    rw [hlen]
    cases xs with
    | nil => exact Triple.pure fun s hs => ⟨List.Perm.nil,List.Pairwise.nil⟩
    | cons x rest =>
      rw [if_neg (by simp)]
      refine Triple.bind ((removeRoot_settled hfaithful h).weaken (fun _ => id) (fun _ _ => id) fun _ _ he => he.1)
        fun root => Triple.given fun hroot => ?_
      subst hroot
      rintro s ⟨ys,hs,hp,hordered⟩
      have hlen : ys.length ≤ count := by
        rw [hp.length_eq]
        simpa using hcount
      refine Triple.bind (ih hlen hordered) (fun values => Triple.pure ?_) s hs
      rintro t ⟨hvalues,hsorted⟩
      refine ⟨(hvalues.trans hp).cons root,List.Pairwise.cons (fun y hy => ?_) hsorted⟩
      have hmem : y ∈ root::rest := mem_cons_of_mem root ((hvalues.trans hp).mem_iff.mp hy)
      exact root_first before_trans before_refl h rfl hmem

theorem toVec_sorted (h : OrderedFrom (Before k order) 0 xs) :
    Triple (Holding xs) (toVec k cmp : Run α σ ε (List α))
      (fun values s => Holding xs s ∧ values.Perm xs ∧ values.Pairwise (Before k order)) (Threw xs) := by
  intro s hs
  have hsorted : Triple (Holding xs) (drain k cmp xs.length : Run α σ ε (List α)) _ _ :=
    drain_sorted hfaithful (Nat.le_refl _) h
  have hdrain := hsorted s hs
  rw [toVec,hs.1]
  generalize drain k cmp xs.length s = result at hdrain
  cases result with
  | ok => exact ⟨⟨rfl,hs.2⟩,hdrain⟩
  | error => exact ⟨hdrain,rfl,hs.2⟩

omit hfaithful in
theorem peek_first (h : OrderedFrom (Before k order) 0 xs) : Triple (Holding xs) (peek : Run α σ ε (Option α))
    (fun value s => Holding xs s ∧ ((value = none ∧ xs = []) ∨ ∃ x, value = some x ∧ x ∈ xs ∧
      ∀ y ∈ xs, Before k order x y)) (Threw xs) := by
  refine get_bind fun s hlen => ?_
  rw [hlen]
  cases xs with
  | nil => exact Triple.pure fun s hs => ⟨hs,.inl ⟨rfl,rfl⟩⟩
  | cons x rest =>
    rw [if_neg (by simp)]
    refine read_bind (show (x::rest)[0]? = some x from rfl) (Triple.pure fun s hs => ⟨hs,.inr ?_⟩)
    refine ⟨x,rfl,mem_cons_self,fun y hy => ?_⟩
    exact root_first before_trans before_refl h rfl hy

end

/-! ## Whole runs -/

/-- What an operation on the values `xs` does: what it returns or throws, and the values it leaves. -/
inductive Performs (before : α → α → Prop) (xs : List α) :
    Operation α → Except (Error ε) (Answer α) → List α → Prop
  | push {v : α} {ys : List α} (h : ys.Perm (v::xs)) : Performs before xs (.push v) (.ok .done) ys
  | popEmpty (h : xs = []) : Performs before xs .pop (.ok (.value none)) []
  | pop {x : α} {ys : List α} (h : xs.Perm (x::ys)) (hfirst : ∀ y ∈ xs, before x y) :
      Performs before xs .pop (.ok (.value (some x))) ys
  | peekEmpty (h : xs = []) : Performs before xs .peek (.ok (.value none)) xs
  | peek {x : α} (h : x ∈ xs) (hfirst : ∀ y ∈ xs, before x y) : Performs before xs .peek (.ok (.value (some x))) xs
  | clear : Performs before xs .clear (.ok .done) []
  | toVec {values : List α} (h : values.Perm xs) (hsorted : values.Pairwise before) :
      Performs before xs .toVec (.ok (.values values)) xs
  | thrown {operation : Operation α} (error : ε) : Performs before xs operation (.error (.thrown error)) xs

def perform (kind : Kind α κ) (comparator : κ → κ → EStateM ε σ Ordering) : Operation α → Run α σ ε (Answer α)
  | .push value => do
    push kind comparator value
    pure .done
  | .pop => do
    let value ← pop kind comparator
    pure (.value value)
  | .peek => do
    let value ← peek
    pure (.value value)
  | .clear => do
    clear kind
    pure .done
  | .toVec => do
    let values ← toVec kind comparator
    pure (.values values)

/-- Every operation of a sequence does what it says to the values the one before it left. -/
def Conforms (before : α → α → Prop) (perform : Operation α → Run α σ ε (Answer α)) :
    Store α σ → List (Operation α) → Prop
  | _, [] => True
  | s, operation::rest =>
    Performs before s.values operation (outcome (perform operation s)) (final (perform operation s)).values ∧
      Conforms before perform (final (perform operation s)) rest

/-- A comparator that is a total preorder where it returns. It may throw at any call, and depend on anything. -/
structure Comparator (κ σ ε : Type) where
  call : κ → κ → EStateM ε σ Ordering
  order : κ → κ → Ordering
  preorder : Std.TransCmp order
  faithful : Faithful call order

section

variable [Std.TransCmp order] (hfaithful : Faithful cmp order)
include hfaithful

/-- An operation does what it says, and keeps the values in heap order. -/
theorem perform_settled (h : OrderedFrom (Before k order) 0 xs) (operation : Operation α) :
    Triple (Holding xs) (perform k cmp operation : Run α σ ε (Answer α))
      (fun answer s => Performs (ε := ε) (Before k order) xs operation (.ok answer) s.values ∧
        s.comparing = false ∧ OrderedFrom (Before k order) 0 s.values) (Threw xs) := by
  cases operation with
  | push v =>
    refine (push_settled hfaithful h v).bind fun _ => Triple.pure ?_
    rintro s ⟨ys,⟨rfl,hidle⟩,hp,hordered⟩
    exact ⟨.push hp,hidle,hordered⟩
  | pop =>
    refine (pop_settled hfaithful h).bind fun value => Triple.pure ?_
    rintro s (⟨rfl,hnil,hs,hidle⟩ | ⟨x,rest,rfl,hp,hfirst,ys,⟨rfl,hidle⟩,hys,hordered⟩)
    · rw [hs]
      exact ⟨.popEmpty hnil,hidle,hnil ▸ h⟩
    · exact ⟨.pop (hp.trans (hys.symm.cons x)) hfirst,hidle,hordered⟩
  | peek =>
    refine (peek_first h).bind fun value => Triple.pure ?_
    rintro s ⟨⟨rfl,hidle⟩,⟨rfl,hnil⟩ | ⟨x,rfl,hmem,hfirst⟩⟩
    · exact ⟨.peekEmpty hnil,hidle,h⟩
    · exact ⟨.peek hmem hfirst,hidle,h⟩
  | clear =>
    refine Triple.through (fun _ => Holding []) ?_ fun _ => Triple.pure ?_
    · exact assertMutable_holding.bind fun _ => Triple.modify fun s hs => ⟨rfl,hs.2⟩
    rintro s ⟨hs,hidle⟩
    rw [hs]
    exact ⟨.clear,hidle,fun i x y _ _ hx _ => by cases hx⟩
  | toVec =>
    refine (toVec_sorted hfaithful h).bind fun values => Triple.pure ?_
    rintro s ⟨⟨rfl,hidle⟩,hp,hsorted⟩
    exact ⟨.toVec hp hsorted,hidle,h⟩

theorem run_conforms (operations : List (Operation α)) {s : Store α σ} (hidle : s.comparing = false)
    (h : OrderedFrom (Before k order) 0 s.values) : Conforms (Before k order) (perform k cmp) s operations := by
  induction operations generalizing s with
  | nil => trivial
  | cons operation rest ih =>
    have hstep := perform_settled hfaithful h operation s ⟨rfl,hidle⟩
    rw [Conforms]
    generalize perform k cmp operation s = result at hstep
    cases result with
    | ok => exact ⟨hstep.1,ih hstep.2.1 hstep.2.2⟩
    | error e t =>
      obtain ⟨⟨error,rfl⟩,hvalues,hidle'⟩ := hstep
      change Performs _ _ _ (.error (.thrown error)) t.values ∧ Conforms _ _ t rest
      rw [hvalues]
      exact ⟨.thrown error,ih hidle' (hvalues ▸ h)⟩

end

theorem construct_conforms (c : Comparator κ σ ε) (k : Kind α κ) (values : List α) (s : σ) :
    Triple (· = ⟨[],false,s⟩) (construct k c.call values : Run α σ ε Unit) (fun _ t => t.values.Perm values ∧
        ∀ operations, Conforms (Before k c.order) (perform k c.call) t operations)
      (fun e _ => ∃ error, e = .thrown error) := by
  have := c.preorder
  refine (construct_settled c.faithful values).weaken ?_ ?_ fun _ _ => id
  · rintro _ rfl
    exact ⟨rfl,rfl⟩
  · rintro _ t ⟨ys,⟨rfl,hidle⟩,hp,hordered⟩
    exact ⟨hp,fun operations => run_conforms c.faithful operations hidle hordered⟩

theorem binaryHeap_perform {T : Type} (cmp : T → T → EStateM ε σ Ordering) :
    BinaryHeap.perform cmp = perform (BinaryHeap.kind T) cmp := by
  funext operation
  cases operation <;> rfl

theorem priorityQueue_perform {T P : Type} (cmp : P → P → EStateM ε σ Ordering) :
    PriorityQueue.perform cmp = perform (PriorityQueue.kind T P) cmp := by
  funext operation
  cases operation <;> rfl

/-- Heaps are multisets with removal of a minimum, and a comparator that throws leaves them as they were. -/
theorem heaps_exception_safe {T P : Type} (c : Comparator T σ ε) (d : Comparator P σ ε) (values : List T)
    (entries : List (T × P)) (s : σ) : Triple (· = ⟨[],false,s⟩) (BinaryHeap.construct c.call values)
      (fun _ t => t.values.Perm values ∧
        ∀ operations, Conforms (fun x y => (c.order x y).isLE) (BinaryHeap.perform c.call) t operations)
      (fun e _ => ∃ error, e = .thrown error) ∧ Triple (· = ⟨[],false,s⟩) (PriorityQueue.construct d.call entries)
      (fun _ t => t.values.Perm entries ∧
        ∀ operations, Conforms (fun x y => (d.order x.2 y.2).isLE) (PriorityQueue.perform d.call) t operations)
      (fun e _ => ∃ error, e = .thrown error) := by
  rw [binaryHeap_perform,priorityQueue_perform]
  exact ⟨construct_conforms c (BinaryHeap.kind T) values s,construct_conforms d (PriorityQueue.kind T P) entries s⟩

/-- The natural order, with the calls that are left before it throws. -/
def limited : Comparator ℕ ℕ Unit where
  call left right
    | 0 => .error () 0
    | calls+1 => .ok (Ord.compare left right) calls
  order := Ord.compare
  preorder := inferInstance
  faithful left right calls ordering t h := by
    cases calls with
    | zero => cases h
    | succ => cases h; rfl

/-- Three calls build a heap of three values, and the comparator throws when a fourth moves up: the heap stays as it
was. -/
theorem heaps_exception_safe_limited :
    (∃ s : Store ℕ ℕ, BinaryHeap.construct limited.call [3,1,2] ⟨[],false,3⟩ = .ok () s ∧ s.values.Perm [3,1,2] ∧
      Conforms (fun x y => (limited.order x y).isLE) (BinaryHeap.perform limited.call) s [.push 0,.pop,.toVec] ∧
      outcome (BinaryHeap.perform limited.call (.push 0) s) = .error (.thrown ()) ∧
      (final (BinaryHeap.perform limited.call (.push 0) s)).values = s.values) ∧
    ∃ s : Store (ℕ × ℕ) ℕ, PriorityQueue.construct limited.call [(7,3),(8,1),(9,2)] ⟨[],false,3⟩ = .ok () s ∧
      s.values.Perm [(7,3),(8,1),(9,2)] ∧
      Conforms (fun x y => (limited.order x.2 y.2).isLE) (PriorityQueue.perform limited.call) s
        [.push (6,0),.pop,.toVec] ∧
      outcome (PriorityQueue.perform limited.call (.push (6,0)) s) = .error (.thrown ()) ∧
      (final (PriorityQueue.perform limited.call (.push (6,0)) s)).values = s.values := by
  obtain ⟨hheap,hqueue⟩ := heaps_exception_safe limited limited [3,1,2] [(7,3),(8,1),(9,2)] 3
  have hconstruct : BinaryHeap.construct limited.call [3,1,2] ⟨[],false,3⟩ = .ok () ⟨[1,3,2],false,1⟩ := by
    with_unfolding_all rfl
  have henqueue : PriorityQueue.construct limited.call [(7,3),(8,1),(9,2)] ⟨[],false,3⟩ =
      .ok () ⟨[(8,1),(7,3),(9,2)],false,1⟩ := by with_unfolding_all rfl
  have hheap' := hheap _ rfl
  have hqueue' := hqueue _ rfl
  rw [hconstruct] at hheap'
  rw [henqueue] at hqueue'
  exact ⟨⟨_,hconstruct,hheap'.1,hheap'.2 _,by decide +kernel,by decide +kernel⟩,
    ⟨_,henqueue,hqueue'.1,hqueue'.2 _,by decide +kernel,by decide +kernel⟩⟩

end Whim.DataStructure
