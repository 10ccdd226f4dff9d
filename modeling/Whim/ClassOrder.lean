import Mathlib.Algebra.Order.Ring.Nat
import Mathlib.Data.Set.Finite.List
import Mathlib.Order.WellFoundedSet

/-!
# The order in which classes are linked

A queue finds for each class the round in which repeated passes over the declarations would link it. What stays
unresolved depends on a cycle.
-/

namespace Whim.ClassOrder

open List Relation Function

/-- The local classes of a unit by their positions, with the local classes that each of them names. -/
structure Graph where
  locals : List ℕ
  bases : ℕ → List ℕ
  sorted : locals.Pairwise (· < ·)
  closed : ∀ c ∈ locals, ∀ b ∈ bases c, b ∈ locals

structure Queue where
  pending : ℕ → ℕ
  rounds : ℕ → ℕ
  ready : List ℕ

def roundAfter (rounds : ℕ → ℕ) (base dependent : ℕ) : ℕ := rounds base+(decide (dependent < base)).toNat

/-- One dependent of a class that has been taken from the queue. -/
def settle (base : ℕ) (q : Queue) (dependent : ℕ) : Queue where
  pending := update q.pending dependent (q.pending dependent-1)
  rounds := update q.rounds dependent (max (q.rounds dependent) (roundAfter q.rounds base dependent))
  ready := if q.pending dependent-1 = 0 then q.ready++[dependent] else q.ready

namespace Graph

variable (g : Graph)

/-- A class is entered once for each time it names the base. -/
def dependents (base : ℕ) : List ℕ := g.locals.flatMap fun c => replicate ((g.bases c).count base) c

def initial : Queue := ⟨fun c => (g.bases c).length,fun _ => 0,g.locals.filter fun c => (g.bases c).length = 0⟩

/-- The loop over the queue, with the number of classes taken from it. -/
def drain : ℕ → Queue → ℕ → Queue × ℕ
  | 0, q, resolved => (q,resolved)
  | fuel+1, q, resolved =>
    match q.ready with
    | [] => (q,resolved)
    | base::ready => drain fuel ((g.dependents base).foldl (settle base) { q with ready := ready }) (resolved+1)

/-- The classes of the first rounds, each round in the order of declaration. -/
def byRound (rounds : ℕ → ℕ) (n : ℕ) : List ℕ := (range n).flatMap fun round => g.locals.filter (rounds · = round)

/-- The order of linking, or a class that could not be resolved. -/
def resolve : Except (Option ℕ) (List ℕ) :=
  let (q,resolved) := g.drain g.locals.length g.initial 0
  if resolved ≠ g.locals.length then .error (g.locals.find? (q.pending · ≠ 0))
  else .ok (g.byRound q.rounds ((g.locals.map q.rounds).max?.getD 0+1))

def scanClass (linked : List ℕ) (c : ℕ) : List ℕ :=
  if c ∉ linked ∧ ∀ b ∈ g.bases c, b ∈ linked then linked++[c] else linked

/-- A pass over the declarations links each class whose bases are linked. -/
def scanPass (linked : List ℕ) : List ℕ := g.locals.foldl g.scanClass linked

/-- From a class to a class that depends on it. -/
def Base (b c : ℕ) : Prop := c ∈ g.locals ∧ b ∈ g.bases c

/-- Every class stands behind its bases. -/
def BasesFirst (order : List ℕ) : Prop := ∀ before c, before++[c] <+: order → ∀ b ∈ g.bases c, b ∈ before

/-- The order of repeated passes: a further pass changes nothing. -/
structure PassOrder (order : List ℕ) : Prop where
  perm : order.Perm g.locals
  first : g.BasesFirst order
  passes : ∃ n, g.scanPass^[n] [] = order
  ends : g.scanPass order = order

end Graph

/-! ## One class taken from the queue -/

section

variable {base c : ℕ} {q : Queue} {ds : List ℕ}

theorem pending_settle : (ds.foldl (settle base) q).pending c = q.pending c-ds.count c := by
  induction ds generalizing q with
  | nil => rfl
  | cons d _ ih =>
    rw [foldl_cons,ih]
    by_cases heq : c = d
    · subst heq
      simp [settle]
      omega
    · simp [settle,heq,Ne.symm heq]

theorem rounds_settle (hb : base ∉ ds) : (ds.foldl (settle base) q).rounds c =
    if c ∈ ds then max (q.rounds c) (roundAfter q.rounds base c) else q.rounds c := by
  induction ds generalizing q with
  | nil => rfl
  | cons d _ ih =>
    have hk : (settle base q d).rounds base = q.rounds base :=
      update_of_ne (ne_of_not_mem_cons hb) ..
    rw [foldl_cons,ih (not_mem_of_not_mem_cons hb),roundAfter,hk,← roundAfter]
    by_cases heq : c = d
    · subst heq
      simp [settle]
    · simp [settle,heq]

theorem ready_settle (base : ℕ) (hcount : ∀ c, ds.count c ≤ q.pending c) :
    ∃ news, (ds.foldl (settle base) q).ready = q.ready++news ∧ news.Nodup ∧
      ∀ c, c ∈ news ↔ c ∈ ds ∧ q.pending c = ds.count c := by
  induction ds generalizing q with
  | nil => exact ⟨[],by simp⟩
  | cons d ds ih =>
    have hpending (c : ℕ) : (settle base q d).pending c = if c = d then q.pending d-1 else q.pending c :=
      update_apply ..
    obtain ⟨news,hready,hnd,hnews⟩ := ih (q := settle base q d) fun c => by
      have := hcount c
      rw [hpending]
      grind
    have hd := hcount d
    have hz := @count_eq_zero _ _ _ d ds
    rw [count_cons_self] at hd
    simp only [hpending] at hnews
    by_cases hl : q.pending d-1 = 0
    · refine ⟨d::news,by rw [foldl_cons,hready]; simp [settle,hl],nodup_cons.mpr ⟨?_,hnd⟩,fun c => ?_⟩
      · grind
      · rw [mem_cons,hnews]
        grind
    · refine ⟨news,by rw [foldl_cons,hready]; simp [settle,hl],hnd,fun c => ?_⟩
      rw [hnews]
      grind

end

/-! ## What the queue keeps -/

section

variable {g : Graph} {done : List ℕ} {q : Queue} {base c : ℕ}

theorem Graph.nodup (g : Graph) : g.locals.Nodup := g.sorted.imp Nat.ne_of_lt

theorem count_dependents : (g.dependents base).count c = if c ∈ g.locals then (g.bases c).count base else 0 := by
  have hothers : ∀ d ≠ c, d ∈ g.locals → (replicate ((g.bases d).count base) d).count c = 0 :=
    fun d hd _ => count_replicate.trans (if_neg (by simpa using hd))
  rw [Graph.dependents,count_flatMap]
  refine (sum_map_eq_nsmul_single c _ hothers).trans ?_
  rw [g.nodup.count]
  split
  next => simp
  next => simp

theorem countP_snoc (h : base ∉ done) (xs : List ℕ) :
    xs.countP (· ∉ done) = xs.countP (· ∉ done++[base])+xs.count base := by
  induction xs with
  | nil => rfl
  | cons x _ ih =>
    rw [countP_cons,countP_cons,count_cons,ih]
    by_cases heq : x = base
    · simp [heq,h]
      omega
    · simp [heq]
      omega

/-- The classes in `done` have been taken from the queue. -/
structure Resolves (g : Graph) (done : List ℕ) (q : Queue) : Prop where
  pending : ∀ c ∈ g.locals, q.pending c = (g.bases c).countP (· ∉ done)
  rounds : ∀ c ∈ g.locals, ∀ n, q.rounds c ≤ n ↔ ∀ b ∈ g.bases c, b ∈ done → roundAfter q.rounds b c ≤ n
  nodup : (done++q.ready).Nodup
  mem : ∀ c, c ∈ done++q.ready ↔ c ∈ g.locals ∧ q.pending c = 0
  grounded : ∀ c ∈ done, Acc g.Base c

theorem resolves_initial : Resolves g [] g.initial where
  pending c _ := by simp [Graph.initial]
  rounds c _ n := by simp [Graph.initial]
  nodup := g.nodup.filter _
  mem c := by simp [Graph.initial]
  grounded := nofun

section
variable (h : Resolves g done q)
include h

theorem Resolves.bases_mem (hc : c ∈ g.locals) : q.pending c = 0 ↔ ∀ b ∈ g.bases c, b ∈ done := by
  rw [h.pending c hc,countP_eq_zero]
  simp

theorem Resolves.pop {ready : List ℕ} (hready : q.ready = base::ready) :
    Resolves g (done++[base]) ((g.dependents base).foldl (settle base) { q with ready := ready }) := by
  have hall := h.nodup
  have hmem := h.mem
  rw [hready,← singleton_append,← append_assoc] at hall hmem
  obtain ⟨hlocal,hz⟩ := (hmem base).mp (by simp)
  have hnew : base ∉ done := fun hb => (nodup_append.mp hall.of_append_left).2.2 base hb base (by simp) rfl
  have hle (c : ℕ) : (g.dependents base).count c ≤ q.pending c := by
    rw [count_dependents]
    split
    next hc => rw [h.pending c hc,countP_snoc hnew]; exact Nat.le_add_left ..
    next => exact Nat.zero_le _
  -- what has been taken or is ready has nothing pending, so it is no dependent
  have hidle {c : ℕ} (hc : c ∈ done++[base]++ready) : c ∉ g.dependents base := by
    rw [← count_eq_zero,← Nat.le_zero,← ((hmem c).mp hc).2]
    exact hle c
  have hbase := hidle (c := base) (by simp)
  have hdependent {c : ℕ} : c ∈ g.dependents base ↔ c ∈ g.locals ∧ base ∈ g.bases c := by
    rw [← count_pos_iff,count_dependents]
    split
    next hc => simp [hc]
    next hc => simp [hc]
  have hsame {b : ℕ} (hb : b ∈ done++[base]) (c : ℕ) : roundAfter ((g.dependents base).foldl (settle base)
      { q with ready := ready }).rounds b c = roundAfter q.rounds b c := by
    rw [roundAfter,rounds_settle hbase,if_neg (hidle (mem_append_left _ hb)),roundAfter]
  obtain ⟨news,hnews,hnd,hmemnews⟩ := ready_settle base (q := { q with ready := ready }) hle
  constructor
  case pending =>
    intro c hc
    rw [pending_settle,count_dependents,if_pos hc,h.pending c hc,countP_snoc hnew,Nat.add_sub_cancel]
  case rounds =>
    intro c hc n
    have hsplit : (∀ b ∈ g.bases c, b ∈ done++[base] → roundAfter q.rounds b c ≤ n) ↔
        (∀ b ∈ g.bases c, b ∈ done → roundAfter q.rounds b c ≤ n) ∧
          (base ∈ g.bases c → roundAfter q.rounds base c ≤ n) := by
      simp only [mem_append,mem_singleton]
      grind
    rw [forall₂_congr fun b _ => forall_congr' fun hd => by rw [hsame hd],hsplit,← h.rounds c hc n,
      rounds_settle hbase]
    simp only [hdependent,hc,true_and]
    split
    next hb => simp [hb]
    next hb => simp [hb]
  case nodup =>
    rw [hnews,← append_assoc]
    exact hall.append hnd fun c hc hnew => hidle hc ((hmemnews c).mp hnew).1
  case mem =>
    intro c
    have hc := hle c
    rw [hnews,← append_assoc,mem_append,hmem,hmemnews,pending_settle]
    by_cases hdep : c ∈ g.dependents base
    · have := (hdependent.mp hdep).1
      have := count_pos_iff.mpr hdep
      grind
    · rw [count_eq_zero.mpr hdep]
      simp [hdep]
  case grounded =>
    refine forall_mem_append.mpr ⟨h.grounded,forall_mem_singleton.mpr ⟨base,fun b hb => h.grounded b ?_⟩⟩
    exact (h.bases_mem hlocal).mp hz b hb.2

theorem drain_resolves {fuel res : ℕ} (hf : g.locals.length ≤ done.length+fuel) (hres : res = done.length) :
    ∃ done' q', g.drain fuel q res = (q',done'.length) ∧ Resolves g done' q' ∧ q'.ready = [] := by
  induction fuel generalizing done q res with
  | zero =>
    have hlen := (subperm_of_subset h.nodup fun c hc => ((h.mem c).mp hc).1).length_le
    rw [length_append] at hlen
    exact ⟨done,q,by rw [Graph.drain,hres],h,length_eq_zero_iff.mp (by omega)⟩
  | succ _ ih =>
    rw [Graph.drain]
    split
    next hready => exact ⟨done,q,by rw [hres],h,hready⟩
    next hready => exact ih (h.pop hready) (by simp; omega) (by simp [hres])

/-- Without a cycle nothing stays behind. -/
theorem Resolves.complete (hready : q.ready = []) (hacyclic : ∀ c, ¬TransGen g.Base c c)
    (hc : c ∈ g.locals) : c ∈ done := by
  have : IsStrictOrder ℕ (TransGen g.Base) := { irrefl := hacyclic, trans := fun _ _ _ => .trans }
  refine (g.locals.finite_toSet.wellFoundedOn (r := TransGen g.Base)).induction hc fun c hc ih => ?_
  have hpending := (h.bases_mem hc).mpr fun b hb => ih b (g.closed c hc b hb) (.single ⟨hc,hb⟩)
  simpa [hready] using (h.mem c).mpr ⟨hc,hpending⟩

theorem Resolves.acyclic (hall : ∀ c ∈ g.locals, c ∈ done) (c : ℕ) : ¬TransGen g.Base c c := by
  intro hcycle
  obtain ⟨b,-,hc,-⟩ := TransGen.tail'_iff.mp hcycle
  induction (h.grounded c (hall c hc)).transGen with
  | intro c _ ih => exact ih c hcycle hcycle hc

end

end

/-! ## Rounds are passes -/

section

variable {g : Graph} {rounds : ℕ → ℕ} {n : ℕ} {linked : List ℕ}

theorem scanPass_keeps (h : linked.Nodup ∧ g.BasesFirst linked) :
    (g.scanPass linked).Nodup ∧ g.BasesFirst (g.scanPass linked) := by
  unfold Graph.scanPass
  induction g.locals generalizing linked with
  | nil => exact h
  | cons c _ ih =>
    refine ih ?_
    unfold Graph.scanClass
    split
    next hc =>
      refine ⟨h.1.append (nodup_singleton c) (disjoint_singleton.mpr hc.1),fun before d hbefore => ?_⟩
      rcases prefix_concat_iff.mp hbefore with heq | hbefore
      · obtain ⟨rfl,hd⟩ := append_inj' heq rfl
        cases hd
        exact hc.2
      · exact h.2 before d hbefore
    next => exact h

theorem scanPass_complete (h : ∀ c ∈ g.locals, c ∈ linked) : g.scanPass linked = linked := by
  unfold Graph.scanPass
  generalize g.locals = locals at h ⊢
  induction locals with
  | nil => rfl
  | cons _ _ ih =>
    rw [forall_mem_cons] at h
    rw [foldl_cons,Graph.scanClass,if_neg (fun hnew => hnew.1 h.1),ih h.2]

theorem mem_byRound {c : ℕ} : c ∈ g.byRound rounds n ↔ c ∈ g.locals ∧ rounds c < n := by
  simp [Graph.byRound]
  tauto

variable (hloopless : ∀ c ∈ g.locals, c ∉ g.bases c)
  (hrounds : ∀ c ∈ g.locals, ∀ n, rounds c ≤ n ↔ ∀ b ∈ g.bases c, roundAfter rounds b c ≤ n)

include hloopless hrounds

theorem scanPass_byRound : g.scanPass (g.byRound rounds n) = g.byRound rounds (n+1) := by
  suffices hgen : ∀ a before, g.locals = before++a →
      a.foldl g.scanClass (g.byRound rounds n++before.filter (rounds · = n)) =
        g.byRound rounds n++g.locals.filter (rounds · = n) by
    have := hgen g.locals [] rfl
    rw [filter_nil,append_nil] at this
    rw [Graph.scanPass,this,Graph.byRound,Graph.byRound,range_succ,flatMap_append,flatMap_singleton]
  intro a
  induction a with
  | nil =>
    intro before heq
    rw [foldl_nil,heq,append_nil]
  | cons c _ ih =>
    intro before heq
    rw [foldl_cons,← ih (before++[c]) (by simp [heq])]
    congr 1
    have hc : c ∈ g.locals := by simp [heq]
    have hbefore {b : ℕ} (hb : b ∈ g.locals) : b ∈ before ↔ b < c := by
      have hsorted := g.sorted
      rw [heq,pairwise_append,pairwise_cons] at hsorted
      rw [heq] at hb
      grind
    have hlinked {b : ℕ} (hb : b ∈ g.locals) :
        b ∈ g.byRound rounds n++before.filter (rounds · = n) ↔ rounds b < n ∨ b < c ∧ rounds b = n := by
      rw [mem_append,mem_byRound,mem_filter,hbefore hb,decide_eq_true_iff]
      simp [hb]
    have hready : (∀ b ∈ g.bases c, b ∈ g.byRound rounds n++before.filter (rounds · = n)) ↔ rounds c ≤ n := by
      rw [hrounds c hc]
      refine forall₂_congr fun b hb => ?_
      have hne : b ≠ c := fun heq => hloopless c hc (heq ▸ hb)
      rw [hlinked (g.closed c hc b hb),roundAfter]
      by_cases hlt : c < b
      · simp [hlt]
        omega
      · simp [hlt]
        omega
    have hnow : (c ∉ g.byRound rounds n++before.filter (rounds · = n) ∧
        ∀ b ∈ g.bases c, b ∈ g.byRound rounds n++before.filter (rounds · = n)) ↔ rounds c = n := by
      rw [hready,hlinked hc]
      omega
    rw [Graph.scanClass,filter_append,filter_singleton,← append_assoc]
    by_cases hround : rounds c = n
    · rw [if_pos (hnow.mpr hround)]
      simp [hround]
    · rw [if_neg (mt hnow.mp hround)]
      simp [hround]

theorem iterate_scanPass (n : ℕ) : g.scanPass^[n] [] = g.byRound rounds n ∧
    (g.byRound rounds n).Nodup ∧ g.BasesFirst (g.byRound rounds n) := by
  induction n with
  | zero => exact ⟨rfl,nodup_nil,fun before c h => by simp [Graph.byRound] at h⟩
  | succ n ih =>
    rw [iterate_succ_apply',ih.1,← scanPass_byRound hloopless hrounds]
    exact ⟨rfl,scanPass_keeps ih.2⟩

end

theorem Graph.resolve_spec (g : Graph) : ((∃ c, TransGen g.Base c c) ∧ ∃ c ∈ g.locals, g.resolve = .error (some c)) ∨
    (∀ c, ¬TransGen g.Base c c) ∧ ∃ o, g.resolve = .ok o ∧ g.PassOrder o := by
  obtain ⟨done,q,hdrain,hdone,hready⟩ := drain_resolves (resolves_initial (g := g)) (Nat.le_add_left ..) rfl
  have hmem := hdone.mem
  have hdistinct := hdone.nodup
  simp only [hready,append_nil] at hmem hdistinct
  have hsub : done ⊆ g.locals := fun c hc => ((hmem c).mp hc).1
  have hlen : done.length = g.locals.length ↔ ∀ c ∈ g.locals, c ∈ done :=
    ⟨fun heq => ((subperm_of_subset hdistinct hsub).perm_of_length_le heq.ge).symm.subset,
      fun h => ((perm_ext_iff_of_nodup hdistinct g.nodup).mpr fun c => ⟨(hsub ·),h c⟩).length_eq⟩
  unfold resolve
  rw [show g.drain g.locals.length g.initial 0 = (q,done.length) from hdrain]
  by_cases hall : ∀ c ∈ g.locals, c ∈ done
  · refine .inr ?_
    have hacyclic := hdone.acyclic hall
    obtain ⟨hscan,hnd,hfirst⟩ := iterate_scanPass (fun c hc hb => hacyclic c (.single ⟨hc,hb⟩))
      (fun c hc n => (hdone.rounds c hc n).trans
        (forall₂_congr fun b hb => imp_iff_right (hall b (g.closed c hc b hb))))
      ((g.locals.map q.rounds).max?.getD 0+1)
    have hfull : ∀ c ∈ g.locals, c ∈ g.byRound q.rounds ((g.locals.map q.rounds).max?.getD 0+1) := fun c hc =>
      mem_byRound.mpr ⟨hc,Nat.lt_succ_of_le (le_max?_getD_of_mem (mem_map_of_mem hc))⟩
    exact ⟨hacyclic,_,if_neg (not_not.mpr (hlen.mpr hall)),
      (perm_ext_iff_of_nodup hnd g.nodup).mpr fun c => ⟨fun hc => (mem_byRound.mp hc).1,hfull c⟩,hfirst,
      ⟨_,hscan⟩,scanPass_complete hfull⟩
  · refine .inl ⟨?_,?_⟩
    · by_contra hacyclic
      exact hall fun c => hdone.complete hready (not_exists.mp hacyclic)
    push Not at hall
    obtain ⟨c,hc,hl⟩ := hall
    have hf : (g.locals.find? (q.pending · ≠ 0)).isSome :=
      find?_isSome.mpr ⟨c,hc,by simpa [hmem,hc] using hl⟩
    obtain ⟨d,hd⟩ := Option.isSome_iff_exists.mp hf
    exact ⟨d,mem_of_find?_eq_some hd,(if_pos (mt hlen.mp fun h => hl (h c hc))).trans (congrArg _ hd)⟩

/-! ## The classes of a unit -/

inductive ClassLikeKind
  | class_ | interface | enum

def ClassLikeKind.text : ClassLikeKind → String
  | .class_ => "class"
  | .interface => "interface"
  | .enum => "enum"

/-- The parts of a `CompiledClassLike` that its place in the order depends on. -/
structure ClassLike (N : Type) where
  kind : ClassLikeKind
  name : N
  isExternal : Bool
  parent : Option N
  interfaces : List N

section

variable {N : Type}

def localClasses (classes : List (ClassLike N)) : List ℕ :=
  (range classes.length).filter fun i => classes[i]?.any (!·.isExternal)

variable [DecidableEq N] (classes : List (ClassLike N))

/-- Of two local classes of one name the later one counts. -/
def localIndex (name : N) : Option ℕ := (localClasses classes).reverse.find? fun i => classes[i]?.any (·.name = name)

def graph : Graph where
  locals := localClasses classes
  bases i := (classes[i]?.elim [] fun c => c.parent.toList++c.interfaces).filterMap (localIndex classes)
  sorted := pairwise_lt_range.filter _
  closed c _ b hb := by
    obtain ⟨name,-,hfind⟩ := mem_filterMap.mp hb
    exact mem_reverse.mp (mem_of_find?_eq_some hfind)

/-- The order in which `link_unit_classes` links the classes of a unit, or its error. -/
def linkUnitClasses (toStringLossy : N → String) : Except (Option String) (List ℕ) :=
  (graph classes).resolve.mapError fun c => (c.bind (classes[·]?)).map fun c =>
    "the "++c.kind.text++" "++toStringLossy c.name++" participates in cyclic inheritance"

/-- Linking reports cyclic inheritance exactly when there is a cycle. Otherwise the order is a permutation of the local
classes with bases first, and repeated passes over the declarations end in it. -/
theorem linkUnitClasses_order (classes : List (ClassLike N)) (toStringLossy : N → String) :
    ((∃ error, linkUnitClasses classes toStringLossy = .error (some error)) ↔
      ∃ c, TransGen (graph classes).Base c c) ∧ ((∀ c, ¬TransGen (graph classes).Base c c) →
      ∃ order, linkUnitClasses classes toStringLossy = .ok order ∧ (graph classes).PassOrder order) := by
  unfold linkUnitClasses
  rcases (graph classes).resolve_spec with ⟨hcycle,c,hc,herror⟩ | ⟨hacyclic,order,hok,horder⟩
  · have hlt : c < classes.length := mem_range.mp (mem_filter.mp hc).1
    rw [herror]
    refine ⟨⟨fun _ => hcycle,fun _ => ?_⟩,fun hacyclic => ?_⟩
    · simp [Except.mapError,hlt]
    · exact absurd hcycle (not_exists.mpr hacyclic)
  · rw [hok]
    exact ⟨⟨nofun,fun hcycle => absurd hcycle (not_exists.mpr hacyclic)⟩,fun _ => ⟨order,rfl,horder⟩⟩

/-- Classes `A extends D`, `B extends C`, `C` and `D`, in this order. -/
def extendingClasses : List (ClassLike Char) :=
  [⟨.class_,'A',false,some 'D',[]⟩,⟨.class_,'B',false,some 'C',[]⟩,⟨.class_,'C',false,none,[]⟩,
    ⟨.class_,'D',false,none,[]⟩]

theorem linkUnitClasses_order_extending : (∀ c, ¬TransGen (graph extendingClasses).Base c c) ∧
    linkUnitClasses extendingClasses Char.toString = .ok [2,3,0,1] ∧
    (graph extendingClasses).PassOrder [2,3,0,1] := by
  have hlinked : linkUnitClasses extendingClasses Char.toString = .ok [2,3,0,1] := rfl
  obtain ⟨hcyclic,hlinks⟩ := linkUnitClasses_order extendingClasses Char.toString
  have hacyclic : ∀ c, ¬TransGen (graph extendingClasses).Base c c := by
    intro c hcycle
    obtain ⟨error,herror⟩ := hcyclic.mpr ⟨c,hcycle⟩
    cases hlinked.symm.trans herror
  obtain ⟨order,horder,hpasses⟩ := hlinks hacyclic
  cases hlinked.symm.trans horder
  exact ⟨hacyclic,hlinked,hpasses⟩

end

end Whim.ClassOrder
