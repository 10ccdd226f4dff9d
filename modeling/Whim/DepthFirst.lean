import Mathlib.Data.Finset.Basic

/-!
# Depth-first search with an explicit stack

The stack holds nodes to enter and marks where a node is finished; the marks are the current path.
-/

namespace Whim.DepthFirst

open Relation List

variable {K : Type} {root : K → Prop} {succ : K → K → Prop} {ps : List (K × Bool)}
  {active complete : Finset K} {path : List K} {k : K}

/-- A path from a root leads to the node. -/
def Reachable (root : K → Prop) (succ : K → K → Prop) (k : K) : Prop := ∃ r, root r ∧ ReflTransGen succ r k

/-- The node follows the innermost node of the path, or is a root. -/
def Enters (root : K → Prop) (succ : K → K → Prop) : List K → K → Prop
  | [], k => root k
  | p::_, k => succ p k

/-- The marks of a stack are a path, innermost first, and each entry can be entered where it is popped. -/
inductive Unwinds (root : K → Prop) (succ : K → K → Prop) : List (K × Bool) → List K → Prop
  | nil : Unwinds root succ [] []
  | entry {pending : List (K × Bool)} {path : List K} {k : K} (h : Unwinds root succ pending path)
    (henters : Enters root succ path k) : Unwinds root succ ((k,false)::pending) path
  | mark {pending : List (K × Bool)} {path : List K} {k : K} (h : Unwinds root succ pending path)
    (henters : Enters root succ path k) : Unwinds root succ ((k,true)::pending) (k::path)

theorem Unwinds.reachable (h : Unwinds root succ ps path) : ∀ k ∈ path, Reachable root succ k := by
  induction h with
  | nil => exact forall_mem_nil _
  | entry _ _ ih => exact ih
  | @mark _ path k _ henters ih =>
    refine forall_mem_cons.mpr ⟨?_,ih⟩
    cases path with
    | nil => exact ⟨k,henters,.refl⟩
    | cons p =>
      obtain ⟨r,hroot,hr⟩ := ih p mem_cons_self
      exact ⟨r,hroot,hr.tail henters⟩

/-- From each node of the path the innermost one is reached. -/
theorem Unwinds.reaches {p : K} (h : Unwinds root succ ps (p::path)) : ∀ k ∈ p::path, ReflTransGen succ k p := by
  generalize hwhole : p::path = whole at h
  induction h generalizing p path with
  | nil => cases hwhole
  | entry _ _ ih => exact ih hwhole
  | @mark _ path' _ _ henters ih =>
    cases hwhole
    refine forall_mem_cons.mpr ⟨.refl,fun o ho => ?_⟩
    cases path' with
    | nil => cases ho
    | cons => exact (ih rfl o ho).tail henters

theorem unwinds_roots {roots : List K} (h : ∀ r ∈ roots, root r) : Unwinds root succ (roots.map (·,false)) [] := by
  induction roots with
  | nil => exact .nil
  | cons _ _ ih =>
    rw [forall_mem_cons] at h
    exact .entry (ih h.2) h.1

/-- The node popped last is finished or stays on the stack: what was on the stack is still accounted for. -/
theorem accounted (above : List (K × Bool)) {b : Bool} {complete' : Finset K} (hsub : complete ⊆ complete')
    (hk : k ∈ complete' ∨ ∃ b, (k,b) ∈ above) {c : K} {ps' : List (K × Bool)}
    (h : c ∈ complete ∨ ∃ b', (c,b') ∈ (k,b)::ps') : c ∈ complete' ∨ ∃ b, (c,b) ∈ above++ps' := by
  rcases h with h | ⟨b',h⟩
  · exact .inl (hsub h)
  rcases mem_cons.mp h with heq | h
  · cases heq
    exact hk.imp_right fun ⟨b,hb⟩ => ⟨b,mem_append_left _ hb⟩
  · exact .inr ⟨b',mem_append_right _ h⟩

variable {nexts : List K}

theorem unwinds_entries (h : Unwinds root succ ps (k::path)) (hnexts : ∀ c ∈ nexts, succ k c) :
    Unwinds root succ (nexts.map (·,false)++ps) (k::path) := by
  induction nexts with
  | nil => exact h
  | cons _ _ ih =>
    rw [forall_mem_cons] at hnexts
    exact .entry (ih hnexts.2) hnexts.1

/-- A mark is behind all entries of the top. -/
theorem mark_behind {rest above below : List (K × Bool)} {j : K}
    (h : nexts.map (·,false)++rest = above++(j,true)::below) :
    ∃ behind, above = nexts.map (·,false)++behind ∧ rest = behind++(j,true)::below := by
  induction nexts generalizing above with
  | nil => exact ⟨above,rfl,h⟩
  | cons _ _ ih =>
    cases above with
    | nil => cases h
    | cons =>
      obtain ⟨rfl,ht⟩ := List.cons.inj h
      obtain ⟨behind,rfl,hr⟩ := ih ht
      exact ⟨behind,rfl,hr⟩

variable [DecidableEq K]

/-- What holds whenever the search pops its stack. -/
structure Searching (root : K → Prop) (succ : K → K → Prop) (pending : List (K × Bool)) (active complete : Finset K) :
    Prop where
  path : ∃ path, Unwinds root succ pending path ∧ path.Nodup ∧ active = path.toFinset
  roots : ∀ r, root r → r ∈ complete ∨ ∃ b, (r,b) ∈ pending
  covered : ∀ above k below, pending = above++(k,true)::below → ∀ c, succ k c → c ∈ complete ∨ ∃ b, (c,b) ∈ above
  finished : ∀ k ∈ complete, Reachable root succ k ∧ ¬TransGen succ k k ∧ ∀ c, succ k c → c ∈ complete
  disjoint : ∀ k ∈ active, k ∉ complete

namespace Searching

theorem start {roots : List K} (h : ∀ r, root r ↔ r ∈ roots) : Searching root succ (roots.map (·,false)) ∅ ∅ where
  path := ⟨[],unwinds_roots fun r hr => (h r).mpr hr,nodup_nil,rfl⟩
  roots r hr := .inr ⟨false,mem_map.mpr ⟨r,(h r).mp hr,rfl⟩⟩
  covered above k below heq := by
    have hmem : (k,true) ∈ roots.map (·,false) := heq ▸ mem_append_right _ mem_cons_self
    obtain ⟨_,_,hpair⟩ := mem_map.mp hmem
    cases hpair
  finished k hk := absurd hk (Finset.notMem_empty k)
  disjoint k hk := absurd hk (Finset.notMem_empty k)

section

variable (h : Searching root succ ((k,false)::ps) active complete)
include h

theorem skip (hk : k ∈ complete) : Searching root succ ps active complete where
  path := by
    obtain ⟨path,hunwinds,hnd,hactive⟩ := h.path
    cases hunwinds with
    | entry hunwinds => exact ⟨path,hunwinds,hnd,hactive⟩
  roots r hr := accounted [] (Finset.Subset.refl _) (.inl hk) (h.roots r hr)
  covered above j below heq c hc :=
    accounted [] (Finset.Subset.refl _) (.inl hk) (h.covered ((k,false)::above) j below (by rw [heq]; rfl) c hc)
  finished := h.finished
  disjoint := h.disjoint

theorem reachable : Reachable root succ k := by
  obtain ⟨path,hunwinds,-,-⟩ := h.path
  cases hunwinds with
  | entry hunwinds henters =>
    cases path with
    | nil => exact ⟨k,henters,.refl⟩
    | cons p =>
      obtain ⟨r,hroot,hr⟩ := hunwinds.reachable p mem_cons_self
      exact ⟨r,hroot,hr.tail henters⟩

/-- An entry of a node that is on the path closes a cycle. -/
theorem cycle (hk : k ∈ active) : TransGen succ k k := by
  obtain ⟨path,hunwinds,-,rfl⟩ := h.path
  rw [mem_toFinset] at hk
  cases hunwinds with
  | entry hunwinds henters =>
    cases path with
    | nil => cases hk
    | cons => exact TransGen.tail' (hunwinds.reaches k hk) henters

/-- A new node gets its mark and entries for all its successors. -/
theorem enter (hactive : k ∉ active) (hcomplete : k ∉ complete) {nexts : List K} (hnexts : ∀ c, succ k c ↔ c ∈ nexts) :
    Searching root succ (nexts.map (·,false)++(k,true)::ps) (insert k active) complete where
  path := by
    obtain ⟨path,hunwinds,hnd,rfl⟩ := h.path
    rw [mem_toFinset] at hactive
    cases hunwinds with
    | entry hunwinds henters =>
      exact ⟨k::path,unwinds_entries (.mark hunwinds henters) fun c hc => (hnexts c).mpr hc,
        nodup_cons.mpr ⟨hactive,hnd⟩,toFinset_cons.symm⟩
  roots r hr := by
    have hr' := accounted [(k,true)] (Finset.Subset.refl complete) (.inr ⟨true,mem_singleton.mpr rfl⟩) (h.roots r hr)
    exact hr'.imp_right fun ⟨b,hb⟩ => ⟨b,mem_append_right _ hb⟩
  covered above j below heq c hc := by
    obtain ⟨behind,rfl,hpending⟩ := mark_behind heq
    cases behind with
    | nil =>
      cases hpending
      exact .inr ⟨false,mem_append_left _ (mem_map.mpr ⟨c,(hnexts c).mp hc,rfl⟩)⟩
    | cons _ behind =>
      obtain ⟨rfl,rfl⟩ := List.cons.inj hpending
      have hc' := accounted [(k,true)] (Finset.Subset.refl complete) (.inr ⟨true,mem_singleton.mpr rfl⟩)
        (h.covered ((k,false)::behind) j below rfl c hc)
      exact hc'.imp_right fun ⟨b,hb⟩ => ⟨b,mem_append_right _ hb⟩
  finished := h.finished
  disjoint := by
    intro j hj
    rcases Finset.mem_insert.mp hj with rfl | hj
    · exact hcomplete
    · exact h.disjoint j hj

end

theorem reaches_complete (h : Searching root succ ps active complete) {a b : K} (ha : a ∈ complete)
    (hab : ReflTransGen succ a b) : b ∈ complete := by
  induction hab with
  | refl => exact ha
  | tail _ hstep ih => exact (h.finished _ ih).2.2 _ hstep

/-- A node is finished when its mark is popped, with all its successors finished before. -/
theorem finish (h : Searching root succ ((k,true)::ps) active complete) :
    Searching root succ ps (active.erase k) (insert k complete) := by
  obtain ⟨path,hunwinds,hnd,rfl⟩ := h.path
  have hreachable := hunwinds.reachable
  cases hunwinds with
  | @mark _ path _ hunwinds =>
    obtain ⟨hfresh,hnd⟩ := nodup_cons.mp hnd
    have hsuccs : ∀ c, succ k c → c ∈ complete := by
      intro c hc
      rcases h.covered [] k ps rfl c hc with hc | ⟨b,hb⟩
      · exact hc
      · cases hb
    have hk : k ∉ complete := h.disjoint k (mem_toFinset.mpr mem_cons_self)
    have herase : (k::path).toFinset.erase k = path.toFinset := by
      rw [toFinset_cons,Finset.erase_insert]
      rwa [mem_toFinset]
    rw [herase]
    refine ⟨⟨path,hunwinds,hnd,rfl⟩,?_,?_,?_,?_⟩
    · exact fun r hr => accounted [] (Finset.subset_insert k complete) (.inl (Finset.mem_insert_self k _))
        (h.roots r hr)
    · exact fun above j below heq c hc => accounted [] (Finset.subset_insert k complete)
        (.inl (Finset.mem_insert_self k _)) (h.covered ((k,true)::above) j below (by rw [heq]; rfl) c hc)
    · intro j hj
      rcases Finset.mem_insert.mp hj with rfl | hj
      · refine ⟨hreachable j mem_cons_self,fun hcycle => ?_,fun c hc => Finset.mem_insert_of_mem (hsuccs c hc)⟩
        obtain ⟨c,hstep,hback⟩ := TransGen.head'_iff.mp hcycle
        exact hk (h.reaches_complete (hsuccs c hstep) hback)
      · obtain ⟨hreach,hacyclic,hclosed⟩ := h.finished j hj
        exact ⟨hreach,hacyclic,fun c hc => Finset.mem_insert_of_mem (hclosed c hc)⟩
    · intro j hj hmem
      rw [mem_toFinset] at hj
      rcases Finset.mem_insert.mp hmem with rfl | hmem
      · exact hfresh hj
      · exact h.disjoint j (mem_toFinset.mpr (mem_cons_of_mem _ hj)) hmem

/-- With an empty stack, the finished nodes are the reachable ones, and none of them is on a cycle. -/
theorem done (h : Searching root succ [] active complete) (k : K) :
    (k ∈ complete ↔ Reachable root succ k) ∧ (Reachable root succ k → ¬TransGen succ k k) := by
  have hmem : Reachable root succ k → k ∈ complete := by
    rintro ⟨r,hroot,hr⟩
    rcases h.roots r hroot with hroot | ⟨b,hb⟩
    · exact h.reaches_complete hroot hr
    · cases hb
  exact ⟨⟨fun hk => (h.finished k hk).1,hmem⟩,fun hk => (h.finished k (hmem hk)).2.1⟩

end Searching
end Whim.DepthFirst
