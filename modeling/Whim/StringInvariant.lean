import Whim.StringChunks

/-!
# The invariant of the string heap

Every box is counted exactly, slices lie in a flat base, ropes store their length and cached hashes are those of the
bytes.
-/

namespace Whim.StringHeap

open List Option

variable {hs : HashState} {h g k : StringHeap} {refs refs' : List ℕ} {id : ℕ} {n : StringNode}

/-- `refs` are the handles held outside the heap. -/
structure WF (hs : HashState) (h : StringHeap) (refs : List ℕ) : Prop where
  older : h.Older
  live : ∀ c ∈ refs++h.edges, (h.node c).isSome
  counted : ∀ id n, h.node id = some n → n.immortal = false → n.count.toNat = (refs++h.edges).count id
  based : ∀ id base offset len, h.repr id = some (.slice base offset len) →
    ∃ bs, h.repr base = some (.flat bs) ∧ offset+len ≤ bs.length
  joined : ∀ id left right len, h.repr id = some (.cons left right len) →
    len = (h.bytes id).length ∧ eagerFlatLimit < len
  hashed : ∀ id n, h.node id = some n → n.hash = 0 ∨ n.hash = hashBytes hs (h.bytes id)

theorem wf_nil (hs : HashState) : WF hs [] [] := by
  constructor <;> simp [Older,node,repr,edges]

/-- The boxes of `g` are boxes of `h` with the same representation and the same bytes, and none of
them has become mortal. -/
def Kept (h g : StringHeap) : Prop :=
  ∀ id n, g.node id = some n → g.bytes id = h.bytes id ∧
    ∃ m, h.node id = some m ∧ m.repr = n.repr ∧ (n.immortal = false → m.immortal = false)

theorem Kept.refl (h : StringHeap) : Kept h h := fun _ n hn => ⟨rfl,n,hn,rfl,fun h => h⟩

theorem Kept.trans (hg : Kept h g) (hk : Kept g k) : Kept h k := by
  intro id n hn
  obtain ⟨hb,m,hm,hr,hi⟩ := hk id n hn
  obtain ⟨hb',m',hm',hr',hi'⟩ := hg id m hm
  exact ⟨hb.trans hb',m',hm',hr'.trans hr,fun h => hi' (hi h)⟩

theorem Kept.repr_eq (hk : Kept h g) (hid : (g.node id).isSome) : g.repr id = h.repr id := by
  obtain ⟨n,hn⟩ := isSome_iff_exists.mp hid
  obtain ⟨_,m,hm,hr,_⟩ := hk id n hn
  rw [repr_of_node hn,repr_of_node hm,hr]

/-- Changing counts, flags and hashes and dropping boxes keeps the invariant, once the new heap has no
dangling handle and counts its handles. -/
theorem WF.transfer (hwf : WF hs h refs)
    (hsub : ∀ id n, g.node id = some n → ∃ m, h.node id = some m ∧ m.repr = n.repr ∧
      (n.immortal = false → m.immortal = false) ∧ (n.hash = m.hash ∨ n.hash = hashBytes hs (h.bytes id)))
    (hlive : ∀ c ∈ refs'++g.edges, (g.node c).isSome)
    (hcount : ∀ id n, g.node id = some n → n.immortal = false → n.count.toNat = (refs'++g.edges).count id) :
    WF hs g refs' ∧ Kept h g := by
  have hrepr : ∀ id, (g.node id).isSome → g.repr id = h.repr id := by
    intro id hid
    obtain ⟨n,hn⟩ := isSome_iff_exists.mp hid
    obtain ⟨m,hm,hr,_⟩ := hsub id n hn
    rw [repr_of_node hn,repr_of_node hm,hr]
  have holder : g.Older := by
    intro id n c hn hc
    obtain ⟨m,hm,hr,_⟩ := hsub id n hn
    exact hwf.older id m c hm (hr ▸ hc)
  -- the surviving boxes are closed under taking operands, since no handle dangles
  have hbytes : ∀ id, (g.node id).isSome → g.bytes id = h.bytes id := by
    intro id hid
    have hchunks := holder.chunks_congr (fun id => (g.node id).isSome)
      (fun id n c _ hn hc => hlive c (mem_append_right _ (mem_edges hn hc)))
      (fun id hid => (hrepr id hid).symm) hid
    rw [bytes,bytes,hchunks]
  have hsome : ∀ {id r}, g.repr id = some r → (g.node id).isSome := by
    intro id r hr
    obtain ⟨n,hn,_⟩ := node_of_repr hr
    simp [hn]
  refine ⟨⟨holder,hlive,hcount,?_,?_,?_⟩,?_⟩
  · intro id base o len hr
    obtain ⟨n,hn,hnr⟩ := node_of_repr hr
    have hb := hlive base (mem_append_right _ (mem_edges hn (by simp [hnr,StringRepr.children])))
    rw [hrepr id (hsome hr)] at hr
    rw [hrepr base hb]
    exact hwf.based id base o len hr
  · intro id left right len hr
    rw [hbytes id (hsome hr)]
    rw [hrepr id (hsome hr)] at hr
    exact hwf.joined id left right len hr
  · intro id n hn
    rw [hbytes id (by simp [hn])]
    obtain ⟨m,hm,_,_,hh⟩ := hsub id n hn
    cases hh with
    | inl hh => exact hh ▸ hwf.hashed id m hm
    | inr hh => exact .inr hh
  · intro id n hn
    obtain ⟨m,hm,hr,hi,_⟩ := hsub id n hn
    exact ⟨hbytes id (by simp [hn]),m,hm,hr,hi⟩

section
variable {m : StringNode} (hn : h.node id = some n) (hr : m.repr = n.repr)
include hn hr

theorem edges_set_same (c : ℕ) : (edges (h.set id (some m))).count c = h.edges.count c := by
  have he := count_edges_set (lt_length_of_node hn) (some m) c
  rw [hn] at he
  simp only [owned,map_some,getD_some,hr] at he
  omega

theorem mem_edges_set_same {c : ℕ} (hc : c ∈ edges (h.set id (some m))) : c ∈ h.edges := by
  rw [← count_pos_iff] at hc ⊢
  rwa [edges_set_same hn hr] at hc

end

/-- Replacing a box by one with the same representation. -/
theorem WF.set_same (hwf : WF hs h refs) {m : StringNode} (hn : h.node id = some n) (hr : m.repr = n.repr)
    (himmortal : m.immortal = false → n.immortal = false) (hh : m.hash = n.hash ∨ m.hash = hashBytes hs (h.bytes id))
    (hlive : ∀ c ∈ refs', (h.node c).isSome) (hself : m.immortal = false → m.count.toNat = (refs'++h.edges).count id)
    (hothers : ∀ c, c ≠ id → refs'.count c = refs.count c) :
    WF hs (h.set id (some m)) refs' ∧ Kept h (h.set id (some m)) := by
  have hnode := node_set (lt_length_of_node hn) (some m)
  apply hwf.transfer
  · intro j p hp
    rw [hnode] at hp
    by_cases hj : j = id
    · subst hj
      simp only [if_true,some_inj] at hp
      subst hp
      exact ⟨n,hn,hr.symm,himmortal,hh⟩
    · rw [if_neg hj] at hp
      exact ⟨p,hp,rfl,fun h => h,.inl rfl⟩
  · intro c hc
    have hold : (h.node c).isSome := by
      rcases mem_append.mp hc with hc | hc
      · exact hlive c hc
      · exact hwf.live c (mem_append_right _ (mem_edges_set_same hn hr hc))
    rw [hnode]
    by_cases hj : c = id <;> simp [hj,hold]
  · intro j p hp hmortal
    rw [hnode] at hp
    rw [count_append,edges_set_same hn hr,← count_append]
    by_cases hj : j = id
    · subst hj
      simp only [if_true,some_inj] at hp
      subst hp
      exact hself hmortal
    · rw [if_neg hj] at hp
      rw [hwf.counted j p hp hmortal,count_append,count_append,hothers j hj]

section

variable {ps : List ℕ}

theorem toNat_pred {c : UInt32} {k : ℕ} (hc : c.toNat = k+1) : (c-1).toNat = k := by
  have hle : (1 : UInt32) ≤ c := by
    rw [UInt32.le_iff_toNat_le,hc]
    simp
  rw [UInt32.toNat_sub_of_le _ _ hle,hc]
  simp

theorem toNat_eq_one {c : UInt32} (hc : c-1 = 0) : c.toNat = 1 := by
  have h : c = 1 := by
    rw [← UInt32.sub_add_cancel c 1,hc]
    rfl
  rw [h]
  rfl

/-- Dropping a handle of an immortal box changes nothing. -/
theorem WF.release_immortal (hwf : WF hs h (id::ps)) (hn : h.node id = some n)
    (himmortal : n.immortal) : WF hs h ps := by
  refine (hwf.transfer (fun j p hp => ⟨p,hp,rfl,fun h => h,.inl rfl⟩) (fun c hc => hwf.live c ?_) ?_).1
  · exact mem_cons_of_mem id hc
  intro j p hp hmortal
  have hj : id ≠ j := by
    rintro rfl
    rw [hn,some_inj] at hp
    subst hp
    simp [himmortal] at hmortal
  rw [hwf.counted j p hp hmortal,cons_append,count_cons_of_ne hj]

/-- Dropping a handle that is not the last one. -/
theorem WF.release_shared (hwf : WF hs h (id::ps)) (hn : h.node id = some n) (himmortal : n.immortal = false) :
    WF hs (h.set id (some { n with count := n.count-1 })) ps ∧
      Kept h (h.set id (some { n with count := n.count-1 })) := by
  apply hwf.set_same (m := { n with count := n.count-1 }) hn rfl (fun h => h) (.inl rfl)
  · exact fun c hc => hwf.live c (mem_append_left _ (mem_cons_of_mem id hc))
  · intro _
    have hc := hwf.counted id n hn himmortal
    rw [cons_append,count_cons_self] at hc
    exact toNat_pred hc
  · exact fun c hc => (count_cons_of_ne (fun h => hc h.symm)).symm

/-- Freeing a box hands its own handles over to the queue. -/
theorem count_free (hn : h.node id = some n) (c : ℕ) :
    ((n.repr.children++ps)++edges (h.set id none)).count c = (ps++h.edges).count c := by
  have he := count_edges_set (lt_length_of_node hn) none c
  rw [hn] at he
  simp only [owned,map_some,getD_some,map_none,getD_none,
    count_nil] at he
  simp only [count_append]
  omega

/-- Dropping the last handle of a box. -/
theorem WF.release_last (hwf : WF hs h (id::ps)) (hn : h.node id = some n)
    (himmortal : n.immortal = false) (hl : n.count-1 = 0) :
    WF hs (h.set id none) (n.repr.children++ps) ∧ Kept h (h.set id none) := by
  have hnode := node_set (lt_length_of_node hn) none
  have hz : (ps++h.edges).count id = 0 := by
    have hc := hwf.counted id n hn himmortal
    rw [toNat_eq_one hl,cons_append,count_cons_self] at hc
    omega
  apply hwf.transfer
  · intro j p hp
    rw [hnode] at hp
    by_cases hj : j = id
    · simp [hj] at hp
    · rw [if_neg hj] at hp
      exact ⟨p,hp,rfl,fun h => h,.inl rfl⟩
  · intro c hc
    rw [← count_pos_iff,count_free hn] at hc
    have hj : c ≠ id := by
      rintro rfl
      omega
    rw [hnode,if_neg hj]
    exact hwf.live c (mem_cons_of_mem id (count_pos_iff.mp hc))
  · intro j p hp hmortal
    rw [hnode] at hp
    by_cases hj : j = id
    · simp [hj] at hp
    rw [if_neg hj] at hp
    rw [count_free hn,hwf.counted j p hp hmortal,cons_append,
      count_cons_of_ne (fun h => hj h.symm)]

/-- The boxes that are still allocated. -/
def liveCount (h : StringHeap) : ℕ := h.countP isSome

theorem liveCount_set (hn : h.node id = some n) (v : Option StringNode) :
    liveCount (h.set id v)+1 = h.liveCount+if v.isSome then 1 else 0 := by
  induction h generalizing id with
  | nil => simp [node] at hn
  | cons w ws ih =>
    cases id with
    | zero =>
      have hw : w = some n := by simpa [node] using hn
      simp only [liveCount,set_cons_zero,countP_cons,hw,isSome_some,if_true]
      omega
    | succ j =>
      have hj := ih (show node ws j = some n by simpa [node] using hn)
      simp only [liveCount,set_cons_succ,countP_cons] at hj ⊢
      omega

theorem length_children_le (r : StringRepr) : r.children.length ≤ 2 := by
  cases r <;> simp [StringRepr.children]

/-- The cascade drops all pending handles. Each round takes one, and freeing a box adds at most two. -/
theorem WF.releaseLoop {fuel : ℕ} (hwf : WF hs h (ps++refs)) (hf : ps.length+2*h.liveCount ≤ fuel) :
    WF hs (releaseLoop fuel ps h) refs ∧ Kept h (releaseLoop fuel ps h) := by
  induction fuel generalizing h ps with
  | zero =>
    have hp : ps = [] := length_eq_zero_iff.mp (by omega)
    subst hp
    exact ⟨hwf,Kept.refl h⟩
  | succ _ ih =>
    cases ps with
    | nil => exact ⟨hwf,Kept.refl h⟩
    | cons id ps =>
      obtain ⟨n,hn⟩ := isSome_iff_exists.mp (hwf.live id (by simp))
      rw [length_cons] at hf
      simp only [StringHeap.releaseLoop,hn]
      by_cases himmortal : n.immortal = true
      · rw [if_pos himmortal]
        exact ih (hwf.release_immortal hn himmortal) (by omega)
      rw [if_neg himmortal]
      have himm' : n.immortal = false := by simpa using himmortal
      by_cases hl : n.count-1 = 0
      · rw [if_pos hl]
        obtain ⟨hw,hk⟩ := hwf.release_last hn himm' hl
        have hlive := liveCount_set hn none
        simp only [isSome_none,Bool.false_eq_true,if_false] at hlive
        have hchunks := length_children_le n.repr
        have h := ih (show WF hs _ ((n.repr.children++ps)++refs) by rwa [append_assoc])
          (by rw [length_append]; omega)
        exact ⟨h.1,hk.trans h.2⟩
      · rw [if_neg hl]
        obtain ⟨hw,hk⟩ := hwf.release_shared hn himm'
        have hlive := liveCount_set hn (some { n with count := n.count-1 })
        simp only [isSome_some,if_true] at hlive
        have h := ih hw (by omega)
        exact ⟨h.1,hk.trans h.2⟩

theorem WF.release {ids : List ℕ} (hwf : WF hs h (ids++refs)) :
    WF hs (h.release ids) refs ∧ Kept h (h.release ids) := by
  have hle : h.liveCount ≤ h.length := countP_le_length
  exact hwf.releaseLoop (by omega)

theorem length_releaseLoop (fuel : ℕ) (ps : List ℕ) (h : StringHeap) :
    (StringHeap.releaseLoop fuel ps h).length = h.length := by
  fun_induction StringHeap.releaseLoop fuel ps h with
  | case1 => rfl
  | case2 => rfl
  | case3 _ _ _ _ _ ih => exact ih
  | case4 _ _ _ _ _ _ _ ih => exact ih
  | case5 _ _ _ _ _ _ _ _ ih => simpa using ih
  | case6 _ _ _ _ _ _ _ _ ih => simpa using ih

end

/-- Fewer boxes hold fewer handles. -/
theorem Kept.count_edges_le (hk : Kept h g) (hlen : g.length = h.length) (c : ℕ) :
    g.edges.count c ≤ h.edges.count c := by
  have howned : ∀ j, (owned (g.node j)).count c ≤ (owned (h.node j)).count c := by
    intro j
    cases hn : g.node j with
    | none => simp [owned]
    | some n =>
      obtain ⟨_,m,hm,hr,_⟩ := hk j n hn
      simp [owned,hm,hr]
  clear hk
  induction g generalizing h with
  | nil => simp [edges]
  | cons v _ ih =>
    cases h with
    | nil => simp at hlen
    | cons w =>
      have hhead : (owned v).count c ≤ (owned w).count c := howned 0
      have ht := ih (by simpa using hlen) (fun j => howned (j+1))
      simp only [edges,flatMap_cons,count_append] at ht ⊢
      omega

end Whim.StringHeap
