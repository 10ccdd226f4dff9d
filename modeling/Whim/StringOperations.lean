import Whim.StringInvariant

/-!
# The operations on heap strings

Every read is determined by the bytes of the box, and every operation keeps the heap well formed and the bytes of the
strings that other handles hold.
-/

namespace Whim.StringHeap

open List Option

variable {hs : HashState} {h g : StringHeap} {refs : List ℕ} {id a b : ℕ} {n : StringNode}

namespace WF

section
variable (hwf : WF hs h refs)
include hwf

theorem live_ref (hid : id ∈ refs) : (h.node id).isSome := hwf.live id (mem_append_left _ hid)

theorem live_edge (hid : id ∈ h.edges) : (h.node id).isSome := hwf.live id (mem_append_right _ hid)

theorem bytes_cons {left right : ℕ} {len : ℕ}
    (hr : h.repr id = some (.cons left right len)) : h.bytes id = h.bytes left++h.bytes right := by
  rw [bytes,hwf.older.chunks_cons hr,flatten_append,bytes,bytes]

theorem length_window {base o len : ℕ}
    (hr : h.repr id = some (.slice base o len)) : (h.window base o len).length = len := by
  obtain ⟨bs,hb,hle⟩ := hwf.based id base o len hr
  simp only [window,hb,length_take,length_drop]
  omega

theorem len_eq (hid : (h.node id).isSome) : h.len id = (h.bytes id).length := by
  obtain ⟨n,hn⟩ := isSome_iff_exists.mp hid
  have hr := repr_of_node hn
  cases hrepr : n.repr with
  | flat =>
    rw [hrepr] at hr
    simp [len,hr,bytes,chunks_flat hr]
  | slice =>
    rw [hrepr] at hr
    simp [StringHeap.len,hr,bytes,chunks_slice hr,hwf.length_window hr]
  | cons left right len =>
    rw [hrepr] at hr
    simp only [StringHeap.len,hr]
    exact (hwf.joined id left right len hr).1

end

end WF

theorem bytes_of_contiguousSlice {bs : List UInt8} (hc : h.contiguousSlice id = some bs) : h.bytes id = bs := by
  cases hr : h.repr id with
  | none => simp [contiguousSlice,hr] at hc
  | some r =>
    cases r with
    | flat =>
      rw [bytes,chunks_flat hr]
      simpa [contiguousSlice,hr] using hc
    | slice =>
      rw [bytes,chunks_slice hr]
      simpa [contiguousSlice,hr] using hc
    | cons => simp [contiguousSlice,hr] at hc

theorem repr_of_contiguousSlice_none (hid : (h.node id).isSome) (hc : h.contiguousSlice id = none) :
    ∃ left right len, h.repr id = some (.cons left right len) := by
  obtain ⟨n,hn⟩ := isSome_iff_exists.mp hid
  have hr := repr_of_node hn
  cases hrepr : n.repr with
  | flat => simp [contiguousSlice,hr,hrepr] at hc
  | slice => simp [contiguousSlice,hr,hrepr] at hc
  | cons left right len => exact ⟨left,right,len,by rw [hr,hrepr]⟩

theorem lexChunks_chunks (h : StringHeap) (a b : ℕ) :
    Chunked.lexChunks (h.chunks a) (h.chunks b) [] [] = Chunked.lex (h.bytes a) (h.bytes b) := by
  rw [Chunked.lexChunks_eq]
  simp [bytes]

/-- Comparison does not see the representation. -/
theorem cmpBytes_eq (h : StringHeap) (a b : ℕ) : h.cmpBytes a b = Chunked.lex (h.bytes a) (h.bytes b) := by
  by_cases hab : a = b
  · subst hab
    simp [cmpBytes,Chunked.lex_eq_iff.mpr rfl]
  cases ha : h.contiguousSlice a with
  | none => simp [cmpBytes,hab,ha,lexChunks_chunks]
  | some =>
    cases hb : h.contiguousSlice b with
    | none => simp [cmpBytes,hab,ha,hb,lexChunks_chunks]
    | some =>
      simp [cmpBytes,hab,ha,hb,bytes_of_contiguousSlice ha,bytes_of_contiguousSlice hb]

theorem eqContent_of_length_eq (hlen : h.len a = h.len b) : h.eqContent a b ↔ h.bytes a = h.bytes b := by
  have hcmp : (h.cmpBytes a b == .eq) = true ↔ h.bytes a = h.bytes b := by
    rw [beq_iff_eq,cmpBytes_eq,Chunked.lex_eq_iff]
  cases ha : h.contiguousSlice a with
  | none => simpa [eqContent,hlen,ha] using hcmp
  | some =>
    cases hb : h.contiguousSlice b with
    | none => simpa [eqContent,hlen,ha,hb] using hcmp
    | some =>
      simp [eqContent,hlen,ha,hb,bytes_of_contiguousSlice ha,bytes_of_contiguousSlice hb]

theorem WF.eqBytes_iff (hwf : WF hs h refs) (ha : (h.node a).isSome) (hb : (h.node b).isSome) :
    h.eqBytes a b ↔ h.bytes a = h.bytes b := by
  by_cases hab : a = b
  · simp [eqBytes,hab]
  by_cases hlen : h.len a = h.len b
  · simpa [eqBytes,hab] using eqContent_of_length_eq hlen
  have hne : h.bytes a ≠ h.bytes b := by
    intro heq
    rw [hwf.len_eq ha,hwf.len_eq hb,heq] at hlen
    exact hlen rfl
  simp [eqBytes,hab,eqContent,hlen,hne]

/-- A rope is hashed block by block as its flat copy would be; ropes are never short. -/
theorem WF.computeHash_eq (hwf : WF hs h refs) (hid : (h.node id).isSome) :
    h.computeHash hs id = hashBytes hs (h.bytes id) := by
  cases hc : h.contiguousSlice id with
  | some => simp [computeHash,hc,bytes_of_contiguousSlice hc]
  | none =>
    obtain ⟨left,right,len,hr⟩ := repr_of_contiguousSlice_none hid hc
    have hlong := (hwf.joined id left right len hr).2
    rw [(hwf.joined id left right len hr).1,eagerFlatLimit] at hlong
    have hregroup : Chunked.regroup hashBlockSize (h.chunks id) = Chunked.blocks hashBlockSize (h.bytes id) :=
      Chunked.regroup_eq (by decide) _
    simp only [computeHash,hc,hashFragments,hregroup,hwf.len_eq hid,hashBytes]
    rw [if_neg (by omega)]

theorem WF.hash64_eq (hwf : WF hs h refs) (hid : (h.node id).isSome) :
    (h.hash64 hs id).1 = hashBytes hs (h.bytes id) := by
  obtain ⟨n,hn⟩ := isSome_iff_exists.mp hid
  by_cases hz : n.hash = 0
  · simp [hash64,hn,hz,hwf.computeHash_eq hid]
  · have hcached := (hwf.hashed id n hn).resolve_left hz
    simpa [hash64,hn,hz] using hcached

/-- Every string held by `refs` has the same bytes in both heaps. -/
def Same (refs : List ℕ) (h g : StringHeap) : Prop := ∀ c ∈ refs, g.bytes c = h.bytes c

theorem Same.trans {k : StringHeap} (hg : Same refs h g) (hk : Same refs g k) : Same refs h k :=
  fun c hc => (hk c hc).trans (hg c hc)

theorem WF.same_of_kept {refs' : List ℕ} (hwf : WF hs g refs') (hk : Kept h g) (hsub : ∀ c ∈ refs, c ∈ refs') :
    Same refs h g := by
  intro c hc
  obtain ⟨n,hn⟩ := isSome_iff_exists.mp (hwf.live_ref (hsub c hc))
  exact (hk c n hn).1

/-- The count of a mortal box has room for `extra` more handles. -/
def Room (h : StringHeap) (id extra : ℕ) : Prop :=
  ∀ n, h.node id = some n → n.immortal = false → n.count.toNat+extra < 2 ^ 32

theorem toNat_succ {c : UInt32} (hc : c.toNat+1 < 2 ^ 32) : (c+1).toNat = c.toNat+1 := by
  rw [UInt32.toNat_add,UInt32.toNat_one]
  exact Nat.mod_eq_of_lt hc

theorem update_eq_set (hn : h.node id = some n) (f : StringNode → StringNode) :
    h.update id f = h.set id (some (f n)) := by
  simp [update,hn]

theorem WF.retain (hwf : WF hs h refs) (hid : (h.node id).isSome) (hr : h.Room id 1) :
    WF hs (h.retain id) (id::refs) ∧ Kept h (h.retain id) := by
  obtain ⟨n,hn⟩ := isSome_iff_exists.mp hid
  have hlive : ∀ c ∈ id::refs, (h.node c).isSome := by
    intro c hc
    cases mem_cons.mp hc with
    | inl hc => exact hc ▸ hid
    | inr hc => exact hwf.live_ref hc
  have hothers : ∀ c, c ≠ id → (id::refs).count c = refs.count c :=
    fun c hc => count_cons_of_ne (fun h => hc h.symm)
  rw [StringHeap.retain,update_eq_set hn]
  by_cases himmortal : n.immortal = true
  · rw [if_pos himmortal]
    exact hwf.set_same hn rfl (fun h => h) (.inl rfl) hlive (by simp [himmortal]) hothers
  rw [if_neg himmortal]
  have himm' : n.immortal = false := by simpa using himmortal
  apply hwf.set_same (m := { n with count := n.count+1 }) hn rfl (fun h => h) (.inl rfl) hlive _ hothers
  intro _
  rw [cons_append,count_cons_self,← hwf.counted id n hn himm']
  exact toNat_succ (hr n hn himm')

section

variable {refs' : List ℕ} {m : StringNode} (hnode : ∀ j, g.node j = if j = id then some m else h.node j)
include hnode

theorem repr_put (j : ℕ) : g.repr j = if j = id then some m.repr else h.repr j := by
  rw [repr,repr,hnode]
  split <;> rfl

theorem Older.put (ho : h.Older) (hchildren : ∀ c ∈ m.repr.children, c < id) : g.Older := by
  intro j p c hp hc
  rw [hnode] at hp
  split at hp
  · next hj =>
    cases hp
    exact hj ▸ hchildren c hc
  · exact ho j p c hp hc

/-- One box is new or replaced: it is settled by itself, and nothing else changes for the other boxes. -/
theorem WF.put (hwf : WF hs h refs) (hchildren : ∀ c ∈ m.repr.children, c < id)
    (hothers : ∀ c, c ≠ id → (refs'++g.edges).count c = (refs++h.edges).count c)
    (hself : m.immortal = false → m.count.toNat = (refs'++g.edges).count id)
    (hbytes : ∀ j, (h.node j).isSome → j ≠ id → g.bytes j = h.bytes j)
    (hb : ∀ j base o len, j ≠ id → h.repr j = some (.slice base o len) → base ≠ id)
    (hslice : ∀ base o len, m.repr = .slice base o len → ∃ bs, g.repr base = some (.flat bs) ∧ o+len ≤ bs.length)
    (hjoined : ∀ left right len, m.repr = .cons left right len → len = (g.bytes id).length ∧ eagerFlatLimit < len)
    (hh : m.hash = 0 ∨ m.hash = hashBytes hs (g.bytes id)) : WF hs g refs' := by
  have hrepr := repr_put hnode
  refine ⟨hwf.older.put hnode hchildren,?_,?_,?_,?_,?_⟩
  · intro c hc
    rw [hnode]
    by_cases hj : c = id
    · simp [hj]
    · rw [← count_pos_iff,hothers c hj,count_pos_iff] at hc
      simpa [hj] using hwf.live c hc
  · intro j p hp hmortal
    by_cases hj : j = id
    · subst hj
      rw [hnode,if_pos rfl] at hp
      cases hp
      exact hself hmortal
    · rw [hnode,if_neg hj] at hp
      rw [hothers j hj,hwf.counted j p hp hmortal]
  · intro j base o len hr
    by_cases hj : j = id
    · rw [hrepr,if_pos hj] at hr
      exact hslice base o len (some.inj hr)
    · rw [hrepr,if_neg hj] at hr
      rw [hrepr,if_neg (hb j base o len hj hr)]
      exact hwf.based j base o len hr
  · intro j left right len hr
    by_cases hj : j = id
    · subst hj
      rw [hrepr,if_pos rfl] at hr
      exact hjoined left right len (some.inj hr)
    · rw [hrepr,if_neg hj] at hr
      obtain ⟨n,hn,_⟩ := node_of_repr hr
      rw [hbytes j (by simp [hn]) hj]
      exact hwf.joined j left right len hr
  · intro j p hp
    by_cases hj : j = id
    · subst hj
      rw [hnode,if_pos rfl] at hp
      cases hp
      exact hh
    · rw [hnode,if_neg hj] at hp
      rw [hbytes j (by simp [hp]) hj]
      exact hwf.hashed j p hp

end

/-- What a new box must satisfy on the heap it is put into. -/
structure Fresh (hs : HashState) (h : StringHeap) (n : StringNode) (bs : List UInt8) : Prop where
  count : n.count = 1
  hash : n.hash = 0 ∨ n.hash = hashBytes hs bs
  flat : ∀ bs', n.repr = .flat bs' → bs = bs'
  slice : ∀ base offset len, n.repr = .slice base offset len →
    bs = h.window base offset len ∧ ∃ bs', h.repr base = some (.flat bs') ∧ offset+len ≤ bs'.length
  cons : ∀ left right len, n.repr = .cons left right len →
    bs = h.bytes left++h.bytes right ∧ len = bs.length ∧ eagerFlatLimit < len

section

variable {bs : List UInt8}

theorem repr_append_of_live (hid : (h.node id).isSome) (v : Option StringNode) : repr (h++[v]) id = h.repr id := by
  obtain ⟨n,hn⟩ := isSome_iff_exists.mp hid
  have hne : id ≠ h.length := Nat.ne_of_lt (lt_length_of_node hn)
  simp [repr,node_append,hne]

theorem WF.chunks_append (hwf : WF hs h refs) (hid : (h.node id).isSome) (v : Option StringNode) :
    chunks (h++[v]) id = h.chunks id :=
  hwf.older.chunks_congr (fun c => (h.node c).isSome)
    (fun _ _ _ _ hn hc => hwf.live_edge (mem_edges hn hc)) (fun _ hc => repr_append_of_live hc v) hid

theorem WF.lt_length (hwf : WF hs h refs) (hid : id ∈ refs) : id < h.length := by
  obtain ⟨m,hm⟩ := isSome_iff_exists.mp (hwf.live_ref hid)
  exact lt_length_of_node hm

theorem WF.older_append (hwf : WF hs h (n.repr.children++refs)) : Older (h++[some n]) :=
  hwf.older.put (node_append _) fun _ hc => hwf.lt_length (mem_append_left _ hc)

theorem WF.bytes_append_new (hwf : WF hs h (n.repr.children++refs)) (hf : Fresh hs h n bs) :
    bytes (h++[some n]) h.length = bs := by
  have hr : repr (h++[some n]) h.length = some n.repr := by simp [repr,node_append]
  have hchild : ∀ c ∈ n.repr.children, (h.node c).isSome :=
    fun c hc => hwf.live_ref (mem_append_left _ hc)
  cases hrepr : n.repr with
  | flat bs' =>
    rw [hrepr] at hr
    simp [bytes,chunks_flat hr,hf.flat bs' hrepr]
  | slice base o len =>
    rw [hrepr] at hr
    have hb := repr_append_of_live (hchild base (by simp [hrepr,StringRepr.children])) (some n)
    simp [bytes,chunks_slice hr,(hf.slice base o len hrepr).1,window,hb]
  | cons left right len =>
    rw [hrepr] at hr
    have hl := hwf.chunks_append (hchild left (by simp [hrepr,StringRepr.children])) (some n)
    have hright := hwf.chunks_append (hchild right (by simp [hrepr,StringRepr.children])) (some n)
    rw [bytes,hwf.older_append.chunks_cons hr,hl,hright,flatten_append]
    exact (hf.cons left right len hrepr).1.symm

theorem WF.not_mem_length (hwf : WF hs h refs) : h.length ∉ refs++h.edges := by
  intro hmem
  obtain ⟨m,hm⟩ := isSome_iff_exists.mp (hwf.live _ hmem)
  exact Nat.lt_irrefl _ (lt_length_of_node hm)

/-- A new box takes over the handles of its operands. -/
theorem WF.alloc (hwf : WF hs h (n.repr.children++refs)) (hf : Fresh hs h n bs) :
    WF hs (h++[some n]) (h.length::refs) ∧ Same refs h (h++[some n]) ∧ bytes (h++[some n]) h.length = bs := by
  have hnew := hwf.bytes_append_new hf
  have hold : ∀ c, (h.node c).isSome → bytes (h++[some n]) c = h.bytes c := by
    intro c hc
    rw [bytes,bytes,hwf.chunks_append hc]
  have hbag : ∀ c, ((h.length::refs)++edges (h++[some n])).count c =
      ((n.repr.children++refs)++h.edges).count c+if h.length = c then 1 else 0 := by
    intro c
    simp only [edges_append,owned,map_some,getD_some,count_append,
      count_cons,beq_iff_eq]
    omega
  refine ⟨hwf.put (node_append _) ?_ ?_ ?_ (fun j hj _ => hold j hj) ?_ ?_ ?_ ?_,?_,hnew⟩
  · exact fun c hc => hwf.lt_length (mem_append_left _ hc)
  · exact fun c hc => by rw [hbag,if_neg (Ne.symm hc),Nat.add_zero]
  · intro _
    rw [hbag,count_eq_zero_of_not_mem hwf.not_mem_length,hf.count]
    simp
  · intro j base o len _ hr
    obtain ⟨bs',hb,_⟩ := hwf.based j base o len hr
    obtain ⟨m,hm,_⟩ := node_of_repr hb
    exact Nat.ne_of_lt (lt_length_of_node hm)
  · intro base o len hr
    obtain ⟨_,bs',hb,hle⟩ := hf.slice base o len hr
    obtain ⟨m,hm,_⟩ := node_of_repr hb
    exact ⟨bs',by rw [repr_append_of_live (by simp [hm]),hb],hle⟩
  · rw [hnew]
    exact fun left right len hr => (hf.cons left right len hr).2
  · rw [hnew]
    exact hf.hash
  · exact fun c hc => hold c (hwf.live_ref (mem_append_right _ hc))

end

section

variable {left right len : ℕ}

/-- The heap after a rope's representation is overwritten, before its operands are dropped. -/
def flattened (h : StringHeap) (id : ℕ) (n : StringNode) : StringHeap :=
  h.set id (some { n with repr := .flat (h.bytes id) })

theorem node_flattened (hn : h.node id = some n) (j : ℕ) :
    node (h.flattened id n) j = if j = id then some { n with repr := .flat (h.bytes id) } else h.node j :=
  node_set (lt_length_of_node hn) _ j

theorem repr_flattened (hn : h.node id = some n) (j : ℕ) :
    repr (h.flattened id n) j = if j = id then some (.flat (h.bytes id)) else h.repr j :=
  repr_put (node_flattened hn) j

/-- A slice's base is flat already, so it is not the rope that is flattened. -/
theorem WF.base_ne (hwf : WF hs h refs) {j base o len' : ℕ}
    (hcons : h.repr id = some (.cons left right len)) (hr : h.repr j = some (.slice base o len')) : base ≠ id := by
  rintro rfl
  obtain ⟨bs,hb,_⟩ := hwf.based j base o len' hr
  simp [hcons] at hb

/-- Flattening a shared rope changes no string that is built from it. -/
theorem WF.bytes_flattened (hwf : WF hs h refs) (hn : h.node id = some n)
    (hcons : h.repr id = some (.cons left right len)) (j : ℕ) : bytes (h.flattened id n) j = h.bytes j := by
  induction j using Nat.strongRecOn with
  | _ j ih =>
    have hrepr := repr_flattened hn j
    by_cases hj : j = id
    · rw [if_pos hj] at hrepr
      rw [bytes,chunks_flat hrepr,hj]
      simp
    · rw [if_neg hj] at hrepr
      cases hr : h.repr j with
      | none => rw [bytes,bytes,chunks,chunks,hrepr,hr]
      | some r =>
        rw [hr] at hrepr
        cases r with
        | flat => simp [bytes,chunks_flat hr,chunks_flat hrepr]
        | slice base =>
          have hb := repr_flattened hn base
          rw [if_neg (hwf.base_ne hcons hr)] at hb
          simp [bytes,chunks_slice hr,chunks_slice hrepr,window,hb]
        | cons l r =>
          obtain ⟨m,hm,hmrepr⟩ := node_of_repr hr
          have hl := hwf.older j m l hm (by simp [hmrepr,StringRepr.children])
          have hright := hwf.older j m r hm (by simp [hmrepr,StringRepr.children])
          rw [hwf.bytes_cons hr,bytes,(hwf.older.put (node_flattened hn) (by simp)).chunks_cons hrepr,flatten_append]
          exact congrArg₂ _ (ih l hl) (ih r hright)

theorem count_flattened (refs : List ℕ) (hn : h.node id = some n) (c : ℕ) :
    ((n.repr.children++refs)++edges (h.flattened id n)).count c = (refs++h.edges).count c := by
  have he := count_edges_set (lt_length_of_node hn) (some { n with repr := .flat (h.bytes id) }) c
  rw [hn] at he
  simp only [owned,map_some,getD_some,StringRepr.children_flat,count_nil] at he
  simp only [flattened,count_append]
  omega

theorem WF.flattened (hwf : WF hs h refs) (hn : h.node id = some n)
    (hcons : h.repr id = some (.cons left right len)) : WF hs (h.flattened id n) (n.repr.children++refs) := by
  have hbytes := hwf.bytes_flattened hn hcons
  refine hwf.put (node_flattened hn) (by simp) (fun c _ => count_flattened refs hn c) ?_ (fun j _ _ => hbytes j)
    (fun j base o len _ hr => hwf.base_ne hcons hr) (by simp) (by simp) ?_
  · rw [count_flattened refs hn]
    exact hwf.counted id n hn
  · rw [hbytes]
    exact hwf.hashed id n hn

/-- The heap `g` after the string `id` was flattened. -/
structure Flattened (hs : HashState) (h : StringHeap) (refs : List ℕ) (id : ℕ) (g : StringHeap) : Prop where
  wf : WF hs g refs
  same : Same refs h g
  room : ∀ c extra, h.Room c extra → g.Room c extra
  anchor : id ∈ refs → (g.anchor id).1 = (h.anchor id).1
  contiguous : id ∈ refs → g.contiguousSlice id = some (h.bytes id)

theorem WF.room_of_kept {k : StringHeap} (hwf : WF hs h refs) (hg : WF hs g refs) (hk : Kept k g)
    (hlen : g.length = k.length) (hedges : ∀ c, k.edges.count c ≤ h.edges.count c)
    (hmortal : ∀ c m, k.node c = some m → ∃ p, h.node c = some p ∧ p.immortal = m.immortal)
    {c extra : ℕ} (hr : h.Room c extra) : g.Room c extra := by
  intro n hn himmortal
  obtain ⟨_,m,hm,_,hi⟩ := hk c n hn
  obtain ⟨p,hp,hparent⟩ := hmortal c m hm
  have hpi : p.immortal = false := by rw [hparent,hi himmortal]
  have hle := hk.count_edges_le hlen c
  have hold := hwf.counted c p hp hpi
  have hnew := hg.counted c n hn himmortal
  have hbound := hr p hp hpi
  have hedge := hedges c
  rw [count_append] at hold hnew
  omega

/-- Flattening any live string returns its bytes, and no handle sees a change. -/
theorem WF.flatten (hwf : WF hs h refs) (hid : (h.node id).isSome) :
    ∃ g, h.flatten id = some (h.bytes id,g) ∧ Flattened hs h refs id g := by
  cases hc : h.contiguousSlice id with
  | some =>
    have hbytes := bytes_of_contiguousSlice hc
    refine ⟨h,by simp [StringHeap.flatten,hc,hbytes],hwf,fun _ _ => rfl,fun _ _ h => h,fun _ => rfl,?_⟩
    exact fun _ => by rw [hc,hbytes]
  | none =>
    obtain ⟨left,right,len,hr⟩ := repr_of_contiguousSlice_none hid hc
    obtain ⟨n,hn,hrepr⟩ := node_of_repr hr
    have hfrag : fromFragments (h.len id) (h.chunks id) = some (h.bytes id) := by
      simp [fromFragments,hwf.len_eq hid,bytes]
    have hreplace : h.replaceRepr id (.flat (h.bytes id)) = (h.flattened id n).release n.repr.children := by
      rw [replaceRepr,hr,hrepr]
      simp only [update_eq_set hn,StringHeap.flattened]
    obtain ⟨hw,hk⟩ := (hwf.flattened hn hr).release
    have hself : id ∈ refs → repr ((h.flattened id n).release n.repr.children) id = some (.flat (h.bytes id)) := by
      intro hmem
      rw [hk.repr_eq (hw.live_ref hmem),repr_flattened hn,if_pos rfl]
    refine ⟨(h.flattened id n).release n.repr.children,?_,hw,?_,?_,?_,?_⟩
    · simp [StringHeap.flatten,hc,flattenRope,hfrag,hreplace]
    · intro c hcm
      rw [hw.same_of_kept hk (fun _ h => h) c hcm,hwf.bytes_flattened hn hr]
    · intro c extra hroom
      apply hwf.room_of_kept hw hk (length_releaseLoop _ _ _) _ _ hroom
      · intro c
        have he := count_flattened [] hn c
        simp only [count_append,append_nil,nil_append] at he
        omega
      · intro c m hm
        rw [node_flattened hn] at hm
        split at hm
        · next hj =>
          cases hm
          exact ⟨n,hj ▸ hn,rfl⟩
        · exact ⟨m,hm,rfl⟩
    · intro hmem
      simp [StringHeap.anchor,hself hmem,hr]
    · intro hmem
      simp [contiguousSlice,hself hmem]

end

section

variable {extra bs : List UInt8}

theorem isUnique_iff (hn : h.node id = some n) :
    h.isUnique id ↔ n.immortal = false ∧ n.interned = false ∧ n.count = 1 := by
  simp [isUnique,hn,and_assoc]

/-- A unique box is held by one handle and by no other string. -/
theorem WF.count_of_isUnique (hwf : WF hs h refs) (hid : id ∈ refs) (hu : h.isUnique id) :
    refs.count id = 1 ∧ id ∉ h.edges := by
  obtain ⟨n,hn⟩ := isSome_iff_exists.mp (hwf.live_ref hid)
  obtain ⟨himmortal,_,hone⟩ := (isUnique_iff hn).mp hu
  have hc := hwf.counted id n hn himmortal
  have hpos := count_pos_iff.mpr hid
  rw [hone,count_append,UInt32.toNat_one] at hc
  exact ⟨by omega,count_eq_zero.mp (by omega)⟩

theorem appendFlat_eq (hn : h.node id = some n) (hr : n.repr = .flat bs) :
    h.appendFlat id extra = h.set id (some { n with hash := 0, repr := .flat (bs++extra) }) := by
  simp [appendFlat,update_eq_set hn,hr]

/-- Appending in place to a unique flat string changes that string only. -/
theorem WF.appendFlat (hwf : WF hs h refs) (hid : id ∈ refs) (hu : h.isUnique id)
    (hflat : h.isFlat id) (extra : List UInt8) :
    WF hs (h.appendFlat id extra) refs ∧ (h.appendFlat id extra).bytes id = h.bytes id++extra ∧
      ∀ c ∈ refs, c ≠ id → (h.appendFlat id extra).bytes c = h.bytes c := by
  obtain ⟨n,hn⟩ := isSome_iff_exists.mp (hwf.live_ref hid)
  have hf := (hwf.count_of_isUnique hid hu).2
  obtain ⟨bs,hbs⟩ : ∃ bs, n.repr = .flat bs := by
    cases hr : n.repr <;> simp [isFlat,repr_of_node hn,hr] at hflat ⊢
  rw [appendFlat_eq hn hbs]
  have hnode := node_set (lt_length_of_node hn) (some { n with hash := 0, repr := .flat (bs++extra) })
  have hrepr := repr_put hnode
  -- no string is built from the unique box, so the others do not reach it
  have hbytes : ∀ j, (h.node j).isSome → j ≠ id →
      bytes (h.set id (some { n with hash := 0, repr := .flat (bs++extra) })) j = h.bytes j := by
    intro j hj hne
    have hchunks := hwf.older.chunks_congr (fun j => j ≠ id)
      (fun j m c _ hm hc hcid => hf (hcid ▸ mem_edges hm hc)) (fun j hj => (hrepr j).trans (if_neg hj)) hne
    rw [bytes,bytes,hchunks]
  have hedges : ∀ c, (edges (h.set id (some { n with hash := 0, repr := .flat (bs++extra) }))).count c =
      h.edges.count c := by
    intro c
    have he := count_edges_set (lt_length_of_node hn)
      (some { n with hash := 0, repr := .flat (bs++extra) }) c
    rw [hn] at he
    simp only [owned,map_some,getD_some,hbs,StringRepr.children_flat,count_nil] at he
    omega
  refine ⟨hwf.put hnode (by simp) ?_ ?_ hbytes ?_ (by simp) (by simp) (.inl rfl),?_,
    fun c hc => hbytes c (hwf.live_ref hc)⟩
  · exact fun c _ => by rw [count_append,hedges,count_append]
  · rw [count_append,hedges,← count_append]
    exact hwf.counted id n hn
  · rintro j base o len - hr rfl
    obtain ⟨m,hm,hmrepr⟩ := node_of_repr hr
    exact hf (mem_edges hm (by simp [hmrepr,StringRepr.children]))
  · have hold : h.repr id = some (.flat bs) := by rw [repr_of_node hn,hbs]
    simp [bytes,chunks_flat hold,chunks_flat ((hrepr id).trans (if_pos rfl))]

end

end Whim.StringHeap
