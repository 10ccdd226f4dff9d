import Whim.StringOperations

/-!
# Building heap strings

What each constructor adds to a well-formed heap, if the length of a rope and the reference counts do not wrap.
-/

namespace Whim.StringHeap

open Option List

variable {hs : HashState} {h g : StringHeap} {refs : List ℕ} {id a b base o len : ℕ} {bs : List UInt8}

/-- A constructor returned a new handle to a string with these bytes. -/
structure Built (hs : HashState) (h : StringHeap) (refs : List ℕ) (r : ℕ × StringHeap)
    (bs : List UInt8) : Prop where
  wf : WF hs r.2 (r.1::refs)
  same : Same refs h r.2
  bytes : r.2.bytes r.1 = bs

theorem WF.perm {refs' : List ℕ} (hwf : WF hs h refs) (hp : refs.Perm refs') : WF hs h refs' := by
  have hp' := hp.append_right h.edges
  refine (hwf.transfer (fun j p hn => ⟨p,hn,rfl,fun h => h,.inl rfl⟩) ?_ ?_).1
  · exact fun c hc => hwf.live c (hp'.mem_iff.mpr hc)
  · intro j p hn hmortal
    rw [hwf.counted j p hn hmortal,hp'.count_eq]

theorem Room.mono {x x' : ℕ} (hr : h.Room id x) (hle : x' ≤ x) : h.Room id x' := by
  intro n hn himmortal
  have hb := hr n hn himmortal
  omega

/-- Retaining a box uses up one of its free counts. -/
theorem Room.retain {x : ℕ} (hr : h.Room id (x+if a = id then 1 else 0)) : (h.retain a).Room id x := by
  intro n hn himmortal
  rw [StringHeap.retain,node_update] at hn
  by_cases hid : id = a
  · subst hid
    rw [if_pos rfl,map_eq_some_iff] at hn
    obtain ⟨m,hm,rfl⟩ := hn
    by_cases hi : m.immortal = true
    · simp [hi] at himmortal
    rw [if_neg hi] at himmortal ⊢
    have hb := hr m hm himmortal
    have hle : (m.count+1).toNat ≤ m.count.toNat+1 := by
      rw [UInt32.toNat_add,UInt32.toNat_one]
      exact Nat.mod_le _ _
    rw [if_pos rfl] at hb
    show (m.count+1).toNat+x < 2 ^ 32
    omega
  · rw [if_neg hid] at hn
    have hb := hr n hn himmortal
    omega

theorem WF.fromBytes (hwf : WF hs h refs) (bs : List UInt8) : Built hs h refs (h.fromBytes bs) bs := by
  have hf : Fresh hs h ⟨1,false,false,0,.flat bs⟩ bs := by
    constructor <;> simp
  have hw := WF.alloc (n := ⟨1,false,false,0,.flat bs⟩) hwf hf
  exact ⟨hw.1,hw.2.1,hw.2.2⟩

/-- Concatenation, when the `usize` sum of the lengths and the two retained counts do not wrap. -/
theorem WF.concat (hwf : WF hs h refs) (ha : (h.node a).isSome) (hb : (h.node b).isSome)
    (hlen : h.len a+h.len b < 2 ^ 64) (hr : eagerFlatLimit < h.len a+h.len b → ∀ c, h.Room c ([a,b].count c)) :
    ∃ r, h.concat a b = some r ∧ Built hs h refs r (h.bytes a++h.bytes b) := by
  have hsum : (h.len a+h.len b) % 2 ^ 64 = (h.bytes a++h.bytes b).length := by
    rw [Nat.mod_eq_of_lt hlen,length_append,hwf.len_eq ha,hwf.len_eq hb]
  by_cases hshort : (h.bytes a++h.bytes b).length ≤ eagerFlatLimit
  · refine ⟨h.fromBytes (h.bytes a++h.bytes b),?_,hwf.fromBytes _⟩
    have hflat : (h.chunks a++h.chunks b).flatten = h.bytes a++h.bytes b := by simp [bytes]
    simp only [StringHeap.concat,hsum,if_pos hshort,fromFragments,hflat,if_true,map_some,
      StringHeap.fromBytes]
  · have hr := hr (by rw [Nat.mod_eq_of_lt hlen] at hsum; omega)
    have hra : h.Room a 1 := (hr a).mono (by simp)
    obtain ⟨hwa,hka⟩ := hwf.retain ha hra
    have hb' : ((h.retain a).node b).isSome := by
      rw [StringHeap.retain,node_update]
      by_cases hab : b = a
      · subst hab
        simpa using hb
      · simpa [hab] using hb
    have hrb : (h.retain a).Room b 1 := by
      apply Room.retain
      apply (hr b).mono
      simp only [count_cons,count_nil,beq_iff_eq,if_true]
      omega
    obtain ⟨hwb,hkb⟩ := hwa.retain hb' hrb
    have hk := hka.trans hkb
    have hp : WF hs ((h.retain a).retain b) ([a,b]++refs) := hwb.perm (List.Perm.swap a b refs)
    have hbytes : ∀ c ∈ [a,b]++refs, ((h.retain a).retain b).bytes c = h.bytes c :=
      hp.same_of_kept hk (fun _ h => h)
    have hf : Fresh hs ((h.retain a).retain b)
        ⟨1,false,false,0,.cons a b (h.bytes a++h.bytes b).length⟩ (h.bytes a++h.bytes b) := by
      refine ⟨rfl,.inl rfl,by simp,by simp,?_⟩
      intro left right len' heq
      obtain ⟨rfl,rfl,rfl⟩ := StringRepr.cons.inj heq
      rw [hbytes a (by simp),hbytes b (by simp)]
      exact ⟨rfl,rfl,Nat.lt_of_not_le hshort⟩
    have hw := hp.alloc (n := ⟨1,false,false,0,.cons a b (h.bytes a++h.bytes b).length⟩) hf
    refine ⟨((h.retain a).retain b).alloc (.cons a b (h.bytes a++h.bytes b).length),?_,hw.1,?_,hw.2.2⟩
    · simp only [StringHeap.concat,hsum,if_neg hshort]
    · exact Same.trans (fun c hc => hbytes c (mem_append_right _ hc)) hw.2.1

section

theorem take_drop_window {o len inner size : ℕ} (hle : o+len ≤ size) (bs : List UInt8) :
    (((bs.drop inner).take size).drop o).take len = (bs.drop (inner+o)).take len := by
  rw [drop_take,take_take,drop_drop,Nat.min_eq_left (by omega)]

section
variable (hwf : WF hs h refs) (hid : base ∈ refs) (hc : (h.contiguousSlice base).isSome)
    (hle : o+len ≤ (h.bytes base).length)
include hwf hid hc hle

/-- The anchor of a contiguous string is a live flat box that holds the string's window. -/
theorem WF.anchor : ((h.node (h.anchor base).1).isSome) ∧
    ∃ flat, h.repr (h.anchor base).1 = some (.flat flat) ∧ (h.anchor base).2+o+len ≤ flat.length ∧
      (flat.drop ((h.anchor base).2+o)).take len = ((h.bytes base).drop o).take len := by
  obtain ⟨n,hn⟩ := isSome_iff_exists.mp (hwf.live_ref hid)
  have hr := repr_of_node hn
  cases hrepr : n.repr with
  | flat flat =>
    rw [hrepr] at hr
    have hbytes : h.bytes base = flat := by simp [bytes,chunks_flat hr]
    rw [hbytes] at hle ⊢
    simp only [StringHeap.anchor,hr,Nat.zero_add]
    exact ⟨by simp [hn],flat,rfl,hle,rfl⟩
  | slice inner innerOffset innerLen =>
    rw [hrepr] at hr
    obtain ⟨flat,hf,hin⟩ := hwf.based base inner innerOffset innerLen hr
    obtain ⟨m,hm,_⟩ := node_of_repr hf
    have hbytes : h.bytes base = (flat.drop innerOffset).take innerLen := by
      simp [bytes,chunks_slice hr,window,hf]
    have hsize : o+len ≤ innerLen := by
      rw [hbytes,length_take] at hle
      omega
    rw [hbytes,take_drop_window hsize]
    simp only [StringHeap.anchor,hr]
    exact ⟨by simp [hm],flat,hf,by omega,rfl⟩
  | cons => simp [contiguousSlice,hr,hrepr] at hc

theorem WF.sliceAt (hr : h.Room (h.anchor base).1 1) :
    Built hs h refs (h.sliceAt base o len) (((h.bytes base).drop o).take len) := by
  obtain ⟨hlive,flat,hflat,hin,hwindow⟩ := hwf.anchor hid hc hle
  obtain ⟨hw,hk⟩ := hwf.retain hlive hr
  have hflat' : (h.retain (h.anchor base).1).repr (h.anchor base).1 = some (.flat flat) := by
    rw [hk.repr_eq (hw.live_ref (by simp)),hflat]
  have hf : Fresh hs (h.retain (h.anchor base).1)
      ⟨1,false,false,0,.slice (h.anchor base).1 ((h.anchor base).2+o) len⟩
      (((h.bytes base).drop o).take len) := by
    refine ⟨rfl,.inl rfl,by simp,?_,by simp⟩
    intro base' o' len' heq
    obtain ⟨rfl,rfl,rfl⟩ := StringRepr.slice.inj heq
    exact ⟨by simp [window,hflat',hwindow],flat,hflat',hin⟩
  have hw' := WF.alloc
    (n := ⟨1,false,false,0,.slice (h.anchor base).1 ((h.anchor base).2+o) len⟩) hw hf
  exact ⟨hw'.1,(hw.same_of_kept hk (fun c hc => mem_cons_of_mem _ hc)).trans hw'.2.1,hw'.2.2⟩

end

/-- `FlatStringSlices`: flatten, then anchor a window in the flat box. -/
theorem WF.flatStringSlice (hwf : WF hs h refs) (hid : base ∈ refs)
    (hle : o+len ≤ (h.bytes base).length) (hr : h.Room (h.anchor base).1 1) :
    ∃ r, h.flatStringSlice base o len = some r ∧ Built hs h refs r (((h.bytes base).drop o).take len) := by
  obtain ⟨g,hg,hflat⟩ := hwf.flatten (hwf.live_ref hid)
  have hbytes := hflat.same base hid
  have hr' : g.Room (g.anchor base).1 1 := by
    rw [hflat.anchor hid]
    exact hflat.room _ 1 hr
  rw [← hbytes] at hle ⊢
  have hb := hflat.wf.sliceAt hid (by simp [hflat.contiguous hid]) hle hr'
  exact ⟨_,by simp only [StringHeap.flatStringSlice,hg,map_some],hb.wf,hflat.same.trans hb.same,hb.bytes⟩

/-- `slice` flattens ropes only, which makes no difference to the result. -/
theorem slice_eq_flatStringSlice (hid : (h.node base).isSome) (o len : ℕ) :
    h.slice base o len = h.flatStringSlice base o len := by
  cases hc : h.contiguousSlice base with
  | none =>
    obtain ⟨left,right,len',hr⟩ := repr_of_contiguousSlice_none hid hc
    simp [StringHeap.slice,StringHeap.flatStringSlice,hr]
  | some =>
    cases hr : h.repr base with
    | none => simp [contiguousSlice,hr] at hc
    | some r =>
      cases r with
      | flat => simp [StringHeap.slice,StringHeap.flatStringSlice,StringHeap.flatten,hc,hr]
      | slice => simp [StringHeap.slice,StringHeap.flatStringSlice,StringHeap.flatten,hc,hr]
      | cons => simp [contiguousSlice,hr] at hc

end

section

theorem WF.hash64 (hwf : WF hs h refs) (hid : (h.node id).isSome) :
    WF hs (h.hash64 hs id).2 refs ∧ Same refs h (h.hash64 hs id).2 := by
  obtain ⟨n,hn⟩ := isSome_iff_exists.mp hid
  by_cases hz : n.hash = 0
  · have hset := hwf.set_same (m := { n with hash := h.computeHash hs id }) hn rfl (fun h => h)
      (.inr (hwf.computeHash_eq hid)) (fun c hc => hwf.live_ref hc) (hwf.counted id n hn) (fun _ _ => rfl)
    have heq : (h.hash64 hs id).2 = h.set id (some { n with hash := h.computeHash hs id }) := by
      simp [StringHeap.hash64,hn,hz,update_eq_set hn]
    rw [heq]
    exact ⟨hset.1,hset.1.same_of_kept hset.2 (fun _ h => h)⟩
  · have heq : (h.hash64 hs id).2 = h := by simp [StringHeap.hash64,hn,hz]
    rw [heq]
    exact ⟨hwf,fun _ _ => rfl⟩

theorem WF.makeImmortal (hwf : WF hs h refs) (hid : (h.node id).isSome) :
    WF hs (h.makeImmortal id) refs ∧ Same refs h (h.makeImmortal id) := by
  obtain ⟨n,hn⟩ := isSome_iff_exists.mp hid
  have hset : WF hs (h.makeImmortal id) refs ∧ Kept h (h.makeImmortal id) := by
    rw [StringHeap.makeImmortal,update_eq_set hn]
    by_cases hi : n.interned = true
    · rw [if_pos hi]
      exact hwf.set_same (m := { n with immortal := true }) hn rfl (by simp) (.inl rfl)
        (fun c hc => hwf.live_ref hc) (by simp) (fun _ _ => rfl)
    · rw [if_neg hi]
      exact hwf.set_same hn rfl (fun h => h) (.inl rfl) (fun c hc => hwf.live_ref hc)
        (hwf.counted id n hn) (fun _ _ => rfl)
  exact ⟨hset.1,hset.1.same_of_kept hset.2 (fun _ h => h)⟩

theorem repr_of_findInterned (hf : h.findInterned bs = some id) : h.repr id = some (.flat bs) := by
  have hp := find?_some hf
  cases hn : h.node id with
  | none => simp [hn] at hp
  | some n =>
    obtain ⟨c,immortal,interned,hash,r⟩ := n
    cases interned <;> cases r <;> simp_all [repr]

theorem WF.intern (hwf : WF hs h refs) (bs : List UInt8)
    (hroom : ∀ id, h.findInterned bs = some id → h.Room id 1) : Built hs h refs (h.intern hs bs) bs := by
  cases hf : h.findInterned bs with
  | some id =>
    have hr := repr_of_findInterned hf
    obtain ⟨n,hn,_⟩ := node_of_repr hr
    obtain ⟨hw,hk⟩ := hwf.retain (by simp [hn]) (hroom id hf)
    simp only [StringHeap.intern,hf]
    have hsame := hw.same_of_kept hk (fun _ h => h)
    refine ⟨hw,fun c hc => hsame c (mem_cons_of_mem _ hc),?_⟩
    rw [hsame id (by simp)]
    simp [bytes,chunks_flat hr]
  | none =>
    have hfresh : Fresh hs h ⟨1,false,true,hashBytes hs bs,.flat bs⟩ bs := by
      constructor <;> simp
    have hw := WF.alloc (n := ⟨1,false,true,hashBytes hs bs,.flat bs⟩) hwf hfresh
    simp only [StringHeap.intern,hf]
    exact ⟨hw.1,hw.2.1,hw.2.2⟩

theorem appendSource_eq (h : StringHeap) (id : ℕ) : h.appendSource id = h.bytes id := by
  cases hr : h.repr id with
  | none => simp [appendSource,hr,bytes,chunks]
  | some r =>
    cases r with
    | flat => simp [appendSource,hr,bytes,chunks_flat hr]
    | slice => simp [appendSource,hr,bytes,chunks_slice hr]
    | cons =>
      have hfold : (h.chunks id).foldl (· ++ ·) [] = []++((h.chunks id).map fun c => c).flatten :=
        foldl_append_eq_append
      simpa [appendSource,hr,bytes] using hfold

end

end Whim.StringHeap
