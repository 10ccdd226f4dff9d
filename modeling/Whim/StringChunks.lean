import Whim.StringHeap
import Whim.Machine

/-!
# The bytes of a heap string

The leaf chunks of a box from left to right, which depend only on the representations the box reaches.
-/

namespace Whim.StringHeap

open List

variable {h g : StringHeap} {id c : ℕ} {n : StringNode}

theorem lt_length_of_node (hn : h.node id = some n) : id < h.length := by
  by_contra hlt
  simp [node,getD_eq_getElem?_getD,getElem?_eq_none (Nat.le_of_not_lt hlt)] at hn

theorem node_set (hlt : id < h.length) (v : Option StringNode) (j : ℕ) :
    node (h.set id v) j = if j = id then v else h.node j := by
  by_cases hj : j = id
  · subst hj
    simp [node,getD_eq_getElem?_getD,hlt]
  · have hj' : id ≠ j := fun h => hj h.symm
    simp [node,getD_eq_getElem?_getD,hj,hj']

theorem node_append (v : Option StringNode) (j : ℕ) : node (h++[v]) j = if j = h.length then v else h.node j := by
  by_cases hj : j = h.length
  · subst hj
    simp [node,getD_eq_getElem?_getD]
  by_cases hlt : j < h.length
  · simp [node,getD_eq_getElem?_getD,getElem?_append_left hlt,hj]
  have h₁ : (h++[v])[j]? = none := getElem?_eq_none (by simp; omega)
  have h₂ : h[j]? = none := getElem?_eq_none (by omega)
  simp [node,getD_eq_getElem?_getD,h₁,h₂,hj]

theorem node_update (f : StringNode → StringNode) (j : ℕ) :
    node (h.update id f) j = if j = id then (h.node id).map f else h.node j := by
  cases hn : h.node id with
  | none =>
    by_cases hj : j = id
    · subst hj
      simp [update,hn]
    · simp [update,hn,hj]
  | some => simp [update,hn,node_set (lt_length_of_node hn)]

theorem repr_of_node (hn : h.node id = some n) : h.repr id = some n.repr := by simp [repr,hn]

theorem node_of_repr {r : StringRepr} (hr : h.repr id = some r) : ∃ n, h.node id = some n ∧ n.repr = r := by
  simpa [repr] using hr

/-- The handles that a box holds. -/
def owned (v : Option StringNode) : List ℕ := (v.map (·.repr.children)).getD []

/-- All handles held by boxes. -/
def edges (h : StringHeap) : List ℕ := h.flatMap owned

theorem edges_append (v : Option StringNode) : edges (h++[v]) = h.edges++owned v := by simp [edges]

theorem count_edges_set (hlt : id < h.length) (v : Option StringNode) (c : ℕ) :
    (edges (h.set id v)).count c+(owned (h.node id)).count c = h.edges.count c+(owned v).count c := by
  induction h generalizing id with
  | nil => simp at hlt
  | cons _ _ ih =>
    cases id with
    | zero =>
      simp only [edges,set_cons_zero,flatMap_cons,count_append,node,getD_cons_zero]
      omega
    | succ =>
      have h := ih (Nat.lt_of_succ_lt_succ hlt)
      simp only [edges,set_cons_succ,flatMap_cons,count_append,node,
        getD_cons_succ] at h ⊢
      omega

theorem mem_edges (hn : h.node id = some n) (hc : c ∈ n.repr.children) : c ∈ h.edges := by
  have hlt := lt_length_of_node hn
  have hmem : some n ∈ h := by
    have hget : h[id] = some n := by simpa [node,getD_eq_getElem?_getD,hlt] using hn
    exact hget ▸ getElem_mem hlt
  exact mem_flatMap.mpr ⟨some n,hmem,by simpa [owned] using hc⟩

/-- Operands and bases are older than the boxes that hold them. -/
def Older (h : StringHeap) : Prop := ∀ id n c, h.node id = some n → c ∈ n.repr.children → c < id

/-- The bytes of a box. -/
def bytes (h : StringHeap) (id : ℕ) : List UInt8 := (h.chunks id).flatten

theorem chunks_flat {bs : List UInt8} (hr : h.repr id = some (.flat bs)) : h.chunks id = [bs] := by
  rw [chunks,hr]

theorem chunks_slice {base : ℕ} {o len : ℕ} (hr : h.repr id = some (.slice base o len)) :
    h.chunks id = [h.window base o len] := by
  rw [chunks,hr]

theorem Older.chunks_cons (ho : h.Older) {left r : ℕ} {len : ℕ}
    (hr : h.repr id = some (.cons left r len)) : h.chunks id = h.chunks left++h.chunks r := by
  obtain ⟨n,hn,hrepr⟩ := node_of_repr hr
  have hl : left < id := ho id n left hn (by simp [hrepr,StringRepr.children])
  have hright : r < id := ho id n r hn (by simp [hrepr,StringRepr.children])
  rw [chunks,hr]
  simp [hl,hright]

/-- Chunks depend only on the representations in a set that contains the operands of its members. -/
theorem Older.chunks_congr (ho : h.Older) (S : ℕ → Prop)
    (hclosed : ∀ id n c, S id → h.node id = some n → c ∈ n.repr.children → S c)
    (hrepr : ∀ id, S id → g.repr id = h.repr id) (hid : S id) : g.chunks id = h.chunks id := by
  induction id using Nat.strongRecOn with
  | _ id ih =>
    have hchild : ∀ r c, h.repr id = some r → c ∈ r.children → c < id ∧ S c := by
      intro r c hr hc
      obtain ⟨n,hn,rfl⟩ := node_of_repr hr
      exact ⟨ho id n c hn hc,hclosed id n c hid hn hc⟩
    have hg := hrepr id hid
    cases hr : h.repr id with
    | none => rw [chunks,chunks,hg,hr]
    | some r =>
      rw [hr] at hg
      cases r with
      | flat => rw [chunks_flat hr,chunks_flat hg]
      | slice base =>
        have hb := (hchild _ base hr (by simp [StringRepr.children])).2
        rw [chunks_slice hr,chunks_slice hg]
        simp only [window,hrepr base hb]
      | cons left right =>
        have hl := hchild _ left hr (by simp [StringRepr.children])
        have hright := hchild _ right hr (by simp [StringRepr.children])
        rw [ho.chunks_cons hr,chunks,hg]
        simp only [hl.1,hright.1,and_self,if_true]
        rw [ih left hl.1 hl.2,ih right hright.1 hright.2]

end Whim.StringHeap
