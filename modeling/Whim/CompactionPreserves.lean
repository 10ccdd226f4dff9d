import Whim.Rebasing

/-!
# Removal preserves control flow

Every kept instruction is put at its new position and continues where the old one did, at the first kept instruction
from there on.
-/

namespace Whim.Compaction

open Control Mask List Option UInt32

variable {σ : Type}

/-! ## The loop -/

/-- No two instructions use one switch table. -/
def Unshared (code : List Instruction) : Prop :=
  code.Pairwise fun x y => ∀ table, flow x = .switch table → flow y ≠ .switch table

variable {code : List Instruction}

theorem unshared_of_seen {seen : List SwitchTableIndex} (h : hasSharedSwitchTable code seen = false) :
    Unshared code ∧ ∀ x ∈ code, ∀ t ∈ seen, flow x ≠ .switch t := by
  induction code generalizing seen with
  | nil => exact ⟨.nil,by simp⟩
  | cons _ _ ih =>
    unfold hasSharedSwitchTable at h
    split at h
    next t hx =>
      rw [Bool.or_eq_false_iff] at h
      obtain ⟨hc,hseen⟩ := ih h.2
      refine ⟨.cons (fun y hy t' hx' => ?_) hc,?_⟩
      · cases hx.symm.trans hx'
        exact hseen y hy t mem_cons_self
      · refine forall_mem_cons.mpr ⟨fun t' ht hx' => ?_,fun y hy t' ht => ?_⟩
        · cases hx.symm.trans hx'
          simp [ht] at h
        · exact hseen y hy t' (mem_cons_of_mem _ ht)
    next hx =>
      obtain ⟨hc,hseen⟩ := ih h
      exact ⟨.cons (fun y _ t hx' => absurd hx' (hx t)) hc,
        forall_mem_cons.mpr ⟨fun t _ => hx t,hseen⟩⟩

section

variable {map : List ℕ} {oldIndex newIndex : ℕ} {tables ts' : List SwitchTable}
  {instr i' : Instruction}

section
variable (h : rebaseTargets map oldIndex newIndex tables instr = some (i',ts'))
include h

/-- One instruction changes at most the table it uses. -/
theorem rebaseTargets_eq_some : rebaseOffsets map oldIndex newIndex instr = some i' ∧
    ((∃ t entry e', flow instr = .switch t ∧ tables[t.toNat]? = some entry ∧
      rebaseSwitchTable map oldIndex newIndex entry = some e' ∧ ts' = tables.set t.toNat e') ∨
    (∀ t, flow instr ≠ .switch t) ∧ ts' = tables) := by
  unfold rebaseTargets at h
  split at h
  next t hx =>
    obtain ⟨entry,he,h⟩ := bind_eq_some_iff.mp h
    obtain ⟨e',he',h⟩ := bind_eq_some_iff.mp h
    cases h
    exact ⟨mapOffsets_switch hx,.inl ⟨t,entry,e',hx,he,he',rfl⟩⟩
  next hx =>
    obtain ⟨x,he,h⟩ := bind_eq_some_iff.mp h
    cases h
    exact ⟨he,.inr ⟨hx,rfl⟩⟩

theorem rebaseTargets_frame {k : ℕ} (hk : ∀ t, flow instr = .switch t → t.toNat ≠ k) : ts'[k]? = tables[k]? := by
  obtain ⟨-,⟨t,-,e',hx,-,-,rfl⟩ | ⟨-,rfl⟩⟩ := rebaseTargets_eq_some h
  · exact getElem?_set_ne (hk t hx)
  · rfl

theorem rebaseTargets_withoutTargets : ts'.map withoutTargets = tables.map withoutTargets := by
  obtain ⟨-,⟨t,entry,e',hx,he,he',rfl⟩ | ⟨-,rfl⟩⟩ := rebaseTargets_eq_some h
  · obtain ⟨hlt,rfl⟩ := List.getElem?_eq_some_iff.mp he
    rw [map_set,mapTargets_withoutTargets he',← map_set,set_getElem_self]
  · rfl

end

end

section

variable {remove : List Bool} {spans : List σ} {output final : Output σ} {es : List (Instruction × ℕ)} {x : Instruction}

theorem compactLoop_cons {i : ℕ}
    (h : compactLoop (oldToNew remove 0) spans remove ((x,i)::es) output = some final) :
    ¬Kept remove i ∧ compactLoop (oldToNew remove 0) spans remove es output = some final ∨
    Kept remove i ∧ ∃ x' tables span,
      rebaseTargets (oldToNew remove 0) i (position remove i) output.tables x = some (x',tables) ∧
      spans[i]? = some span ∧ compactLoop (oldToNew remove 0) spans remove es
        ⟨output.code++[x'],output.spans++[span],tables⟩ = some final := by
  unfold compactLoop at h
  obtain ⟨removed,hr,h⟩ := bind_eq_some_iff.mp h
  cases removed with
  | true => exact .inl ⟨by simp [Kept,hr],h⟩
  | false =>
    obtain ⟨newIndex,hn,h⟩ := bind_eq_some_iff.mp h
    obtain ⟨-,rfl⟩ := oldToNew_eq_some.mp hn
    obtain ⟨⟨x',tables⟩,hx,h⟩ := bind_eq_some_iff.mp h
    obtain ⟨span,hs,h⟩ := bind_eq_some_iff.mp h
    exact .inr ⟨hr,x',tables,span,hx,hs,h⟩

/-- Every kept instruction lands at its new position with its span. -/
theorem compactLoop_code {k : ℕ} (h : compactLoop (oldToNew remove 0) spans remove (code.zipIdx k) output = some final)
    (hcode : output.code.length = position remove k) (hspans : output.spans.length = position remove k) :
    output.code <+: final.code ∧ output.spans <+: final.spans ∧ final.code.length = position remove (k+code.length) ∧
      ∀ x i, (x,i) ∈ code.zipIdx k → Kept remove i →
        ∃ x' span, rebaseOffsets (oldToNew remove 0) i (position remove i) x = some x' ∧
          final.code[position remove i]? = some x' ∧ spans[i]? = some span ∧
          final.spans[position remove i]? = some span := by
  induction code generalizing k output with
  | nil =>
    cases h
    exact ⟨prefix_rfl,prefix_rfl,hcode,by simp⟩
  | cons _ _ ih =>
    rw [zipIdx_cons] at h ⊢
    rcases compactLoop_cons h with ⟨hk,h⟩ | ⟨hk,x',tables,span,hx,hs,h⟩
    · rw [← position_succ_of_not_kept hk] at hcode hspans
      obtain ⟨hc,hspan,hlen,hall⟩ := ih h hcode hspans
      refine ⟨hc,hspan,by rw [hlen,length_cons,Nat.add_assoc,Nat.add_comm 1],fun y i hy hi => ?_⟩
      rcases mem_cons.mp hy with heq | hy
      · cases heq
        exact absurd hi hk
      · exact hall y i hy hi
    · have hc' : (output.code++[x']).length = position remove (k+1) := by
        rw [position_succ_of_kept hk,length_append,hcode]; rfl
      have hs' : (output.spans++[span]).length = position remove (k+1) := by
        rw [position_succ_of_kept hk,length_append,hspans]; rfl
      obtain ⟨hc,hspan,hlen,hall⟩ := ih h hc' hs'
      refine ⟨(prefix_append _ _).trans hc,(prefix_append _ _).trans hspan,
        by rw [hlen,length_cons,Nat.add_assoc,Nat.add_comm 1],fun y i hy hi => ?_⟩
      rcases mem_cons.mp hy with heq | hy
      · cases heq
        obtain ⟨rest,hr⟩ := hc
        obtain ⟨rest',hr'⟩ := hspan
        refine ⟨x',span,(rebaseTargets_eq_some hx).1,?_,hs,?_⟩
        · simp [← hr,← hcode]
        · simp [← hr',← hspans]
      · exact hall y i hy hi

/-- The table of a kept switch is translated from its initial value, the others stay. -/
theorem compactLoop_tables (h : compactLoop (oldToNew remove 0) spans remove es output = some final)
    (hunshared : Unshared (es.map Prod.fst)) : (∀ k, (∀ x i, (x,i) ∈ es → ∀ t, flow x = .switch t → t.toNat ≠ k) →
      final.tables[k]? = output.tables[k]?) ∧ (∀ x i t, (x,i) ∈ es → Kept remove i → flow x = .switch t →
      ∃ entry e', output.tables[t.toNat]? = some entry ∧
        rebaseSwitchTable (oldToNew remove 0) i (position remove i) entry = some e' ∧
        final.tables[t.toNat]? = some e') ∧
    final.tables.map withoutTargets = output.tables.map withoutTargets := by
  induction es generalizing output with
  | nil =>
    cases h
    exact ⟨fun _ _ => rfl,by simp,rfl⟩
  | cons entry es ih =>
    obtain ⟨x,i⟩ := entry
    obtain ⟨hx,hunshared⟩ := pairwise_cons.mp hunshared
    have hne : ∀ y j, (y,j) ∈ es → ∀ t, flow x = .switch t → ∀ t', flow y = .switch t' →
        t'.toNat ≠ t.toNat := by
      intro y j hy t ht t' ht' heq
      rw [UInt16.toNat_inj] at heq
      exact hx y (mem_map_of_mem hy) t ht (heq ▸ ht')
    rcases compactLoop_cons h with ⟨hk,h⟩ | ⟨hk,x',tables,span,hr,-,h⟩
    · obtain ⟨hframe,hall,hwithout⟩ := ih h hunshared
      refine ⟨fun k hfree => hframe k fun y j hy => hfree y j (mem_cons_of_mem _ hy),
        fun y j t hy hj ht => ?_,hwithout⟩
      rcases mem_cons.mp hy with heq | hy
      · cases heq
        exact absurd hj hk
      · exact hall y j t hy hj ht
    · obtain ⟨hframe,hall,hwithout⟩ := ih h hunshared
      refine ⟨fun k hfree => ?_,fun y j t hy hj ht => ?_,
        hwithout.trans (rebaseTargets_withoutTargets hr)⟩
      · rw [hframe k fun y j hy => hfree y j (mem_cons_of_mem _ hy)]
        exact rebaseTargets_frame hr (hfree x i mem_cons_self)
      rcases mem_cons.mp hy with heq | hy
      · cases heq
        obtain ⟨-,⟨_,entry,e',ht',he,he',rfl⟩ | ⟨hn,-⟩⟩ := rebaseTargets_eq_some hr
        on_goal 2 => exact absurd ht (hn t)
        cases ht.symm.trans ht'
        refine ⟨entry,e',he,he',?_⟩
        rw [hframe _ fun y j hy t' ht' => hne y j hy t ht t' ht']
        exact getElem?_set_self (List.getElem?_eq_some_iff.mp he).1
      · obtain ⟨entry,e',he,he',hf⟩ := hall y j t hy hj ht
        refine ⟨entry,e',?_,he',hf⟩
        rw [← he]
        exact (rebaseTargets_frame hr fun t' ht' => (hne y j hy t' ht' t ht).symm).symm

/-- What the rewriting of a kept instruction needs: a span, and targets in the code or at its end. -/
def Ready (remove : List Bool) (spans : List σ) (tables : List SwitchTable) (i : ℕ) (x : Instruction) : Prop :=
  i < spans.length ∧ (∀ o ∈ (flow x).offsets, InMask remove i o) ∧
    ∀ table, flow x = .switch table →
      ∃ entry, tables[table.toNat]? = some entry ∧ ∀ o ∈ switchOffsets entry, InMask remove i o.toInt

theorem exists_rebaseTargets {tables : List SwitchTable} {i : ℕ} (h : Ready remove spans tables i x) :
    ∃ x' ts', rebaseTargets (oldToNew remove 0) i (position remove i) tables x = some (x',ts') := by
  obtain ⟨-,hoffsets,htable⟩ := h
  unfold rebaseTargets
  split
  next t hx =>
    obtain ⟨entry,he,ho⟩ := htable t hx
    obtain ⟨e',he'⟩ := exists_rebaseSwitchTable ho
    exact ⟨x,_,by simp only [he,bind_eq_bind,bind_some,he']; rfl⟩
  next =>
    obtain ⟨x',hx'⟩ := exists_rebaseOffsets hoffsets
    exact ⟨x',tables,by rw [hx']; rfl⟩

theorem exists_compactLoop (hunshared : Unshared (es.map Prod.fst)) (hlt : ∀ x i, (x,i) ∈ es → i < remove.length)
    (hready : ∀ x i, (x,i) ∈ es → Kept remove i → Ready remove spans output.tables i x) :
    ∃ final, compactLoop (oldToNew remove 0) spans remove es output = some final := by
  induction es generalizing output with
  | nil => exact ⟨output,rfl⟩
  | cons entry es ih =>
    obtain ⟨x,i⟩ := entry
    obtain ⟨hx,hunshared⟩ := pairwise_cons.mp hunshared
    have hi := hlt x i mem_cons_self
    have hlt' : ∀ y j, (y,j) ∈ es → j < remove.length := fun y j hy =>
      hlt y j (mem_cons_of_mem _ hy)
    unfold compactLoop
    rcases hr : remove[i]? with - | removed
    · exact absurd (List.getElem?_eq_none_iff.mp hr) (by omega)
    cases removed with
    | true => exact ih hunshared hlt' fun y j hy => hready y j (mem_cons_of_mem _ hy)
    | false =>
      have hx' := hready x i mem_cons_self hr
      obtain ⟨x',tables,hrebase⟩ := exists_rebaseTargets hx'
      -- the tables of the instructions behind are still the initial ones
      have hready' : ∀ y j, (y,j) ∈ es → Kept remove j → Ready remove spans tables j y := by
        intro y j hy hj
        obtain ⟨hspan,ho,ht⟩ := hready y j (mem_cons_of_mem _ hy) hj
        refine ⟨hspan,ho,fun t hy' => ?_⟩
        obtain ⟨e,he,hin⟩ := ht t hy'
        refine ⟨e,?_,hin⟩
        rw [rebaseTargets_frame hrebase fun t' hx' heq => ?_,he]
        rw [UInt16.toNat_inj] at heq
        exact hx y (mem_map_of_mem hy) t' hx' (heq ▸ hy')
      have hspan : i < spans.length := hx'.1
      obtain ⟨final,hfinal⟩ :=
        @ih ⟨output.code++[x'],output.spans++[spans[i]],tables⟩ hunshared hlt' hready'
      refine ⟨final,?_⟩
      simp only [bind_eq_bind,bind_some,Bool.false_eq_true,if_false,oldToNew_getElem?,
        if_pos hi.le,Nat.zero_add,hrebase,getElem?_eq_getElem hspan,hfinal]

end

/-! ## Control flow -/

/-- A position of the old code leads to the first kept instruction from there on; past the end it stays as
far behind it. -/
def Lands (remove : List Bool) (t t' : ℕ) : Prop :=
  (∃ i, FirstKept remove t i ∧ t' = position remove i) ∨
    ∃ d, t = remove.length+d ∧ t' = remove.count false+d

section

variable {remove : List Bool} {i : ℕ}

theorem lands_position (hlast : remove.getLast? ≠ some true) {t : ℕ} (h : t ≤ remove.length) :
    Lands remove t (position remove t) := by
  rcases Nat.lt_or_eq_of_le h with hlt | rfl
  · obtain ⟨j,hj⟩ := exists_firstKept hlast hlt
    exact .inl ⟨j,hj,hj.position_eq⟩
  · exact .inr ⟨0,rfl,position_of_length_le le_rfl⟩

theorem relativeTarget_moved {o : ℤ} (h : InMask remove i o) : ∃ t ≤ remove.length, relativeTarget i o = some t ∧
    relativeTarget (position remove i) (moved remove i o) = some (position remove t) := by
  obtain ⟨hlow,hhigh⟩ := h
  obtain ⟨t,ht⟩ := Int.eq_ofNat_of_zero_le hlow
  refine ⟨t,by omega,relativeTarget_eq_some.mpr ht,relativeTarget_eq_some.mpr ?_⟩
  rw [moved,ht,Int.toNat_natCast]
  omega

section
variable (hlast : remove.getLast? ≠ some true)
include hlast

/-- The targets in a list of offsets, in their order. -/
theorem targets_moved {α : Type} (toInt : α → ℤ) {l l' : List α}
    (h : List.Forall₂ (fun x y => InMask remove i (toInt x) ∧ toInt y = moved remove i (toInt x)) l l') :
    ∃ old new, l.mapM (fun x => relativeTarget i (toInt x)) = some old ∧
      l'.mapM (fun x => relativeTarget (position remove i) (toInt x)) = some new ∧
      List.Forall₂ (Lands remove) old new := by
  induction h with
  | nil => exact ⟨[],[],rfl,rfl,.nil⟩
  | cons h _ ih =>
    obtain ⟨old,new,ho,hn,hall⟩ := ih
    obtain ⟨t,hle,ht,ht'⟩ := relativeTarget_moved h.1
    refine ⟨t::old,position remove t::new,?_,?_,.cons (lands_position hlast hle) hall⟩
    · simp [mapM_cons,ht,ho]
    · simp [mapM_cons,h.2,ht',hn]

theorem lands_next (hk : Kept remove i) : Lands remove (i+1) (position remove i+1) := by
  rw [← position_succ_of_kept hk]
  exact lands_position hlast hk.lt_length

/-- Behind the exit jump of a `foreach`, which is kept. -/
theorem lands_body (hk : Kept remove i) (hexit : remove[i+1]? ≠ some true) :
    Lands remove (i+2) (position remove i+2) := by
  have hi := hk.lt_length
  rcases hr : remove[i + 1]? with - | removed
  · have hlen : remove.length = i+1 := by
      have := List.getElem?_eq_none_iff.mp hr
      omega
    refine .inr ⟨1,by omega,?_⟩
    rw [← position_of_length_le (le_refl remove.length),hlen,position_succ_of_kept hk]
  · cases removed with
    | true => exact absurd hr hexit
    | false =>
      have := lands_next hlast hr
      rwa [position_succ_of_kept hk] at this

end

end

/-- The old instruction `i` and its successors in terms of the new chunk. -/
theorem successors_moved {c chunk' : Chunk} {remove : List Bool} {i : ℕ} {x x' : Instruction}
    (hlast : remove.getLast? ≠ some true) (hk : Kept remove i) (hexit : isForeachNext x → remove[i+1]? ≠ some true)
    (hx : c.code[i]? = some x) (hx' : chunk'.code[position remove i]? = some x')
    (hflow : flow x' = mapFlow (moved remove i) (flow x)) (hin : ∀ o ∈ (flow x).offsets, InMask remove i o)
    (htable : ∀ table, flow x = .switch table → ∃ entry e', c.switchTables[table.toNat]? = some entry ∧
      chunk'.switchTables[table.toNat]? = some e' ∧
      List.Forall₂ (fun a b => InMask remove i a.toInt ∧ b.toInt = moved remove i a.toInt)
        (switchOffsets entry) (switchOffsets e')) :
    ∃ old new, successors c i = some old ∧ successors chunk' (position remove i) = some new ∧
      List.Forall₂ (Lands remove) old new := by
  rw [← flow_isForeachNext] at hexit
  unfold successors
  rw [hx,hx']
  simp only [bind_eq_bind,bind_some,hflow]
  cases hf : flow x with
  | stop => exact ⟨[],[],rfl,rfl,.nil⟩
  | next | test => exact ⟨_,_,rfl,rfl,.cons (lands_next hlast hk) .nil⟩
  | goto offset =>
    rw [hf] at hin
    obtain ⟨t,hle,ht,ht'⟩ := relativeTarget_moved (hin offset mem_cons_self)
    refine ⟨[t],[position remove t],?_,?_,.cons (lands_position hlast hle) .nil⟩
    · simp [ht]
    · simp [mapFlow,ht']
  | branch offsets =>
    rw [hf] at hin
    have hall : List.Forall₂ (fun a b => InMask remove i a ∧ b = moved remove i a) offsets
        (offsets.map (moved remove i)) := by
      rw [forall₂_map_right_iff]
      exact forall₂_same.mpr fun o ho => ⟨hin o ho,rfl⟩
    obtain ⟨old,new,ho,hn,hl⟩ := targets_moved hlast id hall
    simp only [id_eq] at ho hn
    refine ⟨(i+1)::old,(position remove i+1)::new,?_,?_,.cons (lands_next hlast hk) hl⟩
    · simp [ho]
    · simp [mapFlow,hn]
  | switch table =>
    obtain ⟨entry,e',he,he',hall⟩ := htable table hf
    obtain ⟨old,new,ho,hn,hl⟩ := targets_moved hlast Int32.toInt hall
    refine ⟨old,new,?_,?_,hl⟩
    · simp [he,ho]
    · simp [mapFlow,he',hn]
  | arrayStep | step =>
    rw [hf] at hexit
    exact ⟨_,_,rfl,rfl,.cons (lands_next hlast hk) (.cons (lands_body hlast hk (hexit rfl)) .nil)⟩

/-! ## Catch ranges -/

def Covers (entry : CatchEntry) (i : ℕ) : Prop := entry.start.toNat ≤ i ∧ i < entry.stop.toNat

/-- The new entry covers exactly the kept instructions of the old range. -/
structure MovedEntry (remove : List Bool) (entry entry' : CatchEntry) : Prop where
  covers : ∀ p, Covers entry' p ↔ ∃ i, Kept remove i ∧ Covers entry i ∧ position remove i = p
  handler : Lands remove entry.handler.toNat entry'.handler.toNat
  rest : entry' = { entry with start := entry'.start, stop := entry'.stop, handler := entry'.handler }

def EntryInMask (remove : List Bool) (entry : CatchEntry) : Prop :=
  entry.start.toNat ≤ remove.length ∧ entry.stop.toNat ≤ remove.length ∧
    entry.handler.toNat ≤ remove.length

section

variable {remove : List Bool} {entry e' : CatchEntry}

theorem covers_moved {start stop p : ℕ} : position remove start ≤ p ∧ p < position remove stop ↔
    ∃ i, Kept remove i ∧ (start ≤ i ∧ i < stop) ∧ position remove i = p := by
  constructor
  · rintro ⟨hstart,hstop⟩
    obtain ⟨i,hi,hk,rfl⟩ := exists_kept hstop
    exact ⟨i,hk,⟨(position_le_iff hk).mp hstart,hi⟩,rfl⟩
  · rintro ⟨i,hk,⟨hstart,hstop⟩,rfl⟩
    refine ⟨position_mono hstart,?_⟩
    have hmono : position remove (i+1) ≤ position remove stop := position_mono hstop
    rw [position_succ_of_kept hk] at hmono
    exact hmono

theorem moveEntry_eq_some (h : moveEntry (oldToNew remove 0) entry = some e') :
    EntryInMask remove entry ∧ e' = { entry with
      start := ofNat (position remove entry.start.toNat)
      stop := ofNat (position remove entry.stop.toNat)
      handler := ofNat (position remove entry.handler.toNat) } := by
  obtain ⟨start,hstart,h⟩ := bind_eq_some_iff.mp h
  obtain ⟨stop,hstop,h⟩ := bind_eq_some_iff.mp h
  obtain ⟨handler,hhandler,h⟩ := bind_eq_some_iff.mp h
  cases h
  rw [oldToNew_eq_some] at hstart hstop hhandler
  rw [hstart.2,hstop.2,hhandler.2]
  exact ⟨⟨hstart.1,hstop.1,hhandler.1⟩,rfl⟩

theorem exists_moveEntry (h : EntryInMask remove entry) : ∃ e', moveEntry (oldToNew remove 0) entry = some e' := by
  obtain ⟨hstart,hstop,hhandler⟩ := h
  exact ⟨_,by simp only [moveEntry,oldToNew_getElem?,if_pos hstart,if_pos hstop,if_pos hhandler]; rfl⟩

theorem movedEntry (hlast : remove.getLast? ≠ some true) (hlen : remove.length < 2 ^ 32)
    (h : moveEntry (oldToNew remove 0) entry = some e') : MovedEntry remove entry e' := by
  obtain ⟨⟨hstart,hstop,hhandler⟩,rfl⟩ := moveEntry_eq_some h
  have hpos : ∀ t, (ofNat (position remove t)).toNat = position remove t := by
    intro t
    have hle : position remove t ≤ remove.count false := position_le_count
    have hcount : remove.count false ≤ remove.length := count_le_length
    rw [toNat_ofNat']
    exact Nat.mod_eq_of_lt (by omega)
  refine ⟨fun p => ?_,?_,rfl⟩
  · simp only [Covers,hpos]
    exact covers_moved
  · rw [hpos]
    exact lands_position hlast hhandler

end

/-! ## The whole chunk -/

theorem exists_related {α β : Type} {R : α → β → Prop} {l : List α} {l' : List β} (h : List.Forall₂ R l l')
    {x : α} (hx : x ∈ l) : ∃ y, R x y := by
  induction h with
  | nil => cases hx
  | cons hr _ ih =>
    rcases mem_cons.mp hx with rfl | hx
    · exact ⟨_,hr⟩
    · exact ih hx

/-- What is left of a chunk and its spans after the removal. -/
structure Compacted (chunk : Chunk) (spans : List σ) (remove : List Bool) (chunk' : Chunk) (spans' : List σ) :
    Prop where
  length : chunk'.code.length = remove.count false
  instructions : ∀ i x, chunk.code[i]? = some x → Kept remove i →
    ∃ x', chunk'.code[position remove i]? = some x' ∧ withoutOffsets x' = withoutOffsets x
  successors : ∀ i, Kept remove i → ∃ old new, successors chunk i = some old ∧
    Compaction.successors chunk' (position remove i) = some new ∧ List.Forall₂ (Lands remove) old new
  tables : chunk'.switchTables.map withoutTargets = chunk.switchTables.map withoutTargets
  catches : List.Forall₂ (MovedEntry remove) chunk.catchTable chunk'.catchTable
  spans : ∀ i, Kept remove i → spans'[position remove i]? = spans[i]?
  rest : chunk' = { chunk with
    code := chunk'.code, spanCount := chunk'.spanCount, switchTables := chunk'.switchTables
    catchTable := chunk'.catchTable, code_lt := chunk'.code_lt }

/-- The targets that the removal has to translate lie in the code or at its end. -/
def InRange (chunk : Chunk) (spans : List σ) (remove : List Bool) : Prop :=
  (∀ i x, chunk.code[i]? = some x → Kept remove i → Ready remove spans chunk.switchTables i x) ∧
    ∀ entry ∈ chunk.catchTable, EntryInMask remove entry

section

variable {c chunk' : Chunk} {spans spans' : List σ} {remove : List Bool}

theorem unshared_zipIdx (h : hasSharedSwitchTable code [] = false) : Unshared (code.zipIdx.map Prod.fst) := by
  rw [zipIdx_map_fst]
  exact (unshared_of_seen h).1

theorem compact_eq_some (h : compact c spans remove = some (chunk',spans')) : ∃ output catchTable,
    compactLoop (oldToNew remove 0) spans remove c.code.zipIdx ⟨[],[],c.switchTables⟩ = some output ∧
    c.catchTable.mapM (moveEntry (oldToNew remove 0)) = some catchTable ∧ ∃ hlt, chunk' = { c with
      code := output.code, spanCount := output.spans.length, switchTables := output.tables
      catchTable := catchTable, code_lt := hlt } ∧ spans' = output.spans := by
  obtain ⟨output,ho,h⟩ := bind_eq_some_iff.mp h
  obtain ⟨catchTable,hc,h⟩ := bind_eq_some_iff.mp h
  split at h
  next hlt =>
    cases h
    exact ⟨output,catchTable,ho,hc,hlt,rfl,rfl⟩
  next => cases h

theorem inRange_of_compact (htables : hasSharedSwitchTable c.code [] = false)
    (h : compact c spans remove = some (chunk',spans')) : InRange c spans remove := by
  obtain ⟨output,catchTable,ho,hc,-⟩ := compact_eq_some h
  obtain ⟨-,-,-,hcode⟩ := compactLoop_code ho rfl rfl
  obtain ⟨-,hswitch,-⟩ := compactLoop_tables ho (unshared_zipIdx htables)
  refine ⟨fun i x hx hk => ?_,fun entry he => ?_⟩
  · have hmem : (x,i) ∈ c.code.zipIdx := mem_zipIdx_iff_getElem?.mpr hx
    obtain ⟨x',span,hr,-,hs,-⟩ := hcode x i hmem hk
    refine ⟨(List.getElem?_eq_some_iff.mp hs).1,(rebaseOffsets_eq_some hr).2,fun t ht => ?_⟩
    obtain ⟨entry,e',he,he',-⟩ := hswitch x i t hmem hk ht
    exact ⟨entry,he,((forall₂_and_left _ _).mp (rebaseSwitchTable_eq_some he')).1⟩
  · obtain ⟨e',he'⟩ := exists_related (mapM_eq_some.mp hc) he
    exact (moveEntry_eq_some he').1

theorem exists_compact (hlen : remove.length = c.code.length)
    (htables : hasSharedSwitchTable c.code [] = false) (h : InRange c spans remove) :
    ∃ r, compact c spans remove = some r := by
  have hlt : ∀ x i, (x,i) ∈ c.code.zipIdx → i < remove.length := fun x i hx => by
    rw [hlen]
    exact (List.getElem?_eq_some_iff.mp (mem_zipIdx_iff_getElem?.mp hx)).1
  have hready : ∀ x i, (x,i) ∈ c.code.zipIdx → Kept remove i →
      Ready remove spans c.switchTables i x := fun x i hx =>
    h.1 i x (mem_zipIdx_iff_getElem?.mp hx)
  obtain ⟨output,ho⟩ :=
    @exists_compactLoop σ remove spans ⟨[],[],c.switchTables⟩ _ (unshared_zipIdx htables) hlt hready
  obtain ⟨catchTable,hc⟩ := exists_mapM fun entry he => exists_moveEntry (h.2 entry he)
  have hcode : output.code.length < 2 ^ 32 := by
    obtain ⟨-,-,hcode,-⟩ := compactLoop_code ho rfl rfl
    have hle : position remove (0+c.code.length) ≤ remove.count false := position_le_count
    have hcount : remove.count false ≤ remove.length := count_le_length
    have := c.code_lt
    omega
  exact ⟨_,by simp only [compact,ho,hc,bind_eq_bind,bind_some,dif_pos hcode]; rfl⟩

theorem compacted (hlen : remove.length = c.code.length) (hlast : remove.getLast? ≠ some true)
    (hexit : ∀ i x, c.code[i]? = some x → isForeachNext x → remove[i+1]? ≠ some true)
    (htables : hasSharedSwitchTable c.code [] = false)
    (h : compact c spans remove = some (chunk',spans')) : Compacted c spans remove chunk' spans' := by
  obtain ⟨output,catchTable,ho,hc,hlt,rfl,rfl⟩ := compact_eq_some h
  obtain ⟨-,-,hlength,hcode⟩ := compactLoop_code ho rfl rfl
  obtain ⟨-,hswitch,hwithout⟩ := compactLoop_tables ho (unshared_zipIdx htables)
  -- a kept position holds an instr of the old code
  have hold : ∀ i, Kept remove i → ∃ x, c.code[i]? = some x ∧ (x,i) ∈ c.code.zipIdx := by
    intro i hk
    have hi : i < c.code.length := hlen ▸ hk.lt_length
    exact ⟨c.code[i],getElem?_eq_getElem hi,
      mem_zipIdx_iff_getElem?.mpr (getElem?_eq_getElem hi)⟩
  refine ⟨?_,fun i x hx hk => ?_,fun i hk => ?_,hwithout,?_,fun i hk => ?_,rfl⟩
  · rw [hlength,Nat.zero_add,← hlen,position_of_length_le le_rfl]
  · obtain ⟨x',span,hr,hx',-⟩ := hcode x i (mem_zipIdx_iff_getElem?.mpr hx) hk
    exact ⟨x',hx',mapOffsets_withoutOffsets hr⟩
  · obtain ⟨x,hx,hmem⟩ := hold i hk
    obtain ⟨x',span,hr,hx',-⟩ := hcode x i hmem hk
    obtain ⟨hflow,hin⟩ := rebaseOffsets_eq_some hr
    refine successors_moved hlast hk (hexit i x hx) hx hx' hflow hin fun t ht => ?_
    obtain ⟨entry,e',he,he',hf⟩ := hswitch x i t hmem hk ht
    exact ⟨entry,e',he,hf,rebaseSwitchTable_eq_some he'⟩
  · exact (mapM_eq_some.mp hc).imp fun _ _ => movedEntry hlast (hlen ▸ c.code_lt)
  obtain ⟨x,hx,hmem⟩ := hold i hk
  obtain ⟨x',span,-,-,hs,hs'⟩ := hcode x i hmem hk
  rw [hs,hs']

end

/-- The removal succeeds exactly when the targets of the kept instructions and of the catch table are in the
code or at its end, so no offset overflows, and it preserves the control flow. -/
theorem compact_preserves_control_flow (chunk : Chunk) (spans : List σ) (remove : List Bool)
    (hlen : remove.length = chunk.code.length) (hlast : remove.getLast? ≠ some true)
    (hexit : ∀ i x, chunk.code[i]? = some x → isForeachNext x → remove[i+1]? ≠ some true)
    (htables : hasSharedSwitchTable chunk.code [] = false) :
    ((∃ result, compact chunk spans remove = some result) ↔ InRange chunk spans remove) ∧
      ∀ chunk' spans', compact chunk spans remove = some (chunk',spans') →
        Compacted chunk spans remove chunk' spans' := by
  refine ⟨⟨?_,exists_compact hlen htables⟩,fun chunk' spans' => compacted hlen hlast hexit htables⟩
  rintro ⟨⟨chunk',spans'⟩,h⟩
  exact inRange_of_compact htables h

/-- A `foreach` whose loop body starts with a removed instruction. -/
theorem compact_preserves_control_flow_foreach :
    Compacted (chunkOf [.foreachNext 0 1 2,.jump 2,.returnNull,.returnNull] (by decide)) ["a","b","c","d"]
      [false,false,true,false] (chunkOf [.foreachNext 0 1 2,.jump 1,.returnNull] (by decide)) ["a","b","d"] := by
  refine (compact_preserves_control_flow _ _ _ rfl (by decide) (fun i x hx hforeach => ?_) rfl).2 _ _ rfl
  rcases i with - | - | - | - | i <;> cases hx
  · decide
  all_goals exact absurd hforeach (by decide)

end Whim.Compaction
