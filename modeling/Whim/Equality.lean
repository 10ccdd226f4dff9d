import Mathlib.Data.List.Perm.Subperm
import Whim.Machine
import Whim.ValueTree

/-!
# The language's equality

`equals` compares arrays with an explicit stack of cursors, which decides the recursive deep equality.
-/

namespace Whim

open OrderedMap Option List

inductive EqualityCursor
  | sequence (pairs : List (Value × Value))
  | dict (left : List (Key × Value)) (right : DictObject Value)

inductive EqualityStep
  | pair (left right : Value) (cursor : EqualityCursor)
  | done | mismatch
  | fault (violation : Violation)

namespace EqualityCursor

/-- The next pair to compare, with the cursor moved past it. -/
def next (hs : HashState) : EqualityCursor → EqualityStep
  | .sequence [] => .done
  | .sequence ((left,right)::pairs) => .pair left right (.sequence pairs)
  | .dict [] _ => .done
  | .dict ((key,left)::entries) right =>
    match right.getRef hs key with
    | .ok (some value) => .pair left value (.dict entries right)
    | .ok none => .mismatch
    | .error violation => .fault violation

end EqualityCursor

namespace Equality

/-- Arrays of different lengths differ at once, empty ones need no cursor. -/
def pushCursor (leftLen rightLen : ℕ) (cursor : EqualityCursor) (cursors : List EqualityCursor) :
    Bool × List EqualityCursor :=
  if leftLen ≠ rightLen then (false,cursors)
  else if leftLen = 0 then (true,cursors)
  else (true,cursor::cursors)

def equalsShallow (left right : Value) (cursors : List EqualityCursor) : Bool × List EqualityCursor :=
  match left.transparent, right.transparent with
  | .null, .null => (true,cursors)
  | .bool left, .bool right => (left == right,cursors)
  | .int left, .int right => (left == right,cursors)
  | .uint left, .uint right => (left == right,cursors)
  | .fresh left, .fresh right => (left == right,cursors)
  | .float left, .float right => (left.eq right,cursors)
  | .vec left, .vec right =>
    pushCursor left.len right.len (.sequence (left.elements.zip right.elements)) cursors
  | .dict left, .dict right => pushCursor left.len right.len (.dict left.iter right) cursors
  | .tuple left, .tuple right => pushCursor left.length right.length (.sequence (left.zip right)) cursors
  | .function left, .function right => (left == right,cursors)
  | .object left, .object right => (left == right,cursors)
  | left, right =>
    (left.isString && right.isString && left.asStringBytes == right.asStringBytes,cursors)

/-- The two loops of `equals_arrays`: a pair to compare, or the topmost cursor to advance. -/
inductive State
  | compare (left right : Value) (cursors : List EqualityCursor)
  | advance (cursors : List EqualityCursor)

def step (hs : HashState) : State → State ⊕ Checked Bool
  | .compare left right cursors =>
    match equalsShallow left right cursors with
    | (false,_) => .inr (.ok false)
    | (true,cursors) => .inl (.advance cursors)
  | .advance [] => .inr (.ok true)
  | .advance (cursor::cursors) =>
    match cursor.next hs with
    | .pair left right cursor => .inl (.compare left right (cursor::cursors))
    | .done => .inl (.advance cursors)
    | .mismatch => .inr (.ok false)
    | .fault violation => .inr (.error violation)

def equalsArrays (hs : HashState) (fuel : ℕ) (a b : Value) : Option (Checked Bool) :=
  Machine.run (step hs) fuel (.compare a b [])

/-- `equals` answers scalar pairs itself and hands pairs of arrays to the machine. -/
def equals (hs : HashState) (fuel : ℕ) (a b : Value) : Option (Checked Bool) :=
  match a.transparent, b.transparent with
  | .null, .null => some (.ok true)
  | .bool left, .bool right => some (.ok (left == right))
  | .int left, .int right => some (.ok (left == right))
  | .uint left, .uint right => some (.ok (left == right))
  | .fresh left, .fresh right => some (.ok (left == right))
  | .float left, .float right => some (.ok (left.eq right))
  | .function left, .function right => some (.ok (left == right))
  | .object left, .object right => some (.ok (left == right))
  | .vec _, .vec _ => equalsArrays hs fuel a b
  | .dict _, .dict _ => equalsArrays hs fuel a b
  | .tuple _, .tuple _ => equalsArrays hs fuel a b
  | left, right =>
    some (.ok (left.isString && right.isString && left.asStringBytes == right.asStringBytes))

/-- The recursive deep equality, whatever the newtype tags. -/
inductive DeepEq : Value → Value → Prop
  | null {s t : Option NewtypeValueId} : DeepEq (.mk .null s) (.mk .null t)
  | bool {s t : Option NewtypeValueId} (x : Bool) : DeepEq (.mk (.bool x) s) (.mk (.bool x) t)
  | int {s t : Option NewtypeValueId} (x : Int64) : DeepEq (.mk (.int x) s) (.mk (.int x) t)
  | uint {s t : Option NewtypeValueId} (x : UInt64) : DeepEq (.mk (.uint x) s) (.mk (.uint x) t)
  | fresh {s t : Option NewtypeValueId} (x : UInt64) : DeepEq (.mk (.fresh x) s) (.mk (.fresh x) t)
  | float {s t : Option NewtypeValueId} {x y : F64} (h : x.eq y = true) :
    DeepEq (.mk (.float x) s) (.mk (.float y) t)
  | string {s t : Option NewtypeValueId} {x y : ValueView Value} {bytes : List UInt8}
    (hx : x.asStringBytes = some bytes) (hy : y.asStringBytes = some bytes) : DeepEq (.mk x s) (.mk y t)
  | function {s t : Option NewtypeValueId} (address : UInt64) :
    DeepEq (.mk (.function address) s) (.mk (.function address) t)
  | object {s t : Option NewtypeValueId} (address : UInt64) :
    DeepEq (.mk (.object address) s) (.mk (.object address) t)
  | vec {s t : Option NewtypeValueId} {x y : VecObject Value} (hlen : x.len = y.len)
    (h : ∀ (i : ℕ) v w, x.elements[i]? = some v → y.elements[i]? = some w → DeepEq v w) :
    DeepEq (.mk (.vec x) s) (.mk (.vec y) t)
  | tuple {s t : Option NewtypeValueId} {x y : List Value} (hlen : x.length = y.length)
    (h : ∀ (i : ℕ) v w, x[i]? = some v → y[i]? = some w → DeepEq v w) :
    DeepEq (.mk (.tuple x) s) (.mk (.tuple y) t)
  | dict {s t : Option NewtypeValueId} {x y : DictObject Value}
    (hkeys : ∀ k, (lookup x.iter k).isSome = (lookup y.iter k).isSome)
    (h : ∀ k v w, lookup x.iter k = some v → lookup y.iter k = some w → DeepEq v w) :
    DeepEq (.mk (.dict x) s) (.mk (.dict y) t)

section

variable {hs : HashState}

/-- The machine decides a pair: it comes back to the remaining cursors or answers `false`. -/
def Decides (hs : HashState) (left right : Value) : Prop := ∀ cursors,
  DeepEq left right ∧ Machine.Reaches (step hs) (.compare left right cursors) (.advance cursors) ∨
  ¬ DeepEq left right ∧ Machine.Returns (step hs) (.compare left right cursors) (.ok false)

theorem decides_of_shallow {left r : Value} {b : Bool} (hshallow : ∀ cs, equalsShallow left r cs = (b,cs))
    (hb : b = true ↔ DeepEq left r) : Decides hs left r := by
  intro cs
  cases b with
  | true => exact .inl ⟨hb.mp rfl,.one (by simp [step,hshallow])⟩
  | false => exact .inr ⟨fun h => absurd (hb.mpr h) (by decide),.of_step (by simp [step,hshallow])⟩

/-- A cursor over pairs that the machine decides. -/
theorem sequence_decides {ps : List (Value × Value)} (h : ∀ p ∈ ps, Decides hs p.1 p.2)
    (cs : List EqualityCursor) : (∀ p ∈ ps, DeepEq p.1 p.2) ∧
      Machine.Reaches (step hs) (.advance (.sequence ps::cs)) (.advance cs) ∨ (∃ p ∈ ps, ¬ DeepEq p.1 p.2) ∧
      Machine.Returns (step hs) (.advance (.sequence ps::cs)) (.ok false) := by
  induction ps with
  | nil => exact .inl ⟨by simp,.one rfl⟩
  | cons p ps ih =>
    have hstep : step hs (.advance (.sequence (p::ps)::cs)) =
        .inl (.compare p.1 p.2 (.sequence ps::cs)) := rfl
    rcases h p (by simp) (.sequence ps::cs) with ⟨heq,hreach⟩ | ⟨hne,hreturns⟩
    · rcases ih fun q hq => h q (by simp [hq]) with ⟨hall,hr⟩ | ⟨⟨q,hq,hne⟩,hr⟩
      · exact .inl ⟨by simpa using ⟨heq,by simpa using hall⟩,.head hstep (hreach.trans hr)⟩
      · exact .inr ⟨⟨q,by simp [hq],hne⟩,.head hstep (hreach.returns hr)⟩
    · exact .inr ⟨⟨p,by simp,hne⟩,.head hstep hreturns⟩

/-- A cursor over dictionary entries, each looked up on the right. -/
theorem entries_decide {es : List (Key × Value)} {r : DictObject Value} (hr : DictObject.WF hs r)
    (h : ∀ e ∈ es, ∀ w, lookup r.iter e.1 = some w → Decides hs e.2 w) (cs : List EqualityCursor) :
    (∀ e ∈ es, ∃ w, lookup r.iter e.1 = some w ∧ DeepEq e.2 w) ∧
      Machine.Reaches (step hs) (.advance (.dict es r::cs)) (.advance cs) ∨
    (∃ e ∈ es, ∀ w, lookup r.iter e.1 = some w → ¬ DeepEq e.2 w) ∧
      Machine.Returns (step hs) (.advance (.dict es r::cs)) (.ok false) := by
  induction es with
  | nil => exact .inl ⟨by simp,.one rfl⟩
  | cons e es ih =>
    cases hw : lookup r.iter e.1 with
    | none =>
      refine .inr ⟨⟨e,by simp,by simp [hw]⟩,.of_step ?_⟩
      simp [step,EqualityCursor.next,hr.getRef_eq,hw]
    | some w =>
      have hstep : step hs (.advance (.dict (e::es) r::cs)) =
          .inl (.compare e.2 w (.dict es r::cs)) := by
        simp [step,EqualityCursor.next,hr.getRef_eq,hw]
      rcases h e (by simp) w hw (.dict es r::cs) with ⟨heq,hreach⟩ | ⟨hne,hreturns⟩
      · rcases ih fun e' he' => h e' (by simp [he']) with ⟨hall,hrest⟩ | ⟨⟨e',he',hne⟩,hrest⟩
        · refine .inl ⟨?_,.head hstep (hreach.trans hrest)⟩
          intro e' he'
          cases he' with
          | head => exact ⟨w,hw,heq⟩
          | tail _ he' => exact hall e' he'
        · exact .inr ⟨⟨e',by simp [he'],hne⟩,.head hstep (hreach.returns hrest)⟩
      · refine .inr ⟨⟨e,by simp,fun w' hw' => ?_⟩,.head hstep hreturns⟩
        rw [hw,some_inj] at hw'
        exact hw' ▸ hne

/-- Pushing a cursor over `n` items: what the cursor decides, the pair decides. -/
theorem decides_pushCursor {left r : Value} {n m : ℕ} {cursor : EqualityCursor} {P : Prop}
    (hshallow : ∀ cs, equalsShallow left r cs = pushCursor n m cursor cs)
    (hd : DeepEq left r ↔ n = m ∧ P) (hnil : n = 0 → n = m → P) (hcursor : ∀ cs,
      P ∧ Machine.Reaches (step hs) (.advance (cursor::cs)) (.advance cs) ∨
      ¬ P ∧ Machine.Returns (step hs) (.advance (cursor::cs)) (.ok false)) : Decides hs left r := by
  intro cs
  by_cases hlen : n = m
  · by_cases hz : n = 0
    · have hstep : step hs (.compare left r cs) = .inl (.advance cs) := by
        simp [step,hshallow,pushCursor,hlen,hlen ▸ hz]
      exact .inl ⟨hd.mpr ⟨hlen,hnil hz hlen⟩,.one hstep⟩
    · have hstep : step hs (.compare left r cs) = .inl (.advance (cursor::cs)) := by
        simp [step,hshallow,pushCursor,hlen,hlen ▸ hz]
      rcases hcursor cs with ⟨hP,hreach⟩ | ⟨hP,hreturns⟩
      · exact .inl ⟨hd.mpr ⟨hlen,hP⟩,.head hstep hreach⟩
      · exact .inr ⟨fun h => hP (hd.mp h).2,.head hstep hreturns⟩
  · refine .inr ⟨fun h => hlen (hd.mp h).1,.of_step ?_⟩
    simp [step,hshallow,pushCursor,hlen]

/-- Pairs in step order against positions. -/
theorem forall_zip_iff {l r : List Value} {P : Value → Value → Prop} :
    (∀ p ∈ l.zip r, P p.1 p.2) ↔ ∀ (i : ℕ) v w, l[i]? = some v → r[i]? = some w → P v w := by
  constructor
  · intro h i v w hv hw
    exact h (v,w) (mem_of_getElem? (getElem?_zip_eq_some.mpr ⟨hv,hw⟩))
  · rintro h ⟨v,w⟩ hp
    obtain ⟨i,hi⟩ := mem_iff_getElem?.mp hp
    obtain ⟨hv,hw⟩ := getElem?_zip_eq_some.mp hi
    exact h i v w hv hw

theorem decides_sequence {left right : Value} {l r : List Value} (hshallow : ∀ cs, equalsShallow left right cs =
      pushCursor l.length r.length (.sequence (l.zip r)) cs) (hd : DeepEq left right ↔ l.length = r.length ∧
      ∀ (i : ℕ) v w, l[i]? = some v → r[i]? = some w → DeepEq v w)
    (h : ∀ v ∈ l, ∀ w ∈ r, Decides hs v w) : Decides hs left right := by
  rw [← forall_zip_iff] at hd
  refine decides_pushCursor hshallow hd ?_ ?_
  · intro hz _ p hp
    rw [length_eq_zero_iff.mp hz] at hp
    simp at hp
  · intro cs
    have hpairs : ∀ p ∈ l.zip r, Decides hs p.1 p.2 := fun p hp =>
      h p.1 (of_mem_zip hp).1 p.2 (of_mem_zip hp).2
    rcases sequence_decides hpairs cs with ⟨hall,hreach⟩ | ⟨⟨p,hp,hne⟩,hreturns⟩
    · exact .inl ⟨hall,hreach⟩
    · exact .inr ⟨fun hall => hne (hall p hp),hreturns⟩

/-- Dictionaries of one length agree if every left entry is found on the right. -/
theorem entries_iff_dict {x y : DictObject Value} (hx : DictObject.WF hs x) (hy : DictObject.WF hs y) :
    (x.len = y.len ∧ ∀ e ∈ x.iter, ∃ w, lookup y.iter e.1 = some w ∧ DeepEq e.2 w) ↔
    (∀ k, (lookup x.iter k).isSome = (lookup y.iter k).isSome) ∧
      ∀ k v w, lookup x.iter k = some v → lookup y.iter k = some w → DeepEq v w := by
  have hxd := Key.nodupKeys_iff_denotations.mp hx.keys
  have hyd := Key.nodupKeys_iff_denotations.mp hy.keys
  have hlen : x.len = y.len ↔
      (Key.denotations x.iter).length = (Key.denotations y.iter).length := by
    simp [Key.denotations,hx.len_eq,hy.len_eq]
  constructor
  · rintro ⟨hxy,hentries⟩
    have hsub : Key.denotations x.iter ⊆ Key.denotations y.iter := by
      intro c hc
      obtain ⟨e,he,rfl⟩ := mem_map.mp hc
      obtain ⟨w,hw,-⟩ := hentries e he
      exact Key.isSome_lookup_iff.mp (by simp [hw])
    have hp : (Key.denotations x.iter).Perm (Key.denotations y.iter) :=
      (subperm_of_subset hxd hsub).perm_of_length_le (Nat.le_of_eq (hlen.mp hxy).symm)
    refine ⟨fun k => ?_,fun k v w hv hw => ?_⟩
    · rw [Bool.eq_iff_iff,Key.isSome_lookup_iff,Key.isSome_lookup_iff]
      exact hp.mem_iff
    · obtain ⟨k',hmem,hk⟩ := lookup_some hv
      obtain ⟨w',hw',hd⟩ := hentries _ hmem
      rw [lookup_congr hk,hw,some_inj] at hw'
      exact hw' ▸ hd
  · rintro ⟨hkeys,hvalues⟩
    refine ⟨hlen.mpr ?_,fun e he => ?_⟩
    · refine ((perm_ext_iff_of_nodup hxd hyd).mpr fun c => ?_).length_eq
      rw [Key.mem_denotations_iff,Key.mem_denotations_iff]
      simp only [hkeys]
    · have hv : lookup x.iter e.1 = some e.2 := hx.keys.lookup_mem he BEq.rfl
      have hsome : (lookup y.iter e.1).isSome := by rw [← hkeys,hv]; rfl
      obtain ⟨w,hw⟩ := isSome_iff_exists.mp hsome
      exact ⟨w,hw,hvalues e.1 e.2 w hv hw⟩

section
variable {x y : DictObject Value} {s t : Option NewtypeValueId}

theorem deepEq_dict_iff : DeepEq (.mk (.dict x) s) (.mk (.dict y) t) ↔
    (∀ k, (lookup x.iter k).isSome = (lookup y.iter k).isSome) ∧
      ∀ k v w, lookup x.iter k = some v → lookup y.iter k = some w → DeepEq v w := by
  constructor
  · intro h
    cases h with
    | string hx => cases hx
    | dict hk h => exact ⟨hk,h⟩
  · exact fun ⟨hk,h⟩ => .dict hk h

theorem decides_dict (hx : DictObject.WF hs x) (hy : DictObject.WF hs y)
    (h : ∀ v ∈ x.iter.map (·.2), ∀ w ∈ y.iter.map (·.2), Decides hs v w) :
    Decides hs (.mk (.dict x) s) (.mk (.dict y) t) := by
  have hshallow : ∀ cs, equalsShallow (.mk (.dict x) s) (.mk (.dict y) t) cs =
      pushCursor x.len y.len (.dict x.iter y) cs := fun _ => rfl
  refine decides_pushCursor hshallow
    (deepEq_dict_iff.trans (entries_iff_dict hx hy).symm) ?_ ?_
  · intro hz _ e he
    rw [hx.len_eq,length_eq_zero_iff] at hz
    rw [hz] at he
    simp at he
  · intro cs
    have hentries : ∀ e ∈ x.iter, ∀ w, lookup y.iter e.1 = some w → Decides hs e.2 w := by
      intro e he w hw
      obtain ⟨k',hmem,-⟩ := lookup_some hw
      exact h e.2 (mem_map_of_mem he) w (mem_map_of_mem hmem)
    rcases entries_decide hy hentries cs with ⟨hall,hreach⟩ | ⟨⟨e,he,hne⟩,hreturns⟩
    · exact .inl ⟨hall,hreach⟩
    refine .inr ⟨fun hall => ?_,hreturns⟩
    obtain ⟨w,hw,hd⟩ := hall e he
    exact hne w hw hd

end

/-- The kind of a payload; both string representations are one kind. -/
inductive Kind
  | uninitialized | null | bool | int | uint | float | string | vec | dict | tuple | function | object | iter | fresh
  deriving DecidableEq

def kind : ValueView Value → Kind
  | .uninitialized => .uninitialized
  | .null => .null
  | .bool _ => .bool
  | .int _ => .int
  | .uint _ => .uint
  | .float _ => .float
  | .string _ | .shortString _ => .string
  | .vec _ => .vec
  | .dict _ => .dict
  | .tuple _ => .tuple
  | .function _ => .function
  | .object _ => .object
  | .iter _ => .iter
  | .fresh _ => .fresh

section

variable {x y : ValueView Value} {s t : Option NewtypeValueId}

theorem kind_of_asStringBytes {bs : List UInt8} (h : x.asStringBytes = some bs) : kind x = .string := by
  cases x <;> first | rfl | cases h

theorem kind_eq_of_deepEq (h : DeepEq (.mk x s) (.mk y t)) : kind x = kind y := by
  cases h with
  | string hx hy => rw [kind_of_asStringBytes hx,kind_of_asStringBytes hy]
  | _ => rfl

theorem equalsShallow_of_kind_ne (h : kind x ≠ kind y) (cs : List EqualityCursor) :
    equalsShallow (.mk x s) (.mk y t) cs = (false,cs) := by
  cases x <;> cases y <;> first | rfl | exact absurd rfl h

theorem decides_internal (hshallow : ∀ cs, equalsShallow (.mk x s) (.mk y t) cs = (false,cs))
    (hd : ¬ DeepEq (.mk x s) (.mk y t)) : Decides hs (.mk x s) (.mk y t) :=
  decides_of_shallow hshallow ⟨fun h => absurd h (by decide),fun h => absurd h hd⟩

theorem decides_of_kind_ne (h : kind x ≠ kind y) : Decides hs (.mk x s) (.mk y t) :=
  decides_internal (equalsShallow_of_kind_ne h) fun hd => h (kind_eq_of_deepEq hd)

theorem decides_string {a b : List UInt8} (hx : x.asStringBytes = some a) (hy : y.asStringBytes = some b) :
    Decides hs (.mk x s) (.mk y t) := by
  have hshallow : ∀ cs, equalsShallow (.mk x s) (.mk y t) cs = (a == b,cs) := by
    intro cs
    cases x <;> cases hx <;> cases y <;> cases hy <;> rfl
  refine decides_of_shallow hshallow ?_
  rw [beq_iff_eq]
  constructor
  · rintro rfl
    exact .string hx hy
  intro h
  cases h with
  | string hx' hy' =>
    rw [hx,some_inj] at hx'
    rw [hy,some_inj] at hy'
    rw [hx',hy']
  | _ => cases hx

end

/-- Payloads compared by their contents alone. -/
theorem decides_scalar {α : Type} [BEq α] [LawfulBEq α] (c : α → ValueView Value) (a b : α)
    (s t : Option NewtypeValueId) (hshallow : ∀ cs, equalsShallow (.mk (c a) s) (.mk (c b) t) cs = (a == b,cs))
    (hd : DeepEq (.mk (c a) s) (.mk (c b) t) → a = b) (heq : DeepEq (.mk (c a) s) (.mk (c a) t)) :
    Decides hs (.mk (c a) s) (.mk (c b) t) := by
  refine decides_of_shallow hshallow ?_
  rw [beq_iff_eq]
  constructor
  · rintro rfl
    exact heq
  · exact hd

/-- The machine decides deep equality of any two well-formed values. -/
theorem decides (left : Value) : ∀ right : Value, left.WF hs → right.WF hs → Decides hs left right := by
  induction left using Value.induction with
  | h x s ih =>
    rintro ⟨y,t⟩ hx hy
    have hchildren : ∀ v ∈ x.children, ∀ w ∈ y.children, Decides hs v w :=
      fun v hv w hw => ih v hv w (hx.children v hv) (hy.children w hw)
    by_cases hk : kind x = kind y
    · cases x <;> cases y <;> try (cases hk; done)
      case uninitialized.uninitialized | iter.iter =>
        exact decides_internal (fun _ => rfl) fun h => by cases h; contradiction
      case null.null => exact decides_of_shallow (fun _ => rfl) ⟨fun _ => .null,fun _ => rfl⟩
      case bool.bool a b =>
        exact decides_scalar .bool a b s t (fun _ => rfl) (fun h => by cases h <;> trivial) (.bool a)
      case int.int a b =>
        exact decides_scalar .int a b s t (fun _ => rfl) (fun h => by cases h <;> trivial) (.int a)
      case uint.uint a b =>
        exact decides_scalar .uint a b s t (fun _ => rfl) (fun h => by cases h <;> trivial) (.uint a)
      case fresh.fresh a b =>
        exact decides_scalar .fresh a b s t (fun _ => rfl) (fun h => by cases h <;> trivial) (.fresh a)
      case function.function a b =>
        exact decides_scalar .function a b s t (fun _ => rfl) (fun h => by cases h <;> trivial) (.function a)
      case object.object a b =>
        exact decides_scalar .object a b s t (fun _ => rfl) (fun h => by cases h <;> trivial) (.object a)
      case float.float =>
        refine decides_of_shallow (fun _ => rfl) ⟨.float,fun h => ?_⟩
        cases h with
        | float h => exact h
        | string h => cases h
      case string.string | string.shortString | shortString.string | shortString.shortString =>
        exact decides_string rfl rfl
      case vec.vec a b =>
        refine decides_sequence (l := a.elements) (r := b.elements) (fun _ => rfl) ⟨fun h => ?_,?_⟩ hchildren
        · cases h with
          | vec hlen h => exact ⟨hlen,h⟩
          | string h => cases h
        · exact fun ⟨hlen,h⟩ => .vec hlen h
      case tuple.tuple a b =>
        refine decides_sequence (l := a) (r := b) (fun _ => rfl) ⟨fun h => ?_,?_⟩ hchildren
        · cases h with
          | tuple hlen h => exact ⟨hlen,h⟩
          | string h => cases h
        · exact fun ⟨hlen,h⟩ => .tuple hlen h
      case dict.dict => exact decides_dict hx.dict hy.dict hchildren
    · exact decides_of_kind_ne hk

/-- On well-formed values the machine returns, and returns `true` exactly on deeply equal ones. -/
theorem equalsArrays_returns {a b : Value} (ha : a.WF hs) (hb : b.WF hs) :
    ∃ r, Machine.Returns (step hs) (.compare a b []) (.ok r) ∧ (r = true ↔ DeepEq a b) := by
  rcases decides a b ha hb [] with ⟨hd,hreach⟩ | ⟨hd,hreturns⟩
  · exact ⟨true,hreach.returns (.of_step rfl),by simpa using hd⟩
  · exact ⟨false,hreturns,by simpa using hd⟩

theorem equals_eq_arrays_or_shallow (hs : HashState) (fuel : ℕ) (a b : Value) :
    equals hs fuel a b = equalsArrays hs fuel a b ∨
    (equalsShallow a b []).2 = [] ∧ equals hs fuel a b = some (.ok (equalsShallow a b []).1) := by
  obtain ⟨x,s⟩ := a
  obtain ⟨y,t⟩ := b
  cases x <;> cases y <;> first | exact .inr ⟨rfl,rfl⟩ | exact .inl rfl

/-- `equals` decides deep equality once it is given enough fuel. -/
theorem equals_decides {a b : Value} (ha : a.WF hs) (hb : b.WF hs) :
    ∃ r, (r = true ↔ DeepEq a b) ∧ ∃ n, ∀ fuel ≥ n, equals hs fuel a b = some (.ok r) := by
  obtain ⟨r,⟨n,hn⟩,hr⟩ := equalsArrays_returns ha hb
  refine ⟨r,hr,n,fun fuel hf => ?_⟩
  rcases equals_eq_arrays_or_shallow hs fuel a b with heq | ⟨hcursors,heq⟩
  · rw [heq]
    exact Machine.run_mono hn hf
  rw [heq]
  have hshallow : equalsShallow a b [] = ((equalsShallow a b []).1,[]) := Prod.ext rfl hcursors
  have hreturns : Machine.Returns (step hs) (.compare a b []) (.ok (equalsShallow a b []).1) := by
    cases hb : (equalsShallow a b []).1 with
    | true => exact .head (by simp only [step]; rw [hshallow,hb]) (.of_step rfl)
    | false => exact .of_step (by simp only [step]; rw [hshallow,hb])
  exact congrArg some (hreturns.unique ⟨n,hn⟩)

end

end Equality
end Whim
