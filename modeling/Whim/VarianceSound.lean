import Whim.Variance

/-!
# Declared variance is sound

Where every position is checked, a descriptor is monotone in its covariant parameters and antitone in its contravariant
ones. The walk skips some arguments.
-/

namespace Whim.Variance

open TypeDescriptor

open TypeDescriptor (Denotes children pairChildren Bindings denotes_array denotes_dictionary denotes_vectorShape
  denotes_union denotes_intersection)
open Shape List

section

variable (tables : Tables) (U : Value → Prop)

/-- Containment over the values of a universe. -/
def Sub (d e : TypeDescriptor) : Prop := ∀ v, U v → Denotes tables d v → Denotes tables e v

/-- A universe contains the parts of its values. -/
structure Universe : Prop where
  entries : ∀ v entries, U v → v.arrayEntries = some entries → ∀ e ∈ entries, U e.1 ∧ U e.2
  slots : ∀ v address name x, U v → v.asObject = some address →
    (tables.objects address).publicSlot name = some x → U x

/-- The strings of a universe have lengths that are an `i64`. -/
def Short : Prop := ∀ v n, U v → v.asStringLen = some n → n < 2 ^ 63

def Related : Variance → TypeDescriptor → TypeDescriptor → Prop
  | .covariant, d, e => Sub tables U d e
  | .contravariant, d, e => Sub tables U e d
  | .invariant, d, e => Sub tables U d e ∧ Sub tables U e d

/-- Lists of arguments that are related at each position as the declaration says; what it does not mention
is invariant. -/
def ArgumentsVary (variances : ℕ → Option Variance) (as bs : List TypeDescriptor) : Prop :=
  as.length = bs.length ∧ ∀ i a b, as[i]? = some a → bs[i]? = some b →
    Related tables U ((variances i).getD .invariant) a b

/-- Named and member types vary in their arguments as declared, callables in their result and against their
parameters, and class names in the class. -/
structure Varies (namedVariance : Atom → ℕ → Option Variance) (memberVariance : Atom → Atom → ℕ → Option Variance) :
    Prop where
  named : ∀ name recursive as bs, ArgumentsVary tables U (namedVariance name) as bs →
    Sub tables U (.named name (some as) recursive) (.named name (some bs) recursive)
  member : ∀ owner name oas obs mas mbs, Option.Rel (ArgumentsVary tables U (namedVariance owner)) oas obs →
    Option.Rel (ArgumentsVary tables U (memberVariance owner name)) mas mbs →
    Sub tables U (.member owner oas name mas) (.member owner obs name mbs)
  callable : ∀ ps qs r r', List.Forall₂ (fun p q => p.2 = q.2 ∧ Sub tables U q.1 p.1) ps qs →
    Sub tables U r r' → Sub tables U (.callable (some (ps,r))) (.callable (some (qs,r')))
  classname : ∀ d e, Sub tables U d e → Sub tables U (.classname d) (.classname e)

/-- A descriptor with an intersection in it, which substitution builds anew. -/
inductive HasIntersection : TypeDescriptor → Prop
  | here (members : List TypeDescriptor) : HasIntersection (.intersection members)
  | inside {d c : TypeDescriptor} (hc : c ∈ d.children) (h : HasIntersection c) : HasIntersection d

/-- The inclusion that a position of this polarity asks for, in both directions at an invariant one. -/
def Toward (position : ℤ) (d e : TypeDescriptor) : Prop :=
  (position ≠ -1 → Sub tables U d e) ∧ (position ≠ 1 → Sub tables U e d)

end

variable {pos : ℤ} {d e : TypeDescriptor}

section

variable {tables : Tables} {U : Value → Prop} {f g : TypeDescriptor → TypeDescriptor}

theorem Sub.refl (d : TypeDescriptor) : Sub tables U d d := fun _ _ h => h

theorem Toward.refl (pos : ℤ) (d : TypeDescriptor) : Toward tables U pos d d :=
  ⟨fun _ => Sub.refl d,fun _ => Sub.refl d⟩

theorem toward_neg : Toward tables U (-pos) d e ↔ Toward tables U pos e d := by
  unfold Toward
  rw [ne_eq,neg_inj,ne_eq,neg_eq_iff_eq_neg]
  exact and_comm

theorem denotes_dictionaryShape {es : List (ShapeKey × TypeDescriptor)}
    {rest : Option (TypeDescriptor × TypeDescriptor)} {v : Value} (f : TypeDescriptor → TypeDescriptor) :
    Denotes tables ((dictionaryShape es rest).mapChildren f) v ↔ ∃ d, v.asDict = some d ∧
      FitsKeys ((es.map fun e => (e.1.toKey,e.2)).map fun e => (e.1,Denotes tables (f e.2)))
        (rest.map fun r => ((fun k => Denotes tables (f r.1) (Key.toValue k)),Denotes tables (f r.2))) d := by
  rw [map_map]
  cases rest <;>
    simp only [mapChildren,Option.map_none,Option.map_some,Denotes,
      entryDenotations_eq,map_map] <;> rfl

namespace Universe

variable (hU : Universe tables U) {v : Value}
include hU

variable {xs : List Value}

theorem elements (hv : U v)
    (h : v.arrayEntries = some (xs.zipIdx.map fun x => (.uint (UInt64.ofNat x.2),x.1))) : ∀ x ∈ xs, U x := by
  intro x hx
  obtain ⟨i,hi⟩ := mem_iff_getElem?.mp hx
  have hmem : (x,i) ∈ xs.zipIdx := mem_zipIdx_iff_getElem?.mpr hi
  exact (hU.entries v _ hv h _ (mem_map_of_mem hmem)).2

theorem vec (hv : U v) (h : v.asVec = some xs) : ∀ x ∈ xs, U x := by
  refine hU.elements hv ?_
  simp [Value.arrayEntries,h]

theorem tuple (hv : U v) (h : v.asTuple = some xs) : ∀ x ∈ xs, U x := by
  refine hU.elements hv ?_
  rcases v with ⟨view,tag⟩
  cases view <;> cases h
  rfl

theorem dict {d : List (Key × Value)} (hv : U v) (h : v.asDict = some d) : ∀ e ∈ d, U e.1.toValue ∧ U e.2 := by
  intro e he
  have hentries : v.arrayEntries = some (d.map fun e => (e.1.toValue,e.2)) := by
    rcases v with ⟨view,tag⟩
    cases view <;> cases h
    rfl
  exact hU.entries v _ hv hentries _ (mem_map_of_mem (f := fun e => (e.1.toValue,e.2)) he)

end Universe

/-- The constructors that vary with all their parts. -/
def isPositive : TypeDescriptor → Bool
  | .array _ | .vector _ | .vectorShape _ _ | .dictionary _ | .dictionaryShape _ _ | .tuple _ | .tupleRest _ _ => true
  | .union _ | .intersection _ | .objectShape _ _ => true
  | _ => false

attribute [local simp] Value.transparent pairChildren

theorem sub_mapChildren (hU : Universe tables U) (hshort : HasIntersection d → Short U) (hd : isPositive d)
    (h : ∀ c ∈ d.children, Sub tables U (f c) (g c)) : Sub tables U (d.mapChildren f) (d.mapChildren g) := by
  intro v hv
  cases d <;> cases hd <;> simp only [children,mem_append] at h
  case array args =>
    cases args with
    | none => exact id
    | some pair =>
      obtain ⟨key,element⟩ := pair
      have hkey := h key (by simp)
      have helement := h element (by simp)
      simp only [mapChildren,Option.map_some,denotes_array]
      rintro ⟨es,he,hall⟩
      refine ⟨es,he,fun e hmem => ?_⟩
      obtain ⟨hu,hu'⟩ := hU.entries v es hv he e hmem
      exact ⟨hkey _ hu (hall e hmem).1,helement _ hu' (hall e hmem).2⟩
  case dictionary args =>
    cases args with
    | none => exact id
    | some pair =>
      obtain ⟨key,element⟩ := pair
      have hkey := h key (by simp)
      have helement := h element (by simp)
      simp only [mapChildren,Option.map_some,denotes_dictionary]
      rintro ⟨d,hd,hall⟩
      refine ⟨d,hd,fun e hmem => ?_⟩
      obtain ⟨hu,hu'⟩ := hU.dict hv hd e hmem
      exact ⟨hkey _ hu (hall e hmem).1,helement _ hu' (hall e hmem).2⟩
  case vector element =>
    cases element with
    | none => exact id
    | some element =>
      have helement := h element (by simp)
      simp only [mapChildren,Option.map_some,Denotes]
      rintro ⟨xs,hxs,hall⟩
      exact ⟨xs,hxs,fun x hx => helement x (hU.vec hv hxs x hx) (hall x hx)⟩
  case vectorShape rest =>
    simp only [mapChildren,denotes_vectorShape,map_map,Option.map_map]
    rintro ⟨xs,hxs,hf⟩
    exact ⟨xs,hxs,Fits.map_imp rest hf fun c hc x hx => h c (mem_append.mp hc) x (hU.vec hv hxs x hx)⟩
  case dictionaryShape =>
    rw [denotes_dictionaryShape f,denotes_dictionaryShape g]
    rintro ⟨d,hd,hf⟩
    refine ⟨d,hd,FitsKeys.map_imp (P := fun c => Denotes tables (f c)) (Q := fun c => Denotes tables (g c))
      (A := fun c (k : Key) => Denotes tables (f c) k.toValue)
      (B := fun c (k : Key) => Denotes tables (g c) k.toValue)
      hf (forall_mem_map.mpr fun entry hentry e he => ?_) fun r hr e he => ?_⟩
    · exact h _ (.inl (mem_map_of_mem hentry)) _ (hU.dict hv hd e he).2
    · obtain ⟨hu,hu'⟩ := hU.dict hv hd e he
      exact ⟨h r.1 (.inr (by simp [hr])) _ hu,h r.2 (.inr (by simp [hr])) _ hu'⟩
  case tuple =>
    simp only [mapChildren,Denotes,denotations_eq,map_map]
    rintro ⟨xs,hxs,hf⟩
    refine ⟨xs,hxs,Fits.map_imp none hf fun c hc x hx => ?_⟩
    exact h c (by simpa using hc) x (hU.tuple hv hxs x hx)
  case tupleRest rest =>
    simp only [mapChildren,Denotes,denotations_eq,map_map]
    rintro ⟨xs,hxs,hf⟩
    refine ⟨xs,hxs,Fits.map_imp (some rest) hf fun c hc x hx => ?_⟩
    exact h c (by simpa using hc) x (hU.tuple hv hxs x hx)
  case union =>
    simp only [mapChildren,denotes_union,mem_map]
    rintro ⟨d,⟨c,hc,rfl⟩,hd⟩
    exact ⟨g c,⟨c,hc,rfl⟩,h c hc v hv hd⟩
  case intersection =>
    have hshort := hshort (.here _) v
    simp only [mapChildren,denotes_intersectionOf (hshort · hv),forall_mem_map]
    exact fun hall c hc => h c hc v hv (hall c hc)
  case objectShape =>
    simp only [mapChildren,Denotes,slotDenotations_eq,map_map,length_map,
      forall_mem_map,Function.comp_apply]
    rintro ⟨a,ho,hcount,hslots⟩
    refine ⟨a,ho,hcount,fun e he => ?_⟩
    obtain ⟨x,hx,hinit,hd⟩ := hslots e he
    exact ⟨x,hx,hinit,h _ (mem_map_of_mem he) x (hU.slots v a e.1 x hv ho hx) hd⟩

end

variable {name : Atom}

section

variable (namedVariance : Atom → ℕ → Option Variance) (memberVariance : Atom → Atom → ℕ → Option Variance)

def argumentPositions (variances : ℕ → Option Variance) (position : ℤ) (arguments : List TypeDescriptor) :
    List (TypeDescriptor × ℤ) :=
  arguments.zipIdx.map fun a => (a.1,((variances a.2).getD .invariant).nestedPolarity position)

/-- The arguments that the walk does not visit, with the positions they stand in. -/
def skipped (position : ℤ) : TypeDescriptor → List (TypeDescriptor × ℤ)
  | .named name (some arguments) _ =>
    (arguments.zipIdx.filter fun a => (namedVariance name a.2).isNone).map fun a => (a.1,0)
  | .member owner ownerArguments name memberArguments =>
    argumentPositions (namedVariance owner) position (ownerArguments.getD []) ++
      argumentPositions (memberVariance owner name) position (memberArguments.getD [])
  | _ => []

variable {tables : Tables} {U : Value → Prop} {f g : TypeDescriptor → TypeDescriptor}
  {namedVariance memberVariance}

theorem Toward.related {variance : Variance} (h : Toward tables U (variance.nestedPolarity pos) d e) (hp : pos ≠ -1) :
    Related tables U variance d e := by
  cases variance with
  | invariant => exact ⟨h.1 (show (0 : ℤ) ≠ -1 by decide),h.2 (show (0 : ℤ) ≠ 1 by decide)⟩
  | covariant => exact h.1 hp
  | contravariant => exact (toward_neg.mp h).1 hp

theorem nestedPolarity_neg (variance : Variance) (pos : ℤ) :
    variance.nestedPolarity (-pos) = -variance.nestedPolarity pos := by
  cases variance <;> rfl

variable {variances : ℕ → Option Variance} {args : List TypeDescriptor}

theorem argumentsVary_map (h : ∀ e ∈ argumentPositions variances pos args, Toward tables U e.2 (f e.1) (g e.1))
    (hp : pos ≠ -1) : ArgumentsVary tables U variances (args.map f) (args.map g) := by
  refine ⟨by rw [length_map,length_map],fun i a b ha hb => ?_⟩
  rw [getElem?_map] at ha hb
  obtain ⟨c,hc,rfl⟩ := Option.map_eq_some_iff.mp ha
  rw [hc,Option.map_some] at hb
  cases hb
  have hmem : (c,i) ∈ args.zipIdx := mem_zipIdx_iff_getElem?.mpr hc
  exact (h _ (mem_map_of_mem hmem)).related hp

/-- All positions directly inside a descriptor. -/
def positions (namedVariance : Atom → ℕ → Option Variance) (memberVariance : Atom → Atom → ℕ → Option Variance)
    (position : ℤ) (d : TypeDescriptor) : List (TypeDescriptor × ℤ) :=
  pushes namedVariance position d++skipped namedVariance memberVariance position d

theorem argumentPositions_neg (variances : ℕ → Option Variance) (pos : ℤ) (args : List TypeDescriptor) :
    argumentPositions variances (-pos) args = (argumentPositions variances pos args).map fun e => (e.1,-e.2) := by
  simp only [argumentPositions,map_map]
  exact map_congr_left fun a _ => by rw [nestedPolarity_neg]; rfl

theorem skipped_neg (pos : ℤ) (d : TypeDescriptor) : skipped namedVariance memberVariance (-pos) d =
    (skipped namedVariance memberVariance pos d).map fun e => (e.1,-e.2) := by
  unfold skipped
  split
  · rw [map_map]; rfl
  · rw [map_append,argumentPositions_neg,argumentPositions_neg]
  · rfl

theorem pushes_neg (pos : ℤ) (d : TypeDescriptor) :
    pushes namedVariance (-pos) d = (pushes namedVariance pos d).map fun e => (e.1,-e.2) := by
  unfold pushes
  split
  case h_1 =>
    rw [map_filterMap]
    refine filterMap_congr fun a _ => ?_
    simp only [Option.map_map,Function.comp_def,nestedPolarity_neg]
  all_goals simp [Function.comp_def]

theorem pushes_positive (hd : isPositive d) (pos : ℤ) :
    pushes namedVariance pos d = d.children.map fun c => (c,pos) := by
  cases d <;> try cases hd
  case array args | dictionary args => cases args <;> rfl
  case vector element => cases element <;> rfl
  all_goals rfl

theorem mem_positions_named {recursive : Bool} : ∀ e ∈ argumentPositions (namedVariance name) pos args,
    e ∈ positions namedVariance memberVariance pos (.named name (some args) recursive) := by
  intro e he
  obtain ⟨a,ha,rfl⟩ := mem_map.mp he
  rw [positions,mem_append]
  cases hv : namedVariance name a.2 with
  | none => exact .inr (mem_map.mpr ⟨a,mem_filter.mpr ⟨ha,by simp [hv]⟩,rfl⟩)
  | some => exact .inl (mem_filterMap.mpr ⟨a,ha,by simp [hv]⟩)

theorem rel_map {args : Option (List TypeDescriptor)}
    (h : ∀ e ∈ argumentPositions variances pos (args.getD []), Toward tables U e.2 (f e.1) (g e.1)) (hp : pos ≠ -1) :
    Option.Rel (ArgumentsVary tables U variances) (args.map (List.map f)) (args.map (List.map g)) := by
  cases args with
  | none => exact .none
  | some => exact .some (argumentsVary_map h hp)

section
variable (hU : Universe tables U) (hshort : HasIntersection d → Short U)
  (hvaries : Varies tables U namedVariance memberVariance)
include hU hshort hvaries

/-- One direction: what the positions of a descriptor ask for gives the inclusion of the whole. -/
theorem sub_of_positions (hp : pos ≠ -1)
    (h : ∀ e ∈ positions namedVariance memberVariance pos d, Toward tables U e.2 (f e.1) (g e.1)) :
    Sub tables U (d.mapChildren f) (d.mapChildren g) := by
  by_cases hd : isPositive d = true
  · refine sub_mapChildren hU hshort hd fun c hc => (h (c,pos) (mem_append_left _ ?_)).1 hp
    rw [pushes_positive hd]
    exact mem_map_of_mem hc
  cases d
  case named args _ =>
    cases args with
    | none => exact Sub.refl _
    | some =>
      exact hvaries.named _ _ _ _ (argumentsVary_map (fun e he => h e (mem_positions_named e he)) hp)
  case member =>
    exact hvaries.member _ _ _ _ _ _ (rel_map (fun e he => h e (by simp [positions,skipped,he])) hp)
      (rel_map (fun e he => h e (by simp [positions,skipped,he])) hp)
  case callable signature =>
    cases signature with
    | none => exact Sub.refl _
    | some signature =>
      obtain ⟨params,r⟩ := signature
      refine hvaries.callable _ _ _ _ ?_ ((h (r,pos) (by simp [positions,pushes])).1 hp)
      rw [forall₂_map_left_iff,forall₂_map_right_iff]
      refine forall₂_same.mpr fun p hparameter => ⟨rfl,?_⟩
      have hmem : (p.1,-pos) ∈ positions namedVariance memberVariance pos
          (.callable (some (params,r))) :=
        mem_append_left _ (mem_cons_of_mem _ (mem_map_of_mem (mem_map_of_mem hparameter)))
      exact (toward_neg.mp (h _ hmem)).1 hp
  case classname inner => exact hvaries.classname _ _ ((h (inner,pos) (by simp [positions,pushes])).1 hp)
  case negated inner =>
    have hinner := (toward_neg.mp (h (inner,-pos) (by simp [positions,pushes]))).1 hp
    intro v hv
    simp only [mapChildren,Denotes]
    exact mt (hinner v hv)
  all_goals first | exact Sub.refl _ | exact absurd rfl hd

theorem toward_mapChildren
    (h : ∀ e ∈ positions namedVariance memberVariance pos d, Toward tables U e.2 (f e.1) (g e.1)) :
    Toward tables U pos (d.mapChildren f) (d.mapChildren g) := by
  refine ⟨fun hp => sub_of_positions hU hshort hvaries hp h,fun hp => ?_⟩
  have hneg : ∀ e ∈ positions namedVariance memberVariance (-pos) d, Toward tables U e.2 (g e.1) (f e.1) := by
    intro e he
    rw [positions,pushes_neg,skipped_neg,← map_append] at he
    obtain ⟨e',he',rfl⟩ := mem_map.mp he
    exact toward_neg.mpr (h e' he')
  exact sub_of_positions hU hshort hvaries (by omega) hneg

end

variable {e : TypeDescriptor × ℤ}

theorem mem_of_argumentPositions (h : e ∈ argumentPositions variances pos args) : e.1 ∈ args := by
  obtain ⟨a,ha,rfl⟩ := mem_map.mp h
  exact mem_of_getElem? (mem_zipIdx_iff_getElem?.mp ha)

theorem mem_children_of_positions (h : e ∈ positions namedVariance memberVariance pos d) : e.1 ∈ d.children := by
  by_cases hd : isPositive d = true
  · rcases mem_append.mp h with h | h
    · rw [pushes_positive hd] at h
      obtain ⟨c,hc,rfl⟩ := mem_map.mp h
      exact hc
    · cases d <;> cases hd <;> cases h
  · cases d
    case named args _ =>
      cases args with
      | none => cases h
      | some =>
        rcases mem_append.mp h with h | h
        · obtain ⟨a,ha,he⟩ := mem_filterMap.mp h
          obtain ⟨variance,-,rfl⟩ := Option.map_eq_some_iff.mp he
          exact mem_of_getElem? (mem_zipIdx_iff_getElem?.mp ha)
        · obtain ⟨a,ha,rfl⟩ := mem_map.mp h
          exact mem_of_getElem? (mem_zipIdx_iff_getElem?.mp (mem_filter.mp ha).1)
    case member =>
      rcases mem_append.mp (show e ∈ argumentPositions _ _ _ ++ argumentPositions _ _ _ from h) with h | h
      · exact mem_append_left _ (mem_of_argumentPositions h)
      · exact mem_append_right _ (mem_of_argumentPositions h)
    case callable signature =>
      cases signature with
      | none => cases h
      | some =>
        rcases mem_append.mp h with h | h
        · rcases mem_cons.mp h with rfl | h
          · exact mem_append_right _ mem_cons_self
          · obtain ⟨c,hc,rfl⟩ := mem_map.mp h
            exact mem_append_left _ hc
        · cases h
    case classname | negated =>
      rw [mem_singleton.mp h]
      exact mem_cons_self
    all_goals first | cases h | exact absurd rfl hd

end

/-- Every argument that the walk skips, at any depth, would have passed it. -/
inductive SkippedAllowed (namedVariance : Atom → ℕ → Option Variance)
    (memberVariance : Atom → Atom → ℕ → Option Variance) (parameters : List CompiledTypeParameter) :
    ℤ → TypeDescriptor → Prop
  | mk {position : ℤ} {d : TypeDescriptor}
      (here : ∀ e ∈ skipped namedVariance memberVariance position d,
        incompatibleParameter namedVariance parameters e.1 e.2 = none)
      (inside : ∀ e ∈ positions namedVariance memberVariance position d,
        SkippedAllowed namedVariance memberVariance parameters e.2 e.1) :
      SkippedAllowed namedVariance memberVariance parameters position d

/-- Two bindings that differ in the listed parameters only, and there as their variance allows. -/
structure BindingsRelated (tables : Tables) (U : Value → Prop) (parameters : List CompiledTypeParameter)
    (s t : Bindings) : Prop where
  listed : ∀ p ∈ parameters, Related tables U p.variance (bound s p.name)
    (bound t p.name)
  others : ∀ name, (∀ p ∈ parameters, p.name ≠ name) →
    bound s name = bound t name

section

variable {tables : Tables} {U : Value → Prop} {namedVariance : Atom → ℕ → Option Variance}
  {memberVariance : Atom → Atom → ℕ → Option Variance} {params : List CompiledTypeParameter} {s t : Bindings}

theorem toward_bound (hst : BindingsRelated tables U params s t) (h : rejected params pos (.parameter name) = none) :
    Toward tables U pos (bound s name) (bound t name) := by
  simp only [rejected] at h
  cases hf : params.find? (fun p => p.name = name) with
  | none =>
    rw [hst.others name (by simpa using hf)]
    exact Toward.refl _ _
  | some p =>
    have hn : p.name = name := by simpa using find?_some hf
    have hrelated := hst.listed p (mem_of_find?_eq_some hf)
    rw [hn] at hrelated
    rw [hf] at h
    simp only [Option.filter_some,CompiledTypeParameter.validAt] at h
    cases hv : p.variance <;> rw [hv] at hrelated h
    · exact ⟨fun _ => hrelated.1,fun _ => hrelated.2⟩
    · have hp : pos = 1 := by simpa using h
      exact ⟨fun _ => hrelated,fun hne => absurd hp hne⟩
    · have hp : pos = -1 := by simpa using h
      exact ⟨fun hne => absurd hp hne,fun _ => hrelated⟩

theorem toward_substitute (hU : Universe tables U) (hvaries : Varies tables U namedVariance memberVariance)
    (hst : BindingsRelated tables U params s t) (d : TypeDescriptor) :
    ∀ {pos : ℤ} (n : ℕ), (HasIntersection d → Short U) → incompatibleParameter namedVariance params d pos = none →
      SkippedAllowed namedVariance memberVariance params pos d →
      Toward tables U pos (d.substitute s n) (d.substitute t n) := by
  induction d using induction with
  | h d ih =>
    intro pos n hshort hn hskipped
    obtain ⟨hrejected,hpushes⟩ := (incompatibleParameter_eq_none d pos).mp hn
    obtain ⟨hhere,hinside⟩ := hskipped
    rcases Nat.lt_or_ge maxTypeDepth n with hdepth | hdepth
    · rw [substitute.eq_def,substitute.eq_def,if_pos hdepth,if_pos hdepth]
      exact Toward.refl _ _
    by_cases hd : ∃ name, d = .parameter name
    · obtain ⟨name,rfl⟩ := hd
      rw [substitute_parameter name s hdepth,substitute_parameter name t hdepth]
      exact toward_bound hst hrejected
    · have ho : ∀ name, d ≠ .parameter name := fun name h => hd ⟨name,h⟩
      rw [substitute_other ho s hdepth,substitute_other ho t hdepth]
      refine toward_mapChildren hU hshort hvaries fun e he => ?_
      have hchild := mem_children_of_positions he
      refine ih e.1 hchild (n+1) (fun h => hshort (.inside hchild h)) ?_ (hinside e he)
      rcases mem_append.mp he with he | he
      · exact hpushes e he
      · exact hhere e he

end

/-- A descriptor that passes the walk, with the arguments it skips passing too, is monotone in output
position and antitone in input position. -/
theorem declared_variance_sound (tables : Tables) (U : Value → Prop) (namedVariance : Atom → ℕ → Option Variance)
    (memberVariance : Atom → Atom → ℕ → Option Variance) (parameters : List CompiledTypeParameter)
    (s t : Bindings) (d : TypeDescriptor) (hU : Universe tables U) (hshort : HasIntersection d → Short U)
    (hvaries : Varies tables U namedVariance memberVariance) (hst : BindingsRelated tables U parameters s t) :
    (incompatibleParameter namedVariance parameters d 1 = none →
      SkippedAllowed namedVariance memberVariance parameters 1 d →
      Sub tables U (d.substitute s 0) (d.substitute t 0)) ∧
    (incompatibleParameter namedVariance parameters d (-1) = none →
      SkippedAllowed namedVariance memberVariance parameters (-1) d →
      Sub tables U (d.substitute t 0) (d.substitute s 0)) :=
  ⟨fun h hskipped => (toward_substitute hU hvaries hst d 0 hshort h hskipped).1 (by decide),
    fun h hskipped => (toward_substitute hU hvaries hst d 0 hshort h hskipped).2 (by decide)⟩

/-! ## An unchecked argument -/

mutual

/-- Whether null is a value of the type, when a member type holds null if all arguments of its owner do and
the other nominal types are empty. -/
def hasNull : TypeDescriptor → Bool
  | .wildcard | .mixed | .null => true
  | .union members => anyNull members
  | .intersection members => allNull members
  | .negated inner => !hasNull inner
  | .member _ (some arguments) _ _ => allNull arguments
  | .member _ none _ _ => true
  | _ => false

def anyNull : List TypeDescriptor → Bool
  | [] => false
  | d::ds => hasNull d || anyNull ds

def allNull : List TypeDescriptor → Bool
  | [] => true
  | d::ds => hasNull d && allNull ds

end

def nullMembers : Tables where
  objects _ := ⟨[],fun _ => none⟩
  checkNominal d v _ := match d with
    | .member _ arguments _ _ => v.isNull && allNull (arguments.getD [])
    | _ => false

theorem anyNull_iff (ds : List TypeDescriptor) : anyNull ds ↔ ∃ d ∈ ds, hasNull d := by
  induction ds with
  | nil => simp [anyNull]
  | cons _ _ ih => simp [anyNull,ih]

theorem allNull_iff (ds : List TypeDescriptor) : allNull ds ↔ ∀ d ∈ ds, hasNull d := by
  induction ds with
  | nil => simp [allNull]
  | cons _ _ ih => simp [allNull,ih]

theorem hasNull_iff (d : TypeDescriptor) : Denotes nullMembers d (.mk .null none) ↔ hasNull d := by
  induction d using induction with
  | h d ih =>
    cases d
    case union =>
      rw [denotes_union,hasNull,anyNull_iff]
      exact exists_congr fun c => and_congr_right fun hc => ih c hc
    case intersection =>
      rw [denotes_intersection,hasNull,allNull_iff]
      exact forall₂_congr ih
    case negated inner =>
      simp only [Denotes,hasNull,ih inner mem_cons_self]
      simp
    case member ownerArguments _ _ =>
      rw [Denotes]
      cases ownerArguments <;> rfl
    case array args | dictionary args | callable args =>
      cases args <;> simp [Denotes,hasNull,nullMembers,Value.arrayEntries,Value.asVec,Value.asDict,Value.asTuple,
        Value.isFunction]
    case vector element =>
      cases element <;> simp [Denotes,hasNull,Value.asVec]
    case vectorShape =>
      simp [denotes_vectorShape,hasNull,Value.asVec]
    case dictionaryShape rest =>
      cases rest <;> simp [Denotes,hasNull,Value.asDict]
    all_goals simp [Denotes,hasNull,nullMembers,Value.isNull,Value.isFresh,Value.asBool,Value.asInt,Value.asUint,
      Value.asFloat,Value.asStringBytes,Value.asStringLen,Value.asObject,Value.asTuple,ValueView.asStringBytes]

variable {U : Value → Prop}

theorem Sub.hasNull (hnull : U (.mk .null none))
    (h : Sub nullMembers U d e) (hd : hasNull d) : Variance.hasNull e :=
  (hasNull_iff e).mp (h _ hnull ((hasNull_iff d).mpr hd))

/-- The owner of a member type is covariant, and the other nominal types are empty. -/
theorem nullMembers_varies (hnull : U (.mk .null none)) :
    Varies nullMembers U (fun _ _ => some .covariant) fun _ _ _ => none where
  named name recursive as bs _ v _ h := by
    rw [Denotes] at h
    cases h
  member owner name oas obs mas mbs howner _ v _ h := by
    rw [Denotes] at h ⊢
    cases howner with
    | none => exact h
    | @some as _ hab =>
      simp only [nullMembers,Option.getD_some,Bool.and_eq_true,allNull_iff] at h ⊢
      refine ⟨h.1,fun b hb => ?_⟩
      obtain ⟨i,hi,rfl⟩ := mem_iff_getElem.mp hb
      have hlt : i < as.length := hab.1 ▸ hi
      have hsub := hab.2 i _ _ (getElem?_eq_getElem hlt) (getElem?_eq_getElem hi)
      exact Sub.hasNull hnull hsub (h.2 _ (getElem_mem hlt))
  callable ps qs r r' _ _ v _ h := by
    rw [Denotes] at h
    cases h
  classname d e _ v _ h := by
    rw [Denotes] at h
    cases h

theorem bindingsRelated_single {tables : Tables} {variance : Variance}
    (h : Related tables U variance d e) : BindingsRelated tables U [⟨name,variance⟩] [(name,d)] [(name,e)] where
  listed := by simpa [bound] using h
  others other hne := by
    have hn : name ≠ other := hne ⟨name,variance⟩ mem_cons_self
    simp [bound,hn]

/-- The parameter `T`. -/
def typeName : Atom := ⟨[84],by decide⟩

/-- A member type of `Box<T>`. -/
def memberOf : TypeDescriptor := .member ⟨[66,111,120],by decide⟩ (some [.parameter typeName]) ⟨[73],by decide⟩ none

theorem hasNull_memberOf (d : TypeDescriptor) : hasNull (memberOf.substitute [(typeName,d)] 0) = hasNull d := by
  rw [memberOf,substitute_other (by simp) _ (Nat.zero_le _)]
  simp only [mapChildren,Option.map_some,Option.map_none,map_cons,map_nil]
  rw [substitute_parameter _ _ (by decide)]
  simp [bound,hasNull,allNull]

/-- A contravariant parameter in the argument of a member type passes the walk in output position. -/
theorem member_argument_unchecked :
    Varies nullMembers (fun _ => True) (fun _ _ => some .covariant) (fun _ _ _ => none) ∧
    BindingsRelated nullMembers (fun _ => True) [⟨typeName,.contravariant⟩] [(typeName,.null)] [(typeName,.never)] ∧
    incompatibleParameter (fun _ _ => some .covariant) [⟨typeName,.contravariant⟩] memberOf 1 = none ∧
    ¬Sub nullMembers (fun _ => True) (memberOf.substitute [(typeName,.null)] 0)
      (memberOf.substitute [(typeName,.never)] 0) := by
  refine ⟨nullMembers_varies trivial,bindingsRelated_single ?_,?_,fun h => ?_⟩
  · intro v _ h
    rw [Denotes] at h
    exact h.elim
  · rw [incompatibleParameter_eq_none]
    exact ⟨rfl,fun e he => by cases he⟩
  · have hnull := Sub.hasNull trivial h
    rw [hasNull_memberOf,hasNull_memberOf] at hnull
    exact absurd (hnull rfl) (by decide)

/-- With a covariant parameter the skipped argument would have passed, and null stays a value. -/
theorem declared_variance_sound_member :
    Sub nullMembers (fun v => v = .mk .null none) (memberOf.substitute [(typeName,.never)] 0)
      (memberOf.substitute [(typeName,.null)] 0) := by
  refine (declared_variance_sound nullMembers (fun v => v = .mk .null none) (fun _ _ => some .covariant)
    (fun _ _ _ => none) [⟨typeName,.covariant⟩] [(typeName,.never)] [(typeName,.null)] memberOf
    ⟨?_,?_⟩ (fun _ => ?_) (nullMembers_varies rfl) (bindingsRelated_single ?_)).1 ?_ ?_
  · rintro v entries rfl h
    cases h
  · rintro v address name x rfl h
    cases h
  · rintro v n rfl h
    cases h
  · intro v _ h
    rw [Denotes] at h
    exact h.elim
  · rw [incompatibleParameter_eq_none]
    exact ⟨rfl,fun e he => by cases he⟩
  have hparameter : incompatibleParameter (fun _ _ => some Variance.covariant) [⟨typeName,.covariant⟩]
      (.parameter typeName) 1 = none := by
    rw [incompatibleParameter_eq_none]
    exact ⟨by decide,fun e he => by cases he⟩
  refine .mk (fun e he => ?_) fun e he => ?_
  · rw [mem_singleton.mp he]
    exact hparameter
  · rw [mem_singleton.mp he]
    exact .mk (fun e he => by cases he) fun e he => by cases he

/-! ## A lost string -/

/-- Strings that are not in `T`. -/
def otherStrings : TypeDescriptor := .intersection [.string,.negated (.parameter typeName)]

theorem substitute_otherStrings (d : TypeDescriptor) :
    otherStrings.substitute [(typeName,d)] 0 = intersectionOf [.string,.negated d] := by
  have hstring : TypeDescriptor.string.substitute [(typeName,d)] (0+1) = .string :=
    substitute_other (by simp) _ (by decide)
  have hnegated : (TypeDescriptor.negated (.parameter typeName)).substitute [(typeName,d)] (0+1) = .negated d := by
    rw [substitute_other (by simp) _ (by decide),mapChildren,substitute_parameter _ _ (by decide)]
    simp [bound]
  rw [otherStrings,substitute_other (by simp) _ (Nat.zero_le _),mapChildren]
  simp only [map_cons,map_nil,hstring,hnegated]

/-- A string of `2 ^ 63` bytes, which is not empty, is in the type or not by how the empty string is written. -/
theorem long_string_lost :
    BindingsRelated nullMembers (fun _ => True) [⟨typeName,.contravariant⟩]
      [(typeName,.stringLength 0 (some 0))] [(typeName,.stringLiteral ⟨[],by decide⟩)] ∧
    incompatibleParameter (fun _ _ => none) [⟨typeName,.contravariant⟩] otherStrings 1 = none ∧
    SkippedAllowed (fun _ _ => none) (fun _ _ _ => none) [⟨typeName,.contravariant⟩] 1 otherStrings ∧
    Denotes nullMembers (otherStrings.substitute [(typeName,.stringLength 0 (some 0))] 0) longString ∧
    ¬Denotes nullMembers (otherStrings.substitute [(typeName,.stringLiteral ⟨[],by decide⟩)] 0) longString := by
  have hkept : intersectionOf [.string,.negated (.stringLength 0 (some 0))] =
      .intersection [.string,.negated (.stringLength 0 (some 0))] := rfl
  have hmerged : intersectionOf [.string,.negated (.stringLiteral ⟨[],by decide⟩)] = .stringLength 1 none := rfl
  have hparameter : incompatibleParameter (fun _ _ => none) [⟨typeName,.contravariant⟩] (.parameter typeName) (-1) =
      none := by
    rw [incompatibleParameter_eq_none]
    exact ⟨by decide,fun e he => by cases he⟩
  have hnegated : incompatibleParameter (fun _ _ => none) [⟨typeName,.contravariant⟩]
      (.negated (.parameter typeName)) 1 = none := by
    rw [incompatibleParameter_eq_none]
    exact ⟨rfl,fun e he => by rw [mem_singleton.mp he]; exact hparameter⟩
  refine ⟨bindingsRelated_single fun v _ h => ?_,?_,?_,?_,?_⟩
  · simp only [Denotes] at h ⊢
    refine ⟨0,?_,rfl⟩
    rw [Value.asStringLen,h]
    rfl
  · rw [incompatibleParameter_eq_none]
    refine ⟨rfl,fun e he => ?_⟩
    rcases mem_cons.mp he with rfl | he
    · rw [incompatibleParameter_eq_none]
      exact ⟨rfl,fun e he => by cases he⟩
    · rw [mem_singleton.mp he]
      exact hnegated
  · -- the walk skips nothing
    refine .mk (fun e he => by cases he) fun e he => ?_
    rcases mem_cons.mp he with rfl | he
    · exact .mk (fun e he => by cases he) fun e he => by cases he
    rw [mem_singleton.mp he]
    refine .mk (fun e he => by cases he) fun e he => ?_
    rw [mem_singleton.mp he]
    exact .mk (fun e he => by cases he) fun e he => by cases he
  · rw [substitute_otherStrings,hkept,denotes_intersection]
    have hstring : longString.asStringBytes.isSome = true := rfl
    simp [Denotes,hstring,longString_len,TypeCheck.stringLengthMatches]
  · rw [substitute_otherStrings,hmerged]
    simp [Denotes,longString_len,TypeCheck.stringLengthMatches]

end Whim.Variance
