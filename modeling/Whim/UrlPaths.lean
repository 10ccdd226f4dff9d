import Whim.Url

/-!
# Segments of paths

Encoded segments, and how dots among them are resolved.
-/

namespace Whim.Url

open List

/-! ## Encoding -/

/-- What an encoding writes for a byte is outside the set of what is encoded. -/
def Encodes (set : Char → Bool) : Prop := ∀ c ∈ '%'::"0123456789ABCDEF".toList, set c = false

theorem hexDigit_mem {n : ℕ} (hn : n < 16) : hexDigit n ∈ "0123456789ABCDEF".toList := by
  revert n
  decide

variable {set : Char → Bool} {text : Text}

theorem percentEncode_eq_self (h : ∀ c ∈ text, set c = false) : percentEncode set text = text := by
  induction text with
  | nil => rfl
  | cons c r ih =>
    have hr : percentEncode set r = r := ih fun d hd => h d (mem_cons_of_mem c hd)
    rw [percentEncode,flatMap_cons,h c mem_cons_self]
    exact congrArg (c::·) hr

variable {c : Char}

/-- An encoded text has characters of the text that need no encoding, percent signs and digits. -/
theorem mem_percentEncode (h : c ∈ percentEncode set text) :
    (c ∈ text ∧ set c = false) ∨ c ∈ '%'::"0123456789ABCDEF".toList := by
  obtain ⟨d,hd,hc⟩ := mem_flatMap.mp h
  by_cases hset : set d = true
  · rw [if_pos hset] at hc
    obtain ⟨b,_,hb⟩ := mem_flatMap.mp hc
    right
    rcases mem_cons.mp hb with rfl | hb
    · exact mem_cons_self
    refine mem_cons_of_mem _ ?_
    have hlt : b.toNat < 256 := UInt8.toNat_lt_size b
    rcases mem_cons.mp hb with rfl | hb
    · exact hexDigit_mem (by omega)
    · rw [mem_singleton.mp hb]
      exact hexDigit_mem (by omega)
  · rw [if_neg hset,mem_singleton] at hc
    subst hc
    exact .inl ⟨hd,by simpa using hset⟩

theorem percentEncode_encoded (hset : Encodes set) (h : c ∈ percentEncode set text) : set c = false := by
  rcases mem_percentEncode h with hc | hc
  · exact hc.2
  · exact hset c hc

theorem encodes_of_all (h : ('%'::"0123456789ABCDEF".toList).all (!set ·)) :
    Encodes set := fun c hc => by simpa using all_eq_true.mp h c hc

theorem encodes_pathSet : Encodes pathSet := encodes_of_all (by decide)

theorem encodes_userinfoSet : Encodes userinfoSet := encodes_of_all (by decide)

theorem ne_of_set {d : Char} (h : set c = false) (hd : set d) : c ≠ d := by
  rintro rfl
  rw [h] at hd
  cases hd

variable {p : Char → Bool}

/-- A set with all control characters and the space. -/
theorem graphic_of_set (hset : ∀ n < 0x21, p (Char.ofNat n)) (h : p c = false) :
    isControlOrSpace c = false := by
  rw [isControlOrSpace,decide_eq_false_iff_not]
  intro hle
  have hc := hset c.toNat (Nat.lt_succ_of_le hle)
  rw [Char.ofNat_toNat,h] at hc
  cases hc

theorem graphic_of_pathSet (h : pathSet c = false) : isControlOrSpace c = false := graphic_of_set (by decide) h

/-! ## Texts without what a parser removes or stops at -/

theorem tab_of_graphic (h : isControlOrSpace c = false) : isTabOrNewline c = false := by
  rw [isControlOrSpace,decide_eq_false_iff_not] at h
  rw [isTabOrNewline]
  simp only [Bool.or_eq_false_iff,decide_eq_false_iff_not]
  refine ⟨⟨?_,?_⟩,?_⟩ <;> rintro rfl <;> exact h (by decide)

theorem clean_eq_self (h : ∀ c ∈ text, isControlOrSpace c = false) : clean text = text := by
  have hd : text.dropWhile isControlOrSpace = text := by
    cases text with
    | nil => rfl
    | cons c => simp [h c mem_cons_self]
  have hrdrop : text.rdropWhile isControlOrSpace = text := by
    refine rdropWhile_eq_self_iff.mpr fun hne => ?_
    rw [h _ (getLast_mem hne)]
    exact Bool.false_ne_true
  rw [clean,hd,hrdrop]
  refine filter_eq_self.mpr fun c hc => ?_
  rw [tab_of_graphic (h c hc),Bool.not_false]

theorem ne_of_notMem {α : Type} [DecidableEq α] {x : α} {xs : List α} (h : x ∉ xs) :
    ∀ y ∈ xs, decide (y ≠ x) := by
  intro y hy
  rw [decide_eq_true_eq]
  rintro rfl
  exact h hy

theorem cut_of_notMem (h : c ∉ text) : cut c text = (text,none) := by
  rw [cut,takeWhile_eq_self_iff.mpr (ne_of_notMem h),dropWhile_eq_nil_iff.mpr (ne_of_notMem h)]
  rfl

theorem cut_append (h : c ∉ text) (r : Text) : cut c (text++c::r) = (text,some r) := by
  rw [cut,takeWhile_append_of_pos (ne_of_notMem h),dropWhile_append_of_pos (ne_of_notMem h)]
  simp

/-! ## Segments -/

variable {scheme : Text}

/-- An encoded segment. -/
def Plain (special : Bool) (segment : Text) : Prop := ∀ c ∈ segment, pathSet c = false ∧ isSeparator special c = false

/-- An encoded segment that is not resolved. -/
def Settled (special : Bool) (segment : Text) : Prop := Plain special segment ∧ isDot segment = false

theorem settled_nil (special : Bool) : Settled special [] := ⟨nofun,by decide⟩

variable {seg : Text}

theorem isDot_iff : isDot seg = false ↔ isSingleDot seg = false ∧ isDoubleDot seg = false := by
  rw [isDot,Bool.or_eq_false_iff]

theorem mem_of_mem_splitOnP : ∀ piece ∈ text.splitOnP p, ∀ c ∈ piece, c ∈ text ∧ p c = false := by
  induction text with
  | nil => simp
  | cons c r ih =>
    have hr : ∀ piece ∈ r.splitOnP p, ∀ d ∈ piece, d ∈ c::r ∧ p d = false := fun piece hpiece d hd =>
      (ih piece hpiece d hd).imp_left (mem_cons_of_mem c)
    intro piece hpiece
    rw [splitOnP_cons_eq_if_modifyHead] at hpiece
    cases hc : p c with
    | true =>
      rw [if_pos hc] at hpiece
      rcases mem_cons.mp hpiece with rfl | hpiece
      · exact nofun
      · exact hr piece hpiece
    | false =>
      rw [if_neg (by simp [hc])] at hpiece
      cases hsplit : r.splitOnP p with
      | nil => exact absurd hsplit (splitOnP_ne_nil p r)
      | cons f =>
        rw [hsplit] at hpiece hr
        rcases mem_cons.mp hpiece with rfl | hpiece
        · intro d hd
          rcases mem_cons.mp hd with rfl | hd
          · exact ⟨mem_cons_self,hc⟩
          · exact hr f mem_cons_self d hd
        · exact hr piece (mem_cons_of_mem f hpiece)

variable {special : Bool}

theorem digits_not_separator : Encodes (isSeparator special) := encodes_of_all (by cases special <;> decide)

theorem segments_plain {path : Text} (h : seg ∈ segments special path) : Plain special seg := by
  obtain ⟨p,hpiece,rfl⟩ := mem_map.mp h
  intro c hc
  refine ⟨percentEncode_encoded encodes_pathSet hc,?_⟩
  rcases mem_percentEncode hc with ⟨hmem,_⟩ | hdigit
  · exact (mem_of_mem_splitOnP p hpiece c hmem).2
  · exact digits_not_separator c hdigit

theorem written_plain {path : Text} (h : seg ∈ written scheme path) : Plain (isSpecial scheme) seg := by
  rw [written] at h
  split at h
  · cases h
  · exact segments_plain h

theorem writtenPath_plain {value : Text} (h : seg ∈ writtenPath value) :
    Plain (isSpecial (writtenScheme value)) seg := by
  cases hscheme : parseScheme (clean value) with
  | none =>
    rw [writtenPath,hscheme] at h
    cases h
  | some =>
    rw [writtenPath,hscheme] at h
    rw [writtenScheme,hscheme]
    exact written_plain h

variable {f : Text} {r : List Text}

/-- Segments joined by slashes split into themselves. -/
theorem splitOnP_slashed (hslash : p '/') (h : ∀ seg ∈ f::r, ∀ c ∈ seg, p c = false) :
    (f++slashed r).splitOnP p = f::r := by
  induction r generalizing f with
  | nil =>
    rw [slashed,flatMap_nil,append_nil]
    exact splitOnP_eq_singleton (h f mem_cons_self)
  | cons _ _ ih =>
    rw [slashed,flatMap_cons,cons_append,splitOnP_append_cons_of_forall_mem (h f mem_cons_self) _ hslash]
    exact congrArg (f::·) (ih fun seg hmem => h seg (mem_cons_of_mem f hmem))

theorem slashed_intercalate (f : Text) (r : List Text) : '/'::['/'].intercalate (f::r) = slashed (f::r) := by
  induction r generalizing f with
  | nil => simp [slashed]
  | cons next _ ih =>
    rw [intercalate_cons_cons,slashed,flatMap_cons]
    simp [ih next,slashed]

theorem split_slashed {ns : List Text} (h : ∀ name ∈ ns, '/' ∉ name) :
    (slashed ns).splitOnP (fun c => c = '/') = []::ns := by
  change ([]++slashed ns).splitOnP _ = _
  refine splitOnP_slashed (by decide) (forall_mem_cons.mpr ⟨nofun,fun name hn c hc => ?_⟩)
  rw [decide_eq_false_iff_not]
  rintro rfl
  exact h name hn hc

theorem slashed_injective {ss others : List Text} (h : ∀ seg ∈ ss, '/' ∉ seg)
    (hothers : ∀ seg ∈ others, '/' ∉ seg) (heq : slashed ss = slashed others) : ss = others := by
  have hsplit := split_slashed h
  rw [heq,split_slashed hothers] at hsplit
  exact (cons_eq_cons.mp hsplit).2.symm

/-! ## Dots -/

theorem normalDriveLetter_eq (seg : Text) :
    normalDriveLetter seg = seg ∨ ∃ c ∈ seg, c.isAlpha ∧ normalDriveLetter seg = [c,':'] := by
  unfold normalDriveLetter
  split
  next hdrive =>
    unfold isDriveLetter at hdrive
    split at hdrive
    next c d => exact .inr ⟨c,mem_cons_self,(Bool.and_eq_true_iff.mp hdrive).1,rfl⟩
    next => cases hdrive
  next => exact .inl rfl

theorem normalDriveLetter_idem (seg : Text) : normalDriveLetter (normalDriveLetter seg) = normalDriveLetter seg := by
  rcases normalDriveLetter_eq seg with heq | ⟨c,-,hc,heq⟩
  · rw [heq,heq]
  · rw [heq]
    simp [normalDriveLetter,isDriveLetter,hc]

theorem normalDriveLetter_settled (h : Settled special seg) : Settled special (normalDriveLetter seg) := by
  rcases normalDriveLetter_eq seg with heq | ⟨c,hc,-,heq⟩
  · rwa [heq]
  rw [heq]
  refine ⟨forall_mem_cons.mpr ⟨h.1 c hc,forall_mem_singleton.mpr ⟨by decide,?_⟩⟩,?_⟩
  · cases special <;> decide
  · simp [isDot,isSingleDot,isDoubleDot]

variable {file : Bool} {path : List Text}

theorem pushSegment_settled {last : Bool} (hp : ∀ s ∈ path, Settled special s) (hsegment : Plain special seg) :
    ∀ s ∈ pushSegment file path seg last, Settled special s := by
  have hl : ∀ s ∈ (if last = true then [([] : Text)] else []), Settled special s := by
    intro s hs
    cases last with
    | false => cases hs
    | true =>
      rw [mem_singleton.mp hs]
      exact settled_nil special
  have hshort : ∀ s ∈ shorten file path, Settled special s := by
    intro s hs
    refine hp s ?_
    unfold shorten at hs
    split at hs
    · split at hs
      · exact hs
      · cases hs
    · exact (dropLast_sublist path).mem hs
  unfold pushSegment
  cases hdouble : isDoubleDot seg with
  | true => exact fun s hs => (mem_append.mp hs).elim (hshort s) (hl s)
  | false =>
    cases hsingle : isSingleDot seg with
    | true => exact fun s hs => (mem_append.mp hs).elim (hp s) (hl s)
    | false =>
      have hk : Settled special seg := ⟨hsegment,isDot_iff.mpr ⟨hsingle,hdouble⟩⟩
      cases file && path.isEmpty with
      | true => exact fun s hs => mem_singleton.mp hs ▸ normalDriveLetter_settled hk
      | false => exact fun s hs => (mem_append.mp hs).elim (hp s) fun h => mem_singleton.mp h ▸ hk

theorem resolve_settled {ss : List Text} (hp : ∀ s ∈ path, Settled special s) (hsegments : ∀ s ∈ ss, Plain special s) :
    ∀ s ∈ resolve file path ss, Settled special s := by
  induction ss generalizing path with
  | nil => exact hp
  | cons seg r ih =>
    have hpush : ∀ last, ∀ s ∈ pushSegment file path seg last, Settled special s := fun last =>
      pushSegment_settled hp (hsegments seg mem_cons_self)
    cases r with
    | nil => exact hpush true
    | cons => exact ih (hpush false) fun s hs => hsegments s (mem_cons_of_mem seg hs)

section
variable (hf : file = false ∨ path ≠ [])
include hf

theorem pushSegment_of_settled {last : Bool} (hdot : isDot seg = false) :
    pushSegment file path seg last = path++[seg] := by
  have hboth := isDot_iff.mp hdot
  have hnil : (file && path.isEmpty) = false := by
    rcases hf with rfl | hne
    · rfl
    · rw [isEmpty_eq_false_iff.mpr hne,Bool.and_false]
  rw [pushSegment,hboth.1,hboth.2,hnil]
  rfl

/-- Segments that are no dots are kept, and the last one is read as it is. -/
theorem resolve_concat {init : List Text} {last : Text} (hd : ∀ s ∈ init, isDot s = false) :
    resolve file path (init++[last]) = pushSegment file (path++init) last true := by
  induction init generalizing path with
  | nil => rw [nil_append,resolve,append_nil]
  | cons seg r ih =>
    have hpush : pushSegment file path seg false = path++[seg] :=
      pushSegment_of_settled hf (hd seg mem_cons_self)
    have hnext : ∀ more : List Text, more ≠ [] →
        resolve file path (seg::more) = resolve file (path++[seg]) more := by
      intro more hmore
      cases more with
      | nil => exact absurd rfl hmore
      | cons => rw [resolve,hpush]
    rw [cons_append,hnext (r++[last]) (by simp),
      ih (.inr (by simp)) fun s hs => hd s (mem_cons_of_mem seg hs)]
    simp

theorem resolve_of_settled {ss : List Text} (hd : ∀ s ∈ ss, isDot s = false) : resolve file path ss = path++ss := by
  rcases eq_nil_or_concat ss with rfl | ⟨init,last,rfl⟩
  · rw [resolve,append_nil]
  rw [concat_eq_append] at hd ⊢
  have hinit : ∀ s ∈ init, isDot s = false := fun s hs => hd s (by simp [hs])
  rw [resolve_concat hf hinit]
  have hp : file = false ∨ path++init ≠ [] := hf.imp_right fun hne => by simp [hne]
  rw [pushSegment_of_settled hp (hd last (by simp)),append_assoc]

end

theorem resolve_file (hd : ∀ s ∈ f::r, isDot s = false) : resolve true [] (f::r) = normalDriveLetter f::r := by
  have hboth := isDot_iff.mp (hd f mem_cons_self)
  have hpush : ∀ last, pushSegment true [] f last = [normalDriveLetter f] := by
    intro last
    rw [pushSegment,hboth.1,hboth.2]
    rfl
  cases r with
  | nil => rw [resolve,hpush]
  | cons =>
    rw [resolve,hpush,resolve_of_settled (.inr (by simp)) fun s hs => hd s (mem_cons_of_mem f hs)]
    rfl

theorem segments_slashed (h : ∀ seg ∈ f::r, Plain special seg) :
    segments special (skipSeparator special (slashed (f::r))) = f::r := by
  have hskip : skipSeparator special (slashed (f::r)) = f++slashed r := by
    rw [slashed,flatMap_cons,cons_append,skipSeparator,if_pos (by simp [isSeparator])]
    rfl
  have hsplit := splitOnP_slashed (p := isSeparator special) (by simp [isSeparator])
    fun seg hmem c hc => (h seg hmem c hc).2
  rw [segments,hskip,hsplit,map_congr_left fun seg hmem => ?_,map_id']
  exact percentEncode_eq_self fun c hc => (h seg hmem c hc).1

theorem written_slashed (h : ∀ seg ∈ f::r, Plain (isSpecial scheme) seg) :
    written scheme (slashed (f::r)) = f::r := by
  have hne : slashed (f::r) ≠ [] := by simp [slashed]
  rw [written,if_neg (by simp [hne])]
  exact segments_slashed h

end Whim.Url
