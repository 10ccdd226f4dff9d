import Whim.SourceIdentity

/-!
# The path of a source

A source has the components of the path that was written, unless a relative segment is among them.
-/

namespace Whim.Source

open Url List

variable {U F : Type} {crate : Crate U F} {url : U} {v : Text} {names : List Text} {source : Source}

/-- The non-empty components of the path of a URL as they are written. -/
def writtenNames (value : Text) : List Text := (writtenPath value).filter fun name => name ≠ []

def expectedNames (value : Text) : List Text := withoutSuffix (writtenScheme value) (writtenNames value)

/-- No component is relative, and the drive letter of a file is written with a colon. -/
def Unresolved (value : Text) : Prop :=
  (∀ name ∈ expectedNames value, isDot name = false) ∧
    (writtenScheme value = file → ∀ first ∈ (expectedNames value).head?, normalDriveLetter first = first)

theorem Accepted.names_eq (h : Accepted crate v url source) (laws : crate.Laws) :
    components (rawPath source.identity) = remaining v := by
  obtain ⟨authority,hbefore,hchars,-⟩ := laws.beforePath_eq h.canonical.toLocated
  have hplain : ∀ name ∈ remaining v, Plain (isSpecial (crate.scheme url)) name :=
    fun name hn => (h.remaining_settled hn).1
  have hlead : ':' ∉ "git+".toList++crate.scheme url := by
    intro hmem
    rcases mem_append.mp hmem with hmem | hmem
    · revert hmem
      decide
    · exact colon_notMem h.canonical.known_cases hmem
  have ht : source.identity =
      ("git+".toList++crate.scheme url) ++ ':' :: '/' :: '/'::(authority++slashed (remaining v)) := by
    rw [h.source_eq,ofFetch,hbefore]
    simp
  rw [ht,rawPath_front hlead (fun hmem => hchars _ hmem (by decide)) hplain,
    components_slashed fun name hn => slash_notMem (hplain name hn)]
  exact filter_nonempty h.nil_notMem

/-- A dot has no suffix to lose. -/
theorem dropSuffix_of_isDot {name : Text} (h : isDot name) : name.dropSuffix? gitSuffix = none := by
  simp only [isDot,isSingleDot,isDoubleDot,any_cons,any_nil,Bool.or_false,Bool.or_eq_true,
    decide_eq_true_eq] at h
  rcases h with (h | h | h) | h | h | h | h | h | h | h | h | h <;> rw [h] <;> decide

variable {rest s text : Text}

/-- If no expected component is a dot, none was written. -/
theorem not_isDot_of_expected (h : ∀ name ∈ withoutSuffix s names, isDot name = false) :
    ∀ name ∈ names, isDot name = false := by
  intro name hn
  have hne : names ≠ [] := ne_nil_of_mem hn
  obtain ⟨last,hl⟩ := Option.ne_none_iff_exists'.mp (mt getLast?_eq_none_iff.mp hne)
  have hconcat : names.dropLast++[last] = names := dropLast_append_getLast? last hl
  rw [withoutSuffix,hl] at h
  by_cases hf : s = file
  · simp only [if_pos hf] at h
    exact h name hn
  simp only [if_neg hf] at h
  rw [← hconcat] at hn
  rcases mem_append.mp hn with hinit | heq
  · exact h name (mem_append_left _ hinit)
  rw [mem_singleton.mp heq]
  by_contra hdot
  have hsuffix := dropSuffix_of_isDot (Bool.not_eq_false _ ▸ hdot)
  refine hdot (h last (mem_append_right _ ?_))
  rw [hsuffix]
  exact mem_singleton_self last

theorem written_settled (h : Unresolved v) : ∀ segment ∈ writtenPath v, isDot segment = false := by
  intro segment hmem
  by_cases hnil : segment = []
  · rw [hnil]
    decide
  · exact not_isDot_of_expected h.1 segment (mem_filter.mpr ⟨hmem,by simpa using hnil⟩)

theorem withoutSuffix_file (names : List Text) : withoutSuffix file names = names := by
  rw [withoutSuffix]
  cases hl : names.getLast? with
  | none => exact (getLast?_eq_none_iff.mp hl).symm
  | some => simp

theorem parsedNames_eq (h : Unresolved v) : parsedNames v = writtenNames v := by
  have hd := written_settled h
  rw [parsedNames,kept,writtenNames]
  cases hf : isFile (writtenScheme v) with
  | false => rw [resolve_of_settled (.inl rfl) hd,nil_append]
  | true =>
    have hscheme := isFile_iff.mp hf
    cases hp : writtenPath v with
    | nil => rfl
    | cons f =>
      rw [hp] at hd
      rw [resolve_file hd]
      by_cases hnil : f = []
      · rw [hnil]
        rfl
      have hfirst : normalDriveLetter f = f := by
        refine h.2 hscheme f ?_
        rw [expectedNames,hscheme,withoutSuffix_file,writtenNames,hp,filter_cons_of_pos (by simpa using hnil)]
        rfl
      rw [hfirst]

theorem Accepted.remaining_expected (haccepted : Accepted crate v url source) (h : Unresolved v) :
    remaining v = expectedNames v := by
  have hexpected : withoutSuffix (crate.scheme url) (parsedNames v) = expectedNames v := by
    rw [haccepted.scheme,parsedNames_eq h,expectedNames]
  have hsettable := haccepted.settable
  rw [hexpected] at hsettable
  rw [haccepted.remaining_eq,hexpected]
  have hresolve : Url.resolve (isFile (crate.scheme url)) [] (expectedNames v) = expectedNames v := by
    cases hf : isFile (crate.scheme url) with
    | false => exact resolve_of_settled (.inl rfl) h.1
    | true =>
      cases hnames : expectedNames v with
      | nil => rfl
      | cons f =>
        have hd := h.1
        have hfirst : normalDriveLetter f = f := by
          refine h.2 (haccepted.scheme.symm.trans (isFile_iff.mp hf)) f ?_
          rw [hnames]
          rfl
        rw [hnames] at hd
        rw [resolve_file hd,hfirst]
  rw [kept,hresolve]
  exact filter_nonempty hsettable.nonempty

theorem Accepted.unresolved_of_remaining (haccepted : Accepted crate v url source)
    (h : remaining v = expectedNames v) : Unresolved v := by
  refine ⟨fun name hn => ?_,fun hscheme f hfirst => ?_⟩
  · rw [← h] at hn
    exact (haccepted.remaining_settled hn).2
  rw [← h] at hfirst
  have hf := isFile_iff.mpr (haccepted.scheme.trans hscheme)
  have hk := (haccepted.settable.kept_file hf).2
  rw [← haccepted.remaining_eq] at hk
  cases hnames : remaining v with
  | nil =>
    rw [hnames] at hfirst
    cases hfirst
  | cons head rest =>
    rw [hnames] at hfirst hk
    have hd : ∀ name ∈ head::rest, isDot name = false := by
      intro name hn
      rw [← hnames] at hn
      exact (haccepted.remaining_settled hn).2
    rw [resolve_file hd] at hk
    cases hfirst
    exact (cons_eq_cons.mp hk).1

theorem length_withoutSuffix (s : Text) (names : List Text) : (withoutSuffix s names).length = names.length := by
  unfold withoutSuffix
  cases hl : names.getLast? with
  | none => rw [getLast?_eq_none_iff.mp hl]
  | some last =>
    have hconcat := congrArg List.length (dropLast_append_getLast? last hl)
    dsimp only
    split
    · rfl
    · rw [← hconcat]
      simp only [length_append,length_singleton]

/-! ## Ordinary texts -/

/-- A text that the URL parser leaves as it is, with an authority where one is expected. -/
structure Ordinary (value : Text) : Prop where
  chars : ∀ c ∈ value, pathSet c = false ∧ c ≠ '\\'
  divided : ∃ scheme rest, value = scheme ++ ':' :: '/' :: '/'::rest ∧ ':' ∉ scheme ∧
    (rest.head? = some '/' ↔ writtenScheme value = file)

variable {special : Bool}

theorem isSeparator_eq {c : Char} (h : c ≠ '\\') : isSeparator special c = decide (c = '/') := by
  simp [isSeparator,h]

theorem splitOnP_separator (h : '\\' ∉ text) :
    text.splitOnP (isSeparator special) = text.splitOnP fun c => c = '/' := by
  induction text with
  | nil => rfl
  | cons _ _ ih =>
    rw [splitOnP_cons_eq_if_modifyHead,splitOnP_cons_eq_if_modifyHead,isSeparator_eq (ne_of_not_mem_cons h).symm,
      ih (not_mem_of_not_mem_cons h)]

/-- The segments of a path of ordinary characters are its components. -/
theorem written_components {path : Text} (hstart : path = [] ∨ path.head? = some '/')
    (h : ∀ c ∈ path, pathSet c = false ∧ c ≠ '\\') :
    ((written s path).filter fun name => name ≠ []) = components path := by
  rcases hstart with rfl | hslash
  · cases hspecial : isSpecial s <;> simp [written,components,hspecial,segments,skipSeparator,percentEncode]
  cases path with
  | nil => cases hslash
  | cons c rest =>
    rw [head?_cons,Option.some_inj] at hslash
    subst hslash
    have hmem : ∀ d ∈ rest, pathSet d = false ∧ d ≠ '\\' := fun d hd => h d (mem_cons_of_mem _ hd)
    have hskip : skipSeparator (isSpecial s) ('/'::rest) = rest := by simp [skipSeparator,isSeparator]
    have hsegments : segments (isSpecial s) rest = rest.splitOnP fun d => d = '/' := by
      rw [segments,splitOnP_separator fun hback => (hmem _ hback).2 rfl]
      rw [map_congr_left fun p hpiece => ?_,map_id']
      exact percentEncode_eq_self fun d hd => (hmem d (mem_of_mem_splitOnP p hpiece d hd).1).1
    rw [written,if_neg (by simp),hskip,hsegments,components,splitOnP_cons_eq_if_modifyHead,if_pos (by simp)]
    exact (filter_cons_of_neg (by simp)).symm

theorem parseScheme_eq (h : parseScheme text = some (s,rest)) : cut ':' text = ((cut ':' text).1,some rest) := by
  have hcolon : ':' ∉ text.takeWhile isSchemeChar := fun hmem => by
    have := mem_takeWhile_imp hmem
    revert this
    decide
  have hsplit : text.takeWhile isSchemeChar++text.dropWhile isSchemeChar = text := takeWhile_append_dropWhile
  unfold parseScheme at h
  split at h
  next hd =>
    split at h <;> cases h
    rw [hd] at hsplit
    rw [← hsplit,cut_append hcolon]
  next => cases h

theorem dropWhile_separator (h : '\\' ∉ text) :
    (text.dropWhile fun c => !isSeparator special c) = text.dropWhile fun c => c ≠ '/' := by
  induction text with
  | nil => rfl
  | cons _ _ ih =>
    rw [dropWhile_cons,dropWhile_cons,isSeparator_eq (ne_of_not_mem_cons h).symm,ih (not_mem_of_not_mem_cons h),
      decide_not]

theorem divide_ordinary (hknown : s = https ∨ s = ssh ∨ s = file)
    (hslash : rest.head? = some '/' ↔ s = file) (hback : '\\' ∉ rest) :
    (divide s ('/' :: '/'::rest)).2 = rest.dropWhile fun c => c ≠ '/' := by
  by_cases hf : s = file
  · cases rest with
    | nil => cases hslash.mpr hf
    | cons =>
      have hc := hslash.mpr hf
      rw [head?_cons,Option.some_inj] at hc
      subst hc hf
      rfl
  · have hspecial : ∀ special, (('/' :: '/'::rest).dropWhile (isSeparator special)) = rest := by
      intro special
      cases rest with
      | nil => rfl
      | cons c =>
        have hc : c ≠ '/' := fun heq => hf (hslash.mp (by rw [heq]; rfl))
        have hb : c ≠ '\\' := fun heq => hback (heq ▸ mem_cons_self)
        simp [isSeparator,hc,hb]
    rcases hknown with rfl | rfl | rfl
    · show ((('/' :: '/'::rest).dropWhile (isSeparator true)).dropWhile fun c => !isSeparator true c) = _
      rw [hspecial,dropWhile_separator hback]
    · exact dropWhile_separator hback
    · exact absurd rfl hf

theorem Ordinary.names_eq (h : Ordinary v)
    (hknown : writtenScheme v = https ∨ writtenScheme v = ssh ∨ writtenScheme v = file) :
    writtenNames v = components (rawPath v) := by
  obtain ⟨lead,rest,ht,hlead,hslash⟩ := h.divided
  have hr : ∀ c ∈ rest, pathSet c = false ∧ c ≠ '\\' := fun c hc => h.chars c (by simp [ht,hc])
  have hclean : clean v = v := clean_eq_self fun c hc => graphic_of_pathSet (h.chars c hc).1
  cases hscheme : parseScheme v with
  | none =>
    have hnil : writtenScheme v = [] := by rw [writtenScheme,hclean,hscheme]
    rw [hnil] at hknown
    rcases hknown with heq | heq | heq <;> cases heq
  | some parts =>
    obtain ⟨s,after⟩ := parts
    have hwritten : writtenScheme v = s := by rw [writtenScheme,hclean,hscheme]
    have hafter : after = '/' :: '/'::rest := by
      have hcut := parseScheme_eq hscheme
      rw [ht,cut_append hlead] at hcut
      cases hcut
      rfl
    have hquery : ∀ c ∈ after, c ≠ '?' ∧ c ≠ '#' := by
      intro c hc
      have hset := (h.chars c (by simp [ht,← hafter,hc])).1
      exact ⟨ne_of_set hset (by decide),ne_of_set hset (by decide)⟩
    rw [hwritten] at hknown hslash
    have hback : '\\' ∉ rest := fun hmem => (hr _ hmem).2 rfl
    have hp : writtenPath v = written s (rest.dropWhile fun c => c ≠ '/') := by
      rw [writtenPath,hclean,hscheme]
      dsimp only
      rw [cut_of_notMem fun hmem => (hquery _ hmem).2 rfl,cut_of_notMem fun hmem => (hquery _ hmem).1 rfl,hafter,
        divide_ordinary hknown hslash hback]
    have hmem : ∀ c ∈ rest.dropWhile (fun c => c ≠ '/'), pathSet c = false ∧ c ≠ '\\' := fun c hc =>
      hr c ((dropWhile_sublist _).mem hc)
    have hraw : rawPath v = rest.dropWhile fun c => c ≠ '/' := by
      rw [rawPath,ht,splitOnce_append hlead]
      refine takeWhile_eq_self_iff.mpr fun c hc => ?_
      rw [Bool.and_eq_true,decide_eq_true_eq,decide_eq_true_eq]
      exact ⟨ne_of_set (hmem c hc).1 (by decide),ne_of_set (hmem c hc).1 (by decide)⟩
    have hstart : (rest.dropWhile fun c => c ≠ '/') = [] ∨ (rest.dropWhile fun c => c ≠ '/').head? = some '/' := by
      cases hd : rest.dropWhile fun c => c ≠ '/' with
      | nil => exact .inl rfl
      | cons c =>
        right
        have hhead := head?_dropWhile_not (fun c => decide (c ≠ '/')) rest
        rw [hd] at hhead
        simpa using hhead
    rw [writtenNames,hp,hraw]
    exact written_components hstart hmem

/-! ## The path of a source -/

/-- What the path of a source has to do with the path that was written. -/
structure FollowsText (value : Text) (source : Source) : Prop where
  names : components (rawPath source.identity) = expectedNames (urlText value) ↔ Unresolved (urlText value)
  count : Unresolved (urlText value) →
    (components (rawPath source.identity)).length = (writtenNames (urlText value)).length
  text : Ordinary (urlText value) → writtenNames (urlText value) = components (rawPath (urlText value))

/-- The components of a source are those written, the last one without one `.git`, exactly when none is relative. -/
theorem names_of_source (crate : Crate U F) (laws : crate.Laws) (value : Text) (source : Source)
    (h : parse crate value = .ok source) : FollowsText value source := by
  obtain ⟨url,haccepted⟩ := accepted_of_parse laws h
  refine ⟨?_,fun hunresolved => ?_,fun hordinary => ?_⟩
  · rw [haccepted.names_eq laws]
    exact ⟨haccepted.unresolved_of_remaining,haccepted.remaining_expected⟩
  · rw [haccepted.names_eq laws,haccepted.remaining_expected hunresolved,expectedNames,length_withoutSuffix]
  refine hordinary.names_eq ?_
  rw [← haccepted.scheme]
  exact haccepted.canonical.known_cases

theorem names_of_source_library : parse (standard nameHosts) "git@github.com:acme/library.git".toList =
      .ok (ofFetch "ssh://git@github.com/acme/library".toList) ∧
    components (rawPath (ofFetch "ssh://git@github.com/acme/library".toList).identity) =
      ["acme".toList,"library".toList] := by
  have hparse : parse (standard nameHosts) "git@github.com:acme/library.git".toList =
      .ok (ofFetch "ssh://git@github.com/acme/library".toList) := by decide +kernel
  have hfollows := names_of_source (standard nameHosts) (standard_laws nameHosts) _ _ hparse
  have hunresolved : Unresolved (urlText "git@github.com:acme/library.git".toList) :=
    ⟨by decide +kernel,fun hfile => absurd hfile (by decide +kernel)⟩
  refine ⟨hparse,(hfollows.names.mpr hunresolved).trans ?_⟩
  decide +kernel

/-- What the suffix leaves is a relative segment, which takes a component with it. -/
theorem suffix_leaves_relative_segment :
    parse (standard nameHosts) "https://github.com/acme/library/...git".toList =
      .ok (ofFetch "https://github.com/acme".toList) ∧
    components (rawPath (ofFetch "https://github.com/acme".toList).identity) = ["acme".toList] ∧
    components (rawPath "https://github.com/acme/library/...git".toList) =
      ["acme".toList,"library".toList,"...git".toList] :=
  ⟨by decide +kernel,by decide +kernel,by decide +kernel⟩

end Whim.Source
