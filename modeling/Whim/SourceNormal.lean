import Whim.Source
import Whim.UrlPaths

/-!
# The normal form of a source

A source is what is written before the path of a URL, and the components that are left of the path. Reading it again
gives the same URL with these components.
-/

namespace Whim.Source

open Url List

variable {U F : Type} {crate : Crate U F} {url : U} {scheme v : Text} {ns : List Text}

/-- The non-empty components of a path. -/
def components (path : Text) : List Text := (path.splitOnP fun c => c = '/').filter fun name => name ≠ []

/-- The components, the last one without one `.git` unless they are those of a file. -/
def withoutSuffix (scheme : Text) (names : List Text) : List Text :=
  match names.getLast? with
  | none => []
  | some last => if scheme = file then names else names.dropLast++[(last.dropSuffix? gitSuffix).getD last]

/-- The components that are left when a path of these is set. -/
def kept (scheme : Text) (names : List Text) : List Text :=
  (resolve (isFile scheme) [] names).filter fun name => name ≠ []

/-! ## Components -/

theorem collect_eq {ns : List Text} (h : ∀ name ∈ ns, isDot name = false) :
    (collect ns : Except (Error F) (List Text)) = .ok (ns.filter fun name => name ≠ []) := by
  induction ns with
  | nil => rfl
  | cons name _ ih =>
    have hr := ih fun o hmem => h o (mem_cons_of_mem name hmem)
    by_cases hn : name = []
    · subst hn
      rw [collect,if_pos rfl,hr]
      simp
    · have hd : (name = ".".toList || name = "..".toList) = false := by
        have hdot := h name mem_cons_self
        rw [Bool.or_eq_false_iff,decide_eq_false_iff_not,decide_eq_false_iff_not]
        constructor <;> rintro rfl <;> revert hdot <;> decide
      rw [collect,if_neg hn,if_neg (by rw [hd]; decide),hr]
      simp [Except.map,hn]

variable {special : Bool} {name : Text}

theorem slash_notMem (h : Plain special name) : '/' ∉ name :=
  fun hmem => absurd (h '/' hmem).2 (by simp [isSeparator])

theorem components_slashed (h : ∀ name ∈ ns, '/' ∉ name) :
    components (slashed ns) = ns.filter fun name => name ≠ [] := by
  rw [components,split_slashed h]
  simp

theorem stripSuffix_eq_ok {stripped : List Text} (hne : [] ∉ ns)
    (h : (stripSuffix scheme ns : Except (Error F) (List Text)) = .ok stripped) :
    ns ≠ [] ∧ stripped = withoutSuffix scheme ns ∧ [] ∉ stripped := by
  unfold stripSuffix at h
  unfold withoutSuffix
  cases hl : ns.getLast? with
  | none =>
    rw [hl] at h
    cases h
  | some last =>
    have hnames : ns ≠ [] := by
      rintro rfl
      cases hl
    simp only [hl] at h
    by_cases hf : scheme = file
    · rw [if_pos hf] at h
      cases h
      exact ⟨hnames,by simp [hf],hne⟩
    · have hconcat : ns.dropLast++[last] = ns := dropLast_append_getLast? last hl
      rw [if_neg hf] at h
      cases hstrip : last.dropSuffix? gitSuffix with
      | none =>
        simp only [hstrip] at h
        cases h
        exact ⟨hnames,by simp [hf,hstrip,hconcat],hne⟩
      | some =>
        simp only [hstrip] at h
        split at h
        · cases h
        next hshort =>
          cases h
          refine ⟨hnames,by simp [hf,hstrip],fun hmem => ?_⟩
          rcases mem_append.mp hmem with hmem | hmem
          · exact hne ((dropLast_sublist ns).mem hmem)
          · exact hshort (mem_singleton.mp hmem).symm

/-- Components that a path can be set from: only the last one may be a dot, and for a file none is. -/
structure Settable (scheme : Text) (names : List Text) : Prop where
  ne_nil : names ≠ []
  nonempty : [] ∉ names
  plain : ∀ name ∈ names, Plain (isSpecial scheme) name
  init : ∀ name ∈ names.dropLast, isDot name = false
  file : isFile scheme = true → ∀ name ∈ names, isDot name = false

theorem isFile_iff : isFile scheme ↔ scheme = file := by rw [isFile,decide_eq_true_eq,file]

theorem not_isFile (h : scheme ≠ file) : isFile scheme = false := Bool.eq_false_iff.mpr (mt isFile_iff.mp h)

variable {last lead : Text}

theorem suffix_plain (h : Plain special last) : Plain special ((last.dropSuffix? gitSuffix).getD last) := by
  cases hstrip : last.dropSuffix? gitSuffix with
  | none => exact h
  | some =>
    obtain ⟨suffix,rfl,_⟩ := dropSuffix?_eq_some_iff.mp hstrip
    exact fun c hc => h c (mem_append_left suffix hc)

theorem settable_withoutSuffix (hne : ns ≠ []) (hsettled : ∀ name ∈ ns, Settled (isSpecial scheme) name)
    (hnonempty : [] ∉ withoutSuffix scheme ns) : Settable scheme (withoutSuffix scheme ns) := by
  obtain ⟨last,hl⟩ := Option.ne_none_iff_exists'.mp (mt getLast?_eq_none_iff.mp hne)
  have hmem : last ∈ ns := mem_of_getLast? hl
  have hinit : ∀ name ∈ ns.dropLast, Settled (isSpecial scheme) name := fun name hn =>
    hsettled name ((dropLast_sublist ns).mem hn)
  by_cases hf : scheme = file
  · have heq : withoutSuffix scheme ns = ns := by rw [withoutSuffix,hl]; simp [hf]
    rw [heq] at hnonempty ⊢
    exact ⟨hne,hnonempty,fun name h => (hsettled name h).1,fun name h => (hinit name h).2,
      fun _ name h => (hsettled name h).2⟩
  · have heq : withoutSuffix scheme ns = ns.dropLast++[(last.dropSuffix? gitSuffix).getD last] := by
      rw [withoutSuffix,hl]
      simp [hf]
    rw [heq] at hnonempty ⊢
    refine ⟨by simp,hnonempty,fun name h => ?_,fun name h => ?_,fun h => absurd (isFile_iff.mp h) hf⟩
    · rcases mem_append.mp h with h | h
      · exact (hinit name h).1
      · rw [mem_singleton.mp h]
        exact suffix_plain (hsettled last hmem).1
    · rw [dropLast_concat] at h
      exact (hinit name h).2

theorem settable_of_settled (hne : ns ≠ []) (hnonempty : [] ∉ ns)
    (hsettled : ∀ name ∈ ns, Settled (isSpecial scheme) name) : Settable scheme ns :=
  ⟨hne,hnonempty,fun name h => (hsettled name h).1,
    fun name h => (hsettled name ((dropLast_sublist ns).mem h)).2,fun _ name h => (hsettled name h).2⟩

theorem filter_nonempty (h : [] ∉ ns) : (ns.filter fun name => name ≠ []) = ns := filter_eq_self.mpr (ne_of_notMem h)

theorem shorten_false (ns : List Text) : shorten false ns = ns.dropLast := by
  unfold shorten
  split <;> rfl

variable {init : List Text}

/-- What a path leaves of its components, before a slash at the end. -/
theorem Settable.resolve_concat (h : Settable scheme (init++[last]))
    (hf : isFile scheme = false) : ∃ tail, (tail = [] ∨ tail = [[]]) ∧
      Url.resolve (isFile scheme) [] (init++[last]) = (if isDoubleDot last then init.dropLast
        else if isSingleDot last then init else init++[last])++tail ∧
      [] ∉ if isDoubleDot last then init.dropLast else if isSingleDot last then init else init++[last] := by
  have hd := h.init
  rw [dropLast_concat] at hd
  have hinit : [] ∉ init := fun hmem => h.nonempty (mem_append_left [last] hmem)
  rw [hf,Url.resolve_concat (.inl rfl) hd,nil_append,pushSegment,shorten_false]
  cases isDoubleDot last with
  | true => exact ⟨[[]],.inr rfl,rfl,fun hmem => hinit ((dropLast_sublist init).mem hmem)⟩
  | false =>
    cases isSingleDot last with
    | true => exact ⟨[[]],.inr rfl,rfl,hinit⟩
    | false => exact ⟨[],.inl rfl,(append_nil _).symm,h.nonempty⟩

/-- Setting a path keeps the components, or leaves a slash at the end where a last dot was. -/
theorem Settable.resolve (h : Settable scheme ns) : resolve (isFile scheme) [] ns = kept scheme ns ∨
    (isFile scheme = false ∧ Url.resolve (isFile scheme) [] ns = kept scheme ns++[[]]) := by
  unfold kept
  cases hf : isFile scheme with
  | true =>
    left
    cases ns with
    | nil => exact absurd rfl h.ne_nil
    | cons f =>
      rw [resolve_file (h.file hf)]
      refine (filter_nonempty fun hmem => ?_).symm
      rcases mem_cons.mp hmem with hnil | hmem
      · refine h.nonempty (mem_cons.mpr (.inl ?_))
        unfold normalDriveLetter at hnil
        split at hnil
        · exact absurd hnil.symm (by simp)
        · exact hnil
      · exact h.nonempty (mem_cons_of_mem f hmem)
  | false =>
    obtain ⟨init,last,hconcat⟩ := (eq_nil_or_concat ns).resolve_left h.ne_nil
    rw [concat_eq_append] at hconcat
    subst hconcat
    obtain ⟨tail,ht,heq,hl⟩ := h.resolve_concat hf
    rw [hf] at heq
    rw [heq,filter_append,filter_nonempty hl]
    rcases ht with rfl | rfl
    · exact .inl rfl
    · exact .inr ⟨rfl,by simp⟩

theorem kept_concat (hf : isFile scheme = false)
    (h : Settable scheme (init++[last])) : kept scheme (init++[last]) =
      if isDoubleDot last then init.dropLast else if isSingleDot last then init else init++[last] := by
  obtain ⟨tail,ht,heq,hl⟩ := h.resolve_concat hf
  rw [kept,heq,filter_append,filter_nonempty hl]
  rcases ht with rfl | rfl <;> exact append_nil _

theorem Settable.kept_settled (h : Settable scheme ns) (hmem : name ∈ kept scheme ns) :
    Settled (isSpecial scheme) name := resolve_settled (forall_mem_nil _) h.plain name (mem_filter.mp hmem).1

theorem nil_notMem_kept : [] ∉ kept scheme ns := fun hmem => by simpa using (mem_filter.mp hmem).2

theorem Settable.kept_file (h : Settable scheme ns) (hf : isFile scheme) :
    kept scheme ns ≠ [] ∧ Url.resolve true [] (kept scheme ns) = kept scheme ns := by
  have hresolve := h.resolve
  rw [hf] at hresolve
  have heq : Url.resolve true [] ns = kept scheme ns := hresolve.resolve_right fun hr => nomatch hr.1
  cases ns with
  | nil => exact absurd rfl h.ne_nil
  | cons f rest =>
    have hd := h.file hf
    rw [resolve_file hd] at heq
    rw [← heq]
    refine ⟨cons_ne_nil _ _,?_⟩
    have hagain : ∀ name ∈ normalDriveLetter f::rest, isDot name = false := by
      intro name hn
      rw [heq] at hn
      exact (h.kept_settled hn).2
    rw [resolve_file hagain,normalDriveLetter_idem]

/-- What is left is left as it is. -/
theorem Settable.kept_kept (h : Settable scheme ns) : kept scheme (kept scheme ns) = kept scheme ns := by
  have hresolve : Url.resolve (isFile scheme) [] (kept scheme ns) = kept scheme ns := by
    cases hf : isFile scheme with
    | true => exact (h.kept_file hf).2
    | false => exact resolve_of_settled (.inl rfl) fun name hn => (h.kept_settled hn).2
  rw [kept,hresolve]
  exact filter_nonempty nil_notMem_kept

/-! ## Texts of sources -/

theorem slashed_concat (ns : List Text) (last : Text) :
    slashed (ns++[last]) = slashed ns ++ '/'::last := by simp [slashed]

theorem mem_slashed {c : Char} (h : c ∈ slashed ns) : c = '/' ∨ ∃ name ∈ ns, c ∈ name := by
  obtain ⟨name,hn,hc⟩ := mem_flatMap.mp h
  rcases mem_cons.mp hc with rfl | hc
  · exact .inl rfl
  · exact .inr ⟨name,hn,hc⟩

theorem slashed_pathText (h : ∀ name ∈ ns, Plain special name) : PathText (slashed ns) where
  start := by
    cases ns with
    | nil => exact .inl rfl
    | cons => exact .inr rfl
  chars c hc := by
    rcases mem_slashed hc with rfl | ⟨name,hn,hc⟩
    · decide
    · exact (h name hn c hc).1

theorem trim_append (lead : Text) (hne : last ≠ []) (h : '/' ∉ last) :
    (lead++last).rdropWhile (fun c => c = '/') = lead++last := by
  refine rdropWhile_eq_self_iff.mpr fun _ => ?_
  rw [getLast_append_of_ne_nil _ hne,decide_eq_true_eq]
  exact fun heq => h (heq ▸ getLast_mem hne)

section
variable (laws : crate.Laws) (hurl : crate.Located url)
include laws hurl

/-- No slash is trimmed from the text of a source. -/
theorem trim_beforePath (hne : [] ∉ ns) (hplain : ∀ name ∈ ns, Plain (isSpecial (crate.scheme url)) name)
    (hf : isFile (crate.scheme url) → ns ≠ []) :
    (crate.beforePath url++slashed ns).rdropWhile (fun c => c = '/') = crate.beforePath url++slashed ns := by
  rcases eq_nil_or_concat ns with rfl | ⟨init,last,hconcat⟩
  · obtain ⟨authority,heq,hchars,hempty⟩ := laws.beforePath_eq hurl
    have ht : authority ≠ [] := fun hnil => hf (hempty.mp hnil) rfl
    have hbefore : crate.beforePath url++slashed [] = (crate.scheme url++"://".toList)++authority := by
      rw [heq]
      simp [slashed]
    rw [hbefore,trim_append _ ht fun hmem => hchars _ hmem (by decide)]
  · rw [concat_eq_append] at hconcat
    subst hconcat
    have hl : last ≠ [] := by
      rintro rfl
      exact hne (by simp)
    have heq : crate.beforePath url++slashed (init++[last]) =
        (crate.beforePath url++slashed init++['/'])++last := by simp [slashed]
    rw [heq,trim_append _ hl (slash_notMem (hplain last (by simp)))]

theorem setPath_located (path : Text) : crate.Located (crate.setPath url path) := by
  have hparts : crate.parts (crate.setPath url path) = crate.parts url := laws.setPath_parts hurl
  have hscheme : crate.scheme (crate.setPath url path) = crate.scheme url := congrArg Parts.scheme hparts
  have hhost : crate.hostStr (crate.setPath url path) = crate.hostStr url := congrArg Parts.host hparts
  refine ⟨.setPath path hurl.reached,?_,?_,?_,?_⟩
  · rw [hscheme]
    exact hurl.known
  · rw [hscheme,hhost]
    exact hurl.host
  · exact (congrArg Parts.query hparts).trans hurl.query
  · exact (congrArg Parts.fragment hparts).trans hurl.fragment

/-- A path of components is set with its dots resolved. -/
theorem path_setPath (h : Settable (crate.scheme url) ns) : crate.path (crate.setPath url (slashed ns)) =
    slashed (Url.resolve (isFile (crate.scheme url)) [] ns) := by
  rw [laws.setPath_path hurl (slashed_pathText h.plain)]
  cases ns with
  | nil => exact absurd rfl h.ne_nil
  | cons => rw [written_slashed h.plain]

/-- A source is what is written before the path of its URL and the components that are left. -/
theorem rebuild_eq (h : Settable (crate.scheme url) ns) :
    rebuild crate url ns = ofFetch (crate.beforePath url++slashed (kept (crate.scheme url) ns)) := by
  have htrim := trim_beforePath laws hurl nil_notMem_kept (fun name hn => (h.kept_settled hn).1)
    fun hf => (h.kept_file hf).1
  have hjoin : '/'::['/'].intercalate ns = slashed ns := by
    cases ns with
    | nil => exact absurd rfl h.ne_nil
    | cons first rest => exact slashed_intercalate first rest
  rw [rebuild,hjoin,laws.toString_eq (setPath_located laws hurl _),laws.setPath_beforePath hurl,
    path_setPath laws hurl h]
  rcases h.resolve with heq | ⟨_,heq⟩
  · rw [heq,htrim]
  · rw [heq,slashed_concat,← append_assoc,rdropWhile_concat_pos _ _ _ (by decide),htrim]

end

/-! ## Reading a normal form -/

/-- A URL as it is when its path is collected. -/
structure Canonical (crate : Crate U F) (url : U) : Prop extends crate.Located url where
  password : crate.password url = none
  user : crate.scheme url ≠ ssh → crate.username url = []
  lower : ∀ host, crate.hostStr url = some host → host.map Char.toLower = host
  port : (defaultPort (crate.scheme url)).isSome = true → crate.port url ≠ defaultPort (crate.scheme url)

theorem Canonical.setPath (h : Canonical crate url) (laws : crate.Laws) (path : Text) :
    Canonical crate (crate.setPath url path) := by
  have hparts : crate.parts (crate.setPath url path) = crate.parts url := laws.setPath_parts h.toLocated
  have hscheme : crate.scheme (crate.setPath url path) = crate.scheme url := congrArg Parts.scheme hparts
  have husername : crate.username (crate.setPath url path) = crate.username url := congrArg Parts.username hparts
  have hhost : crate.hostStr (crate.setPath url path) = crate.hostStr url := congrArg Parts.host hparts
  have hport : crate.port (crate.setPath url path) = crate.port url := congrArg Parts.port hparts
  refine ⟨setPath_located laws h.toLocated path,(congrArg Parts.password hparts).trans h.password,?_,?_,?_⟩
  · rw [hscheme,husername]
    exact h.user
  · rw [hhost]
    exact h.lower
  · rw [hscheme,hport]
    exact h.port

section
variable (h : Canonical crate url)
include h

theorem Canonical.known_cases : crate.scheme url = https ∨ crate.scheme url = ssh ∨ crate.scheme url = file := by
  have hknown := h.known
  simp only [mem_cons,not_mem_nil,or_false] at hknown
  exact hknown

theorem Canonical.admitted : admitted crate url = .ok () := by
  have hknown : ¬(crate.scheme url ≠ https ∧ crate.scheme url ≠ ssh ∧ crate.scheme url ≠ file) := by
    rcases h.known_cases with heq | heq | heq <;> simp [heq]
  have huser : (decide (crate.scheme url ≠ ssh) && decide (crate.username url ≠ [])) = false := by
    by_cases hssh : crate.scheme url = ssh
    · simp [hssh]
    · simp [h.user hssh]
  rw [Source.admitted,if_neg hknown,h.password,huser,h.query,h.fragment]
  rfl

theorem Canonical.normalizeHost (laws : crate.Laws)
    (hslash : isFile (crate.scheme url) → (crate.path url).head? = some '/') : normalizeHost crate url = .ok url := by
  rw [Source.normalizeHost]
  by_cases hscheme : crate.scheme url = file
  · have hfile := isFile_iff.mpr hscheme
    rw [if_pos hscheme,h.host.mpr hfile,if_neg (by simp),if_neg (by simp [hslash hfile])]
  · cases hhost : crate.hostStr url with
    | none => exact absurd (isFile_iff.mp (h.host.mp hhost)) hscheme
    | some host =>
      rw [if_neg hscheme]
      dsimp only
      rw [h.lower host hhost,laws.setHost_same h.toLocated hhost]
      rfl

theorem Canonical.normalizePort : normalizePort crate url = .ok url := by
  rw [Source.normalizePort,if_neg]
  rw [Bool.and_eq_true,decide_eq_true_eq]
  exact fun hdefault => h.port hdefault.1 hdefault.2

end

theorem splitOnce_append (h : ':' ∉ lead) (rest : Text) :
    splitOnce "://".toList (lead ++ ':' :: '/' :: '/'::rest) = some (lead,rest) := by
  induction lead with
  | nil => simp [splitOnce,List.dropPrefix?]
  | cons c lead ih =>
    have hc : c ≠ ':' := fun heq => h (heq ▸ mem_cons_self)
    have hlead := ih fun hmem => h (mem_cons_of_mem c hmem)
    have hd : (c::(lead ++ ':' :: '/' :: '/'::rest)).dropPrefix? "://".toList = none := by
      simp [List.dropPrefix?,hc]
    rw [cons_append,splitOnce,hd]
    simp only [hlead]
    rfl

theorem rawPath_front {text : Text} (hlead : ':' ∉ lead) (ht : '/' ∉ text) (h : ∀ name ∈ ns, Plain special name) :
    rawPath (lead ++ ':' :: '/' :: '/'::(text++slashed ns)) = slashed ns := by
  have hd : (text++slashed ns).dropWhile (fun c => decide (c ≠ '/')) = slashed ns := by
    rw [dropWhile_append_of_pos (ne_of_notMem ht)]
    cases ns with
    | nil => rfl
    | cons => rfl
  have htake : (slashed ns).takeWhile (fun c => decide (c ≠ '?') && decide (c ≠ '#')) = slashed ns := by
    refine takeWhile_eq_self_iff.mpr fun c hc => ?_
    have hset := (slashed_pathText h).chars c hc
    rw [Bool.and_eq_true,decide_eq_true_eq,decide_eq_true_eq]
    exact ⟨ne_of_set hset (by decide),ne_of_set hset (by decide)⟩
  rw [rawPath,splitOnce_append hlead]
  dsimp only
  rw [hd,htake]

theorem eq_nil_of_dots (h : dots name = some 0) : name = [] := by
  unfold dots at h
  split at h
  · rfl
  · cases hr : dots _ <;> rw [hr] at h <;> cases h
  · split at h
    · cases hr : dots _ <;> rw [hr] at h <;> cases h
    · cases h
  · cases h

theorem dots_succ {n : ℕ} (h : dots name = some (n+1)) :
    ∃ dot ∈ [".".toList,"%2e".toList,"%2E".toList], ∃ rest, name = dot++rest ∧ dots rest = some n := by
  unfold dots at h
  split at h
  · cases h
  next rest =>
    refine ⟨".".toList,by simp,rest,rfl,?_⟩
    simpa using h
  next rest =>
    split at h
    next hc =>
      rw [Bool.or_eq_true,decide_eq_true_eq,decide_eq_true_eq] at hc
      rcases hc with rfl | rfl
      · exact ⟨"%2e".toList,by simp,rest,rfl,by simpa using h⟩
      · exact ⟨"%2E".toList,by simp,rest,rfl,by simpa using h⟩
    next => cases h
  · cases h

/-- The segments that are screened are the dots of the URL standard. -/
theorem relativeSegment_of_settled (h : isDot name = false) : relativeSegment name = false := by
  obtain ⟨hsingle,hdouble⟩ := isDot_iff.mp h
  rw [relativeSegment,Bool.or_eq_false_iff,decide_eq_false_iff_not,decide_eq_false_iff_not]
  constructor
  · intro hone
    obtain ⟨dot,hdot,rest,rfl,hr⟩ := dots_succ hone
    rw [eq_nil_of_dots hr] at hsingle
    simp only [mem_cons,not_mem_nil,or_false] at hdot
    rcases hdot with rfl | rfl | rfl <;> revert hsingle <;> decide
  · intro htwo
    obtain ⟨dot,hdot,rest,rfl,hr⟩ := dots_succ htwo
    obtain ⟨next,hnext,rest,rfl,hnil⟩ := dots_succ hr
    rw [eq_nil_of_dots hnil] at hdouble
    simp only [mem_cons,not_mem_nil,or_false] at hdot hnext
    rcases hdot with rfl | rfl | rfl <;> rcases hnext with rfl | rfl | rfl <;> revert hdouble <;> decide

theorem colon_notMem (h : scheme = https ∨ scheme = ssh ∨ scheme = file) : ':' ∉ scheme := by
  rcases h with rfl | rfl | rfl <;> decide

/-- The path of a normal form is its components, or the empty path of a special scheme. -/
theorem pathStart_slashed (hsettled : ∀ name ∈ ns, Settled (isSpecial scheme) name)
    (hf : isFile scheme → ns ≠ [] ∧ Url.resolve true [] ns = ns) :
    Url.resolve (isFile scheme) [] (written scheme (slashed ns)) = ns ∨
      (ns = [] ∧ Url.resolve (isFile scheme) [] (written scheme (slashed ns)) = [[]]) := by
  cases ns with
  | nil =>
    have hnot : isFile scheme = false := Bool.eq_false_iff.mpr fun h => (hf h).1 rfl
    rw [hnot]
    cases hspecial : isSpecial scheme with
    | true =>
      right
      rw [written,hspecial]
      exact ⟨rfl,by decide⟩
    | false =>
      left
      rw [written,hspecial]
      rfl
  | cons =>
    left
    rw [written_slashed fun name hn => (hsettled name hn).1]
    cases hcase : isFile scheme with
    | true => exact (hf hcase).2
    | false => exact resolve_of_settled (.inl rfl) fun name hn => (hsettled name hn).2

/-- A normal form is read as its URL with the components set, and then only these count. -/
theorem Canonical.fromUrl (h : Canonical crate url) (laws : crate.Laws) (hne : [] ∉ ns)
    (hsettled : ∀ name ∈ ns, Settled (isSpecial (crate.scheme url)) name)
    (hf : isFile (crate.scheme url) → ns ≠ [] ∧ Url.resolve true [] ns = ns) :
    fromUrl crate (crate.beforePath url++slashed ns) = (do
      let stripped ← stripSuffix (crate.scheme url) ns
      .ok (rebuild crate (crate.setPath url (slashed ns)) stripped)) := by
  have hplain : ∀ name ∈ ns, Plain (isSpecial (crate.scheme url)) name := fun name hn => (hsettled name hn).1
  have hpath := slashed_pathText hplain
  obtain ⟨authority,hbefore,hchars,-⟩ := laws.beforePath_eq h.toLocated
  have ht : crate.beforePath url++slashed ns = crate.scheme url ++ ':' :: '/' :: '/'::(authority++slashed ns) := by
    rw [hbefore]
    simp
  have hscreen : ((rawPath (crate.beforePath url++slashed ns)).splitOnP fun c => c = '/').any relativeSegment =
    false := by
    rw [ht,rawPath_front (colon_notMem h.known_cases) (fun hmem => hchars _ hmem (by decide)) hplain,
      split_slashed fun name hn => slash_notMem (hplain name hn),any_cons]
    rw [show relativeSegment [] = false by decide,Bool.false_or,any_eq_false]
    intro name hn
    rw [relativeSegment_of_settled (hsettled name hn).2]
    exact Bool.false_ne_true
  have hset := laws.setPath_path h.toLocated hpath
  have hcases := pathStart_slashed hsettled hf
  generalize Url.resolve (isFile (crate.scheme url)) [] (written (crate.scheme url) (slashed ns)) = P at hset hcases
  have hscheme : crate.scheme (crate.setPath url (slashed ns)) = crate.scheme url :=
    congrArg Parts.scheme (laws.setPath_parts h.toLocated)
  have hcanonical := h.setPath laws (slashed ns)
  have hh := hcanonical.normalizeHost laws fun hfile => by
    rw [hscheme] at hfile
    rw [hset,hcases.resolve_right fun hnil => (hf hfile).1 hnil.1]
    cases ns with
    | nil => exact absurd rfl (hf hfile).1
    | cons => rfl
  have hcollect : (collect ((slashed P).splitOnP fun c => c = '/') : Except (Error F) (List Text)) = .ok ns := by
    have hsettledP : ∀ name ∈ P, Settled (isSpecial (crate.scheme url)) name := by
      rcases hcases with rfl | ⟨_,rfl⟩
      · exact hsettled
      intro name hn
      rw [mem_singleton.mp hn]
      exact settled_nil _
    rw [split_slashed fun name hn => slash_notMem (hsettledP name hn).1,collect_eq]
    · rcases hcases with rfl | ⟨rfl,rfl⟩
      · exact congrArg Except.ok ((filter_cons_of_neg (by simp)).trans (filter_nonempty hne))
      · rfl
    · intro name hn
      rcases mem_cons.mp hn with rfl | hn
      · decide
      · exact (hsettledP name hn).2
  rw [Source.fromUrl,if_neg (by rw [hscreen]; decide),laws.parse_beforePath h.toLocated hpath]
  simp only [Except.mapError,bind,Except.bind,hcanonical.admitted,hh,hcanonical.normalizePort,hset,hcollect,hscheme]

end Whim.Source
