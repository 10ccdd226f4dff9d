import Whim.SourceNormal
import Whim.UrlParser

/-!
# The identity of a source

What a source keeps of the text it was parsed from, and which sources are read back from a lockfile.
-/

namespace Whim
namespace Source

open Url List Validation

variable {U F : Type} {crate : Crate U F} {url : U} {text value : Text} {ns : List Text} {source : Source}

/-! ## What is accepted -/

structure Admitted (parts : Parts) : Prop where
  known : parts.scheme ∈ ["https".toList,"ssh".toList,"file".toList]
  password : parts.password = none
  user : parts.scheme ≠ ssh → parts.username = []
  query : parts.query = none
  fragment : parts.fragment = none

theorem admitted_of_admitted (h : admitted crate url = .ok ()) : Admitted (crate.parts url) := by
  unfold admitted at h
  split at h
  · cases h
  next hknown =>
    split at h
    · cases h
    next hcredentials =>
      split at h
      · cases h
      next hr =>
        simp only [Bool.or_eq_true,Option.isSome_iff_ne_none,not_or,not_not] at hr
        simp only [Bool.or_eq_true,Bool.and_eq_true,decide_eq_true_eq,Option.isSome_iff_ne_none,not_or,not_not,
          not_and] at hcredentials
        refine ⟨?_,hcredentials.1,hcredentials.2,hr.1,hr.2⟩
        by_contra hn
        simp only [mem_cons,not_mem_nil,or_false,not_or] at hn
        exact hknown hn

theorem Admitted.located (h : Admitted (crate.parts url)) (hreached : crate.Reached url)
    (hhost : crate.hostStr url = none ↔ isFile (crate.scheme url)) : crate.Located url :=
  ⟨hreached,h.known,hhost,h.query,h.fragment⟩

/-- The URL whose path is collected is canonical and has the path that was read. -/
structure Normalized (crate : Crate U F) (value : Text) (url : U) : Prop where
  canonical : Canonical crate url
  scheme : crate.scheme url = writtenScheme value
  path : crate.path url = slashed (Url.resolve (isFile (crate.scheme url)) [] (writtenPath value))

section
variable (laws : crate.Laws) (hparse : crate.parse value = .ok url) (hadmitted : Admitted (crate.parts url))
include laws hparse hadmitted

theorem normalized_of_file (hf : crate.scheme url = file) (hhost : crate.hostStr url = none) :
    Normalized crate value url := by
  have hlocated := hadmitted.located (.parse hparse) (iff_of_true hhost (isFile_iff.mpr hf))
  refine ⟨⟨hlocated,hadmitted.password,hadmitted.user,?_,?_⟩,laws.parse_scheme hparse,laws.parse_path hparse hlocated⟩
  · intro host hsome
    rw [hhost] at hsome
    cases hsome
  · rw [hf]
    exact fun hdefault => absurd hdefault (by decide)

/-- With its host in lower case and without its default port, any other URL is canonical. -/
theorem normalized_of_host {host : Text} {next port : U} (hf : crate.scheme url ≠ file)
    (hhost : crate.hostStr url = some host)
    (hset : crate.setHost url (host.map Char.toLower) = .ok next) (hp : normalizePort crate next = .ok port) :
    Normalized crate value port := by
  have hnone : ∀ {o : Option Text} {lower : Text}, o = some lower → (o = none ↔ isFile (crate.scheme url)) := by
    rintro _ lower rfl
    exact iff_of_false (by simp) (by simp [not_isFile hf])
  have hlocated := hadmitted.located (.parse hparse) (hnone hhost)
  have hpath := laws.parse_path hparse hlocated
  have hscheme := laws.parse_scheme hparse
  obtain ⟨lowered,hlowered,hnext,hparts⟩ := laws.setHost_lower hlocated hhost
  cases hset.symm.trans hlowered
  have hadmittedNext : Admitted (crate.parts next) := by
    rw [hparts]
    exact ⟨hadmitted.known,hadmitted.password,hadmitted.user,hadmitted.query,hadmitted.fragment⟩
  have hschemeNext : crate.scheme next = crate.scheme url := congrArg Parts.scheme hparts
  have hhostNext : crate.hostStr next = some (host.map Char.toLower) := congrArg Parts.host hparts
  have hreached : crate.Reached next := .setHost (.parse hparse) hset
  have hlower : ∀ name, some (host.map Char.toLower) = some name → name.map Char.toLower = name := by
    rintro _ ⟨⟩
    exact map_toLower_toLower host
  have hlocatedNext := hadmittedNext.located hreached (by rw [hschemeNext]; exact hnone hhostNext)
  unfold normalizePort at hp
  split at hp
  next =>
    have hnot : isFile (crate.scheme next) = false := by rw [hschemeNext]; exact not_isFile hf
    obtain ⟨removed,hremoved,hpathPort,hpartsPort⟩ := laws.setPort_none hlocatedNext hnot
    rw [mapError_eq_ok] at hp
    cases hp.symm.trans hremoved
    have hadmittedPort : Admitted (crate.parts port) := by
      rw [hpartsPort]
      exact ⟨hadmittedNext.known,hadmittedNext.password,hadmittedNext.user,hadmittedNext.query,
        hadmittedNext.fragment⟩
    have hschemePort : crate.scheme port = crate.scheme url := (congrArg Parts.scheme hpartsPort).trans hschemeNext
    have hhostPort : crate.hostStr port = some (host.map Char.toLower) :=
      (congrArg Parts.host hpartsPort).trans hhostNext
    have hportNone : crate.port port = none := congrArg Parts.port hpartsPort
    refine ⟨⟨hadmittedPort.located (.setPort hreached hp) (by rw [hschemePort]; exact hnone hhostPort),
      hadmittedPort.password,hadmittedPort.user,by rw [hhostPort]; exact hlower,fun hsome hdefault => ?_⟩,
      hschemePort.trans hscheme,by rw [hschemePort,hpathPort,hnext]; exact hpath⟩
    rw [← hdefault,hportNone] at hsome
    cases hsome
  next hdefault =>
    cases hp
    refine ⟨⟨hlocatedNext,hadmittedNext.password,hadmittedNext.user,by rw [hhostNext]; exact hlower,
      fun hsome heq => hdefault ?_⟩,hschemeNext.trans hscheme,by rw [hschemeNext,hnext]; exact hpath⟩
    rw [Bool.and_eq_true,decide_eq_true_eq]
    exact ⟨hsome,heq⟩

end

theorem normalized_of_normalize {host port : U} (laws : crate.Laws) (hparse : crate.parse value = .ok url)
    (hadmitted : admitted crate url = .ok ()) (hh : normalizeHost crate url = .ok host)
    (hp : normalizePort crate host = .ok port) : Normalized crate value port := by
  have hadmitted := admitted_of_admitted hadmitted
  unfold normalizeHost at hh
  split at hh
  next hf =>
    split at hh
    · cases hh
    next hn =>
      split at hh
      · cases hh
      cases hh
      have hnormalized := normalized_of_file laws hparse hadmitted hf (Option.not_isSome_iff_eq_none.mp hn)
      rw [hnormalized.canonical.normalizePort] at hp
      cases hp
      exact hnormalized
  next hf =>
    split at hh
    · cases hh
    next hhost =>
      rw [mapError_eq_ok] at hh
      exact normalized_of_host laws hparse hadmitted hf hhost hh hp

/-- The components of a text as the URL parser leaves them, and those that its source keeps. -/
def parsedNames (value : Text) : List Text := kept (writtenScheme value) (writtenPath value)

def remaining (value : Text) : List Text :=
  kept (writtenScheme value) (withoutSuffix (writtenScheme value) (parsedNames value))

/-- A text is accepted with a canonical URL and the components that remain of its path. -/
structure Accepted (crate : Crate U F) (value : Text) (url : U) (source : Source) : Prop where
  canonical : Canonical crate url
  scheme : crate.scheme url = writtenScheme value
  settable : Settable (crate.scheme url) (withoutSuffix (crate.scheme url) (parsedNames value))
  source_eq : source = ofFetch (crate.beforePath url++slashed (remaining value))

theorem accepted_of_fromUrl (laws : crate.Laws) (h : fromUrl crate value = .ok source) :
    ∃ url, Accepted crate value url source := by
  unfold fromUrl at h
  split at h
  · cases h
  simp only [bind_eq_ok,mapError_eq_ok] at h
  obtain ⟨read,hparse,_,hadmitted,host,hh,port,hport,ns,hcollect,stripped,hstrip,hok⟩ := h
  obtain ⟨hcanonical,hscheme,hp⟩ := normalized_of_normalize laws hparse hadmitted hh hport
  have hsettled : ∀ segment ∈ Url.resolve (isFile (crate.scheme port)) [] (writtenPath value),
      Settled (isSpecial (crate.scheme port)) segment := by
    refine resolve_settled (forall_mem_nil _) fun segment hmem => ?_
    rw [hscheme]
    exact writtenPath_plain hmem
  have hnames : ns = parsedNames value := by
    rw [hp,split_slashed fun segment hmem => slash_notMem (hsettled segment hmem).1,collect_eq] at hcollect
    · cases hcollect
      rw [parsedNames,kept,← hscheme]
      exact filter_cons_of_neg (by simp)
    · intro segment hmem
      rcases mem_cons.mp hmem with rfl | hmem
      · decide
      · exact (hsettled segment hmem).2
  have hsettledNames : ∀ name ∈ ns, Settled (isSpecial (crate.scheme port)) name := by
    rw [hnames,parsedNames,kept,← hscheme]
    exact fun name hn => hsettled name (mem_filter.mp hn).1
  obtain ⟨hne,rfl,hnonempty⟩ := stripSuffix_eq_ok (hnames ▸ nil_notMem_kept) hstrip
  have hsettable := settable_withoutSuffix hne hsettledNames hnonempty
  cases hok
  refine ⟨port,hcanonical,hscheme,hnames ▸ hsettable,?_⟩
  rw [rebuild_eq laws hcanonical.toLocated hsettable,remaining,hnames,hscheme]

/-! ## Reading a source again -/

/-- The source is its own normal form. -/
def Stable (value : Text) : Prop := writtenScheme value = file ∨
  ∃ last, (remaining value).getLast? = some last ∧ last.dropSuffix? gitSuffix = none

section

variable (h : Accepted crate value url source)
include h

theorem Accepted.remaining_eq :
    remaining value = kept (crate.scheme url) (withoutSuffix (crate.scheme url) (parsedNames value)) := by
  rw [remaining,h.scheme]

theorem Accepted.remaining_settled {name : Text} (hn : name ∈ remaining value) :
    Settled (isSpecial (crate.scheme url)) name := by
  rw [h.remaining_eq] at hn
  exact h.settable.kept_settled hn

theorem Accepted.nil_notMem : [] ∉ remaining value := by
  rw [h.remaining_eq]
  exact nil_notMem_kept

theorem Accepted.settable_remaining (hne : remaining value ≠ []) : Settable (crate.scheme url) (remaining value) :=
  settable_of_settled hne h.nil_notMem fun _ => h.remaining_settled

variable (laws : crate.Laws)
include laws

theorem Accepted.reread : fromUrl crate source.fetch = (do
    let stripped ← stripSuffix (crate.scheme url) (remaining value)
    .ok (rebuild crate (crate.setPath url (slashed (remaining value))) stripped)) := by
  rw [h.source_eq]
  refine h.canonical.fromUrl laws h.nil_notMem (fun _ => h.remaining_settled) fun hf => ?_
  rw [h.remaining_eq]
  exact h.settable.kept_file hf

theorem Accepted.rebuild_eq (hnames : Settable (crate.scheme url) ns) (path : Text) :
    rebuild crate (crate.setPath url path) ns = ofFetch
    (crate.beforePath url++slashed (kept (crate.scheme url) ns)) := by
  have hlocated := h.canonical.toLocated
  have hscheme : crate.scheme (crate.setPath url path) = crate.scheme url :=
    congrArg Parts.scheme (laws.setPath_parts hlocated)
  rw [Source.rebuild_eq laws (setPath_located laws hlocated path) (hscheme ▸ hnames),
    laws.setPath_beforePath hlocated,hscheme]

/-- The same components give the same source. -/
theorem Accepted.rebuild_remaining (hne : remaining value ≠ []) (path : Text) :
    rebuild crate (crate.setPath url path) (remaining value) = source := by
  have hk : kept (crate.scheme url) (remaining value) = remaining value := by
    rw [h.remaining_eq]
    exact h.settable.kept_kept
  rw [h.rebuild_eq laws (h.settable_remaining hne),hk,h.source_eq]

/-- Other components give another source. -/
theorem Accepted.kept_of_rebuild {path : Text} (hnames : Settable (crate.scheme url) ns)
    (heq : rebuild crate (crate.setPath url path) ns = source) : kept (crate.scheme url) ns = remaining value := by
  rw [h.rebuild_eq laws hnames,h.source_eq] at heq
  have hfetch : crate.beforePath url++slashed (kept (crate.scheme url) ns) =
      crate.beforePath url++slashed (remaining value) := congrArg Source.fetch heq
  exact slashed_injective (fun name hn => slash_notMem (hnames.kept_settled hn).1)
    (fun name hn => slash_notMem (h.remaining_settled hn).1) (append_cancel_left hfetch)

end

/-- Without a suffix, the last component changes the components that are kept. -/
theorem kept_ne {s last short : Text} {init : List Text} (hf : isFile s = false)
    (h : Settable s (init++[short])) (hl : last.dropSuffix? gitSuffix = some short) :
    kept s (init++[short]) ≠ init++[last] := by
  obtain ⟨suffix,rfl,hsuffix⟩ := dropSuffix?_eq_some_iff.mp hl
  rw [kept_concat hf h]
  intro heq
  have hlen := congrArg List.length heq
  split at hlen
  · simp at hlen
  split at hlen
  · simp at hlen
  next hdouble hsingle =>
    rw [if_neg hdouble,if_neg hsingle] at heq
    have hnil : suffix = [] := by simpa using heq
    rw [eq_of_beq hsuffix] at hnil
    revert hnil
    decide

theorem Accepted.reread_iff (h : Accepted crate value url source) (laws : crate.Laws) :
    fromUrl crate source.fetch = .ok source ↔ Stable value := by
  rw [h.reread laws]
  constructor
  · intro hagain
    by_cases hf : writtenScheme value = file
    · exact .inl hf
    right
    obtain ⟨stripped,hstrip,hok⟩ := bind_eq_ok.mp hagain
    obtain ⟨hne,rfl,hnonempty⟩ := stripSuffix_eq_ok h.nil_notMem hstrip
    obtain ⟨last,hl⟩ := Option.ne_none_iff_exists'.mp (mt getLast?_eq_none_iff.mp hne)
    refine ⟨last,hl,?_⟩
    have hsettable := settable_withoutSuffix hne (fun _ => h.remaining_settled) hnonempty
    have hk := h.kept_of_rebuild laws hsettable (Except.ok.inj hok)
    have hscheme : crate.scheme url ≠ file := h.scheme ▸ hf
    cases hsuffix : last.dropSuffix? gitSuffix with
    | none => rfl
    | some short =>
      have hconcat : (remaining value).dropLast++[last] = remaining value :=
        dropLast_append_getLast? last hl
      have hwithout : withoutSuffix (crate.scheme url) (remaining value) = (remaining value).dropLast++[short] := by
        rw [withoutSuffix,hl]
        simp [hscheme,hsuffix]
      rw [hwithout] at hsettable hk
      exact absurd (hk.trans hconcat.symm) (kept_ne (not_isFile hscheme) hsettable hsuffix)
  · intro hstable
    have hne : remaining value ≠ [] := by
      rcases hstable with hf | ⟨last,hl,_⟩
      · rw [h.remaining_eq]
        exact (h.settable.kept_file (isFile_iff.mpr (h.scheme.trans hf))).1
      · rintro hnil
        rw [hnil] at hl
        cases hl
    have hstrip : (stripSuffix (crate.scheme url) (remaining value) : Except (Error F) (List Text)) =
        .ok (remaining value) := by
      obtain ⟨last,hl⟩ := Option.ne_none_iff_exists'.mp (mt getLast?_eq_none_iff.mp hne)
      rw [stripSuffix,hl]
      dsimp only
      rcases hstable with hf | ⟨o,ho,hsuffix⟩
      · rw [if_pos (h.scheme.trans hf)]
      rw [hl,Option.some_inj] at ho
      subst ho
      split
      · rfl
      · rw [hsuffix]
    rw [hstrip]
    exact congrArg Except.ok (h.rebuild_remaining laws hne _)

/-! ## Spellings -/

/-- The URL that a spelling of a source stands for. -/
def urlText (value : Text) : Text :=
  match value.dropPrefix? "git+".toList with
  | some url => url
  | none =>
    if "https://".toList.isPrefixOf value || "ssh://".toList.isPrefixOf value then value
    else "ssh://".toList++(cut ':' value).1 ++ '/'::(cut ':' value).2.getD []

theorem fromUrl_of_parse (h : parse crate value = .ok source) : fromUrl crate (urlText value) = .ok source := by
  unfold parse at h
  split at h
  · cases h
  unfold urlText
  cases hgit : value.dropPrefix? "git+".toList with
  | some =>
    simp only [hgit] at h
    exact h
  | none =>
    simp only [hgit] at h ⊢
    split at h
    next hurl =>
      rw [if_pos hurl]
      exact h
    next hurl =>
      rw [if_neg hurl]
      split at h
      · cases h
      unfold fromScp at h
      split at h
      · cases h
      split at h
      · cases h
      next hcut =>
        rw [hcut]
        split at h
        · cases h
        · exact h

theorem parse_identity (fetch : Text) : parse crate (ofFetch fetch).identity = fromUrl crate fetch := by
  have hp : "path:".toList.isPrefixOf ("git+".toList++fetch) = false := rfl
  have hd : ("git+".toList++fetch).dropPrefix? "git+".toList = some fetch :=
    dropPrefix?_eq_some_iff.mpr ⟨"git+".toList,rfl,beq_self_eq_true _⟩
  rw [parse,ofFetch]
  rw [hp,if_neg Bool.false_ne_true,hd]

section
variable (laws : crate.Laws) (h : parse crate value = .ok source)
include laws h

theorem accepted_of_parse :
    ∃ url, Accepted crate (urlText value) url source := accepted_of_fromUrl laws (fromUrl_of_parse h)

theorem parse_identity_iff : parse crate source.identity = .ok source ↔ Stable (urlText value) := by
  obtain ⟨url,haccepted⟩ := accepted_of_parse laws h
  rw [← haccepted.reread_iff laws,haccepted.source_eq,parse_identity]
  rfl

theorem identity_injective {o : Source}
    (ho : parse crate text = .ok o) (heq : source.identity = o.identity) : source = o := by
  obtain ⟨url,haccepted⟩ := accepted_of_parse laws h
  obtain ⟨url',haccepted'⟩ := accepted_of_parse laws ho
  rw [haccepted.source_eq,haccepted'.source_eq] at heq ⊢
  exact congrArg ofFetch (append_cancel_left heq)

end

end Source

namespace Lock

open Url List

variable {U E F : Type} {crate : Crate U F} {text : Text}

/-- A name is accepted when it is the identity of a source that is its own normal form. -/
theorem validate_iff (laws : crate.Laws) {kind : SourceKind} {value : Text} {source : Source}
    (h : Source.parse crate value = .ok source) :
    (validateNormalizedSource crate kind source.identity : Except (Error E F) Unit) = .ok () ↔
      Source.Stable (Source.urlText value) := by
  rw [← Source.parse_identity_iff laws h,validateNormalizedSource]
  constructor
  · intro hok
    obtain ⟨normalized,hparse,hsame⟩ := Validation.bind_eq_ok.mp hok
    rw [Validation.mapError_eq_ok] at hparse
    split at hsame
    · cases hsame
    next heq => rw [hparse,Source.identity_injective laws hparse h (not_not.mp heq)]
  · intro hparse
    rw [hparse]
    simp [Except.mapError,bind,Except.bind]

/-- The sources that a graph names. -/
def ResolvedPackage.sources {S : Type} (package : ResolvedPackage S E) : List S :=
  package.source::package.resolvedSource.toList++package.dependencies ++
    package.manifest.suggestionRequirements.toOption.elim [] fun suggestions => suggestions.map Prod.fst

def ResolvedGraph.sources {S : Type} (graph : ResolvedGraph S E) : List S :=
  graph.runtime++graph.development++graph.packages.flatMap ResolvedPackage.sources

theorem mem_sorted_identities {sources : List (Source.Parsed crate)} :
    text ∈ sorted (identities sources) ↔ ∃ source ∈ sources, source.1.identity = text := by
  rw [sorted,mem_mergeSort,identities,mem_map]

variable {checksums : Source.Parsed crate → Option Text}

theorem lockPackage_names {p : ResolvedPackage (Source.Parsed crate) E} {locked : LockedPackage}
    (h : lockPackage checksums p = .ok locked) :
    text ∈ locked.names.map Prod.snd ↔ ∃ source ∈ p.sources, source.1.identity = text := by
  obtain ⟨checksum,_,h⟩ := Validation.bind_eq_ok.mp h
  obtain ⟨suggestions,hsuggestions,h⟩ := Validation.bind_eq_ok.mp h
  obtain ⟨manifest,_,h⟩ := Validation.bind_eq_ok.mp h
  rw [Validation.mapError_eq_ok] at hsuggestions
  cases h
  simp only [LockedPackage.names,ResolvedPackage.sources,hsuggestions,Except.toOption,map_append,map_cons,
    map_map,Function.comp_def,map_id',mem_append,mem_cons,Option.elim_some,or_and_right,exists_or,
    exists_eq_left,mem_sorted_identities,mem_map,Option.mem_toList,Option.map_eq_some_iff]
  rw [eq_comm]
  simp

variable {graph : ResolvedGraph (Source.Parsed crate) E}

section
variable {manifest : Text} {lock : LockFile} (h : fromGraph manifest graph checksums = .ok lock)
include h

theorem fromGraph_names : text ∈ lock.names.map Prod.snd ↔ ∃ source ∈ graph.sources, source.1.identity = text := by
  obtain ⟨ps,hpackages,h⟩ := Validation.bind_eq_ok.mp h
  have hall := Validation.forall₂_of_mapM hpackages
  have hmap : ∀ {srcs : List (ResolvedPackage (Source.Parsed crate) E)} {locked : List LockedPackage},
      List.Forall₂ (fun x y => lockPackage checksums x = .ok y) srcs locked →
      ((∃ p ∈ locked, text ∈ p.names.map Prod.snd) ↔
        ∃ p ∈ srcs, ∃ source ∈ p.sources, source.1.identity = text) := by
    intro srcs locked hlocked
    induction hlocked with
    | nil => simp
    | cons hhead _ ih =>
      simp only [exists_mem_cons_iff]
      rw [ih,lockPackage_names hhead]
  cases h
  simp only [LockFile.names,ResolvedGraph.sources,map_append,map_map,Function.comp_def,map_id',
    mem_append,or_and_right,exists_or,mem_sorted_identities]
  refine or_congr Iff.rfl ?_
  simp only [map_flatMap,mem_flatMap,mem_mergeSort]
  rw [hmap hall]
  constructor
  · rintro ⟨p,hpackage,source,hsource,ht⟩
    exact ⟨source,⟨p,hpackage,hsource⟩,ht⟩
  · rintro ⟨source,⟨p,hpackage,hsource⟩,ht⟩
    exact ⟨p,hpackage,source,hsource,ht⟩

/-- Every name that a lockfile of a graph holds is accepted exactly when its sources are their own normal forms. -/
theorem names_accepted_iff (laws : crate.Laws) :
    (∀ name ∈ lock.names, (validateNormalizedSource crate name.1 name.2 : Except (Error E F) Unit) = .ok ()) ↔
      ∀ source ∈ graph.sources, ∀ value, Source.parse crate value = .ok source.1 →
        Source.Stable (Source.urlText value) := by
  constructor
  · intro haccepted source hsource value hv
    have hmem := (fromGraph_names h).mpr ⟨source,hsource,rfl⟩
    obtain ⟨⟨kind,text⟩,hn,ht⟩ := mem_map.mp hmem
    have hok := haccepted _ hn
    rw [ht] at hok
    exact (validate_iff laws hv).mp hok
  · rintro hstable ⟨kind,text⟩ hn
    obtain ⟨⟨source,value,hv⟩,hsource,rfl⟩ := (fromGraph_names h).mp (mem_map_of_mem hn)
    exact (validate_iff laws hv).mpr (hstable _ hsource value hv)

end

/-- A source is its own normal form exactly when it is stable, and a lockfile is read back exactly when the sources
of its graph are. -/
theorem normalization_idempotent (crate : Crate U F) (laws : crate.Laws) (E : Type) :
    (∀ value source, Source.parse crate value = .ok source →
      (Source.parse crate source.identity = .ok source ↔ Source.Stable (Source.urlText value))) ∧
    ∀ manifest (graph : ResolvedGraph (Source.Parsed crate) E) checksums lock,
      fromGraph manifest graph checksums = .ok lock →
      ((∀ name ∈ lock.names, (validateNormalizedSource crate name.1 name.2 : Except (Error E F) Unit) = .ok ()) ↔
        ∀ source ∈ graph.sources, ∀ value, Source.parse crate value = .ok source.1 →
          Source.Stable (Source.urlText value)) :=
  ⟨fun _ _ => Source.parse_identity_iff laws,fun _ _ _ _ h => names_accepted_iff h laws⟩

/-! ## A library and its tools -/

def library : Source := Source.ofFetch "https://github.com/Acme/Library".toList

def tools : Source := Source.ofFetch "ssh://git@github.com/acme/tools".toList

theorem parse_library :
    Source.parse (standard nameHosts) "https://GitHub.com:443//Acme///Library.git//".toList = .ok library := by
  decide +kernel

theorem parse_tools : Source.parse (standard nameHosts) "git@github.com:acme/tools.git".toList = .ok tools := by
  decide +kernel

def lockedManifest (suggestions : List (Source.Parsed (standard nameHosts) × Text)) :
    Manifest (Source.Parsed (standard nameHosts)) Unit where
  suggestionRequirements := .ok suggestions
  consumedResolutionHash := .ok "hash".toList
  license := none
  sponsor := none

def lockedAs (source : Source.Parsed (standard nameHosts)) (dependencies : List (Source.Parsed (standard nameHosts))) :
    ResolvedPackage (Source.Parsed (standard nameHosts)) Unit where
  source
  resolvedSource := some source
  version := "1.0.0".toList
  tag := "1.0.0".toList
  commit := "commit".toList
  tree := "tree".toList
  manifest := lockedManifest (dependencies.map (·,"^1.0".toList))
  dependencies

/-- A library that depends on its tools. -/
def libraryGraph : ResolvedGraph (Source.Parsed (standard nameHosts)) Unit where
  runtime := [⟨library,_,parse_library⟩]
  development := []
  packages := [lockedAs ⟨tools,_,parse_tools⟩ [],lockedAs ⟨library,_,parse_library⟩ [⟨tools,_,parse_tools⟩]]

theorem libraryGraph_sources {source : Source.Parsed (standard nameHosts)} (h : source ∈ libraryGraph.sources) :
    source.1 = library ∨ source.1 = tools := by
  simp [libraryGraph,ResolvedGraph.sources,ResolvedPackage.sources,lockedAs,lockedManifest,Except.toOption] at h
  rcases h with rfl | rfl | rfl | rfl <;> simp

theorem normalization_idempotent_library :
    Source.parse (standard nameHosts) library.identity = .ok library ∧
    Source.parse (standard nameHosts) tools.identity = .ok tools ∧
    ∃ lock, fromGraph "manifest".toList libraryGraph (fun _ => some "checksum".toList) = .ok lock ∧
      lock.packages.length = 2 ∧ ∀ name ∈ lock.names,
        (validateNormalizedSource (standard nameHosts) name.1 name.2 : Except (Error Unit ParseError) Unit) =
          .ok () := by
  have hboth := normalization_idempotent (standard nameHosts) (standard_laws nameHosts) Unit
  have hlibrary : Source.parse (standard nameHosts) library.identity = .ok library :=
    (hboth.1 _ _ parse_library).mpr (.inr ⟨"Library".toList,by decide +kernel,by decide +kernel⟩)
  have htools : Source.parse (standard nameHosts) tools.identity = .ok tools :=
    (hboth.1 _ _ parse_tools).mpr (.inr ⟨"tools".toList,by decide +kernel,by decide +kernel⟩)
  obtain ⟨lock,hlock,hlength⟩ : ∃ lock, fromGraph "manifest".toList libraryGraph (fun _ => some "checksum".toList) =
      .ok lock ∧ lock.packages.length = 2 := ⟨_,rfl,by simp⟩
  refine ⟨hlibrary,htools,lock,hlock,hlength,?_⟩
  refine (hboth.2 _ _ _ lock hlock).mpr fun source hsource value hvalue => ?_
  rcases libraryGraph_sources hsource with heq | heq
  · rw [heq] at hvalue
    exact (hboth.1 value library hvalue).mp hlibrary
  · rw [heq] at hvalue
    exact (hboth.1 value tools hvalue).mp htools

/-- A name that loses a second suffix when it is read again. -/
theorem suffix_stripped_twice :
    Source.parse (standard nameHosts) "https://github.com/acme/library.git.git".toList =
      .ok (Source.ofFetch "https://github.com/acme/library.git".toList) ∧
    Source.parse (standard nameHosts) (Source.ofFetch "https://github.com/acme/library.git".toList).identity =
      .ok (Source.ofFetch "https://github.com/acme/library".toList) ∧
    (validateNormalizedSource (standard nameHosts) .source
        (Source.ofFetch "https://github.com/acme/library.git".toList).identity : Except (Error Unit ParseError) Unit) =
      .error (.nonNormalizedSource .source "git+https://github.com/acme/library.git".toList) := by
  refine ⟨by decide +kernel,by decide +kernel,by decide +kernel⟩

end Lock
end Whim
