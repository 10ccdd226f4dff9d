import Mathlib
import Whim.UrlPaths
import Whim.Validation

/-!
# A parser of URLs

The parser of the URL standard without a base URL, with the parser for hosts as a parameter, and that it meets the laws
of the crate.
-/

namespace Whim
namespace Url

inductive ParseError
  | emptyHost | idnaError | invalidPort | invalidIpv4Address | invalidIpv6Address | invalidDomainCharacter
  | relativeUrlWithoutBase
  deriving DecidableEq

/-! ## Authorities -/

structure Authority where
  username : Text
  password : Text
  host : Text
  port : Option ℕ
  deriving DecidableEq

/-- The parser for hosts gives the written form of a host. Written forms are read back, also in lower case; they
have no delimiter of a URL, and colons and brackets only as in `[::1]`. -/
structure HostParser where
  parse : Bool → Text → Except ParseError Text
  ne_nil {special : Bool} {text host : Text} : parse special text = .ok host → host ≠ []
  again {special : Bool} {text host : Text} : parse special text = .ok host → parse special host = .ok host
  lower {special : Bool} {text host : Text} : parse special text = .ok host →
    parse special (host.map Char.toLower) = .ok (host.map Char.toLower)
  graphic {special : Bool} {text host : Text} : parse special text = .ok host →
    ∀ c ∈ host, isControlOrSpace c = false ∧ c ∉ ['/','\\','?','#','@']
  brackets {special : Bool} {text host : Text} : parse special text = .ok host →
    (∀ c ∈ host, c ∉ [':','[',']']) ∨ ∃ inner, host = '['::(inner++[']']) ∧ ∀ c ∈ inner, c ∉ ['[',']']

variable (hosts : HostParser)

/-- Credentials end at the last at sign. -/
def splitUserinfo (authority : Text) : Option Text × Text :=
  (if authority.contains '@' then some (authority.rdropWhile fun c => c ≠ '@').dropLast else none,
    authority.rtakeWhile fun c => c ≠ '@')

/-- The port follows the first colon outside brackets. -/
def splitPort : Bool → Text → Text × Option Text
  | _, [] => ([],none)
  | inside, c::rest =>
    if c = ':' && !inside then ([],some rest)
    else (c::(splitPort (c = '[' || (inside && c ≠ ']')) rest).1,
      (splitPort (c = '[' || (inside && c ≠ ']')) rest).2)

def portNumber (text : Text) : ℕ := Nat.ofDigitChars 10 text 0

def parsePort (scheme : Text) : Option Text → Except ParseError (Option ℕ)
  | none => .ok none
  | some [] => .ok none
  | some text =>
    if text.all Char.isDigit && decide (portNumber text ≤ 0xffff) then
      .ok (if defaultPort scheme = some (portNumber text) then none else some (portNumber text))
    else .error .invalidPort

def parseHost (scheme host : Text) (hasPort : Bool) : Except ParseError Text :=
  if host = [] then if isSpecial scheme || hasPort then .error .emptyHost else .ok []
  else hosts.parse (isSpecial scheme) host

def parseAuthority (scheme text : Text) : Except ParseError Authority :=
  match splitUserinfo text with
  | (userinfo,rest) =>
    if userinfo.isSome && rest.isEmpty then .error .emptyHost else do
      let host ← parseHost hosts scheme (splitPort false rest).1 (splitPort false rest).2.isSome
      let port ← parsePort scheme (splitPort false rest).2
      .ok {
        username := percentEncode userinfoSet (cut ':' (userinfo.getD [])).1
        password := percentEncode userinfoSet ((cut ':' (userinfo.getD [])).2.getD [])
        host, port }

def parseFileHost (text : Text) : Except ParseError Authority :=
  (if text = [] then .ok [] else hosts.parse true text).map fun host =>
    { username := [], password := [], host := if host = "localhost".toList then [] else host, port := none }

/-! ## The parser -/

inductive Path
  | list (segments : List Text)
  | whole (text : Text)
  deriving DecidableEq

end Url

structure Url where
  scheme : Text
  authority : Option Url.Authority
  path : Url.Path
  query : Option Text
  fragment : Option Text
  deriving DecidableEq

namespace Url

def readAuthority (hosts : HostParser) (scheme : Text) : Option Text → Except ParseError (Option Authority)
  | none => .ok none
  | some text => if isFile scheme then some <$> parseFileHost hosts text else some <$> parseAuthority hosts scheme text

/-- Without authority, the path of a scheme that is not special need not be a list. -/
def readPath (scheme : Text) (hasAuthority : Bool) (path : Text) : Path :=
  if hasAuthority || path.head? = some '/' then .list (pathStart scheme path)
  else .whole (percentEncode controlSet path)

def parse (hosts : HostParser) (input : Text) : Except ParseError Url :=
  match parseScheme (clean input) with
  | none => .error .relativeUrlWithoutBase
  | some (scheme,rest) => do
    let before := (cut '?' (cut '#' rest).1).1
    let authority ← readAuthority hosts scheme (divide scheme before).1
    .ok {
      scheme, authority
      path := readPath scheme (divide scheme before).1.isSome (divide scheme before).2
      query := (cut '?' (cut '#' rest).1).2.map
        (percentEncode (if isSpecial scheme then specialQuerySet else querySet))
      fragment := (cut '#' rest).2.map (percentEncode fragmentSet) }

/-! ## Reading and changing a URL -/

section

variable (url : Url)

def username : Text := url.authority.elim [] Authority.username

def password : Option Text := url.authority.bind fun a => if a.password = [] then none else some a.password

def hostStr : Option Text := url.authority.bind fun a => if a.host = [] then none else some a.host

def port : Option ℕ := url.authority.bind Authority.port

def Path.text : Path → Text
  | .list segments => slashed segments
  | .whole text => text

def portText : Option ℕ → Text
  | none => []
  | some port => ':'::Nat.toDigits 10 port

def Authority.userinfo (a : Authority) : Text :=
  if a.username = [] && a.password = [] then []
  else a.username++(if a.password = [] then [] else ':'::a.password)++['@']

def Authority.text (a : Authority) : Text := a.userinfo++a.host++portText a.port

/-- A path without authority must not look like one. -/
def front : Text :=
  url.scheme ++ ':'::(match url.authority with
    | some a => '/' :: '/'::a.text
    | none => match url.path with
      | .list ([]::_::_) => "/.".toList
      | _ => [])

def render : Text :=
  url.front++url.path.text++url.query.elim [] (fun q => '?'::q)++url.fragment.elim [] fun f => '#'::f

/-- The host setter reads up to a colon outside brackets. -/
def setHost (hosts : HostParser) (host : Text) : Except ParseError Url := do
  let text := (splitPort false host).1
  if text = [] then .error .emptyHost else do
    let host ← hosts.parse (isSpecial url.scheme) text
    .ok { url with authority := url.authority.map fun a => { a with host } }

def setPort (port : Option ℕ) : Except Unit Url :=
  if url.hostStr = none || isFile url.scheme then .error ()
  else .ok { url with authority := url.authority.map fun a => { a with port } }

def setPath (path : Text) : Url :=
  match url.path with
  | .whole _ => url
  | .list _ => { url with path := .list (pathStart url.scheme (path.filter fun c => !isTabOrNewline c)) }

end

/-! ## Reading a written authority -/

open List Validation

variable {text scheme host : Text} {c : Char} {p : Char → Bool} {special : Bool} {hosts : HostParser}
  {port : Option ℕ} {url : Url} {a : Authority}

def IsScheme (scheme : Text) : Prop :=
  (∃ c name, scheme = c::name ∧ c.isAlpha = true) ∧ ∀ c ∈ scheme, isSchemeChar c = true ∧ c.toLower = c

theorem parseScheme_append (h : IsScheme scheme) (r : Text) : parseScheme (scheme ++ ':'::r) = some (scheme,r) := by
  obtain ⟨⟨c,name,rfl,hc⟩,hall⟩ := h
  have hcolon : isSchemeChar ':' = false := by decide
  have ht : (c::name ++ ':'::r).takeWhile isSchemeChar = c::name := by
    rw [takeWhile_append_of_pos fun d hd => (hall d hd).1]
    simp [hcolon]
  have hdrop : (c::name ++ ':'::r).dropWhile isSchemeChar = ':'::r := by
    rw [dropWhile_append_of_pos fun d hd => (hall d hd).1]
    simp [hcolon]
  have hlower : (c::name).map Char.toLower = c::name := by
    rw [map_congr_left fun d hd => (hall d hd).2]
    exact map_id' _
  rw [parseScheme,ht,hdrop]
  simp only [hc,if_true,hlower]

theorem splitUserinfo_of_notMem (h : '@' ∉ text) : splitUserinfo text = (none,text) := by
  rw [splitUserinfo,rtakeWhile_eq_self_iff.mpr (ne_of_notMem h),if_neg (by simpa using h)]

theorem splitUserinfo_append (h : '@' ∉ text) (u : Text) : splitUserinfo (u ++ '@'::text) = (some u,text) := by
  have hne := ne_of_notMem (mem_reverse.not.mpr h)
  have hreverse : (u ++ '@'::text).reverse = text.reverse ++ '@'::u.reverse := by simp
  have hd : (u ++ '@'::text).rdropWhile (fun c => decide (c ≠ '@')) = u++['@'] := by
    rw [List.rdropWhile,hreverse,dropWhile_append_of_pos hne]
    simp
  have ht : (u ++ '@'::text).rtakeWhile (fun c => decide (c ≠ '@')) = text := by
    rw [List.rtakeWhile,hreverse,takeWhile_append_of_pos hne]
    simp
  rw [splitUserinfo,hd,ht,if_pos (by simp),dropLast_concat]

theorem splitPort_bracketed {inner : Text} (h : ∀ c ∈ inner, c ∉ ['[',']']) (r : Text) :
    splitPort true (inner ++ ']'::r) = (inner ++ ']'::(splitPort false r).1,(splitPort false r).2) := by
  induction inner with
  | nil => simp [splitPort]
  | cons c _ ih =>
    have hc : c ≠ '[' ∧ c ≠ ']' := by simpa using h c mem_cons_self
    have hinner := ih fun d hd => h d (mem_cons_of_mem c hd)
    simp [splitPort,hc.1,hc.2,hinner]

theorem splitPort_plain (h : ∀ c ∈ host, c ∉ [':','[',']']) (r : Text) :
    splitPort false (host++r) = (host++(splitPort false r).1,(splitPort false r).2) := by
  induction host with
  | nil => rfl
  | cons c _ ih =>
    have hc : c ≠ ':' ∧ c ≠ '[' ∧ c ≠ ']' := by simpa using h c mem_cons_self
    have hh := ih fun d hd => h d (mem_cons_of_mem c hd)
    simp [splitPort,hc.1,hc.2.1,hh]

theorem splitPort_host (h : hosts.parse special text = .ok host)
    (r : Text) : splitPort false (host++r) = (host++(splitPort false r).1,(splitPort false r).2) := by
  rcases hosts.brackets h with hplain | ⟨inner,rfl,hinner⟩
  · exact splitPort_plain hplain r
  · have hsplit := splitPort_bracketed hinner r
    simp [splitPort,hsplit]

/-- An authority whose parts are as the parser writes them. -/
structure Readable (hosts : HostParser) (scheme : Text) (a : Authority) : Prop where
  username : ∀ c ∈ a.username, userinfoSet c = false
  password : ∀ c ∈ a.password, userinfoSet c = false
  host : hosts.parse (isSpecial scheme) a.host = .ok a.host
  port : ∀ n, a.port = some n → n ≤ 0xffff ∧ defaultPort scheme ≠ some n

theorem parsePort_text (h : ∀ n, port = some n → n ≤ 0xffff ∧ defaultPort scheme ≠ some n) :
    splitPort false (portText port) = ([],port.map (Nat.toDigits 10)) ∧
      parsePort scheme (port.map (Nat.toDigits 10)) = .ok port := by
  cases port with
  | none => exact ⟨rfl,rfl⟩
  | some n =>
    obtain ⟨hle,hdefault⟩ := h n rfl
    have hnumber : portNumber (Nat.toDigits 10 n) = n := Nat.ofDigitChars_toDigits (by decide) (by decide)
    have hdigits : (Nat.toDigits 10 n).all Char.isDigit = true :=
      all_eq_true.mpr fun c hc => Nat.isDigit_of_mem_toDigits (by decide) (by decide) hc
    refine ⟨by simp [portText,splitPort],?_⟩
    cases hchars : Nat.toDigits 10 n with
    | nil => exact absurd hchars Nat.toDigits_ne_nil
    | cons =>
      rw [hchars] at hnumber hdigits
      rw [Option.map_some,hchars,parsePort,hnumber,hdigits,if_neg hdefault]
      · simp [hle]
      · exact nofun

/-- Neither removed by the parser nor the end of an authority. -/
def Inert (c : Char) : Prop := isControlOrSpace c = false ∧ c ∉ ['/','\\','?','#']

theorem inert_of_set (hset : ∀ n < 0x21, p (Char.ofNat n))
    (hstops : ['/','\\','?','#'].all p) (h : p c = false) : Inert c :=
  ⟨graphic_of_set hset h,fun hmem => ne_of_set h (all_eq_true.mp hstops c hmem) rfl⟩

theorem inert_of_userinfoSet (h : userinfoSet c = false) : Inert c := inert_of_set (by decide) (by decide) h

theorem portText_chars (h : c ∈ portText port) : Inert c ∧ c ≠ '@' := by
  cases port with
  | none => cases h
  | some =>
    rcases mem_cons.mp h with rfl | h
    · exact ⟨⟨by decide,by decide⟩,by decide⟩
    have hdigit : c.isDigit = true := Nat.isDigit_of_mem_toDigits (by decide) (by decide) h
    refine ⟨inert_of_set (p := fun c => !c.isDigit) (by decide) (by decide) (by rw [hdigit,Bool.not_true]),?_⟩
    exact (ne_of_set (by decide) hdigit).symm

theorem host_chars (h : hosts.parse special text = .ok host) (hc : c ∈ host) : Inert c ∧ c ≠ '@' := by
  obtain ⟨hgraphic,hmem⟩ := hosts.graphic h c hc
  exact ⟨⟨hgraphic,fun hstop => hmem (mem_append_left ['@'] hstop)⟩,fun heq => hmem (by simp [heq])⟩

section
variable (h : Readable hosts scheme a)
include h

theorem userinfo_chars : ∀ c ∈ a.userinfo, Inert c := by
  unfold Authority.userinfo
  split
  · exact nofun
  refine forall_mem_append.mpr ⟨forall_mem_append.mpr ⟨?_,?_⟩,forall_mem_singleton.mpr ⟨by decide,by decide⟩⟩
  · exact fun c hc => inert_of_userinfoSet (h.username c hc)
  split
  · exact nofun
  · exact forall_mem_cons.mpr ⟨⟨by decide,by decide⟩,fun c hc => inert_of_userinfoSet (h.password c hc)⟩

theorem authority_chars (hc : c ∈ a.text) : Inert c := by
  rcases mem_append.mp hc with hc | hc
  · rcases mem_append.mp hc with hc | hc
    · exact userinfo_chars h c hc
    · exact (host_chars h.host hc).1
  · exact (portText_chars hc).1

theorem splitUserinfo_text : ∃ u, splitUserinfo a.text = (u,a.host++portText a.port) ∧
    (cut ':' (u.getD [])).1 = a.username ∧ (cut ':' (u.getD [])).2.getD [] = a.password := by
  have hat : '@' ∉ a.host++portText a.port := by
    intro hmem
    rcases mem_append.mp hmem with hmem | hmem
    · exact (host_chars h.host hmem).2 rfl
    · exact (portText_chars hmem).2 rfl
  have hcolon : ':' ∉ a.username := fun hmem => absurd (h.username ':' hmem) (by decide)
  by_cases hnil : a.username = [] ∧ a.password = []
  · refine ⟨none,?_,by simp [hnil.1,cut],by simp [hnil.2,cut]⟩
    rw [Authority.text,Authority.userinfo,if_pos (by simp [hnil.1,hnil.2]),nil_append]
    exact splitUserinfo_of_notMem hat
  · have huserinfo : a.userinfo = a.username++(if a.password = [] then [] else ':'::a.password)++['@'] := by
      rw [Authority.userinfo,if_neg (by simpa using hnil)]
    refine ⟨some (a.username++if a.password = [] then [] else ':'::a.password),?_,?_⟩
    · rw [Authority.text,huserinfo,append_assoc,append_assoc]
      exact splitUserinfo_append hat _
    · by_cases hpassword : a.password = []
      · simp [hpassword,cut_of_notMem hcolon]
      · simp [hpassword,cut_append hcolon]

theorem parseAuthority_text : parseAuthority hosts scheme a.text = .ok a := by
  obtain ⟨u,hsplit,husername,hpassword⟩ := splitUserinfo_text h
  obtain ⟨hp,hparse⟩ := parsePort_text h.port
  have hne : a.host ≠ [] := hosts.ne_nil h.host
  have hdivided : splitPort false (a.host++portText a.port) = (a.host,a.port.map (Nat.toDigits 10)) := by
    rw [splitPort_host h.host,hp,append_nil]
  have hr : (a.host++portText a.port).isEmpty = false := by simp [hne]
  rw [parseAuthority,hsplit]
  simp only [hr,Bool.and_false,Bool.false_eq_true,if_false,hdivided,parseHost,hne,h.host,hparse,husername,
    hpassword,percentEncode_eq_self h.username,percentEncode_eq_self h.password]
  rfl

end

/-! ## Reading a written URL -/

theorem separator_of_inert (h : Inert c) : isSeparator special c = false := by
  have hne : c ≠ '/' ∧ c ≠ '\\' := ⟨fun heq => h.2 (by simp [heq]),fun heq => h.2 (by simp [heq])⟩
  simp [isSeparator,hne.1,hne.2]

theorem divide_front {path : Text} (ht : ∀ c ∈ text, Inert c)
    (hempty : text = [] ↔ isFile scheme) (hp : path = [] ∨ path.head? = some '/') :
    divide scheme ('/' :: '/'::(text++path)) = (some text,path) := by
  have hsplit : ∀ special, (text++path).takeWhile (fun c => !isSeparator special c) = text ∧
      (text++path).dropWhile (fun c => !isSeparator special c) = path := by
    intro special
    have hinert : ∀ c ∈ text, (!isSeparator special c) = true := fun c hc => by
      rw [separator_of_inert (ht c hc),Bool.not_false]
    rw [takeWhile_append_of_pos hinert,dropWhile_append_of_pos hinert]
    rcases hp with rfl | hslash
    · simp
    cases path with
    | nil => cases hslash
    | cons =>
      rw [head?_cons,Option.some_inj] at hslash
      simp [hslash,isSeparator]
  cases hf : isFile scheme with
  | true =>
    have hnil := hempty.mpr hf
    subst hnil
    rw [divide,if_pos hf]
    simp only [(hsplit true).1,(hsplit true).2]
    rfl
  | false =>
    have hne : text ≠ [] := fun hnil => by
      rw [hempty.mp hnil] at hf
      cases hf
    rw [divide,if_neg (by simp [hf])]
    cases hspecial : isSpecial scheme with
    | true =>
      have hd : ('/' :: '/'::(text++path)).dropWhile (isSeparator true) = text++path := by
        cases text with
        | nil => exact absurd rfl hne
        | cons c =>
          have hc : isSeparator true c = false := separator_of_inert (ht c mem_cons_self)
          simp [isSeparator] at hc ⊢
          simp [hc]
      rw [if_pos rfl,hd,(hsplit true).1,(hsplit true).2]
    | false =>
      rw [if_neg Bool.false_ne_true]
      simp only [(hsplit false).1,(hsplit false).2]

/-- The authority of a URL is one that is read back; a file has none. -/
structure Fronted (hosts : HostParser) (url : Url) (a : Authority) : Prop where
  scheme : IsScheme url.scheme
  authority : url.authority = some a
  empty : isFile url.scheme = true → a = ⟨[],[],[],none⟩
  readable : isFile url.scheme = false → Readable hosts url.scheme a

section
variable (h : Fronted hosts url a)
include h

theorem Fronted.front_eq : url.front = url.scheme ++ ':' :: '/' :: '/'::a.text := by
  rw [front,h.authority]

theorem Fronted.chars (hc : c ∈ a.text) : Inert c := by
  cases hf : isFile url.scheme with
  | true =>
    rw [h.empty hf] at hc
    cases hc
  | false => exact authority_chars (h.readable hf) hc

theorem Fronted.text_eq_nil : a.text = [] ↔ isFile url.scheme := by
  constructor
  · intro hnil
    cases hf : isFile url.scheme with
    | true => rfl
    | false =>
      have hh : a.host = [] := by
        rw [Authority.text,append_eq_nil_iff,append_eq_nil_iff] at hnil
        exact hnil.1.2
      exact absurd hh (hosts.ne_nil (h.readable hf).host)
  · intro hf
    rw [h.empty hf]
    rfl

theorem Fronted.readAuthority : readAuthority hosts url.scheme (some a.text) = .ok (some a) := by
  cases hf : isFile url.scheme with
  | true =>
    rw [Url.readAuthority,if_pos hf,h.text_eq_nil.mpr hf,h.empty hf]
    rfl
  | false =>
    rw [Url.readAuthority,if_neg (by simp [hf]),parseAuthority_text (h.readable hf)]
    rfl

end

theorem graphic_of_isSchemeChar (h : isSchemeChar c) : isControlOrSpace c = false :=
  graphic_of_set (p := fun c => !isSchemeChar c) (by decide) (by rw [h,Bool.not_true])

/-- The front of a URL and a path are read as that URL with that path. -/
theorem parse_front (h : Fronted hosts url a) {path : Text} (hstart : path = [] ∨ path.head? = some '/')
    (hp : ∀ c ∈ path, pathSet c = false) : parse hosts (url.front++path) =
      .ok { url with path := .list (pathStart url.scheme path), query := none, fragment := none } := by
  have hr : ∀ c ∈ '/' :: '/'::(a.text++path), isControlOrSpace c = false ∧ c ≠ '?' ∧ c ≠ '#' := by
    intro c hc
    rcases mem_cons.mp hc with rfl | hc
    · decide
    rcases mem_cons.mp hc with rfl | hc
    · decide
    rcases mem_append.mp hc with hc | hc
    · obtain ⟨hgraphic,hmem⟩ := h.chars hc
      simp only [mem_cons,not_mem_nil,or_false,not_or] at hmem
      exact ⟨hgraphic,hmem.2.2.1,hmem.2.2.2⟩
    · exact ⟨graphic_of_pathSet (hp c hc),ne_of_set (hp c hc) (by decide),ne_of_set (hp c hc) (by decide)⟩
  have ht : url.front++path = url.scheme ++ ':' :: '/' :: '/'::(a.text++path) := by
    rw [h.front_eq]
    simp
  have hclean : clean (url.front++path) = url.front++path := by
    refine clean_eq_self fun c hc => ?_
    rw [ht] at hc
    rcases mem_append.mp hc with hc | hc
    · exact graphic_of_isSchemeChar (h.scheme.2 c hc).1
    rcases mem_cons.mp hc with rfl | hc
    · decide
    · exact (hr c hc).1
  have hfragment := cut_of_notMem fun hmem => (hr '#' hmem).2.2 rfl
  have hquery := cut_of_notMem fun hmem => (hr '?' hmem).2.1 rfl
  have hdivide := divide_front (fun c hc => h.chars hc) h.text_eq_nil hstart
  rw [parse,hclean,ht,parseScheme_append h.scheme]
  simp only [hfragment,hquery,hdivide,h.readAuthority]
  rw [← h.authority]
  rfl

/-! ## What the parser gives -/

/-- The parts of an authority that was read. -/
structure Given (hosts : HostParser) (scheme : Text) (a : Authority) : Prop where
  username : ∀ c ∈ a.username, userinfoSet c = false
  password : ∀ c ∈ a.password, userinfoSet c = false
  host : a.host = [] ∨ ∃ text, hosts.parse (isSpecial scheme) text = .ok a.host
  port : ∀ n, a.port = some n → n ≤ 0xffff ∧ defaultPort scheme ≠ some n
  file : isFile scheme = true → a.username = [] ∧ a.password = [] ∧ a.port = none

theorem parsePort_given {text : Option Text} (h : parsePort scheme text = .ok port) {n : ℕ} (hn : port = some n) :
    n ≤ 0xffff ∧ defaultPort scheme ≠ some n := by
  subst hn
  unfold parsePort at h
  split at h
  · cases h
  · cases h
  next =>
    split at h
    next hvalid =>
      rw [Bool.and_eq_true,decide_eq_true_eq] at hvalid
      rw [Except.ok.injEq] at h
      split at h
      · cases h
      next hdefault =>
        rw [Option.some_inj] at h
        exact h ▸ ⟨hvalid.2,hdefault⟩
    next => cases h

theorem isSpecial_of_isFile (h : isFile scheme) : isSpecial scheme := by
  rw [isFile,decide_eq_true_eq] at h
  subst h
  decide

theorem parseAuthority_given (hf : isFile scheme = false)
    (h : parseAuthority hosts scheme text = .ok a) : Given hosts scheme a := by
  unfold parseAuthority at h
  split at h
  next =>
    split at h
    · cases h
    obtain ⟨host,hh,h⟩ := bind_eq_ok.mp h
    obtain ⟨port,hp,h⟩ := bind_eq_ok.mp h
    cases h
    refine ⟨fun c hc => percentEncode_encoded encodes_userinfoSet hc,
      fun c hc => percentEncode_encoded encodes_userinfoSet hc,?_,fun n hn => parsePort_given hp hn,
      fun htrue => absurd (htrue.symm.trans hf) (by decide)⟩
    unfold parseHost at hh
    split at hh
    · split at hh
      · cases hh
      · exact .inl (Except.ok.inj hh).symm
    · exact .inr ⟨_,hh⟩

theorem parseFileHost_given (hf : isFile scheme)
    (h : parseFileHost hosts text = .ok a) : Given hosts scheme a := by
  obtain ⟨host,hh,h⟩ := map_eq_ok.mp h
  cases h
  refine ⟨nofun,nofun,?_,nofun,fun _ => ⟨rfl,rfl,rfl⟩⟩
  rw [isSpecial_of_isFile hf]
  by_cases hlocal : host = "localhost".toList
  · exact .inl (if_pos hlocal)
  rw [if_neg hlocal]
  split at hh
  · exact .inl (Except.ok.inj hh).symm
  · exact .inr ⟨text,hh⟩

/-- What the parser gives for a text. -/
structure Reads (hosts : HostParser) (input : Text) (url : Url) : Prop where
  scheme : writtenScheme input = url.scheme
  plain : ∀ segment ∈ writtenPath input, Plain (isSpecial url.scheme) segment
  authority : ∀ a, url.authority = some a → Given hosts url.scheme a ∧
    url.path = .list (resolve (isFile url.scheme) [] (writtenPath input))
  file : isFile url.scheme = true → url.authority.isSome = true

theorem readAuthority_given {text : Option Text} {authority : Option Authority}
    (h : readAuthority hosts scheme text = .ok authority) :
    authority.isSome = text.isSome ∧ ∀ a, authority = some a → Given hosts scheme a := by
  cases text with
  | none =>
    cases h
    exact ⟨rfl,nofun⟩
  | some =>
    rw [readAuthority] at h
    split at h
    next hf =>
      obtain ⟨a,hparse,rfl⟩ := map_eq_ok.mp h
      exact ⟨rfl,fun b hb => Option.some_inj.mp hb ▸ parseFileHost_given hf hparse⟩
    next hf =>
      obtain ⟨a,hparse,rfl⟩ := map_eq_ok.mp h
      exact ⟨rfl,fun b hb => Option.some_inj.mp hb ▸ parseAuthority_given (by simpa using hf) hparse⟩

theorem divide_file (h : isFile scheme) (r : Text) : (divide scheme r).1.isSome := by
  unfold divide
  rw [if_pos h]
  rcases r with _ | ⟨c,_ | ⟨d,text⟩⟩
  · rfl
  · rfl
  dsimp only
  split
  · split <;> rfl
  · rfl

theorem parse_reads {i : Text} (h : parse hosts i = .ok url) : Reads hosts i url := by
  unfold parse at h
  cases hscheme : parseScheme (clean i) with
  | none =>
    rw [hscheme] at h
    cases h
  | some parts =>
    obtain ⟨scheme,r⟩ := parts
    simp only [hscheme] at h
    have hwritten : writtenPath i = written scheme (divide scheme (cut '?' (cut '#' r).1).1).2 := by
      rw [writtenPath,hscheme]
    obtain ⟨authority,hread,h⟩ := bind_eq_ok.mp h
    cases h
    obtain ⟨hsome,hgiven⟩ := readAuthority_given hread
    refine ⟨by rw [writtenScheme,hscheme],fun seg hmem => written_plain (hwritten ▸ hmem),
      fun a ha => ⟨hgiven a ha,?_⟩,fun hf => hsome.trans (divide_file hf _)⟩
    have hdivided : (divide scheme (cut '?' (cut '#' r).1).1).1.isSome = true := by
      rw [← hsome,show authority = some a from ha]
      rfl
    change readPath scheme _ _ = _
    rw [readPath,hdivided,hwritten]
    rfl

/-! ## The laws -/

/-- The parser and the setters as a crate. -/
def standard (hosts : HostParser) : Crate Url ParseError where
  parse := parse hosts
  scheme url := url.scheme
  username url := url.username
  password url := url.password
  hostStr url := url.hostStr
  port url := url.port
  path url := url.path.text
  query url := url.query
  fragment url := url.fragment
  setHost url := url.setHost hosts
  setPort url := url.setPort
  setPath url := url.setPath
  toString url := url.render
  beforePath url := url.front

/-- What the parser gives and the setters keep. -/
structure Valid (hosts : HostParser) (url : Url) : Prop where
  given : ∀ a, url.authority = some a → Given hosts url.scheme a ∧ ∃ names, url.path = .list names
  file : isFile url.scheme = true → url.authority.isSome = true

theorem setHost_valid {next : Url} (hvalid : Valid hosts url) (h : url.setHost hosts host = .ok next) :
    Valid hosts next := by
  rw [setHost] at h
  split at h
  · cases h
  obtain ⟨written,hwritten,h⟩ := bind_eq_ok.mp h
  cases h
  refine ⟨fun b hb => ?_,fun hf => by simpa using hvalid.file hf⟩
  obtain ⟨a,ha,rfl⟩ := Option.map_eq_some_iff.mp hb
  obtain ⟨hgiven,hpath⟩ := hvalid.given a ha
  exact ⟨⟨hgiven.username,hgiven.password,.inr ⟨_,hwritten⟩,hgiven.port,hgiven.file⟩,hpath⟩

theorem setPort_valid {next : Url} (hvalid : Valid hosts url) (h : url.setPort none = .ok next) : Valid hosts next := by
  rw [setPort] at h
  split at h
  · cases h
  cases h
  refine ⟨fun b hb => ?_,fun hf => by simpa using hvalid.file hf⟩
  obtain ⟨a,ha,rfl⟩ := Option.map_eq_some_iff.mp hb
  obtain ⟨hgiven,hpath⟩ := hvalid.given a ha
  refine ⟨⟨hgiven.username,hgiven.password,hgiven.host,nofun,fun hf => ?_⟩,hpath⟩
  exact ⟨(hgiven.file hf).1,(hgiven.file hf).2.1,rfl⟩

theorem setPath_valid (hvalid : Valid hosts url) (path : Text) : Valid hosts (url.setPath path) := by
  rw [setPath]
  split
  · exact hvalid
  · exact ⟨fun a ha => ⟨(hvalid.given a ha).1,_,rfl⟩,hvalid.file⟩

theorem valid_of_reached (h : (standard hosts).Reached url) : Valid hosts url := by
  induction h with
  | parse h =>
    have hreads := parse_reads h
    exact ⟨fun a ha => ⟨(hreads.authority a ha).1,_,(hreads.authority a ha).2⟩,hreads.file⟩
  | setHost _ h ih => exact setHost_valid ih h
  | setPort _ h ih => exact setPort_valid ih h
  | setPath path _ ih => exact setPath_valid ih path

theorem isScheme_known (h : scheme ∈ ["https".toList,"ssh".toList,"file".toList]) : IsScheme scheme := by
  simp only [mem_cons,not_mem_nil,or_false] at h
  have hall : scheme.all (fun c => isSchemeChar c && c.toLower == c) = true := by
    rcases h with rfl | rfl | rfl <;> decide
  refine ⟨?_,fun c hc => by simpa using all_eq_true.mp hall c hc⟩
  rcases h with rfl | rfl | rfl
  · exact ⟨'h',_,rfl,by decide⟩
  · exact ⟨'s',_,rfl,by decide⟩
  · exact ⟨'f',_,rfl,by decide⟩

section
variable (h : (standard hosts).Located url)
include h

theorem authority_of_located : ∃ a, url.authority = some a := by
  cases ha : url.authority with
  | some a => exact ⟨a,rfl⟩
  | none =>
    have hnone : url.hostStr = none := by rw [hostStr,ha]; rfl
    have hsome := (valid_of_reached h.reached).file (h.host.mp hnone)
    rw [ha] at hsome
    cases hsome

theorem host_of_located (ha : url.authority = some a) : a.host = [] ↔ isFile url.scheme := by
  have hhost : url.hostStr = none ↔ a.host = [] := by
    rw [hostStr,ha]
    by_cases hnil : a.host = [] <;> simp [hnil]
  rw [← hhost]
  exact h.host

theorem fronted_of_located (ha : url.authority = some a) : Fronted hosts url a := by
  have hgiven := ((valid_of_reached h.reached).given a ha).1
  have hhost := host_of_located h ha
  refine ⟨isScheme_known h.known,ha,fun hf => ?_,fun hf => ?_⟩
  · obtain ⟨husername,hpassword,hport⟩ := hgiven.file hf
    have hnil := hhost.mpr hf
    cases a
    simp only at husername hpassword hport hnil
    rw [husername,hpassword,hport,hnil]
  · have hne : a.host ≠ [] := fun hnil => by
      rw [hhost.mp hnil] at hf
      cases hf
    obtain ⟨text,ht⟩ := hgiven.host.resolve_left hne
    exact ⟨hgiven.username,hgiven.password,hosts.again ht,hgiven.port⟩

theorem path_of_located : ∃ names, url.path = .list names := by
  obtain ⟨a,ha⟩ := authority_of_located h
  exact ((valid_of_reached h.reached).given a ha).2

theorem setPath_pathText {path : Text} (hp : PathText path) :
    url.setPath path = { url with path := .list (pathStart url.scheme path) } := by
  obtain ⟨names,hnames⟩ := path_of_located h
  have hfilter : path.filter (fun c => !isTabOrNewline c) = path := by
    refine filter_eq_self.mpr fun c hc => ?_
    rw [tab_of_graphic (graphic_of_pathSet (hp.chars c hc)),Bool.not_false]
  rw [setPath,hnames]
  dsimp only
  rw [hfilter]

end

theorem setHost_host (ha : url.authority = some a) (h : hosts.parse (isSpecial url.scheme) host = .ok host) :
    url.setHost hosts host = .ok { url with authority := some { a with host } } := by
  have hsplit : splitPort false host = (host,none) := by
    have := splitPort_host h []
    simpa [splitPort] using this
  rw [setHost,hsplit]
  simp only [if_neg (hosts.ne_nil h),h,ha]
  rfl

theorem hostStr_eq_some (ha : url.authority = some a) (h : url.hostStr = some host) : a.host = host ∧ host ≠ [] := by
  rw [hostStr,ha,Option.bind_some] at h
  split at h
  · cases h
  next hne =>
    cases h
    exact ⟨rfl,hne⟩

/-- The host of a location is one the parser gave. -/
theorem host_given (h : (standard hosts).Located url) (hhost : url.hostStr = some host) :
    ∃ a text, url.authority = some a ∧ a.host = host ∧ host ≠ [] ∧
      hosts.parse (isSpecial url.scheme) text = .ok host := by
  obtain ⟨a,ha⟩ := authority_of_located h
  obtain ⟨rfl,hne⟩ := hostStr_eq_some ha hhost
  obtain ⟨text,ht⟩ := ((valid_of_reached h.reached).given a ha).1.host.resolve_left hne
  exact ⟨a,text,ha,rfl,hne,ht⟩

theorem standard_laws (hosts : HostParser) : (standard hosts).Laws where
  parse_scheme h := (parse_reads h).scheme.symm
  parse_path {value url} h hlocated := by
    obtain ⟨a,ha⟩ := authority_of_located hlocated
    change url.path.text = _
    rw [((parse_reads h).authority a ha).2]
    rfl
  parse_beforePath {url path} h hp := by
    obtain ⟨a,ha⟩ := authority_of_located h
    have hquery : url.query = none := h.query
    have hfragment : url.fragment = none := h.fragment
    change parse hosts (url.front++path) = .ok (url.setPath path)
    rw [parse_front (fronted_of_located h ha) hp.start hp.chars,setPath_pathText h hp,hquery,hfragment]
  toString_eq {url} h := by
    have hquery : url.query = none := h.query
    have hfragment : url.fragment = none := h.fragment
    change url.render = _
    simp [render,hquery,hfragment,standard]
  beforePath_eq {url} h := by
    obtain ⟨a,ha⟩ := authority_of_located h
    have hfronted := fronted_of_located h ha
    refine ⟨a.text,hfronted.front_eq,fun c hc hmem => (hfronted.chars hc).2 ?_,hfronted.text_eq_nil⟩
    simp only [mem_cons,not_mem_nil,or_false] at hmem ⊢
    tauto
  setPath_path {url path} h hp := by
    change (url.setPath path).path.text = _
    rw [setPath_pathText h hp]
    rfl
  setPath_parts {url path} _ := by
    change (standard hosts).parts (url.setPath path) = _
    rw [setPath]
    split <;> rfl
  setPath_beforePath {url path} h := by
    obtain ⟨a,ha⟩ := authority_of_located h
    change (url.setPath path).front = url.front
    rw [setPath]
    split
    · rfl
    · rw [front,front]
      simp only [ha]
  setHost_lower {url host} h hhost := by
    obtain ⟨a,text,ha,rfl,hne,ht⟩ := host_given h hhost
    refine ⟨_,setHost_host ha (hosts.lower ht),rfl,?_⟩
    simp [Crate.parts,standard,username,password,hostStr,port,ha,hne]
  setHost_same {url host} h hhost := by
    obtain ⟨a,text,ha,rfl,-,ht⟩ := host_given h hhost
    change url.setHost hosts a.host = _
    rw [setHost_host ha (hosts.again ht),← ha]
  setPort_none {url} h hf := by
    obtain ⟨a,ha⟩ := authority_of_located h
    have hf : isFile url.scheme = false := hf
    have hne : a.host ≠ [] := fun hnil => by
      rw [(host_of_located h ha).mp hnil] at hf
      cases hf
    refine ⟨{ url with authority := some { a with port := none } },?_,rfl,?_⟩
    · simp [standard,setPort,hostStr,ha,hne,hf]
    · simp [Crate.parts,standard,username,password,hostStr,port,ha]

/-! ## Hosts that are plain names -/

def nameChars : Text := "abcdefghijklmnopqrstuvwxyz0123456789-.".toList

def parseName (text : Text) : Except ParseError Text :=
  if text = [] then .error .emptyHost
  else if (text.map Char.toLower).all nameChars.contains then .ok (text.map Char.toLower)
  else .error .invalidDomainCharacter

theorem nameChars_plain : ∀ c ∈ nameChars,
    (isControlOrSpace c = false ∧ c ∉ ['/','\\','?','#','@']) ∧ c ∉ [':','[',']'] := by
  have hall : nameChars.all (fun c => (!isControlOrSpace c && !"/\\?#@".toList.contains c) &&
      !":[]".toList.contains c) = true := by decide
  intro c hc
  simpa [and_assoc] using all_eq_true.mp hall c hc

theorem map_toLower_toLower (text : Text) : (text.map Char.toLower).map Char.toLower = text.map Char.toLower := by
  rw [map_map]
  exact map_congr_left fun c _ => Char.toLower_toLower_eq_toLower c

theorem parseName_ok (h : parseName text = .ok host) : host ≠ [] ∧ (∀ c ∈ host, c ∈ nameChars) ∧
    host.map Char.toLower = host ∧ parseName host = .ok host := by
  unfold parseName at h
  split at h
  · cases h
  next hne =>
    split at h
    next hall =>
      cases h
      refine ⟨by simpa using hne,fun c hc => ?_,map_toLower_toLower text,?_⟩
      · simpa using all_eq_true.mp hall c hc
      · rw [parseName,map_toLower_toLower,if_neg (by simpa using hne),if_pos hall]
    next => cases h

def nameHosts : HostParser where
  parse _ := parseName
  ne_nil h := (parseName_ok h).1
  again h := (parseName_ok h).2.2.2
  lower h := by
    rw [(parseName_ok h).2.2.1]
    exact (parseName_ok h).2.2.2
  graphic h c hc := (nameChars_plain c ((parseName_ok h).2.1 c hc)).1
  brackets h := .inl fun c hc => (nameChars_plain c ((parseName_ok h).2.1 c hc)).2

end Url
end Whim
