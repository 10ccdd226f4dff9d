import Mathlib.Data.List.DropRight
import Mathlib.Algebra.Order.Ring.Nat

/-!
# The url crate

The notions of the URL standard that the documentation of the crate rests on, the functions of the crate that sources
use, and the laws that are assumed of them. The crate itself is a parameter.
-/

namespace Whim

abbrev Text := List Char

namespace Url

/-! ## Characters and their encoding -/

def isControlOrSpace (c : Char) : Bool := c.toNat ≤ 0x20

def isTabOrNewline (c : Char) : Bool := c = '\t' || c = '\n' || c = '\r'

def controlSet (c : Char) : Bool := c.toNat < 0x20 || 0x7e < c.toNat

-- The codes added are those of the space and of the characters " # < > in this order.
def querySet (c : Char) : Bool := controlSet c || [0x20,0x22,0x23,0x3c,0x3e].contains c.toNat

def specialQuerySet (c : Char) : Bool := querySet c || c.toNat = 0x27

def fragmentSet (c : Char) : Bool := controlSet c || [0x20,0x22,0x3c,0x3e,0x60].contains c.toNat

-- The question mark, the circumflex, the grave accent and the two braces.
def pathSet (c : Char) : Bool := querySet c || [0x3f,0x5e,0x60,0x7b,0x7d].contains c.toNat

def userinfoSet (c : Char) : Bool := pathSet c || ['/',':',';','=','@','[','\\',']','|'].contains c

def hexDigit (n : ℕ) : Char := if n < 10 then Char.ofNat (0x30+n) else Char.ofNat (0x37+n)

def percentByte (b : UInt8) : Text := ['%',hexDigit (b.toNat / 16),hexDigit (b.toNat % 16)]

def percentEncode (set : Char → Bool) (text : Text) : Text :=
  text.flatMap fun c => if set c then (String.utf8EncodeChar c).flatMap percentByte else [c]

/-- The text without control characters and spaces at its ends, and without tabs and line ends. -/
def clean (text : Text) : Text :=
  ((text.dropWhile isControlOrSpace).rdropWhile isControlOrSpace).filter fun c => !isTabOrNewline c

/-- The text before the first occurrence of a character, and the text after it. -/
def cut (c : Char) (text : Text) : Text × Option Text :=
  (text.takeWhile fun d => d ≠ c,(text.dropWhile fun d => d ≠ c).tail?)

/-! ## Schemes -/

def special : List (Text × Option ℕ) :=
  [("ftp".toList,some 21),("file".toList,none),("http".toList,some 80),("https".toList,some 443),
    ("ws".toList,some 80),("wss".toList,some 443)]

def isSpecial (scheme : Text) : Bool := (special.lookup scheme).isSome

def defaultPort (scheme : Text) : Option ℕ := (special.lookup scheme).join

def isFile (scheme : Text) : Bool := scheme = "file".toList

def isSchemeChar (c : Char) : Bool := c.isAlphanum || c = '+' || c = '-' || c = '.'

def parseScheme (text : Text) : Option (Text × Text) :=
  match text.takeWhile isSchemeChar,text.dropWhile isSchemeChar with
  | c::name,':'::rest => if c.isAlpha then some ((c::name).map Char.toLower,rest) else none
  | _,_ => none

/-! ## Paths -/

def isSeparator (special : Bool) (c : Char) : Bool := c = '/' || (special && c = '\\')

def isSingleDot (segment : Text) : Bool := [".","%2e","%2E"].any fun dot => segment = dot.toList

def isDoubleDot (segment : Text) : Bool :=
  ["..",".%2e",".%2E","%2e.","%2E.","%2e%2e","%2e%2E","%2E%2e","%2E%2E"].any fun dots => segment = dots.toList

def isDot (segment : Text) : Bool := isSingleDot segment || isDoubleDot segment

def isDriveLetter : Text → Bool
  | [c,d] => c.isAlpha && (d = ':' || d = '|')
  | _ => false

def isNormalDriveLetter : Text → Bool
  | [c,d] => c.isAlpha && d = ':'
  | _ => false

def normalDriveLetter (segment : Text) : Text :=
  if isDriveLetter segment then segment.take 1++[':'] else segment

/-- The last segment goes, unless it is the drive letter of a file. -/
def shorten (file : Bool) (path : List Text) : List Text :=
  match path with
  | [drive] => if file && isNormalDriveLetter drive then path else []
  | _ => path.dropLast

/-- One segment read by the path state; `last` when no separator follows. -/
def pushSegment (file : Bool) (path : List Text) (segment : Text) (last : Bool) : List Text :=
  if isDoubleDot segment then shorten file path++(if last then [[]] else [])
  else if isSingleDot segment then path++(if last then [[]] else [])
  else if file && path.isEmpty then [normalDriveLetter segment]
  else path++[segment]

def resolve (file : Bool) : List Text → List Text → List Text
  | path, [] => path
  | path, [segment] => pushSegment file path segment true
  | path, segment::next::rest => resolve file (pushSegment file path segment false) (next::rest)

/-- The segments of a path as they are written, before dots are resolved. -/
def segments (special : Bool) (path : Text) : List Text :=
  (path.splitOnP (isSeparator special)).map (percentEncode pathSet)

def skipSeparator (special : Bool) : Text → Text
  | [] => []
  | c::rest => if isSeparator special c then rest else c::rest

/-- The segments that the path state reads from the text where a path starts. -/
def written (scheme path : Text) : List Text :=
  if path = [] && !isSpecial scheme then []
  else segments (isSpecial scheme) (skipSeparator (isSpecial scheme) path)

def pathStart (scheme path : Text) : List Text := resolve (isFile scheme) [] (written scheme path)

/-! ## The path of a text -/

/-- The authority and the path in the text after a scheme. -/
def divide (scheme rest : Text) : Option Text × Text :=
  if isFile scheme then
    match rest with
    | c::d::text =>
      if isSeparator true c && isSeparator true d then
        if isDriveLetter (text.takeWhile fun c => !isSeparator true c) then (some [],text)
        else (some (text.takeWhile fun c => !isSeparator true c),text.dropWhile fun c => !isSeparator true c)
      else (some [],skipSeparator true rest)
    | _ => (some [],skipSeparator true rest)
  else if isSpecial scheme then
    ((some ((rest.dropWhile (isSeparator true)).takeWhile fun c => !isSeparator true c)),
      (rest.dropWhile (isSeparator true)).dropWhile fun c => !isSeparator true c)
  else match rest with
    | '/' :: '/'::text => (some (text.takeWhile fun c => !isSeparator false c),
        text.dropWhile fun c => !isSeparator false c)
    | _ => (none,rest)

def writtenScheme (input : Text) : Text :=
  match parseScheme (clean input) with
  | none => []
  | some (scheme,_) => scheme

/-- The segments of the path of a text as they are written. -/
def writtenPath (input : Text) : List Text :=
  match parseScheme (clean input) with
  | none => []
  | some (scheme,rest) => written scheme (divide scheme (cut '?' (cut '#' rest).1).1).2

/-- The text of a list of segments. -/
def slashed (segments : List Text) : Text := segments.flatMap fun segment => '/'::segment

/-! ## The crate -/

/-- The functions that sources use. `U` are the URLs of the crate and `F` its parse errors. -/
structure Crate (U F : Type) where
  parse : Text → Except F U
  scheme : U → Text
  username : U → Text
  password : U → Option Text
  hostStr : U → Option Text
  port : U → Option ℕ
  path : U → Text
  query : U → Option Text
  fragment : U → Option Text
  setHost : U → Text → Except F U
  setPort : U → Option ℕ → Except Unit U
  setPath : U → Text → U
  toString : U → Text
  /-- The text up to `Position::BeforePath`. -/
  beforePath : U → Text

/-- What a URL has besides its path. -/
structure Parts where
  scheme : Text
  username : Text
  password : Option Text
  host : Option Text
  port : Option ℕ
  query : Option Text
  fragment : Option Text

variable {U F : Type}

def Crate.parts (crate : Crate U F) (url : U) : Parts where
  scheme := crate.scheme url
  username := crate.username url
  password := crate.password url
  host := crate.hostStr url
  port := crate.port url
  query := crate.query url
  fragment := crate.fragment url

/-- The URLs that a program can hold: a parsed one, and what the setters make of it. -/
inductive Crate.Reached (crate : Crate U F) : U → Prop
  | parse {value : Text} {url : U} : crate.parse value = .ok url → Reached crate url
  | setHost {url next : U} {host : Text} : Reached crate url → crate.setHost url host = .ok next → Reached crate next
  | setPort {url next : U} : Reached crate url → crate.setPort url none = .ok next → Reached crate next
  | setPath {url : U} (path : Text) : Reached crate url → Reached crate (crate.setPath url path)

/-- A URL of one of three schemes with a host, or without one for a file, and with nothing behind its path. -/
structure Crate.Located (crate : Crate U F) (url : U) : Prop where
  reached : crate.Reached url
  known : crate.scheme url ∈ ["https".toList,"ssh".toList,"file".toList]
  host : crate.hostStr url = none ↔ isFile (crate.scheme url)
  query : crate.query url = none
  fragment : crate.fragment url = none

/-- The text of a path that needs no encoding. -/
structure PathText (path : Text) : Prop where
  start : path = [] ∨ path.head? = some '/'
  chars : ∀ c ∈ path, pathSet c = false

/-- What the URL standard and the documentation say of these functions. -/
structure Crate.Laws (crate : Crate U F) : Prop where
  parse_scheme {value : Text} {url : U} : crate.parse value = .ok url → crate.scheme url = writtenScheme value
  /-- The dots in the path of a text are resolved. -/
  parse_path {value : Text} {url : U} : crate.parse value = .ok url → crate.Located url →
    crate.path url = slashed (resolve (isFile (crate.scheme url)) [] (writtenPath value))
  /-- What is written before a path and a path are read as that URL with that path set. -/
  parse_beforePath {url : U} {path : Text} : crate.Located url → PathText path →
    crate.parse (crate.beforePath url++path) = .ok (crate.setPath url path)
  toString_eq {url : U} : crate.Located url → crate.toString url = crate.beforePath url++crate.path url
  /-- An authority has no character that ends it. -/
  beforePath_eq {url : U} : crate.Located url → ∃ authority : Text,
    crate.beforePath url = crate.scheme url ++ ':' :: '/' :: '/'::authority ∧
      (∀ c ∈ authority, c ∉ ['/','?','#']) ∧ (authority = [] ↔ isFile (crate.scheme url))
  /-- The dots in a path that is set are resolved. -/
  setPath_path {url : U} {path : Text} : crate.Located url → PathText path →
    crate.path (crate.setPath url path) =
      slashed (resolve (isFile (crate.scheme url)) [] (written (crate.scheme url) path))
  setPath_parts {url : U} {path : Text} : crate.Located url → crate.parts (crate.setPath url path) = crate.parts url
  setPath_beforePath {url : U} {path : Text} : crate.Located url →
    crate.beforePath (crate.setPath url path) = crate.beforePath url
  /-- A host can be set in lower case. -/
  setHost_lower {url : U} {host : Text} : crate.Located url → crate.hostStr url = some host → ∃ next,
    crate.setHost url (host.map Char.toLower) = .ok next ∧ crate.path next = crate.path url ∧
      crate.parts next = { crate.parts url with host := some (host.map Char.toLower) }
  setHost_same {url : U} {host : Text} : crate.Located url → crate.hostStr url = some host →
    crate.setHost url host = .ok url
  setPort_none {url : U} : crate.Located url → isFile (crate.scheme url) = false → ∃ next,
    crate.setPort url none = .ok next ∧ crate.path next = crate.path url ∧
      crate.parts next = { crate.parts url with port := none }

end Url
end Whim
