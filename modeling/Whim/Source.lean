import Mathlib.Data.Char
import Mathlib.Data.List.Lex
import Whim.Url

/-!
# Dependency sources

Where a package is fetched from: the accepted spellings, their normal form, and the names a lockfile holds.
-/

namespace Whim

structure Source where
  identity : Text
  fetch : Text
  deriving DecidableEq

namespace Source

open Url (Crate)

/-- `F` are the parse errors of URLs. -/
inductive Error (F : Type)
  | pathDependency | unsupportedTransport | externalTransportHelper | invalidScp
  | invalidUrl (source : F)
  | credentials | queryOrFragment | localHost | relativeLocalPath | missingHost
  | invalidHost (source : F)
  | invalidPort | relativePathSegment | missingRepository
  deriving DecidableEq

/-- The text before the first occurrence of a pattern, and the text after it. -/
def splitOnce (pattern : Text) : Text → Option (Text × Text)
  | [] => if pattern = [] then some ([],[]) else none
  | c::rest =>
    match (c::rest).dropPrefix? pattern with
    | some after => some ([],after)
    | none => (splitOnce pattern rest).map fun parts => (c::parts.1,parts.2)

def contains (pattern text : Text) : Bool := (splitOnce pattern text).isSome

def rawPath (value : Text) : Text :=
  match splitOnce "://".toList value with
  | none => []
  | some (_,remainder) => (remainder.dropWhile fun c => c ≠ '/').takeWhile fun c => c ≠ '?' && c ≠ '#'

/-- The number of dots in a segment of dots, plain or percent-encoded. -/
def dots : Text → Option ℕ
  | [] => some 0
  | '.'::rest => (dots rest).map Nat.succ
  | '%' :: '2'::c::rest => if c = 'e' || c = 'E' then (dots rest).map Nat.succ else none
  | _ => none

def relativeSegment (segment : Text) : Bool := dots segment = some 1 || dots segment = some 2

def https : Text := "https".toList

def ssh : Text := "ssh".toList

def file : Text := "file".toList

variable {U F : Type} (crate : Crate U F)

/-- The scheme is one of three, with credentials only for a user of `ssh`, and nothing follows the path. -/
def admitted (url : U) : Except (Error F) Unit :=
  if crate.scheme url ≠ https ∧ crate.scheme url ≠ ssh ∧ crate.scheme url ≠ file then .error .unsupportedTransport
  else if (crate.password url).isSome || (crate.scheme url ≠ ssh && crate.username url ≠ []) then .error .credentials
  else if (crate.query url).isSome || (crate.fragment url).isSome then .error .queryOrFragment
  else .ok ()

def normalizeHost (url : U) : Except (Error F) U :=
  if crate.scheme url = file then
    if (crate.hostStr url).isSome then .error .localHost
    else if (crate.path url).head? ≠ some '/' then .error .relativeLocalPath
    else .ok url
  else
    match crate.hostStr url with
    | none => .error .missingHost
    | some host => (crate.setHost url (host.map Char.toLower)).mapError .invalidHost

def defaultPort (scheme : Text) : Option ℕ :=
  if scheme = https then some 443 else if scheme = ssh then some 22 else none

def normalizePort (url : U) : Except (Error F) U :=
  if (defaultPort (crate.scheme url)).isSome && crate.port url = defaultPort (crate.scheme url) then
    (crate.setPort url none).mapError fun _ => .invalidPort
  else .ok url

/-- The components of a path, in the loop that collects them. -/
def collect : List Text → Except (Error F) (List Text)
  | [] => .ok []
  | component::rest =>
    if component = [] then collect rest
    else if component = ".".toList || component = "..".toList then .error .relativePathSegment
    else (collect rest).map (component::·)

def gitSuffix : Text := ".git".toList

def stripSuffix (scheme : Text) (components : List Text) : Except (Error F) (List Text) :=
  match components.getLast? with
  | none => .error .missingRepository
  | some last =>
    if scheme = file then .ok components
    else
      match last.dropSuffix? gitSuffix with
      | none => .ok components
      | some stripped =>
        if stripped = [] then .error .missingRepository else .ok (components.dropLast++[stripped])

def ofFetch (fetch : Text) : Source := { identity := "git+".toList++fetch, fetch }

def rebuild (url : U) (components : List Text) : Source :=
  ofFetch ((crate.toString (crate.setPath url ('/'::['/'].intercalate components))).rdropWhile fun c => c = '/')

def fromUrl (value : Text) : Except (Error F) Source := do
  if ((rawPath value).splitOnP fun c => c = '/').any relativeSegment then .error .relativePathSegment
  else do
    let url ← (crate.parse value).mapError .invalidUrl
    admitted crate url
    let url ← normalizeHost crate url
    let url ← normalizePort crate url
    let components ← collect ((crate.path url).splitOnP fun c => c = '/')
    let components ← stripSuffix (crate.scheme url) components
    .ok (rebuild crate url components)

def fromScp (value : Text) : Except (Error F) Source :=
  if contains "://".toList value || value.head? = some '/' || value.head? = some '.' then
    .error .unsupportedTransport
  else
    match Url.cut ':' value with
    | (_,none) => .error .unsupportedTransport
    | (authority,some path) =>
      if authority = [] || path = [] || authority.contains '/' then .error .invalidScp
      else fromUrl crate ("ssh://".toList++authority ++ '/'::path)

def parse (value : Text) : Except (Error F) Source :=
  if "path:".toList.isPrefixOf value then .error .pathDependency
  else
    match value.dropPrefix? "git+".toList with
    | some value => fromUrl crate value
    | none =>
      if "https://".toList.isPrefixOf value || "ssh://".toList.isPrefixOf value then fromUrl crate value
      else if contains "::".toList value then .error .externalTransportHelper
      else fromScp crate value

/-- Sources have private fields, so that every source is one that was parsed. -/
abbrev Parsed : Type := {source : Source // ∃ value, parse crate value = .ok source}

end Source

/-! ## Lockfiles -/

namespace Lock

open Url (Crate)

inductive SourceKind
  | dependency | resolved | rootDevelopment | rootRuntime | source | suggestion
  deriving DecidableEq

/-- `E` are the errors of a manifest, `F` the parse errors of URLs. -/
inductive Error (E F : Type)
  | configuration (error : E)
  | missingChecksum (source : Text)
  | invalidSource (kind : SourceKind) (source : Source.Error F)
  | nonNormalizedSource (kind : SourceKind) (value : Text)
  deriving DecidableEq

/-- What a lockfile takes from a manifest. -/
structure Manifest (S E : Type) where
  suggestionRequirements : Except E (List (S × Text))
  consumedResolutionHash : Except E Text
  license : Option Text
  sponsor : Option Text

structure ResolvedPackage (S E : Type) where
  source : S
  resolvedSource : Option S
  version : Text
  tag : Text
  commit : Text
  tree : Text
  manifest : Manifest S E
  dependencies : List S

structure ResolvedGraph (S E : Type) where
  runtime : List S
  development : List S
  packages : List (ResolvedPackage S E)

structure LockedPackage where
  source : Text
  resolvedSource : Option Text
  version : Text
  tag : Text
  commit : Text
  tree : Text
  manifest : Text
  checksum : Text
  dependencies : List Text
  license : Option Text
  sponsor : Option Text
  suggestions : List (Text × Text)

structure LockFile where
  lockVersion : ℕ
  manifest : Text
  runtime : List Text
  development : List Text
  packages : List LockedPackage

variable {U E F : Type} {crate : Crate U F}

def identities (sources : List (Source.Parsed crate)) : List Text := sources.map fun source => source.1.identity

def sorted (names : List Text) : List Text := names.mergeSort fun a b => decide (a ≤ b)

def lockPackage (checksums : Source.Parsed crate → Option Text) (package : ResolvedPackage (Source.Parsed crate) E) :
    Except (Error E F) LockedPackage := do
  let checksum ← (checksums package.source).elim (.error (.missingChecksum package.source.1.identity)) .ok
  let suggestions ← package.manifest.suggestionRequirements.mapError .configuration
  let manifest ← package.manifest.consumedResolutionHash.mapError .configuration
  .ok {
    source := package.source.1.identity
    resolvedSource := package.resolvedSource.map fun source => source.1.identity
    version := package.version
    tag := package.tag
    commit := package.commit
    tree := package.tree
    manifest, checksum
    dependencies := sorted (identities package.dependencies)
    license := package.manifest.license
    sponsor := package.manifest.sponsor
    suggestions := suggestions.map fun suggestion => (suggestion.1.1.identity,suggestion.2) }

def fromGraph (manifest : Text) (graph : ResolvedGraph (Source.Parsed crate) E)
    (checksums : Source.Parsed crate → Option Text) : Except (Error E F) LockFile := do
  let packages ← graph.packages.mapM (lockPackage checksums)
  .ok {
    lockVersion := 1
    manifest
    runtime := sorted (identities graph.runtime)
    development := sorted (identities graph.development)
    packages := packages.mergeSort fun left right => decide (left.source ≤ right.source) }

def validateNormalizedSource (crate : Crate U F) (kind : SourceKind) (source : Text) : Except (Error E F) Unit := do
  let normalized ← (Source.parse crate source).mapError (.invalidSource kind)
  if normalized.identity ≠ source then .error (.nonNormalizedSource kind source) else .ok ()

/-- The names that are validated when a package is read back, each as what it is. -/
def LockedPackage.names (package : LockedPackage) : List (SourceKind × Text) :=
  (.source,package.source)::package.resolvedSource.toList.map (SourceKind.resolved,·) ++
    package.dependencies.map (SourceKind.dependency,·) ++
    package.suggestions.map fun suggestion => (SourceKind.suggestion,suggestion.1)

def LockFile.names (lock : LockFile) : List (SourceKind × Text) :=
  lock.runtime.map (SourceKind.rootRuntime,·)++lock.development.map (SourceKind.rootDevelopment,·) ++
    lock.packages.flatMap LockedPackage.names

end Lock
end Whim
