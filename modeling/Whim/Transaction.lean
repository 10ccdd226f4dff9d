import Whim.CrashLogic

/-!
# Dependency transactions

An installation replaces the five artifacts of a project under a marker file and restores their backups on a failure.
-/

namespace Whim.Transaction

open Crash

/-! ## Paths -/

inductive Artifact
  | packages | autoload | lock | manifest | state
  deriving DecidableEq

inductive Staged
  | packages | autoload | manifest
  deriving DecidableEq

/-- The entries that a transaction touches. -/
inductive Place
  | current (artifact : Artifact)
  | backup (artifact : Artifact)
  | marker | stage
  | staged (entry : Staged)
  deriving DecidableEq

inductive Directory
  | project | vendor | manager
  deriving DecidableEq

def artifacts : List Artifact := [.packages,.autoload,.lock,.manifest,.state]

def manifestName : String := "whim.toml"

/-- `TransactionPaths::new`, by the components of a path. -/
def Directory.path (project : List String) : Directory → List String
  | .project => project
  | .vendor => project++["vendor"]
  | .manager => project++["vendor",".whim"]

def stages (project : List String) : List String := Directory.manager.path project++["stages"]

def Place.path (project stage : List String) : Place → List String
  | .current .packages => Directory.vendor.path project++["packages"]
  | .backup .packages => Directory.manager.path project++["packages.backup"]
  | .current .autoload => Directory.vendor.path project++["autoload.whim"]
  | .backup .autoload => Directory.manager.path project++["autoload.backup"]
  | .current .lock => project++["whim.lock"]
  | .backup .lock => Directory.manager.path project++["lock.backup"]
  | .current .manifest => project++[manifestName]
  | .backup .manifest => Directory.manager.path project++["manifest.backup"]
  | .current .state => Directory.manager.path project++["state.toml"]
  | .backup .state => Directory.manager.path project++["state.backup"]
  | .marker => Directory.manager.path project++["transaction.pending"]
  | .stage => stage
  | .staged .packages => stage++["packages"]
  | .staged .autoload => stage++["autoload.whim"]
  | .staged .manifest => stage++[manifestName]

section

attribute [local simp] Place.path stages Directory.path manifestName

/-- Only the stage holds other places, so a disk indexed by places loses no overlap of paths. -/
theorem paths_apart {project : List String} {name : String} {p q : Place} (hne : p ≠ q)
    (h : p.path project (stages project++[name]) <+: q.path project (stages project++[name])) :
    p = .stage ∧ ∃ e, q = .staged e := by
  cases p with
  | stage =>
    refine ⟨rfl,?_⟩
    cases q with
    | staged e => exact ⟨e,rfl⟩
    | stage => exact absurd rfl hne
    | marker => simp at h
    | current b | backup b => cases b <;> simp at h
  | _ =>
    exfalso
    cases q <;> (try cases_type* Artifact Staged) <;> simp at h hne

end

/-! ## The disk -/

abbrev Bytes := List UInt8

/-- A file, or a directory with whatever it holds. -/
inductive Node (T : Type)
  | file (contents : Bytes)
  | directory (tree : T)
  deriving DecidableEq

abbrev Disk (T : Type) := Place → Option (Node T)

inductive IoAction
  | create | inspect | remove
  deriving DecidableEq

inductive MoveAction
  | backUp | install | restore
  deriving DecidableEq

inductive Location
  | place (place : Place)
  | directory (directory : Directory)
  deriving DecidableEq

inductive FilesystemError
  | read (path : Location)
  | create (path : Location)
  | write (path : Location)
  | sync (path : Location)
  deriving DecidableEq

inductive StateError
  | missingChecksum (source : String)
  | encode
  | filesystem (error : FilesystemError)
  deriving DecidableEq

inductive Error
  | filesystem (error : FilesystemError)
  | state (error : StateError)
  | interruptedTransaction (path : Location)
  | io (action : IoAction) (path : Location)
  | move (action : MoveAction) (source target : Place)
  | invalidStageName (directory : List String)
  | rollback (failure restore : Error)
  deriving DecidableEq

/-- Where in a commit a directory is synced. -/
inductive Moment
  | recorded | backedUp | installed | applied | committed | cleaned | restored | unmarked
  deriving DecidableEq

/-- The file operations, by what they are called on. -/
inductive Call
  | createDirectory (directory : Directory)
  | create (place : Place)
  | write (place : Place)
  | sync (place : Place)
  | syncDirectory (directory : Directory) (moment : Moment)
  | inspect (place : Place)
  | rename (source target : Place)
  | hardLink (source target : Place)
  | remove (place : Place)
  | read (place : Place)
  | list
  deriving DecidableEq

variable {T : Type}

abbrev Io (T A : Type) := Act (Disk T) Call Error A

namespace Disk

def set (d : Disk T) (p : Place) (node : Option (Node T)) : Disk T := Function.update d p node

/-- The stage is removed with everything in it. -/
def erase (d : Disk T) (p : Place) : Disk T := fun q =>
  if q = p then none
  else if p = .stage then
    match q with
    | .staged _ => none
    | _ => d q
  else d q

def rename (d : Disk T) (p q : Place) : Option (Disk T) := (d p).map fun node => (d.set p none).set q (some node)

/-- A second name for a file. The files that are linked here are never written in place, so that the name keeps
the contents. -/
def hardLink (d : Disk T) (p q : Place) : Option (Disk T) :=
  match d p, d q with
  | some (.file contents), none => some (d.set q (some (.file contents)))
  | _, _ => none

def create (d : Disk T) (p : Place) : Option (Disk T) :=
  match d p with
  | some (.directory _) => none
  | _ => some (d.set p (some (.file [])))

def read (d : Disk T) (p : Place) : Option Bytes :=
  match d p with
  | some (.file contents) => some contents
  | _ => none

end Disk

/-! ## Operations -/

/-- An operation that gives nothing back. -/
def change (call : Call) (error : Error) (effect : Disk T → Option (Disk T)) : Io T Unit :=
  perform call error fun d => (effect d).map ((),·)

/-- The caller turns a failure into an error of its own. -/
def writeFile (wrap : FilesystemError → Error) (p : Place) (contents : Bytes) : Io T Unit := do
  change (.create p) (wrap (.create (.place p))) (·.create p)
  change (.write p) (wrap (.write (.place p))) fun d => some (d.set p (some (.file contents)))
  change (.sync p) (wrap (.sync (.place p))) some

def syncDirectory (directory : Directory) (moment : Moment) : Io T Unit :=
  change (.syncDirectory directory moment) (.filesystem (.sync (.directory directory))) some

def pathExists (p : Place) : Io T Bool :=
  perform (.inspect p) (.io .inspect (.place p)) fun d => some ((d p).isSome,d)

def removePath (p : Place) : Io T Unit := do
  if ← pathExists p then change (.remove p) (.io .remove (.place p)) fun d => some (d.erase p)

def removeAfterCommit (p : Place) : Io T Unit := do
  let _ ← attempt (removePath p)

def movePath (action : MoveAction) (p q : Place) : Io T Unit := change (.rename p q) (.move action p q) (·.rename p q)

/-! ## The installation state -/

inductive InstallationMode
  | all | noDev

structure State where
  version : ℕ
  lock : String
  mode : InstallationMode
  autoload : String
  packages : List (String × String)

/-- The hash of a file's contents and the encoder of the state. -/
structure Tools (S : Type) where
  identity : S → String
  display : S → String
  hash : Bytes → String
  encode : State → Option Bytes

structure StagedInstallation (S : Type) where
  directory : List String
  checksums : S → Option String
  installed : List S

/-- `CommitPayload`: what is installed from a stage. -/
structure Payload (S : Type) where
  directory : List String
  checksums : S → Option String
  installed : List S
  lock : Bytes
  changesManifest : Bool
  noDev : Bool

section

variable {S : Type} (tools : Tools S)

def installedPackages (payload : Payload S) : Except StateError (List (String × String)) :=
  payload.installed.mapM fun source =>
    match payload.checksums source with
    | some checksum => .ok (tools.identity source,checksum)
    | none => .error (.missingChecksum (tools.display source))

def stateOf (payload : Payload S) (packages : List (String × String)) (autoload : Bytes) : State :=
  ⟨1,tools.hash payload.lock,if payload.noDev then .noDev else .all,tools.hash autoload,packages⟩

/-- `state::write`. -/
def writeState (payload : Payload S) : Io T Unit := do
  match installedPackages tools payload with
  | .error error => fail (.state error)
  | .ok packages =>
    let autoload ← perform (.read (.current .autoload))
      (.state (.filesystem (.read (.place (.current .autoload))))) fun d =>
        (d.read (.current .autoload)).map (·,d)
    match tools.encode (stateOf tools payload packages autoload) with
    | none => fail (.state .encode)
    | some text => writeFile (fun error => .state (.filesystem error)) (.current .state) text

/-! ## Commit -/

/-- `Transaction::new`: the artifacts that are there. -/
def previousArtifacts (changesManifest : Bool) : List Artifact → Io T (List Artifact)
  | [] => pure []
  | artifact::rest => do
    if artifact ≠ .manifest ∨ changesManifest = true then
      let present ← pathExists (.current artifact)
      let previous ← previousArtifacts changesManifest rest
      pure (if present then artifact::previous else previous)
    else previousArtifacts changesManifest rest

def backUpArtifact (previous : List Artifact) (artifact : Artifact) : Io T Unit :=
  if artifact ∈ previous then
    if artifact = .manifest then
      change (.hardLink (.current artifact) (.backup artifact))
        (.move .backUp (.current artifact) (.backup artifact)) (·.hardLink (.current artifact) (.backup artifact))
    else movePath .backUp (.current artifact) (.backup artifact)
  else pure ()

def backUp (previous : List Artifact) : Io T Unit := forEach (backUpArtifact previous) artifacts

def apply (payload : Payload S) (previous : List Artifact) : Io T Unit := do
  backUp previous
  syncDirectory .vendor .backedUp
  syncDirectory .project .backedUp
  syncDirectory .manager .backedUp
  movePath .install (.staged .packages) (.current .packages)
  movePath .install (.staged .autoload) (.current .autoload)
  syncDirectory .vendor .installed
  syncDirectory .project .installed
  writeFile .filesystem (.current .lock) payload.lock
  if payload.changesManifest then movePath .install (.staged .manifest) (.current .manifest)
  writeState tools payload
  syncDirectory .vendor .applied
  syncDirectory .project .applied
  syncDirectory .manager .applied

def restoreArtifact (previous : List Artifact) (changesManifest : Bool) (artifact : Artifact) : Io T Unit := do
  if artifact = .manifest ∧ changesManifest = false then pure ()
  else if ← pathExists (.backup artifact) then
    removePath (.current artifact)
    movePath .restore (.backup artifact) (.current artifact)
  else if artifact ∉ previous then removePath (.current artifact)
  else pure ()

def restore (project : List String) (previous : List Artifact) (changesManifest : Bool) (stage : List String) :
    Io T Unit := do
  forEach (restoreArtifact previous changesManifest) artifacts
  syncDirectory .vendor .restored
  syncDirectory .project .restored
  syncDirectory .manager .restored
  removePath .marker
  syncDirectory .manager .unmarked
  if stage ≠ [] ∧ (stages project).isPrefixOf stage = true then removeAfterCommit .stage

/-- The restoration after a failure: its own failure is reported with the first one. -/
def rollBack (project : List String) (previous : List Artifact) (payload : Payload S) (error : Error) :
    Io T Unit := do
  match ← attempt (restore project previous payload.changesManifest payload.directory) with
  | .error restored => fail (.rollback error restored)
  | .ok () => fail error

def validStage (project stage : List String) : Bool :=
  stage.getLast?.any ("stage-".toList.isPrefixOf ·.toList) && stage.dropLast == stages project

/-- After the marker is gone, nothing but the syncs can make a commit fail. -/
def cleanUp : Io T Unit := do
  syncDirectory .manager .committed
  forEach (fun artifact => removeAfterCommit (.backup artifact)) artifacts
  removeAfterCommit .stage
  syncDirectory .project .cleaned
  syncDirectory .manager .cleaned

/-- The part of a commit under the marker. -/
def applyMarked (project : List String) (payload : Payload S) (previous : List Artifact) : Io T Unit := do
  match ← attempt (apply tools payload previous) with
  | .error error => rollBack project previous payload error
  | .ok () =>
    match ← attempt (change (.remove .marker) (.io .remove (.place .marker)) fun d =>
        (d .marker).map fun _ => d.erase .marker) with
    | .error error => rollBack project previous payload error
    | .ok () => cleanUp

def commitPayload (stage : StagedInstallation S) (lock : Bytes) (manifest : Option Bytes) (noDev : Bool) :
    Payload S := ⟨stage.directory,stage.checksums,stage.installed,lock,manifest.isSome,noDev⟩

def commit (project : List String) (stage : StagedInstallation S) (lock : Bytes) (manifest : Option Bytes)
    (noDev : Bool) : Io T Unit := do
  let payload := commitPayload stage lock manifest noDev
  change (.createDirectory .manager) (.io .create (.directory .manager)) some
  if validStage project payload.directory = false then fail (.invalidStageName payload.directory)
  else
    match ← attempt (manifest.forM (writeFile .filesystem (.staged .manifest))) with
    | .error error =>
      removeAfterCommit .stage
      fail error
    | .ok () =>
      let previous ← previousArtifacts payload.changesManifest artifacts
      match ← attempt (writeFile .filesystem .marker []) with
      | .error error =>
        removeAfterCommit .stage
        fail error
      | .ok () =>
        syncDirectory .manager .recorded
        applyMarked tools project payload previous

end

/-! ## Preparation -/

def ensureConsistent : Io T Unit := do
  if ← pathExists .marker then fail (.interruptedTransaction (.place .marker))

def removeStaleBackups : Io T Unit := forEach (fun artifact => removePath (.backup artifact)) artifacts

/-- The entries of the stages; those of other names and files among them are kept. -/
def removeAbandonedStages : Io T Unit := do
  let found ← perform .list (.io .inspect (.place .stage)) fun d => some ((d .stage).isSome,d)
  if found then removePath .stage

def prepare : Io T Unit := do
  ensureConsistent
  removeStaleBackups
  removeAbandonedStages

end Whim.Transaction
