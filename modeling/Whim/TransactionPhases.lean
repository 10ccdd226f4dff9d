import Whim.Transaction

/-!
# The phases of a transaction

While backups are made, the stage is installed and artifacts are restored, each artifact can be restored.
-/

namespace Whim.Transaction

open Crash Option List

variable {T S : Type} {d d' : Disk T} {a : Artifact} {p q : Place}

/-! ## The disk -/

theorem set_same (node : Option (Node T)) : d.set p node p = node := by
  simp [Disk.set]

@[simp] theorem set_apply (node : Option (Node T)) : d.set p node q = if q = p then node else d q := by
  simp [Disk.set,Function.update_apply]

theorem set_of_ne (h : q ≠ p) (node : Option (Node T)) : d.set p node q = d q := by
  simp [Disk.set,h]

theorem rename_eq_some (h : d.rename p q = some d') :
    ∃ node, d p = some node ∧ d' = (d.set p none).set q (some node) := by
  obtain ⟨node,hn,rfl⟩ := map_eq_some_iff.mp h
  exact ⟨node,hn,rfl⟩

theorem hardLink_eq_some (h : d.hardLink p q = some d') :
    ∃ c, d p = some (.file c) ∧ d' = d.set q (some (.file c)) := by
  unfold Disk.hardLink at h
  split at h
  next c hp _ =>
    cases h
    exact ⟨c,hp,rfl⟩
  next => cases h

theorem create_eq_some (h : d.create p = some d') : d' = d.set p (some (.file [])) := by
  unfold Disk.create at h
  split at h <;> cases h
  rfl

theorem erase_same : d.erase p p = none := by
  unfold Disk.erase
  rw [if_pos rfl]

theorem erase_of_ne (h : q ≠ p) (hstage : p ≠ .stage) : d.erase p q = d q := by
  unfold Disk.erase
  rw [if_neg h,if_neg hstage]

theorem erase_current (h : p ≠ .current a) : d.erase p (.current a) = d (.current a) := by
  unfold Disk.erase
  rw [if_neg (Ne.symm h)]
  split <;> rfl

theorem erase_marker (h : p ≠ .marker) : d.erase p .marker = d .marker := by
  unfold Disk.erase
  rw [if_neg (Ne.symm h)]
  split <;> rfl

/-! ## Before and after -/

section

variable (before : Disk T)

def AsBefore (d : Disk T) : Prop := ∀ a, d (.current a) = before (.current a)

variable (tools : Tools S) (payload : Payload S) (manifest : Option Bytes)

/-- The text of the new state, from the autoload file in the stage. -/
def stateText : Option Bytes := do
  let packages ← (installedPackages tools payload).toOption
  let autoload ← before.read (.staged .autoload)
  tools.encode (stateOf tools payload packages autoload)

/-- What a commit makes of the artifacts. -/
def intended : Artifact → Option (Node T)
  | .packages => before (.staged .packages)
  | .autoload => before (.staged .autoload)
  | .lock => some (.file payload.lock)
  | .manifest => (manifest.map .file).or (before (.current .manifest))
  | .state => (stateText before tools payload).map .file

def AsIntended (d : Disk T) : Prop := ∀ a, d (.current a) = intended before tools payload manifest a

/-- Without the marker, the artifacts are all as before or all as intended. -/
def Safe (d : Disk T) : Prop := d .marker = none → AsBefore before d ∨ AsIntended before tools payload manifest d

/-! ## Backups -/

/-- The manifest takes part in a transaction only when it changes. -/
def TakesPart (changesManifest : Bool) (a : Artifact) : Prop := a ≠ .manifest ∨ changesManifest = true

def Kept (d : Disk T) (a : Artifact) : Prop := d (.current a) = before (.current a) ∧ d (.backup a) = none

variable (changesManifest : Bool)

/-- The backup holds what was there; where nothing was there, there is no backup. -/
def Secured (d : Disk T) (a : Artifact) : Prop :=
  (TakesPart changesManifest a → d (.backup a) = before (.current a)) ∧
    (¬TakesPart changesManifest a → Kept before d a)

def Restorable (d : Disk T) (a : Artifact) : Prop := Kept before d a ∨ Secured before changesManifest d a

end

/-! ## Operations that nobody watches -/

/-- The operations whose failure leaves the marker, and those that fail after the commit. -/
def LeavesMarker (call : Call) : Prop :=
  call = .write .marker ∨ call = .sync .marker ∨ call = .syncDirectory .manager .recorded

def FollowsCommit (call : Call) : Prop :=
  call = .syncDirectory .manager .committed ∨ call = .syncDirectory .project .cleaned ∨
    call = .syncDirectory .manager .cleaned

def Exposed (call : Call) : Prop := LeavesMarker call ∨ FollowsCommit call

instance (call : Call) : Decidable (LeavesMarker call) := inferInstanceAs (Decidable (_ ∨ _ ∨ _))

instance (call : Call) : Decidable (FollowsCommit call) := inferInstanceAs (Decidable (_ ∨ _ ∨ _))

instance (call : Call) : Decidable (Exposed call) := inferInstanceAs (Decidable (_ ∨ _))

/-- A property of the disk, where no exposed operation has failed. -/
def On (P : Disk T → Prop) (d : Disk T) (log : List (Call × Bool)) : Prop := P d ∧ Quiet Exposed log

/-- The ends of a step whose failure leaves one property of the disk, and whose cut another. -/
abbrev ends (Q F C : Disk T → Prop) : Post (Disk T) Call Error Unit := ⟨fun _ => On Q,fun _ => On F,C⟩

variable {P Q F C : Disk T → Prop}

theorem triple_change {call : Call} {e : Error} {effect : Disk T → Option (Disk T)} (hc : ¬Exposed call)
    (heffect : ∀ d d', P d → effect d = some d' → Q d') (hF : ∀ d, P d → F d) (hC : ∀ d, P d → C d) :
    Triple (On P) (change call e effect) (ends Q F C) := by
  refine triple_perform ?_ ?_ ?_
  · rintro d log ⟨⟩ d' ⟨hd,hlog⟩ hsome
    obtain ⟨next,hnext,heq⟩ := map_eq_some_iff.mp hsome
    cases heq
    exact ⟨heffect d d' hd hnext,quiet_snoc hlog fun _ => hc⟩
  · exact fun d log hd => ⟨hF d hd.1,quiet_snoc hd.2 fun _ => hc⟩
  · exact fun d _ hd => hC d hd.1

theorem triple_sync {dir : Directory} {m : Moment} (hc : ¬Exposed (.syncDirectory dir m))
    (hF : ∀ d, P d → F d) (hC : ∀ d, P d → C d) : Triple (On P) (syncDirectory dir m) (ends P F C) := by
  refine triple_change hc ?_ hF hC
  intro d d' hd heq
  cases heq
  exact hd

attribute [local simp] Exposed LeavesMarker FollowsCommit

theorem triple_pathExists (p : Place) (hF : ∀ d, P d → F d) (hC : ∀ d, P d → C d) :
    Triple (On P) (pathExists p) ⟨fun f => On fun d => P d ∧ (d p).isSome = f,fun _ => On F,C⟩ := by
  have hc (b : Bool) : b = false → ¬Exposed (.inspect p) := fun _ => by simp
  refine triple_perform ?_ ?_ ?_
  · intro d log f d' hd heq
    cases heq
    exact ⟨⟨hd.1,rfl⟩,quiet_snoc hd.2 (hc true)⟩
  · exact fun d log hd => ⟨hF d hd.1,quiet_snoc hd.2 (hc false)⟩
  · exact fun d _ hd => hC d hd.1

/-- The removal of a place that may be empty. -/
theorem triple_removePath (p : Place) (hremove : ∀ d, P d → P (d.erase p)) (hF : ∀ d, P d → F d)
    (hC : ∀ d, P d → C d) : Triple (On P) (removePath p) (ends (fun d => P d ∧ d p = none) F C) := by
  refine (triple_pathExists p hF hC).bind fun f => ?_
  cases f with
  | false =>
    refine triple_pure fun d log hd => ⟨⟨hd.1.1,?_⟩,hd.2⟩
    exact isNone_iff_eq_none.mp (by simpa using hd.1.2)
  | true =>
    refine triple_change (by simp) ?_ (fun d hd => hF d hd.1)
      fun d hd => hC d hd.1
    rintro d d' ⟨hd,_⟩ heq
    cases heq
    exact ⟨hremove d hd,erase_same⟩

variable {fails : Error → Disk T → List (Call × Bool) → Prop}

/-- The removal that only warns keeps whatever does not depend on the place and on how it ends. -/
theorem triple_removeAfterCommit (p : Place) {G : Disk T → List (Call × Bool) → Prop}
    (hlog : ∀ d log call b, call = .inspect p ∨ call = .remove p → G d log → G d (log++[(call,b)]))
    (hremove : ∀ d log, G d log → G (d.erase p) log) (hC : ∀ d log, G d log → C d) :
    Triple G (removeAfterCommit p) ⟨fun _ => G,fails,C⟩ := by
  have hinspect : Triple G (pathExists p) ⟨fun _ => G,fun _ => G,C⟩ := by
    refine triple_perform ?_ (fun d log hd => hlog d log _ false (.inl rfl) hd) hC
    intro d log f d' hd heq
    cases heq
    exact hlog d log _ true (.inl rfl) hd
  have hp : Triple G (removePath p) ⟨fun _ => G,fun _ => G,C⟩ := by
    have hremoval : Triple G (change (.remove p) (.io .remove (.place p)) fun d => some (d.erase p))
        ⟨fun _ => G,fun _ => G,C⟩ := by
      refine triple_perform ?_ (fun d log hd => hlog d log _ false (.inr rfl) hd) hC
      intro d log v d' hd heq
      cases heq
      exact hlog _ log _ true (.inr rfl) (hremove d log hd)
    refine hinspect.bind fun f => ?_
    cases f with
    | false => exact triple_pure fun _ _ hd => hd
    | true => exact hremoval
  refine hp.attempt.bind fun r => ?_
  cases r with
  | ok => exact triple_pure fun _ _ hd => hd
  | error => exact triple_pure fun _ _ hd => hd

theorem on_removeAfterCommit (p : Place) (hremove : ∀ d, P d → P (d.erase p)) (hC : ∀ d, P d → C d) :
    Triple (On P) (removeAfterCommit p) ⟨fun _ => On P,fails,C⟩ := by
  refine triple_removeAfterCommit p ?_ (fun d log hd => ⟨hremove d hd.1,hd.2⟩) fun d log hd => hC d hd.1
  rintro d log call b (rfl | rfl) hd
  · exact ⟨hd.1,quiet_snoc hd.2 fun _ => by simp⟩
  · exact ⟨hd.1,quiet_snoc hd.2 fun _ => by simp⟩

theorem triple_movePath {action : MoveAction} (p q : Place)
    (hm : ∀ d node, P d → d p = some node → Q ((d.set p none).set q (some node))) (hF : ∀ d, P d → F d)
    (hC : ∀ d, P d → C d) : Triple (On P) (movePath action p q) (ends Q F C) := by
  refine triple_change (by simp) ?_ hF hC
  intro d d' hd heq
  obtain ⟨node,hn,rfl⟩ := rename_eq_some heq
  exact hm d node hd hn

theorem triple_writeFile (wrap : FilesystemError → Error) (p : Place) (contents : Bytes) (hp : p ≠ .marker)
    (hset : ∀ d c, P d → P (d.set p (some (.file c)))) (hF : ∀ d, P d → F d) (hC : ∀ d, P d → C d) :
    Triple (On P) (writeFile wrap p contents) (ends (fun d => P d ∧ d p = some (.file contents)) F C) := by
  have hcalls : ¬Exposed (.create p) ∧ ¬Exposed (.write p) ∧ ¬Exposed (.sync p) := by
    simp [hp]
  refine (triple_change (Q := P) hcalls.1 ?_ hF hC).bind fun _ => ?_
  · intro d d' hd heq
    rw [create_eq_some heq]
    exact hset d [] hd
  refine (triple_change (Q := fun d => P d ∧ d p = some (.file contents)) hcalls.2.1 ?_ hF hC).bind fun _ => ?_
  · intro d d' hd heq
    cases heq
    exact ⟨hset d contents hd,set_same _⟩
  refine triple_change hcalls.2.2 ?_ (fun d hd => hF d hd.1) fun d hd => hC d hd.1
  intro d d' hd heq
  cases heq
  exact hd

/-! ## Phases -/

section

variable {before : Disk T} {tools : Tools S} {payload : Payload S} {manifest : Option Bytes}
  {changesManifest : Bool} {previous : List Artifact} {done : List Artifact}

theorem AsBefore.erase (h : AsBefore before d) (hp : ∀ a, p ≠ .current a) : AsBefore before (d.erase p) :=
  fun a => (erase_current (hp a)).trans (h a)

theorem AsIntended.erase (h : AsIntended before tools payload manifest d) (hp : ∀ a, p ≠ .current a) :
    AsIntended before tools payload manifest (d.erase p) := fun a => (erase_current (hp a)).trans (h a)

theorem Kept.congr (h : Kept before d a) (hcurrent : d' (.current a) = d (.current a))
    (hbackup : d' (.backup a) = d (.backup a)) : Kept before d' a := ⟨hcurrent.trans h.1,hbackup.trans h.2⟩

theorem Secured.congr (h : Secured before changesManifest d a) (hbackup : d' (.backup a) = d (.backup a))
    (hcurrent : ¬TakesPart changesManifest a → d' (.current a) = d (.current a)) :
    Secured before changesManifest d' a :=
  ⟨fun hp => hbackup.trans (h.1 hp),fun hp => (h.2 hp).congr (hcurrent hp) hbackup⟩

/-- The artifacts that were there, as `Transaction::new` finds them. -/
def IsPrevious (before : Disk T) (changesManifest : Bool) (previous : List Artifact) : Prop :=
  ∀ a, a ∈ previous ↔ TakesPart changesManifest a ∧ (before (.current a)).isSome = true

def stagedOf : Artifact → Option Staged
  | .packages => some .packages
  | .autoload => some .autoload
  | .manifest => some .manifest
  | .lock => none
  | .state => none

/-- What is still in the stage is what is intended. -/
def StagedFor (before : Disk T) (tools : Tools S) (payload : Payload S) (manifest : Option Bytes)
    (installed : List Artifact) (d : Disk T) : Prop :=
  ∀ a entry, stagedOf a = some entry → a ∉ installed → TakesPart manifest.isSome a →
    d (.staged entry) = intended before tools payload manifest a

/-- While backups are made. -/
structure BackingUp (before : Disk T) (tools : Tools S) (payload : Payload S) (manifest : Option Bytes)
    (done : List Artifact) (d : Disk T) : Prop where
  marker : (d .marker).isSome = true
  staged : StagedFor before tools payload manifest [] d
  secured : ∀ a ∈ done, Secured before manifest.isSome d a
  kept : ∀ a, a ∉ done → Kept before d a

/-- While the stage is installed. -/
structure Installing (before : Disk T) (tools : Tools S) (payload : Payload S) (manifest : Option Bytes)
    (installed : List Artifact) (d : Disk T) : Prop where
  marker : (d .marker).isSome = true
  staged : StagedFor before tools payload manifest installed d
  secured : ∀ a, Secured before manifest.isSome d a
  installed : ∀ a ∈ installed, d (.current a) = intended before tools payload manifest a

/-- Everything can be restored, and the marker says that it may have to be. -/
def Marked (before : Disk T) (changesManifest : Bool) (d : Disk T) : Prop :=
  (d .marker).isSome = true ∧ ∀ a, Restorable before changesManifest d a

/-- The ends of a step under the marker: where it fails, everything can be restored. -/
abbrev underMarker (before : Disk T) (changesManifest : Bool) (Q : Disk T → Prop) : Post (Disk T) Call Error Unit :=
  ⟨fun _ => On Q,fun _ => On (Marked before changesManifest),fun d => (d .marker).isSome = true⟩

theorem BackingUp.marked (h : BackingUp before tools payload manifest done d) : Marked before manifest.isSome d := by
  refine ⟨h.marker,fun a => ?_⟩
  by_cases ha : a ∈ done
  · exact .inr (h.secured a ha)
  · exact .inl (h.kept a ha)

theorem Installing.marked (h : Installing before tools payload manifest done d) : Marked before manifest.isSome d :=
  ⟨h.marker,fun a => .inr (h.secured a)⟩

theorem mem_artifacts (a : Artifact) : a ∈ artifacts := by cases a <;> decide

theorem BackingUp.installing (h : BackingUp before tools payload manifest artifacts d) :
    Installing before tools payload manifest [] d := ⟨h.marker,h.staged,fun a => h.secured a (mem_artifacts a),nofun⟩

/-! ## Backups -/

/-- One more artifact is secured; nothing else of the other artifacts changes. -/
theorem BackingUp.snoc (h : BackingUp before tools payload manifest done d) (ha : Secured before manifest.isSome d' a)
    (ho : ∀ q, q ≠ .current a → q ≠ .backup a → d' q = d q) :
    BackingUp before tools payload manifest (done++[a]) d' where
  marker := by rw [ho .marker nofun nofun]; exact h.marker
  staged b entry hb hmem hp := by rw [ho (.staged entry) nofun nofun]; exact h.staged b entry hb hmem hp
  secured b hb := by
    by_cases hne : b = a
    · rw [hne]
      exact ha
    · have hmem : b ∈ done := by simpa [hne] using hb
      exact (h.secured b hmem).congr (ho _ nofun (by simp [hne])) fun _ => ho _ (by simp [hne]) nofun
  kept b hb := by
    have hne : b ≠ a ∧ b ∉ done := by simpa [and_comm] using hb
    exact (h.kept b hne.2).congr (ho _ (by simp [hne.1]) nofun) (ho _ nofun (by simp [hne.1]))

theorem triple_backUpArtifact (hprevious : IsPrevious before manifest.isSome previous) (ha : a ∉ done) :
    Triple (On (BackingUp before tools payload manifest done)) (backUpArtifact previous a)
      (underMarker before manifest.isSome (BackingUp before tools payload manifest (done++[a]))) := by
  unfold backUpArtifact
  by_cases hmem : a ∈ previous
  · have hp := ((hprevious a).mp hmem).1
    rw [if_pos hmem]
    by_cases hmanifest : a = .manifest
    · rw [if_pos hmanifest]
      refine triple_change (by simp) ?_ (fun _ hd => hd.marked) fun _ hd => hd.marker
      intro d d' hd heq
      obtain ⟨c,hcontents,rfl⟩ := hardLink_eq_some heq
      have hk := hd.kept a ha
      refine hd.snoc ⟨fun _ => ?_,fun hnot => absurd hp hnot⟩ fun q _ hq => set_of_ne hq _
      rw [set_same,← hcontents,hk.1]
    · rw [if_neg hmanifest]
      refine triple_movePath _ _ ?_ (fun _ hd => hd.marked) fun _ hd => hd.marker
      intro d node hd hn
      have hk := hd.kept a ha
      refine hd.snoc ⟨fun _ => ?_,fun hnot => absurd hp hnot⟩ fun q hcurrent hbackup => ?_
      · rw [set_same,← hn,hk.1]
      · rw [set_of_ne hbackup,set_of_ne hcurrent]
  · rw [if_neg hmem]
    refine triple_pure fun d log hd => ⟨hd.1.snoc ⟨fun hp => ?_,fun _ => hd.1.kept a ha⟩ fun _ _ _ => rfl,hd.2⟩
    have hnone : before (.current a) = none := by
      rw [hprevious] at hmem
      simpa [hp] using hmem
    rw [hnone]
    exact (hd.1.kept a ha).2

theorem notMem_done {rest : List Artifact} (heq : artifacts = done++a::rest) : a ∉ done := by
  intro hmem
  have hnd : artifacts.Nodup := by decide
  rw [heq] at hnd
  exact (nodup_append.mp hnd).2.2 a hmem a (by simp) rfl

theorem triple_backUp (hprevious : IsPrevious before manifest.isSome previous) :
    Triple (On (BackingUp before tools payload manifest [])) (backUp previous)
      (underMarker before manifest.isSome (Installing before tools payload manifest [])) := by
  have hloop : Triple (On (BackingUp before tools payload manifest [])) (backUp previous)
      (underMarker before manifest.isSome (BackingUp before tools payload manifest artifacts)) := by
    refine triple_forEach (fun done => On (BackingUp before tools payload manifest done)) artifacts ?_
    intro done a rest heq
    exact triple_backUpArtifact hprevious (notMem_done heq)
  exact hloop.ensure fun _ _ _ hd => ⟨hd.1.installing,hd.2⟩

/-! ## Installation -/

variable {installed : List Artifact}

section
variable (h : Installing before tools payload manifest installed d)
include h

/-- A place that is not yet installed may be written. -/
theorem Installing.set_current (ha : a ∉ installed) (hp : TakesPart manifest.isSome a) (node : Option (Node T)) :
    Installing before tools payload manifest installed (d.set (.current a) node) where
  marker := by simpa using h.marker
  staged b entry hb hmem hp := by simpa using h.staged b entry hb hmem hp
  secured b := by
    refine (h.secured b).congr (by simp) fun hnot => set_of_ne ?_ _
    intro heq
    cases heq
    exact hnot hp
  installed b hb := by
    have hne : Place.current b ≠ .current a := by
      intro heq
      cases heq
      exact ha hb
    rw [set_of_ne hne]
    exact h.installed b hb

theorem Installing.snoc (ha : d (.current a) = intended before tools payload manifest a) :
    Installing before tools payload manifest (installed++[a]) d where
  marker := h.marker
  staged b entry hb hmem hp := h.staged b entry hb (fun hb => hmem (mem_append_left _ hb)) hp
  secured := h.secured
  installed b hb := by
    rcases mem_append.mp hb with hb | hb
    · exact h.installed b hb
    · rw [mem_singleton.mp hb]
      exact ha

end

variable {e : Staged}

theorem stagedOf_inj {b : Artifact} (ha : stagedOf a = some e) (hb : stagedOf b = some e) : b = a := by
  cases e <;> cases a <;> cases b <;> simp_all [stagedOf]

/-- An entry of the stage is moved to where it belongs. -/
theorem Installing.move (h : Installing before tools payload manifest installed d)
    (hentry : stagedOf a = some e) (ha : a ∉ installed) (hp : TakesPart manifest.isSome a) {node : Node T}
    (hn : d (.staged e) = some node) : Installing before tools payload manifest (installed++[a])
      ((d.set (.staged e) none).set (.current a) (some node)) := by
  have hcurrent : some node = intended before tools payload manifest a :=
    hn.symm.trans (h.staged a e hentry ha hp)
  refine ⟨by simpa using h.marker,?_,?_,?_⟩
  · intro b o hb hmem hb'
    have hne : b ≠ a ∧ b ∉ installed := by simpa [and_comm] using hmem
    have ho : o ≠ e := by
      rintro rfl
      exact hne.1 (stagedOf_inj hentry hb)
    simpa [ho] using h.staged b o hb hne.2 hb'
  · intro b
    refine (h.secured b).congr (by simp) fun hnot => ?_
    have hne : b ≠ a := by
      rintro rfl
      exact hnot hp
    simp [hne]
  · intro b hb
    by_cases hne : b = a
    · rw [hne,set_same]
      exact hcurrent
    · have hmem : b ∈ installed := by simpa [hne] using hb
      simpa [hne] using h.installed b hmem

theorem triple_install (hentry : stagedOf a = some e) (ha : a ∉ installed)
    (hp : TakesPart manifest.isSome a) : Triple (On (Installing before tools payload manifest installed))
      (movePath .install (.staged e) (.current a))
      (underMarker before manifest.isSome (Installing before tools payload manifest (installed++[a]))) :=
  triple_movePath _ _ (fun _ _ hd hn => hd.move hentry ha hp hn) (fun _ hd => hd.marked) fun _ hd => hd.marker

theorem triple_installFile {wrap : FilesystemError → Error} (c : Bytes)
    (hcontents : some (.file c) = intended before tools payload manifest a) (ha : a ∉ installed)
    (hp : TakesPart manifest.isSome a) :
    Triple (On (Installing before tools payload manifest installed)) (writeFile wrap (.current a) c)
      (underMarker before manifest.isSome (Installing before tools payload manifest (installed++[a]))) := by
  have hwrite := triple_writeFile (P := Installing before tools payload manifest installed)
    (F := Marked before manifest.isSome) (C := fun d => (d .marker).isSome = true) wrap (.current a) c nofun
    (fun _ _ hd => hd.set_current ha hp _) (fun _ hd => hd.marked) fun _ hd => hd.marker
  exact hwrite.ensure fun _ _ _ hd => ⟨hd.1.1.snoc (hd.1.2.trans hcontents),hd.2⟩

theorem triple_writeState (ha : Artifact.autoload ∈ installed) (hs : Artifact.state ∉ installed) :
    Triple (On (Installing before tools payload manifest installed)) (writeState tools payload)
      (underMarker before manifest.isSome (Installing before tools payload manifest (installed++[.state]))) := by
  unfold writeState
  cases hpackages : installedPackages tools payload with
  | error => exact triple_fail fun _ _ hd => ⟨hd.1.marked,hd.2⟩
  | ok ps =>
    have hread : Triple (On (Installing before tools payload manifest installed))
        (perform (.read (.current .autoload)) (Error.state (.filesystem (.read (.place (.current .autoload))))) fun d =>
          (Disk.read d (.current .autoload)).map (·,d))
        ⟨fun autoload => On fun d => Installing before tools payload manifest installed d ∧
            before.read (.staged .autoload) = some autoload,
          fun _ => On (Marked before manifest.isSome),fun d => (d .marker).isSome = true⟩ := by
      refine triple_perform ?_ ?_ ?_
      · intro d log autoload d' hd heq
        obtain ⟨c,hcontents,heq⟩ := map_eq_some_iff.mp heq
        cases heq
        have hsame : d (.current .autoload) = before (.staged .autoload) := hd.1.installed .autoload ha
        refine ⟨⟨hd.1,?_⟩,quiet_snoc hd.2 nofun⟩
        rw [← hcontents]
        unfold Disk.read
        rw [hsame]
      · exact fun d log hd => ⟨hd.1.marked,quiet_snoc hd.2 fun _ => by simp⟩
      · exact fun d _ hd => hd.1.marker
    refine hread.bind fun autoload => ?_
    cases ht : tools.encode (stateOf tools payload ps autoload) with
    | none => exact triple_fail fun _ _ hd => ⟨hd.1.1.marked,hd.2⟩
    | some text =>
      intro w hw
      have hintended : some (.file text) = intended before tools payload manifest .state := by
        simp [intended,stateText,hpackages,hw.1.2,ht,Except.toOption]
      exact triple_installFile text hintended hs (.inl nofun) w ⟨hw.1.1,hw.2⟩

theorem Installing.asIntended (h : Installing before tools payload manifest installed d)
    (hall : ∀ a, TakesPart manifest.isSome a → a ∈ installed) : AsIntended before tools payload manifest d := by
  intro a
  by_cases hp : TakesPart manifest.isSome a
  · exact h.installed a (hall a hp)
  have hk := (h.secured a).2 hp
  obtain ⟨hmanifest,hn⟩ : a = .manifest ∧ manifest = none := by simpa [TakesPart] using hp
  rw [hk.1,hmanifest,hn]
  rfl

theorem triple_apply (hprevious : IsPrevious before manifest.isSome previous)
    (hchanges : payload.changesManifest = manifest.isSome) :
    Triple (On (BackingUp before tools payload manifest [])) (apply tools payload previous)
      (underMarker before manifest.isSome fun d =>
        Marked before manifest.isSome d ∧ AsIntended before tools payload manifest d) := by
  have hsync {installed : List Artifact} {dir : Directory} {m : Moment}
      (hc : ¬Exposed (.syncDirectory dir m)) :
      Triple (On (Installing before tools payload manifest installed)) (syncDirectory dir m)
        (underMarker before manifest.isSome (Installing before tools payload manifest installed)) :=
    triple_sync hc (fun _ hd => hd.marked) fun _ hd => hd.marker
  unfold apply
  refine (triple_backUp hprevious).bind fun _ => ?_
  refine (hsync (by decide)).bind fun _ => ?_
  refine (hsync (by decide)).bind fun _ => ?_
  refine (hsync (by decide)).bind fun _ => ?_
  refine (triple_install (a := .packages) rfl (by decide) (.inl (by decide))).bind fun _ => ?_
  refine (triple_install (a := .autoload) rfl (by decide) (.inl (by decide))).bind fun _ => ?_
  refine (hsync (by decide)).bind fun _ => ?_
  refine (hsync (by decide)).bind fun _ => ?_
  refine (triple_installFile (a := .lock) payload.lock rfl (by decide) (.inl (by decide))).bind fun _ => ?_
  -- The manifest is installed only when it changes; the rest is the same.
  have ht {installed : List Artifact} (ha : Artifact.autoload ∈ installed) (hs : Artifact.state ∉ installed)
      (hall : ∀ a, TakesPart manifest.isSome a → a ∈ installed++[.state]) :
      Triple (On (Installing before tools payload manifest installed))
        (do
          writeState tools payload
          syncDirectory .vendor .applied
          syncDirectory .project .applied
          syncDirectory .manager .applied)
        (underMarker before manifest.isSome fun d =>
        Marked before manifest.isSome d ∧ AsIntended before tools payload manifest d) := by
    refine (triple_writeState ha hs).bind fun _ => ?_
    refine (hsync (by decide)).bind fun _ => ?_
    refine (hsync (by decide)).bind fun _ => ?_
    exact (hsync (by decide)).ensure fun _ d _ hd => ⟨⟨hd.1.marked,hd.1.asIntended hall⟩,hd.2⟩
  cases hm : manifest with
  | none =>
    rw [hm] at hchanges
    simp only [hchanges,isSome_none,Bool.false_eq_true,if_false]
    rw [hm] at ht
    exact ht (by decide) (by decide) (fun a ha => by cases a <;> simp [TakesPart] at ha ⊢)
  | some =>
    rw [hm] at hchanges
    simp only [hchanges,isSome_some,if_true]
    rw [hm] at ht
    refine (triple_install (a := .manifest) rfl (by decide) (.inr rfl)).bind fun _ => ?_
    exact ht (by decide) (by decide) (fun a _ => by cases a <;> decide)

/-! ## Restoration -/

/-- While artifacts are restored. -/
structure Restoring (before : Disk T) (changesManifest : Bool) (done : List Artifact) (d : Disk T) : Prop where
  marker : (d .marker).isSome = true
  restored : ∀ a ∈ done, d (.current a) = before (.current a)
  restorable : ∀ a, a ∉ done → Restorable before changesManifest d a

/-- All that concerns the artifacts other than one. -/
structure Others (before : Disk T) (changesManifest : Bool) (done : List Artifact) (a : Artifact) (d : Disk T) :
    Prop where
  marker : (d .marker).isSome = true
  restored : ∀ b ∈ done, b ≠ a → d (.current b) = before (.current b)
  restorable : ∀ b, b ∉ done → b ≠ a → Restorable before changesManifest d b

theorem Restoring.others (h : Restoring before changesManifest done d) : Others before changesManifest done a d :=
  ⟨h.marker,fun b hb _ => h.restored b hb,fun b hb _ => h.restorable b hb⟩

theorem Others.congr (h : Others before changesManifest done a d)
    (ho : ∀ q, q ≠ .current a → q ≠ .backup a → d' q = d q) : Others before changesManifest done a d' where
  marker := by rw [ho .marker nofun nofun]; exact h.marker
  restored b hb hne := by
    rw [ho (.current b) (by simp [hne]) nofun]
    exact h.restored b hb hne
  restorable b hb hne := by
    have hcurrent := ho (.current b) (by simp [hne]) nofun
    have hbackup := ho (.backup b) nofun (by simp [hne])
    rcases h.restorable b hb hne with hk | hsecured
    · exact .inl (hk.congr hcurrent hbackup)
    · exact .inr (hsecured.congr hbackup fun _ => hcurrent)

theorem Others.snoc (h : Others before changesManifest done a d) (ha : d (.current a) = before (.current a)) :
    Restoring before changesManifest (done++[a]) d where
  marker := h.marker
  restored b hb := by
    by_cases hne : b = a
    · rw [hne]
      exact ha
    · have hmem : b ∈ done := by simpa [hne] using hb
      exact h.restored b hmem hne
  restorable b hb := by
    have hne : b ≠ a ∧ b ∉ done := by simpa [and_comm] using hb
    exact h.restorable b hne.2 hne.1

/-- What a restorable artifact can be: without its backup it is as before, or there was nothing. -/
theorem Restorable.of_backup_none (h : Restorable before changesManifest d a) (hn : d (.backup a) = none) :
    d (.current a) = before (.current a) ∨ TakesPart changesManifest a ∧ before (.current a) = none := by
  rcases h with hk | hsecured
  · exact .inl hk.1
  by_cases hp : TakesPart changesManifest a
  · exact .inr ⟨hp,(hsecured.1 hp).symm.trans hn⟩
  · exact .inl (hsecured.2 hp).1

theorem Restorable.of_backup_some (h : Restorable before changesManifest d a) (hsome : (d (.backup a)).isSome) :
    d (.backup a) = before (.current a) := by
  have hnot : d (.backup a) ≠ none := isSome_iff_ne_none.mp hsome
  rcases h with hk | hsecured
  · exact absurd hk.2 hnot
  by_cases hp : TakesPart changesManifest a
  · exact hsecured.1 hp
  · exact absurd (hsecured.2 hp).2 hnot

theorem triple_removeCurrent {P : Disk T → Prop} (hP : ∀ d, P d → P (d.erase (.current a)))
    (hmarker : ∀ d, P d → (d .marker).isSome) :
    Triple (On P) (removePath (.current a)) (ends (fun d => P d ∧ d (.current a) = none)
      (fun d => (d .marker).isSome) fun d => (d .marker).isSome) := triple_removePath (.current a) hP hmarker hmarker

theorem triple_restoreArtifact (hprevious : IsPrevious before changesManifest previous) (ha : a ∉ done) :
    Triple (On (Restoring before changesManifest done)) (restoreArtifact previous changesManifest a)
      (ends (Restoring before changesManifest (done++[a])) (fun d => (d .marker).isSome)
        fun d => (d .marker).isSome) := by
  have herase {d : Disk T} (q : Place) (hq : q ≠ .current a) : d.erase (.current a) q = d q := erase_of_ne hq nofun
  unfold restoreArtifact
  by_cases hskip : a = .manifest ∧ changesManifest = false
  · rw [if_pos hskip]
    refine triple_pure fun d log hd => ⟨hd.1.others.snoc ?_,hd.2⟩
    have hp : ¬TakesPart changesManifest a := by simp [TakesPart,hskip.1,hskip.2]
    rcases hd.1.restorable a ha with hk | hsecured
    · exact hk.1
    · exact (hsecured.2 hp).1
  · have hp : TakesPart changesManifest a := by
      by_cases hmanifest : a = .manifest
      · exact .inr (by simpa [hmanifest] using hskip)
      · exact .inl hmanifest
    rw [if_neg hskip]
    refine (triple_pathExists (.backup a) (F := fun d => (d .marker).isSome = true) (fun _ hd => hd.marker)
      fun _ hd => hd.marker).bind fun f => ?_
    cases f with
    | true =>
      -- The backup holds what was there, and replaces whatever is there now.
      have hremove := triple_removeCurrent (a := a)
        (P := fun d => Others before changesManifest done a d ∧ d (.backup a) = before (.current a))
        (fun d hd => ⟨hd.1.congr fun q hq _ => herase q hq,(herase (.backup a) nofun).trans hd.2⟩)
          fun _ hd => hd.1.marker
      refine (hremove.weaken ?_).bind fun _ => ?_
      · exact fun d log hd => ⟨⟨hd.1.1.others,(hd.1.1.restorable a ha).of_backup_some hd.1.2⟩,hd.2⟩
      refine triple_movePath _ _ ?_ (fun _ hd => hd.1.1.marker) fun _ hd => hd.1.1.marker
      intro d node hd hn
      have hothers : Others before changesManifest done a
          ((d.set (.backup a) none).set (.current a) (some node)) :=
        hd.1.1.congr fun q hcurrent hbackup => by rw [set_of_ne hcurrent,set_of_ne hbackup]
      refine hothers.snoc ?_
      rw [set_same,← hn,hd.1.2]
    | false =>
      have hnone (d : Disk T) (h : (d (.backup a)).isSome = false) : d (.backup a) = none := by simpa using h
      by_cases hmem : a ∈ previous
      · have hnot : ¬a ∉ previous := fun h => h hmem
        simp only [Bool.false_eq_true,if_false,hnot]
        refine triple_pure fun d log hd => ⟨hd.1.1.others.snoc ?_,hd.2⟩
        rcases (hd.1.1.restorable a ha).of_backup_none (hnone d hd.1.2) with hsame | ⟨_,hgone⟩
        · exact hsame
        have hsome := ((hprevious a).mp hmem).2
        rw [hgone] at hsome
        cases hsome
      · have hgone : before (.current a) = none := by
          rw [hprevious] at hmem
          simpa [hp] using hmem
        simp only [Bool.false_eq_true,if_false,hmem,not_false_eq_true,if_true]
        have hremove := triple_removeCurrent (a := a) (P := Others before changesManifest done a)
          (fun d hd => hd.congr fun q hq _ => herase q hq) fun _ hd => hd.marker
        refine (hremove.weaken fun d log hd => ⟨hd.1.1.others,hd.2⟩).ensure ?_
        exact fun _ d log hd => ⟨hd.1.1.snoc (hd.1.2.trans hgone.symm),hd.2⟩

theorem triple_restore (project stage : List String) (hprevious : IsPrevious before changesManifest previous) :
    Triple (On (Marked before changesManifest)) (restore project previous changesManifest stage)
      (ends (fun d => AsBefore before d ∧ d .marker = none) (fun d => (d .marker).isSome ∨ AsBefore before d)
        fun d => (d .marker).isSome ∨ AsBefore before d) := by
  have hloop : Triple (On (Restoring before changesManifest []))
      (forEach (restoreArtifact previous changesManifest) artifacts)
      (ends (Restoring before changesManifest artifacts) (fun d => (d .marker).isSome = true)
        fun d => (d .marker).isSome = true) := by
    refine triple_forEach (fun done => On (Restoring before changesManifest done)) artifacts ?_
    exact fun done a rest heq => triple_restoreArtifact hprevious (notMem_done heq)
  have hs {dir : Directory} {m : Moment} {P : Disk T → Prop}
      (hc : ¬Exposed (.syncDirectory dir m)) (hP : ∀ d, P d → AsBefore before d) :
      Triple (On P) (syncDirectory dir m)
        (ends P (fun d => (d .marker).isSome = true ∨ AsBefore before d)
          fun d => (d .marker).isSome = true ∨ AsBefore before d) :=
    triple_sync hc (fun d hd => .inr (hP d hd)) fun d hd => .inr (hP d hd)
  have hstart := hloop.weaken
    fun d log (hd : On (Marked before changesManifest) d log) => ⟨⟨hd.1.1,nofun,fun a _ => hd.1.2 a⟩,hd.2⟩
  have hres : Triple (On (Marked before changesManifest))
      (forEach (restoreArtifact previous changesManifest) artifacts)
      (ends (AsBefore before) (fun d => (d .marker).isSome = true ∨ AsBefore before d)
        fun d => (d .marker).isSome = true ∨ AsBefore before d) :=
    hstart.imp (fun _ d _ hd => ⟨fun a => hd.1.restored a (mem_artifacts a),hd.2⟩)
      (fun _ d _ hd => ⟨.inl hd.1,hd.2⟩) fun d hd => .inl hd
  unfold restore
  refine hres.bind fun _ => ?_
  refine (hs (by decide) fun _ hd => hd).bind fun _ => ?_
  refine (hs (by decide) fun _ hd => hd).bind fun _ => ?_
  refine (hs (by decide) fun _ hd => hd).bind fun _ => ?_
  refine (triple_removePath .marker (P := AsBefore before) ?_ (fun _ hd => .inr hd) fun _ hd => .inr hd).bind
    fun _ => ?_
  · exact fun d hd => hd.erase nofun
  refine (hs (by decide) fun _ hd => hd.1).bind fun _ => ?_
  split
  · refine on_removeAfterCommit .stage ?_ fun _ hd => .inr hd.1
    exact fun d hd => ⟨hd.1.erase nofun,(erase_marker (p := .stage) nofun).trans hd.2⟩
  · exact triple_pure fun _ _ hd => hd

end

end Whim.Transaction
