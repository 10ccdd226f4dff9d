import Whim.TransactionPhases

/-!
# Transactions are atomic

The marker goes away only when all artifacts are as before or all are as intended.
-/

namespace Whim.Transaction

open Crash

variable {T S : Type} {d d' : Disk T} {a : Artifact} {p q : Place}

section

variable {before : Disk T} {tools : Tools S} {payload : Payload S} {manifest : Option Bytes}
  {changes : Bool} {previous : List Artifact} {done : List Artifact}

/-! ## Commit -/

/-- The marker is there, although nothing has changed. -/
def MarkerLeft (before : Disk T) (d : Disk T) (log : List (Call × Bool)) : Prop :=
  AsBefore before d ∧ (d .marker).isSome = true ∧ ∃ call, LeavesMarker call ∧ (call,false) ∈ log

/-- The commit is done, but an operation after it failed. -/
def FailedLate (before : Disk T) (tools : Tools S) (payload : Payload S) (manifest : Option Bytes) (d : Disk T)
    (log : List (Call × Bool)) : Prop :=
  (AsIntended before tools payload manifest d ∧ d .marker = none) ∧ Quiet LeavesMarker log ∧
    ∃ call, FollowsCommit call ∧ (call,false) ∈ log

def Untouched (before d : Disk T) : Prop := AsBefore before d ∧ d .marker = none

/-- The states in which a commit can end with an error. -/
def Ended (before : Disk T) (tools : Tools S) (payload : Payload S) (manifest : Option Bytes) (error : Error)
    (d : Disk T) (log : List (Call × Bool)) : Prop :=
  On (Untouched before) d log ∨ MarkerLeft before d log ∨ FailedLate before tools payload manifest d log ∨
    (∃ failure restore, error = .rollback failure restore) ∧ ((d .marker).isSome = true ∨ AsBefore before d)

/-- The commit is done. -/
abbrev Installed (before : Disk T) (tools : Tools S) (payload : Payload S) (manifest : Option Bytes) (d : Disk T) :
    Prop := AsIntended before tools payload manifest d ∧ d .marker = none

theorem safe_of_marker (h : (d .marker).isSome) : Safe before tools payload manifest d := by
  intro hn
  rw [hn] at h
  cases h

theorem safe_of_asBefore (h : AsBefore before d) : Safe before tools payload manifest d := fun _ => .inl h

theorem safe_of_asIntended (h : AsIntended before tools payload manifest d) : Safe before tools payload manifest d :=
  fun _ => .inr h

variable {returns : Unit → Disk T → List (Call × Bool) → Prop}

theorem triple_rollBack (project : List String) (hprevious : IsPrevious before manifest.isSome previous)
    (hchanges : payload.changesManifest = manifest.isSome) (error : Error) :
    Triple (On (Marked before manifest.isSome)) (rollBack project previous payload error)
      ⟨returns,Ended before tools payload manifest,Safe before tools payload manifest⟩ := by
  have hsafe (d : Disk T) (h : (d .marker).isSome = true ∨ AsBefore before d) : Safe before tools payload manifest d :=
    h.elim safe_of_marker safe_of_asBefore
  have hres := triple_restore project payload.directory hprevious
  rw [← hchanges] at hres
  have hr := hres.imp (fun _ _ _ hd => hd) (fun _ _ _ hd => hd) hsafe
  unfold rollBack
  rw [← hchanges]
  refine hr.attempt.bind fun r => ?_
  cases r with
  | ok => exact triple_fail fun d log hd => .inl hd
  | error res => exact triple_fail fun d log hd => .inr (.inr (.inr ⟨⟨error,res,rfl⟩,hd.1⟩))

theorem triple_lateSync {dir : Directory} {m : Moment} (hc : FollowsCommit (.syncDirectory dir m))
    (ho : ¬LeavesMarker (.syncDirectory dir m)) :
    Triple (On (Installed before tools payload manifest)) (syncDirectory dir m)
      ⟨fun _ => On (Installed before tools payload manifest),Ended before tools payload manifest,
        Safe before tools payload manifest⟩ := by
  unfold syncDirectory change
  refine triple_perform ?_ ?_ ?_
  · intro d log v d' hd heq
    cases heq
    exact ⟨hd.1,quiet_snoc hd.2 nofun⟩
  · intro d log hd
    have hquiet : Quiet LeavesMarker log := fun call hmem hleaves => hd.2 call hmem (.inl hleaves)
    refine .inr (.inr (.inl ⟨hd.1,quiet_snoc hquiet fun _ => ho,_,hc,?_⟩))
    simp
  · exact fun d log hd => safe_of_asIntended hd.1.1

theorem triple_cleanUp : Triple (On (Installed before tools payload manifest)) cleanUp
    ⟨fun _ d _ => Installed before tools payload manifest d,Ended before tools payload manifest,
      Safe before tools payload manifest⟩ := by
  have hremove (p : Place) (hcurrent : ∀ a, p ≠ .current a) (hmarker : p ≠ .marker) :
      Triple (On (Installed before tools payload manifest)) (removeAfterCommit p)
        ⟨fun _ => On (Installed before tools payload manifest),Ended before tools payload manifest,
          Safe before tools payload manifest⟩ :=
    on_removeAfterCommit p (fun d hd => ⟨hd.1.erase hcurrent,(erase_marker hmarker).trans hd.2⟩)
      fun d hd => safe_of_asIntended hd.1
  unfold cleanUp
  refine (triple_lateSync (by decide) (by decide)).bind fun _ => ?_
  refine (triple_forEach (fun _ => On (Installed before tools payload manifest)) artifacts
    fun _ a _ _ => hremove (.backup a) nofun nofun).bind fun _ => ?_
  refine (hremove .stage nofun nofun).bind fun _ => ?_
  refine (triple_lateSync (by decide) (by decide)).bind fun _ => ?_
  exact (triple_lateSync (by decide) (by decide)).ensure fun _ _ _ hd => hd.1

theorem triple_applyMarked (project : List String) (hprevious : IsPrevious before manifest.isSome previous)
    (hchanges : payload.changesManifest = manifest.isSome) :
    Triple (On (BackingUp before tools payload manifest [])) (applyMarked tools project payload previous)
      ⟨fun _ d _ => Installed before tools payload manifest d,Ended before tools payload manifest,
        Safe before tools payload manifest⟩ := by
  have hmarked (d : Disk T) (h : (d .marker).isSome = true) : Safe before tools payload manifest d := safe_of_marker h
  have happly : Triple (On (BackingUp before tools payload manifest [])) (apply tools payload previous) _ :=
    (triple_apply hprevious hchanges).imp (fun _ _ _ hd => hd) (fun _ _ _ hd => hd) hmarked
  have hremove : Triple (On fun d => Marked before manifest.isSome d ∧ AsIntended before tools payload manifest d)
      (change (.remove .marker) (.io .remove (.place .marker)) fun d => (d .marker).map fun _ => d.erase .marker)
      (ends (Installed before tools payload manifest) (Marked before manifest.isSome)
        (Safe before tools payload manifest)) := by
    refine triple_change (by decide) ?_ (fun d hd => hd.1) fun d hd => safe_of_asIntended hd.2
    intro d d' hd heq
    obtain ⟨node,_,rfl⟩ := Option.map_eq_some_iff.mp heq
    exact ⟨hd.2.erase nofun,erase_same⟩
  unfold applyMarked
  refine happly.attempt.bind fun r => ?_
  cases r with
  | error error => exact triple_rollBack project hprevious hchanges error
  | ok v =>
    refine hremove.attempt.bind fun r => ?_
    cases r with
    | error error => exact triple_rollBack project hprevious hchanges error
    | ok => exact triple_cleanUp

/-- Before the marker: nothing has changed but the manifest in the stage. -/
structure Starting (before : Disk T) (d : Disk T) : Prop where
  untouched : Untouched before d
  backups : ∀ a, d (.backup a) = none
  packages : d (.staged .packages) = before (.staged .packages)
  autoload : d (.staged .autoload) = before (.staged .autoload)

/-- The stage is complete. -/
def Ready (before : Disk T) (manifest : Option Bytes) (d : Disk T) : Prop :=
  Starting before d ∧ ∀ text, manifest = some text → d (.staged .manifest) = some (.file text)

theorem Starting.safe (h : Starting before d) : Safe before tools payload manifest d := safe_of_asBefore h.untouched.1

theorem Ready.backingUp (h : Ready before manifest d) {c : Bytes} :
    BackingUp before tools payload manifest [] (d.set .marker (some (.file c))) where
  marker := by simp
  staged a entry hentry _ hp := by
    cases a with
    | packages => cases hentry; simpa [intended] using h.1.packages
    | autoload => cases hentry; simpa [intended] using h.1.autoload
    | manifest =>
      cases hentry
      cases hm : manifest with
      | none => simp [TakesPart,hm] at hp
      | some text => simpa [intended] using h.2 text hm
    | lock => cases hentry
    | state => cases hentry
  secured := nofun
  kept a _ := by
    have hcurrent := h.1.untouched.1 a
    exact ⟨by simpa using hcurrent,by simpa using h.1.backups a⟩

theorem BackingUp.set_marker (h : BackingUp before tools payload manifest done d) {c : Bytes} :
    BackingUp before tools payload manifest done (d.set .marker (some (.file c))) where
  marker := by simp
  staged a entry hentry hmem hp := by simpa using h.staged a entry hentry hmem hp
  secured a ha := (h.secured a ha).congr (by simp) fun _ => by simp
  kept a ha := (h.kept a ha).congr (by simp) (by simp)

theorem triple_stageManifest : Triple (On (Starting before)) (manifest.forM (writeFile .filesystem (.staged .manifest)))
    ⟨fun _ => On (Ready before manifest),fun _ => On (Starting before),Safe before tools payload manifest⟩ := by
  cases hm : manifest with
  | none => exact triple_pure fun d log hd => ⟨⟨hd.1,nofun⟩,hd.2⟩
  | some text =>
    have hwrite := triple_writeFile (P := Starting before) (F := Starting before)
      (C := Safe before tools payload manifest) .filesystem (.staged .manifest) text nofun ?_
        (fun _ hd => hd) fun _ hd => hd.safe
    · rw [hm] at hwrite
      refine hwrite.ensure fun _ d log hd => ⟨⟨hd.1.1,?_⟩,hd.2⟩
      rintro _ ⟨⟩
      exact hd.1.2
    · intro d c hd
      refine ⟨⟨fun a => ?_,?_⟩,fun a => ?_,?_,?_⟩
      · simpa using hd.untouched.1 a
      · simpa using hd.untouched.2
      · simpa using hd.backups a
      · simpa using hd.packages
      · simpa using hd.autoload

theorem triple_previousArtifacts {P F C : Disk T → Prop} (hF : ∀ d, P d → F d) (hC : ∀ d, P d → C d)
    (list : List Artifact) : Triple (On P) (previousArtifacts changes list)
      ⟨fun previous => On fun d => P d ∧ ∀ a, a ∈ previous ↔
          a ∈ list ∧ TakesPart changes a ∧ (d (.current a)).isSome, fun _ => On F,C⟩ := by
  induction list generalizing P with
  | nil => exact triple_pure fun d log hd => ⟨⟨hd.1,by simp⟩,hd.2⟩
  | cons artifact _ ih =>
    unfold previousArtifacts
    by_cases hp : artifact ≠ .manifest ∨ changes = true
    · rw [if_pos hp]
      refine (triple_pathExists (.current artifact) hF hC).bind fun present => ?_
      refine (ih (fun d hd => hF d hd.1) fun d hd => hC d hd.1).bind fun previous => ?_
      refine triple_pure fun d log hd => ⟨⟨hd.1.1.1,fun a => ?_⟩,hd.2⟩
      have hpresent := hd.1.1.2
      have hr := hd.1.2 a
      have hself : TakesPart changes artifact := hp
      by_cases ha : a = artifact
      · subst ha
        cases present <;> simp_all
      · cases present <;> simp_all
    · rw [if_neg hp]
      refine (ih hF hC).ensure fun previous d log hd => ⟨⟨hd.1.1,fun a => ?_⟩,hd.2⟩
      have hnot : ¬TakesPart changes artifact := hp
      by_cases ha : a = artifact
      · subst ha
        simp [hd.1.2 a,hnot]
      · simp [hd.1.2 a,ha]

/-- Once the marker exists, a failure leaves it. -/
theorem triple_marking {call : Call} {e : Error} {effect : Disk T → Option (Disk T)}
    {fails : Error → Disk T → List (Call × Bool) → Prop} (hc : LeavesMarker call)
    (heffect : ∀ d d', BackingUp before tools payload manifest [] d → effect d = some d' →
      BackingUp before tools payload manifest [] d') (hfails : ∀ d log, MarkerLeft before d log → fails e d log) :
    Triple (On (BackingUp before tools payload manifest [])) (change call e effect)
      ⟨fun _ => On (BackingUp before tools payload manifest []),fails,Safe before tools payload manifest⟩ := by
  refine triple_perform ?_ (fun d log hd => hfails d _ ?_) fun d log hd => safe_of_marker hd.1.marker
  · intro d log v d' hd hsome
    obtain ⟨next,hnext,heq⟩ := Option.map_eq_some_iff.mp hsome
    cases heq
    exact ⟨heffect d d' hd.1 hnext,quiet_snoc hd.2 nofun⟩
  · exact ⟨fun a => (hd.1.kept a nofun).1,hd.1.marker,call,hc,by simp⟩

/-- A failed record of the transaction leaves the marker once the file exists. -/
theorem triple_writeMarker : Triple (On (Ready before manifest)) (writeFile .filesystem .marker [])
    ⟨fun _ => On (BackingUp before tools payload manifest []),
      fun _ d log => On (Untouched before) d log ∨ MarkerLeft before d log,
      Safe before tools payload manifest⟩ := by
  have hcreate : Triple (On (Ready before manifest))
      (change (.create .marker) (.filesystem (.create (.place .marker))) (·.create .marker))
      ⟨fun _ => On (BackingUp before tools payload manifest []),fun _ => On (Untouched before),
        Safe before tools payload manifest⟩ := by
    refine triple_change (by decide) ?_ (fun d hd => hd.1.untouched) fun d hd => hd.1.safe
    intro d d' hd heq
    rw [create_eq_some heq]
    exact hd.backingUp
  unfold writeFile
  refine (hcreate.imp (fun _ _ _ hd => hd) (fun _ _ _ hd => .inl hd) fun _ hd => hd).bind fun _ => ?_
  refine (triple_marking (by decide) ?_ fun _ _ => .inr).bind fun _ => triple_marking (by decide) ?_ fun _ _ => .inr
  · intro d d' hd heq
    cases heq
    exact hd.set_marker
  · intro d d' hd heq
    cases heq
    exact hd

theorem triple_recordSync :
    Triple (On (BackingUp before tools payload manifest [])) (syncDirectory .manager .recorded)
      ⟨fun _ => On (BackingUp before tools payload manifest []),Ended before tools payload manifest,
        Safe before tools payload manifest⟩ := by
  refine triple_marking (.inr (.inr rfl)) ?_ fun d log hd => .inr (.inl hd)
  intro d d' hd heq
  cases heq
  exact hd

/-- A failure that is reported after the stage has been removed. -/
theorem triple_abandon (e : Error) : Triple (fun d log => On (Untouched before) d log ∨ MarkerLeft before d log)
    (do removeAfterCommit .stage; fail e)
    ⟨returns,Ended before tools payload manifest,Safe before tools payload manifest⟩ := by
  have hstage : Triple (fun d log => On (Untouched before) d log ∨ MarkerLeft before d log)
      (removeAfterCommit .stage)
      ⟨fun _ d log => On (Untouched before) d log ∨ MarkerLeft before d log,Ended before tools payload manifest,
        Safe before tools payload manifest⟩ := by
    refine triple_removeAfterCommit .stage ?_ ?_ ?_
    · rintro d log call b hc (hd | ⟨hbefore,hmarker,o,ho,hmem⟩)
      · refine .inl ⟨hd.1,quiet_snoc hd.2 fun _ => ?_⟩
        rcases hc with rfl | rfl <;> decide
      · exact .inr ⟨hbefore,hmarker,o,ho,List.mem_append_left _ hmem⟩
    · rintro d log (hd | ⟨hbefore,hmarker,hlog⟩)
      · exact .inl ⟨⟨hd.1.1.erase nofun,(erase_marker (p := .stage) nofun).trans hd.1.2⟩,hd.2⟩
      refine .inr ⟨hbefore.erase nofun,?_,hlog⟩
      rw [erase_marker (p := .stage) nofun]
      exact hmarker
    · rintro d log (hd | hd)
      · exact safe_of_asBefore hd.1.1
      · exact safe_of_asBefore hd.1
  refine hstage.bind fun _ => triple_fail fun d log hd => ?_
  rcases hd with hd | hd
  · exact .inl hd
  · exact .inr (.inl hd)

theorem triple_commit (project : List String) (stage : StagedInstallation S) (lock : Bytes) (noDev : Bool) :
    Triple (On (Starting before)) (commit tools project stage lock manifest noDev)
      ⟨fun _ d _ => AsIntended before tools (commitPayload stage lock manifest noDev) manifest d ∧ d .marker = none,
        Ended before tools (commitPayload stage lock manifest noDev) manifest,
        Safe before tools (commitPayload stage lock manifest noDev) manifest⟩ := by
  have hcreate : Triple (On (Starting before))
      (change (.createDirectory .manager) (.io .create (.directory .manager)) some)
      ⟨fun _ => On (Starting before),Ended before tools (commitPayload stage lock manifest noDev) manifest,
        Safe before tools (commitPayload stage lock manifest noDev) manifest⟩ := by
    refine (triple_change (Q := Starting before) (F := Untouched before) (by decide) ?_ (fun d hd => hd.untouched)
      fun d hd => hd.safe).imp (fun _ _ _ hd => hd) (fun _ _ _ hd => .inl hd) fun _ hd => hd
    intro d d' hd heq
    cases heq
    exact hd
  unfold commit
  refine hcreate.bind fun _ => ?_
  split
  · exact triple_fail fun d log hd => .inl ⟨hd.1.untouched,hd.2⟩
  refine triple_stageManifest.attempt.bind fun r => ?_
  cases r with
  | error error => exact (triple_abandon error).weaken fun d log hd => .inl ⟨hd.1.untouched,hd.2⟩
  | ok v =>
    refine ((triple_previousArtifacts (F := Untouched before) (fun d hd => hd.1.untouched) (fun d hd => hd.1.safe)
      artifacts).imp (fun _ _ _ hd => hd) (fun _ _ _ hd => .inl hd) fun _ hd => hd).bind fun previous => ?_
    have hprevious (d : Disk T) (log : List (Call × Bool)) (hd : On (fun d => Ready before manifest d ∧
        ∀ a, a ∈ previous ↔ a ∈ artifacts ∧ TakesPart manifest.isSome a ∧ (d (.current a)).isSome = true) d log) :
        IsPrevious before manifest.isSome previous := by
      intro a
      rw [hd.1.2 a,hd.1.1.1.untouched.1 a]
      simp [mem_artifacts]
    refine triple_of_fact hprevious fun hprevious => ?_
    refine (triple_writeMarker.weaken fun d log hd => ⟨hd.1.1,hd.2⟩).attempt.bind fun r => ?_
    cases r with
    | error error => exact triple_abandon error
    | ok =>
      exact triple_recordSync.bind fun _ => triple_applyMarked project hprevious rfl

end

/-! ## Whole commits -/

/-- No transaction is pending, and no backup is there. -/
def Clean (d : Disk T) : Prop := d .marker = none ∧ ∀ a, d (.backup a) = none

theorem Clean.starting {before : Disk T} (h : Clean before) : Starting before before :=
  ⟨⟨fun _ => rfl,h.1⟩,h.2,rfl,rfl⟩

section

variable (tools : Tools S) (project : List String) (stage : StagedInstallation S) (lock : Bytes)
  (manifest : Option Bytes) (noDev : Bool)

/-- A commit on a disk, with what becomes of each of its operations. -/
def committed (before : Disk T) (fate : ℕ → Fate) : Outcome Error Unit × World (Disk T) Call :=
  commit tools project stage lock manifest noDev ⟨before,[],fate⟩

theorem committed_holds {before : Disk T} (hclean : Clean before) (fate : ℕ → Fate) : Post.Holds
    ⟨fun _ d _ => AsIntended before tools (commitPayload stage lock manifest noDev) manifest d ∧ d .marker = none,
      Ended before tools (commitPayload stage lock manifest noDev) manifest,
      Safe before tools (commitPayload stage lock manifest noDev) manifest⟩
    (committed tools project stage lock manifest noDev before fate) :=
  triple_commit project stage lock noDev ⟨before,[],fate⟩ ⟨hclean.starting,nofun⟩

/-- Wherever a commit stops, without the marker the artifacts are all as before or all as intended. -/
theorem commit_crash_safe (before : Disk T) (hclean : Clean before) (fate : ℕ → Fate) :
    Safe before tools (commitPayload stage lock manifest noDev) manifest
      (committed tools project stage lock manifest noDev before fate).2.disk := by
  have hholds := committed_holds tools project stage lock manifest noDev hclean fate
  cases hend : committed tools project stage lock manifest noDev before fate with
  | mk outcome =>
    rw [hend] at hholds
    cases outcome with
    | returned => exact safe_of_asIntended hholds.1
    | dead => exact hholds
    | failed =>
      rcases hholds with hd | hd | hd | ⟨_,hd | hd⟩
      · exact safe_of_asBefore hd.1.1
      · exact safe_of_asBefore hd.1
      · exact safe_of_asIntended hd.1.1
      · exact safe_of_marker hd
      · exact safe_of_asBefore hd

theorem succeeds_removePath (p : Place) : Succeeds (removePath p : Io T Unit) := by
  have hexists : Succeeds (pathExists p : Io T Bool) := succeeds_perform fun _ => rfl
  have hremove : Succeeds (change (.remove p) (.io .remove (.place p)) fun d => some (d.erase p) : Io T Unit) :=
    succeeds_perform fun _ => rfl
  refine hexists.bind fun f => ?_
  cases f with
  | false => exact succeeds_pure ()
  | true => exact hremove

theorem prepare_returns {d : Disk T} (h : d .marker = none) :
    (prepare (⟨d,[],fun _ => .takes⟩ : World (Disk T) Call)).1 = .returned () := by
  have hr : Succeeds (do removeStaleBackups; removeAbandonedStages : Io T Unit) := by
    refine (succeeds_forEach (fun artifact => succeeds_removePath (.backup artifact)) artifacts).bind fun _ => ?_
    unfold removeAbandonedStages
    refine (succeeds_perform fun _ => rfl).bind fun f => ?_
    cases f with
    | false => exact succeeds_pure ()
    | true => exact succeeds_removePath .stage
  have hensure : ensureConsistent (⟨d,[],fun _ => .takes⟩ : World (Disk T) Call) =
      (.returned (),⟨d,[(.inspect .marker,true)],fun _ => .takes⟩) := by
    have hexists : pathExists .marker (⟨d,[],fun _ => .takes⟩ : World (Disk T) Call) =
        (.returned false,⟨d,[(.inspect .marker,true)],fun _ => .takes⟩) := by
      simp [pathExists,perform,h]
    unfold ensureConsistent
    show Act.andThen (pathExists .marker) _ _ = _
    unfold Act.andThen
    rw [hexists]
    rfl
  obtain ⟨v,w,hw,_⟩ := hr ⟨d,[(.inspect .marker,true)],fun _ => .takes⟩ fun _ => rfl
  show (Act.andThen ensureConsistent _ _).1 = _
  unfold Act.andThen
  rw [hensure]
  exact congrArg Prod.fst hw

/-- Everything is undone exactly when neither an operation between the creation of the marker and the first change
nor one after the commit has failed, or the commit changes nothing; and then a preparation succeeds. -/
structure Undone (before : Disk T) (tools : Tools S) (payload : Payload S) (manifest : Option Bytes)
    (w : World (Disk T) Call) : Prop where
  iff : Untouched before w.disk ↔ Quiet LeavesMarker w.log ∧ (Quiet FollowsCommit w.log ∨
    ∀ a, intended before tools payload manifest a = before (.current a))
  prepared : Untouched before w.disk →
    (prepare (⟨w.disk,[],fun _ => .takes⟩ : World (Disk T) Call)).1 = .returned ()

/-- A commit that fails, other than in its rollback. -/
theorem failed_commit_undone (before : Disk T) (hclean : Clean before) (fate : ℕ → Fate) {error : Error}
    (hend : (committed tools project stage lock manifest noDev before fate).1 = .failed error)
    (hrollback : ∀ failure restore, error ≠ .rollback failure restore) :
    Undone before tools (commitPayload stage lock manifest noDev) manifest
      (committed tools project stage lock manifest noDev before fate).2 := by
  refine ⟨?_,fun hd => prepare_returns hd.2⟩
  have hholds : Post.Holds _ ((committed tools project stage lock manifest noDev before fate).1,
      (committed tools project stage lock manifest noDev before fate).2) :=
    committed_holds tools project stage lock manifest noDev hclean fate
  rw [hend] at hholds
  rcases hholds with hd | ⟨_,hmarker,call,hcall,hmem⟩ | ⟨hd,hquiet,call,hcall,hmem⟩ | ⟨⟨failure,restored,heq⟩,_⟩
  · refine iff_of_true hd.1 ⟨fun call hmem h => hd.2 call hmem (.inl h),.inl fun call hmem h => ?_⟩
    exact hd.2 call hmem (.inr h)
  · refine iff_of_false (fun hd => ?_) fun hd => hd.1 call hmem hcall
    rw [hd.2] at hmarker
    cases hmarker
  · constructor
    · exact fun hbefore => ⟨hquiet,.inr fun a => (hd.1 a).symm.trans (hbefore.1 a)⟩
    rintro ⟨_,hlate | hsame⟩
    · exact absurd hcall (hlate call hmem)
    · exact ⟨fun a => (hd.1 a).trans (hsame a),hd.2⟩
  · exact absurd heq (hrollback failure restored)

end

/-! ## A first installation -/

/-- A project without dependencies so far, with a stage that holds packages and an autoload file. -/
def freshProject : Disk Unit
  | .staged .packages => some (.directory ())
  | .staged .autoload => some (.file [7])
  | _ => none

def plainTools : Tools Unit := ⟨fun _ => "",fun _ => "",fun _ => "",fun _ => some [9]⟩

def firstStage : StagedInstallation Unit := ⟨["vendor",".whim","stages","stage-1"],fun _ => none,[]⟩

/-- The operation of this number fails, and all others take effect. -/
def failsAt (n : ℕ) : ℕ → Fate := fun k => if k = n then .fails else .takes

def firstCommit (fate : ℕ → Fate) : Outcome Error Unit × World (Disk Unit) Call :=
  committed plainTools [] firstStage [1] none false freshProject fate

theorem clean_freshProject : Clean freshProject := ⟨rfl,fun _ => rfl⟩

/-- The sync of the marker fails, and the marker stays; or the sync after the commit fails, and the new lock
stays. -/
theorem failed_commit_not_undone : (firstCommit (failsAt 7)).1 = .failed (.filesystem (.sync (.place .marker))) ∧
    (firstCommit (failsAt 7)).2.disk .marker = some (.file []) ∧
    (firstCommit (failsAt 27)).1 = .failed (.filesystem (.sync (.directory .manager))) ∧
    (firstCommit (failsAt 27)).2.disk (.current .lock) = some (.file [1]) ∧ freshProject (.current .lock) = none :=
  ⟨by decide +kernel,by decide +kernel,by decide +kernel,by decide +kernel,rfl⟩

/-- The second rename fails, and everything is undone. -/
theorem failed_commit_undone_first :
    (firstCommit (failsAt 13)).1 = .failed (.move .install (.staged .autoload) (.current .autoload)) ∧
      Untouched freshProject (firstCommit (failsAt 13)).2.disk ∧
      (prepare (⟨(firstCommit (failsAt 13)).2.disk,[],fun _ => .takes⟩ : World (Disk Unit) Call)).1 =
        .returned () := by
  have hfailed : (firstCommit (failsAt 13)).1 =
      .failed (.move .install (.staged .autoload) (.current .autoload)) := by decide +kernel
  have hbefore : Quiet LeavesMarker (firstCommit (failsAt 13)).2.log := by decide +kernel
  have hafter : Quiet FollowsCommit (firstCommit (failsAt 13)).2.log := by decide +kernel
  unfold firstCommit at hfailed hbefore hafter ⊢
  have hundone := failed_commit_undone plainTools [] firstStage [1] none false freshProject clean_freshProject
    (failsAt 13) hfailed nofun
  have huntouched := hundone.iff.mpr ⟨hbefore,.inl hafter⟩
  exact ⟨hfailed,huntouched,hundone.prepared huntouched⟩

/-! ## A project with a lock -/

def lockedProject : Disk Unit := freshProject.set (.current .lock) (some (.file [5]))

def lockedCommit (fate : ℕ → Fate) : Outcome Error Unit × World (Disk Unit) Call :=
  committed plainTools [] firstStage [1] none false lockedProject fate

theorem clean_lockedProject : Clean lockedProject := ⟨rfl,fun _ => rfl⟩

/-- The process dies right after the marker is gone, and all is as intended; or the second rename fails, and all is as
before. -/
theorem commit_crash_safe_locked :
    (lockedCommit fun k => if k = 28 then .dies else .takes).1 = .dead ∧
    AsIntended lockedProject plainTools (commitPayload firstStage [1] none false) none
      (lockedCommit fun k => if k = 28 then .dies else .takes).2.disk ∧
    (lockedCommit (failsAt 14)).1 = .failed (.move .install (.staged .autoload) (.current .autoload)) ∧
    AsBefore lockedProject (lockedCommit (failsAt 14)).2.disk := by
  have hdead : (lockedCommit fun k => if k = 28 then .dies else .takes).1 = .dead := by decide +kernel
  have hfailed : (lockedCommit (failsAt 14)).1 =
      .failed (.move .install (.staged .autoload) (.current .autoload)) := by decide +kernel
  have hmarker : (lockedCommit fun k => if k = 28 then .dies else .takes).2.disk .marker = none := by decide +kernel
  have hlock : (lockedCommit fun k => if k = 28 then .dies else .takes).2.disk (.current .lock) = some (.file [1]) := by
    decide +kernel
  have hmarkerBack : (lockedCommit (failsAt 14)).2.disk .marker = none := by decide +kernel
  have hlockBack : (lockedCommit (failsAt 14)).2.disk (.current .lock) = some (.file [5]) := by decide +kernel
  have hsafe (fate : ℕ → Fate) : Safe lockedProject plainTools (commitPayload firstStage [1] none false) none
      (lockedCommit fate).2.disk :=
    commit_crash_safe plainTools [] firstStage [1] none false lockedProject clean_lockedProject fate
  refine ⟨hdead,(hsafe _ hmarker).resolve_left fun hbefore => ?_,hfailed,
    (hsafe _ hmarkerBack).resolve_right fun hnew => ?_⟩
  · cases hlock.symm.trans (hbefore .lock)
  · cases hlockBack.symm.trans (hnew .lock)

end Whim.Transaction
