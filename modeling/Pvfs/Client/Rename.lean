import Pvfs.Client.Dirent
import Pvfs.Lib.Steps

/-! # The rename machine

`pvfs2_client_rename_sm` (`sys-rename.sm`) gives the object its new name first and takes the
old one away after, so that it has a name at every moment. When the old name cannot be
removed, the same states are passed again with the index of the new name, as clean-up.

The machine is one step function over its own fields, the servers' directories and objects and
the client's name cache. What becomes of each request is part of the event. -/

namespace Pvfs.Client

/-- `PVFS_ds_type`. -/
inductive ObjType where
  | none
  | metafile
  | datafile
  | directory
  | symlink
  | dirdata
  | internal
  deriving DecidableEq, Repr

/-- What `getattr` answers of an object, as far as `rename_chdirent_setup_msgpair` reads it. -/
structure RenameAttr where
  objtype : ObjType
  direntCount : Nat

/-- A rename that `PVFS_isys_rename` accepts: a name is not renamed to itself. -/
structure RenameOp (Name : Type) where
  old : DirEntry Name
  new : DirEntry Name
  retryLimit : Nat
  old_ne_new : old ≠ new

/-- The states of the machine. A state that prepares a message, the one that sends it and the
timer before its repetition are one state here. -/
inductive RenameState where
  | init
  | lookups
  | getattrSrc
  | getattrDest
  | crdirent
  | crdirentRetryOrFail
  | chdirent
  | rmdirent
  | rmdirentRetryOrFail
  | rmdirentFailure
  | checkForRemove
  | doRemove
  | warnUserToRunFsck
  | cleanup
  | terminated (error : Option RequestError)
  deriving DecidableEq

/-- The machine, the servers it talks to and the client's name cache. -/
structure RenameSm (Name : Type) where
  state : RenameState
  /-- `js_p->error_code` -/
  errorCode : Option RequestError
  storedErrorCode : Option RequestError
  /-- shared by `crdirent` and `rmdirent` -/
  retryCount : Nat
  /-- of the message pair of `chdirent`, which is repeated below the machine -/
  msgRetryCount : Nat
  rmdirentIndex : Fin 2
  targetDirentExists : Bool
  /-- `refns[0]` -/
  refn : ObjectRef
  /-- `types[0]` -/
  srcType : ObjType
  oldDirentHandle : Nat
  /-- `rename_warn_user_to_run_fsck` has been passed: a clean-up step failed -/
  warned : Bool
  dirs : Directories Name
  objects : ObjectRef → Bool
  ncache : DirEntry Name → Option ObjectRef

/-- How the two lookups end. They are posted together, and the one of the old name may be asked
again after the other has been answered. -/
inductive Lookups where
  | answered
  | oldAskedAgain
  | failed (error : RequestError)

/-- What moves the machine of a rename on. -/
inductive RenameEvent where
  /-- the action of a state that waits for nothing -/
  | run
  | lookups (x : Lookups)
  | getattr (answer : Except RequestError RenameAttr)
  | exchange (x : Exchange)

variable {Name : Type} [DecidableEq Name]

/-- `PVFS_isys_rename`. -/
def isysRename (old new : DirEntry Name) (retryLimit : Nat) : Except RequestError (RenameOp Name) :=
  if h : old = new then .error .einval else .ok ⟨old, new, retryLimit, h⟩

def RenameSm.posted (dirs : Directories Name) (objects : ObjectRef → Bool)
    (ncache : DirEntry Name → Option ObjectRef) : RenameSm Name where
  state := .init
  errorCode := none
  storedErrorCode := none
  retryCount := 0
  msgRetryCount := 0
  rmdirentIndex := 0
  targetDirentExists := false
  refn := ⟨0, 0⟩
  srcType := .none
  oldDirentHandle := 0
  warned := false
  dirs := dirs
  objects := objects
  ncache := ncache

namespace RenameOp

/-- `entries[index]` under `parent_refns[index]`. -/
def entry (r : RenameOp Name) (index : Fin 2) : DirEntry Name := if index = 0 then r.old else r.new

/-- Both entries are dropped from the name cache. -/
def invalidated (r : RenameOp Name) (ncache : DirEntry Name → Option ObjectRef) :
    DirEntry Name → Option ObjectRef :=
  fun e => if e = r.old ∨ e = r.new then none else ncache e

end RenameOp

/-- An error on the way to `cleanup`. -/
def RenameSm.fail (s : RenameSm Name) (e : RequestError) : RenameSm Name :=
  { s with state := .cleanup, errorCode := some e }

section
variable (r : RenameOp Name) (s : RenameSm Name)

def renameInit : RenameSm Name :=
  { s with state := .lookups, ncache := r.invalidated s.ncache }

/-- `rename_lookups_comp_fn` for both answers. The code `RENAME_CHDIRENT` that announces an
existing target is lost when the old name's lookup completes in a later round. -/
def lookedUp (again : Bool) : RenameSm Name :=
  match s.dirs r.old with
  | none => s.fail .enoent
  | some h =>
    let found := { s with refn := ⟨h, r.old.parent.fsId⟩, errorCode := none }
    match s.dirs r.new with
    | none => { found with state := .crdirent }
    | some _ =>
      { found with targetDirentExists := true, state := if again then .crdirent else .getattrSrc }

def renameLookups : Lookups → RenameSm Name
  | .answered => lookedUp r s false
  | .oldAskedAgain => lookedUp r s true
  | .failed e => s.fail e

def renameGetattrSrc : Except RequestError RenameAttr → RenameSm Name
  | .error e => s.fail e
  | .ok attr => { s with state := .getattrDest, srcType := attr.objtype, errorCode := none }

/-- `rename_chdirent_setup_msgpair` up to the message. -/
def renameGetattrDest : Except RequestError RenameAttr → RenameSm Name
  | .error e => s.fail e
  | .ok attr =>
    if attr.objtype = .directory ∧ attr.direntCount ≠ 0 then s.fail .enotempty
    else if s.srcType ≠ attr.objtype then
      -- the source asks for a directory twice, so that `ENOTDIR` is never answered
      if attr.objtype = .directory then s.fail .eisdir
      else if attr.objtype = .directory then s.fail .enotdir
      else s.fail .einval
    else if r.old.parent.fsId ≠ r.new.parent.fsId then s.fail .enodev
    else { s with state := .chdirent, errorCode := none, msgRetryCount := 0 }

/-- The message of `chdirent` is one with `PVFS_MSGPAIR_RETRY`. -/
def renameChdirent (x : Exchange) : RenameSm Name :=
  match x.run (chdirent s.refn.handle r.new) s.dirs with
  | (.ok old, d) => { s with state := .rmdirent, dirs := d, oldDirentHandle := old, errorCode := none }
  | (.error e, d) =>
    if e = .bmi ∧ s.msgRetryCount < r.retryLimit then
      { s with dirs := d, msgRetryCount := s.msgRetryCount + 1 }
    else { s with dirs := d }.fail e

def renameCrdirent (x : Exchange) : RenameSm Name :=
  match x.run (crdirent s.refn.handle r.new) s.dirs with
  | (.ok _, d) => { s with state := .rmdirent, dirs := d, errorCode := none }
  | (.error e, d) => { s with state := .crdirentRetryOrFail, dirs := d, errorCode := some e }

def renameCrdirentRetryOrFail : RenameSm Name :=
  match s.errorCode with
  | none => { s with state := .cleanup }
  | some e =>
    match retryOrFail .eexist s.retryCount r.retryLimit e with
    | .retry => { s with state := .crdirent, retryCount := s.retryCount + 1, errorCode := none }
    | .goOn code => { s with state := .cleanup, errorCode := code }

/-- `none` where the assertion of `rename_rmdirent_comp_fn` fails. -/
def renameRmdirent (x : Exchange) : Option (RenameSm Name) :=
  match x.run (rmdirent (r.entry s.rmdirentIndex)) s.dirs with
  | (.ok h, d) =>
    if h = s.refn.handle then some { s with state := .checkForRemove, dirs := d, errorCode := none }
    else none
  | (.error e, d) => some { s with state := .rmdirentRetryOrFail, dirs := d, errorCode := some e }

def renameRmdirentRetryOrFail : RenameSm Name :=
  match s.errorCode with
  | none => { s with state := .rmdirentFailure }
  | some e =>
    match retryOrFail .enoent s.retryCount r.retryLimit e with
    | .retry => { s with state := .rmdirent, retryCount := s.retryCount + 1, errorCode := none }
    | .goOn code => { s with state := .rmdirentFailure, errorCode := code }

def renameRmdirentFailure : RenameSm Name :=
  if s.rmdirentIndex = 0 then
    { s with state := .rmdirent, rmdirentIndex := 1, storedErrorCode := s.errorCode, errorCode := none }
  else
    match s.errorCode with
    | none => { s with state := .rmdirent }
    | some _ => { s with state := .warnUserToRunFsck }

def renameCheckForRemove : RenameSm Name :=
  if s.targetDirentExists then { s with state := .doRemove, errorCode := none }
  else { s with state := .cleanup, errorCode := none }

/-- `pvfs2_client_remove_helper_sm` on one object. -/
def removeObject (o : ObjectRef) (objects : ObjectRef → Bool) :
    Except RequestError (Unit × (ObjectRef → Bool)) :=
  if objects o then .ok ((), fun o' => if o' = o then false else objects o') else .error .enoent

def renameDoRemove (x : Exchange) : RenameSm Name :=
  match x.run (removeObject ⟨s.oldDirentHandle, r.new.parent.fsId⟩) s.objects with
  | (.ok _, objects) => { s with state := .cleanup, objects := objects, errorCode := none }
  | (.error e, objects) =>
    { s with state := .warnUserToRunFsck, objects := objects, errorCode := some e }

/-- `sm_p->error_code`. -/
def RenameSm.reported : Option RequestError := s.storedErrorCode.or s.errorCode

/-- On success the new name is put into the name cache, under the old parent. -/
def renameCleanup : RenameSm Name :=
  { s with
    state := .terminated s.reported
    ncache := fun e =>
      if s.reported = none ∧ e = ⟨r.old.parent, r.new.name⟩ then some s.refn else s.ncache e }

def RenameSm.step : RenameEvent → Option (RenameSm Name)
  | .run =>
    match s.state with
    | .init => some (renameInit r s)
    | .crdirentRetryOrFail => some (renameCrdirentRetryOrFail r s)
    | .rmdirentRetryOrFail => some (renameRmdirentRetryOrFail r s)
    | .rmdirentFailure => some (renameRmdirentFailure s)
    | .checkForRemove => some (renameCheckForRemove s)
    | .warnUserToRunFsck => some { s with state := .cleanup, warned := true }
    | .cleanup => some (renameCleanup r s)
    | _ => none
  | .lookups x => if s.state = .lookups then some (renameLookups r s x) else none
  | .getattr answer =>
    match s.state with
    | .getattrSrc => some (renameGetattrSrc s answer)
    | .getattrDest => some (renameGetattrDest r s answer)
    | _ => none
  | .exchange x =>
    match s.state with
    | .crdirent => some (renameCrdirent r s x)
    | .chdirent => some (renameChdirent r s x)
    | .rmdirent => renameRmdirent r s x
    | .doRemove => some (renameDoRemove r s x)
    | _ => none

end

/-! # A rename happens as a whole or not at all

What the machine is for is `Atomic`, and it is not what the machine does. A lost reply of
`crdirent` is recognised by `EEXIST` and then taken for the end of the whole operation; a lost
reply of `rmdirent` is recognised by `ENOENT` and then followed by the clean-up, which removes
the last name of the object. `RenameEvent.Sound` is the condition on single steps under which
this does not happen, and `rename_atomic` says that it suffices: `Stage` is what holds in each
state of a sound run, with one lemma for each state. -/

open Lib Exchange RenameSm Directories

variable {Name : Type} [DecidableEq Name]

/-! ## What a rename is for -/

section
variable (r : RenameOp Name) (s₀ s : RenameSm Name)

def RenameOp.object (h : Nat) : ObjectRef := ⟨h, r.old.parent.fsId⟩

/-- Compared with the directories before it, what a rename that reports `reported` has done. -/
structure Atomic (reported : Option RequestError) : Prop where
  success : reported = none → ∃ h, s₀.dirs r.old = some h ∧ s.dirs.Refers r.new (r.object h) ∧
    s.dirs r.old = none ∧ s.objects (r.object h) = s₀.objects (r.object h)
  failure : reported ≠ none → s.warned = false →
    s.dirs r.old = s₀.dirs r.old ∧ s.dirs r.new = s₀.dirs r.new
  named : ∀ h, s₀.dirs r.old = some h →
    s.dirs.Refers r.old (r.object h) ∨ s.dirs.Refers r.new (r.object h)

/-- What the name cache holds of the two names, and whatever else the operation has put into it,
agrees with the directories. -/
def CacheAgrees : Prop :=
  ∀ e o, e = r.old ∨ e = r.new ∨ s.ncache e ≠ s₀.ncache e → s.ncache e = some o → s.dirs.Refers e o

/-- A rename that has ended has taken place or it has not. -/
def RenamedAtomically : Prop :=
  ∀ reported, s.state = .terminated reported → Atomic r s₀ s reported ∧ CacheAgrees r s₀ s

/-- The steps that keep the promise. A request that takes effect is answered; no `EEXIST` and no
`ENOENT` comes after a repetition; the clean-up does not remove a name that was there before;
the new name does not refer to the object already, nor lie in another file system; and a
rename that succeeds stays in one directory. -/
def RenameEvent.Sound : RenameEvent → Prop
  | .run => s.state = .cleanup → s.reported = none → r.old.parent = r.new.parent
  | .exchange x =>
    match s.state with
    | .crdirent => x.Answered ∧ r.old.parent.fsId = r.new.parent.fsId ∧
      ((x.run (crdirent s.refn.handle r.new) s.dirs).1 = .error .eexist → s.retryCount = 0)
    | .chdirent => x.Answered ∧ s.dirs r.new ≠ some s.refn.handle
    | .rmdirent =>
      if s.rmdirentIndex = 0 then
        x.Answered ∧ ((x.run (rmdirent r.old) s.dirs).1 = .error .enoent → s.retryCount = 0)
      else x = .served → s.targetDirentExists = false
    | _ => True
  | _ => True

/-- The same without the clause about the directory. -/
def RenameEvent.Orderly (e : RenameEvent) : Prop := e ≠ .run → e.Sound r s

end

/-! ## The stages of a sound rename

`h` is the handle of the object, `s₀` the state in which the rename was posted. -/

section
variable (cached : Prop) (r : RenameOp Name) (s₀ s : RenameSm Name) (h : Nat)

/-- The object was found under the old name, and `refns[0]` holds it. -/
structure Found : Prop where
  named : s₀.dirs r.old = some h
  refn : s.refn = r.object h

/-- Nothing has been changed yet. -/
structure Untouched : Prop extends Found r s₀ s h where
  dirs : s.dirs = s₀.dirs
  objects : s.objects = s₀.objects
  stored : s.storedErrorCode = none
  index : s.rmdirentIndex = 0

/-- The new entry refers to the object, and the old one still does. -/
structure Linked : Prop extends Found r s₀ s h where
  dirs : s.dirs = s₀.dirs.set r.new (some h)
  objects : s.objects = s₀.objects
  stored : s.storedErrorCode = none
  index : s.rmdirentIndex = 0
  sameFs : r.old.parent.fsId = r.new.parent.fsId
  target : s.targetDirentExists = true → s.oldDirentHandle ≠ h
  fresh : s.targetDirentExists = false → s₀.dirs r.new = none

/-- Only the new entry refers to the object. -/
structure Renamed : Prop extends Found r s₀ s h where
  dirs : s.dirs = (s₀.dirs.set r.new (some h)).set r.old none
  objects : s.objects (r.object h) = s₀.objects (r.object h)
  stored : s.storedErrorCode = none
  sameFs : r.old.parent.fsId = r.new.parent.fsId
  target : s.targetDirentExists = true → s.oldDirentHandle ≠ h

/-- The old entry could not be removed, and the new one is taken back. -/
structure Undoing : Prop extends Found r s₀ s h where
  stored : s.storedErrorCode ≠ none
  index : s.rmdirentIndex = 1
  dirs : ∃ h', s.dirs = s₀.dirs.set r.new h'
  fresh : s.targetDirentExists = false → s₀.dirs r.new = none

/-- The new entry has been taken back. -/
structure Undone : Prop where
  stored : s.storedErrorCode ≠ none
  dirs : s.dirs = s₀.dirs
  target : s.targetDirentExists = false

/-- What holds in each state; of the name cache only if `cached`. -/
def Stage : Prop :=
  match s.state with
  | .init => s = s₀
  | .lookups => s.dirs = s₀.dirs ∧ s.objects = s₀.objects ∧ s.storedErrorCode = none ∧
      s.rmdirentIndex = 0 ∧ s.targetDirentExists = false
  | .getattrSrc | .getattrDest => ∃ h, Untouched r s₀ s h ∧ s.targetDirentExists = true
  | .chdirent => ∃ h, Untouched r s₀ s h ∧ s.targetDirentExists = true ∧
      r.old.parent.fsId = r.new.parent.fsId
  | .crdirent => ∃ h, Untouched r s₀ s h ∧ (s.targetDirentExists = true → s₀.dirs r.new ≠ none)
  | .crdirentRetryOrFail => ∃ h e, Untouched r s₀ s h ∧
      (s.targetDirentExists = true → s₀.dirs r.new ≠ none) ∧ s.errorCode = some e ∧
      (e = .eexist → s.retryCount = 0)
  | .rmdirent => ∃ h, Linked r s₀ s h ∨ Undoing r s₀ s h
  | .rmdirentRetryOrFail => ∃ h e, s.errorCode = some e ∧
      (Linked r s₀ s h ∧ (e = .enoent → s.retryCount = 0) ∨ Undoing r s₀ s h)
  | .rmdirentFailure => ∃ h, Linked r s₀ s h ∧ s.errorCode ≠ none ∨ Undoing r s₀ s h
  | .checkForRemove => ∃ h, Renamed r s₀ s h ∨ Undone s₀ s
  | .doRemove => ∃ h, Renamed r s₀ s h ∧ s.oldDirentHandle ≠ h
  | .warnUserToRunFsck => s.errorCode ≠ none ∧ ∀ h, s₀.dirs r.old = some h →
      s.dirs.Refers r.old (r.object h) ∨ s.dirs.Refers r.new (r.object h)
  | .cleanup => Atomic r s₀ s s.reported ∧ (s.reported = none → s.dirs.Refers r.new s.refn)
  | .terminated reported => Atomic r s₀ s reported ∧ (cached → CacheAgrees r s₀ s)

end

section
variable {cached : Prop} {r : RenameOp Name} {s₀ s : RenameSm Name} {h : Nat}

omit [DecidableEq Name] in
theorem reported_error (hcode : s.errorCode ≠ none) : s.reported ≠ none := by
  intro hnone
  exact hcode (Option.or_eq_none_iff.mp hnone).2

omit [DecidableEq Name] in
theorem reported_stored (hstored : s.storedErrorCode ≠ none) : s.reported ≠ none := by
  intro hnone
  exact hstored (Option.or_eq_none_iff.mp hnone).1

omit [DecidableEq Name] in
theorem atomic_unchanged {reported : Option RequestError} (hdirs : s.dirs = s₀.dirs)
    (herror : reported ≠ none) : Atomic r s₀ s reported where
  success hnone := absurd hnone herror
  failure _ _ := by rw [hdirs]; exact ⟨rfl, rfl⟩
  named h hh := by
    left
    rw [hdirs]
    exact ⟨hh, rfl⟩

theorem stage_fail (hdirs : s.dirs = s₀.dirs) (e : RequestError) : Stage cached r s₀ (s.fail e) := by
  have herror : (s.fail e).reported ≠ none := reported_error (Option.some_ne_none e)
  exact ⟨atomic_unchanged hdirs herror, fun hnone => absurd hnone herror⟩

variable {s' : RenameSm Name}

theorem stage_lookups (hs : s.dirs = s₀.dirs ∧ s.objects = s₀.objects ∧
      s.storedErrorCode = none ∧ s.rmdirentIndex = 0 ∧ s.targetDirentExists = false) (x : Lookups) :
    Stage cached r s₀ (renameLookups r s x) := by
  obtain ⟨hdirs, hobjects, hstored, hindex, htarget⟩ := hs
  have looked : ∀ again, Stage cached r s₀ (lookedUp r s again) := by
    intro again
    unfold lookedUp
    cases hold : s.dirs r.old with
    | none => exact stage_fail hdirs .enoent
    | some h =>
      have hnamed : s₀.dirs r.old = some h := by rw [← hdirs]; exact hold
      cases hnew : s.dirs r.new with
      | none =>
        refine ⟨h, ⟨⟨hnamed, rfl⟩, hdirs, hobjects, hstored, hindex⟩, fun htrue => ?_⟩
        exact absurd htrue (by rw [htarget]; simp)
      | some t =>
        have hthere : s₀.dirs r.new ≠ none := by
          rw [← hdirs, hnew]
          simp
        cases again with
        | false => exact ⟨h, ⟨⟨hnamed, rfl⟩, hdirs, hobjects, hstored, hindex⟩, rfl⟩
        | true =>
          exact ⟨h, ⟨⟨hnamed, rfl⟩, hdirs, hobjects, hstored, hindex⟩, fun _ => hthere⟩
  cases x with
  | answered => exact looked false
  | oldAskedAgain => exact looked true
  | failed e => exact stage_fail hdirs e

section
variable (hu : Untouched r s₀ s h) (htarget : s.targetDirentExists = true)
  (answer : Except RequestError RenameAttr)
include hu htarget

theorem Untouched.getattrSrc : Stage cached r s₀ (renameGetattrSrc s answer) := by
  cases answer with
  | error e => exact stage_fail hu.dirs e
  | ok attr => exact ⟨h, { hu with }, htarget⟩

theorem Untouched.getattrDest : Stage cached r s₀ (renameGetattrDest r s answer) := by
  cases answer with
  | error e => exact stage_fail hu.dirs e
  | ok attr =>
    unfold renameGetattrDest
    dsimp only
    split_ifs with hempty htypes hdir hfs
    · exact stage_fail hu.dirs .enotempty
    · exact stage_fail hu.dirs .eisdir
    · exact stage_fail hu.dirs .einval
    · exact stage_fail hu.dirs .enodev
    · exact ⟨h, { hu with }, htarget, not_not.mp hfs⟩

end

variable {x : Exchange}

theorem Untouched.chdirent (hu : Untouched r s₀ s h) (hstate : s.state = .chdirent)
    (htarget : s.targetDirentExists = true) (hfs : r.old.parent.fsId = r.new.parent.fsId)
    (hanswered : x.Answered) (hother : s.dirs r.new ≠ some s.refn.handle) :
    Stage cached r s₀ (renameChdirent r s x) := by
  unfold renameChdirent
  rcases hrun : x.run (Client.chdirent s.refn.handle r.new) s.dirs with ⟨answer, d⟩
  cases answer with
  | error e =>
    have hd : d = s₀.dirs := (hanswered.run_error hrun).trans hu.dirs
    dsimp only
    split_ifs with hretry
    · unfold Stage
      rw [hstate]
      exact ⟨h, { hu with dirs := hd }, htarget, hfs⟩
    · exact stage_fail hd e
  | ok old =>
    obtain ⟨-, hserver⟩ := run_ok hrun
    unfold Client.chdirent at hserver
    cases hnew : s.dirs r.new with
    | none =>
      rw [hnew] at hserver
      cases hserver
    | some t =>
      rw [hnew] at hserver hother
      cases hserver
      have hrefn : s.refn.handle = h := by
        rw [hu.refn]
        rfl
      refine ⟨h, .inl { hu with dirs := ?_, sameFs := hfs, target := ?_, fresh := ?_ }⟩
      · rw [hu.dirs, hrefn]
      · intro _ hsame
        apply hother
        rw [hrefn, ← hsame]
      · intro hfalse
        exact absurd hfalse (by dsimp only; rw [htarget]; simp)

section
variable (hu : Untouched r s₀ s h) (hthere : s.targetDirentExists = true → s₀.dirs r.new ≠ none)
include hu hthere

theorem Untouched.crdirent (hanswered : x.Answered) (hfs : r.old.parent.fsId = r.new.parent.fsId)
    (hfirst : (x.run (Client.crdirent s.refn.handle r.new) s.dirs).1 = .error .eexist →
      s.retryCount = 0) : Stage cached r s₀ (renameCrdirent r s x) := by
  unfold renameCrdirent
  rcases hrun : x.run (Client.crdirent s.refn.handle r.new) s.dirs with ⟨answer, d⟩
  rw [hrun] at hfirst
  cases answer with
  | error e =>
    have hd : d = s.dirs := hanswered.run_error hrun
    refine ⟨h, e, { hu with dirs := hd.trans hu.dirs }, hthere, rfl, fun heq => ?_⟩
    apply hfirst
    rw [heq]
  | ok u =>
    obtain ⟨-, hserver⟩ := run_ok hrun
    unfold Client.crdirent at hserver
    cases hnew : s.dirs r.new with
    | some t =>
      rw [hnew] at hserver
      cases hserver
    | none =>
      rw [hnew] at hserver
      cases hserver
      have hnone : s₀.dirs r.new = none := by rw [← hu.dirs]; exact hnew
      refine ⟨h, .inl { hu with
        dirs := ?_, sameFs := hfs, target := fun htrue => ?_, fresh := fun _ => hnone }⟩
      · rw [hu.dirs, hu.refn]
        rfl
      · exact absurd hnone (hthere htrue)

theorem Untouched.retryOrFail {e : RequestError} (hcode : s.errorCode = some e)
    (hfirst : e = .eexist → s.retryCount = 0) : Stage cached r s₀ (renameCrdirentRetryOrFail r s) := by
  unfold renameCrdirentRetryOrFail
  rw [hcode]
  dsimp only
  cases hretry : Client.retryOrFail .eexist s.retryCount r.retryLimit e with
  | retry => exact ⟨h, { hu with }, hthere⟩
  | goOn code =>
    rw [retryOrFail_code hfirst hretry]
    exact stage_fail hu.dirs e

end

theorem Linked.rmdirent (hl : Linked r s₀ s h) (hanswered : x.Answered)
    (hfirst : (x.run (Client.rmdirent r.old) s.dirs).1 = .error .enoent → s.retryCount = 0)
    (hstep : renameRmdirent r s x = some s') : Stage cached r s₀ s' := by
  unfold renameRmdirent at hstep
  have hentry : r.entry s.rmdirentIndex = r.old := by rw [hl.index]; rfl
  rw [hentry] at hstep
  rcases hrun : x.run (Client.rmdirent r.old) s.dirs with ⟨answer, d⟩
  rw [hrun] at hstep hfirst
  cases answer with
  | error e =>
    cases hstep
    have hd : d = s.dirs := hanswered.run_error hrun
    refine ⟨h, e, rfl, .inl ⟨{ hl with dirs := hd.trans hl.dirs }, fun heq => ?_⟩⟩
    apply hfirst
    rw [heq]
  | ok removed =>
    obtain ⟨-, hserver⟩ := run_ok hrun
    have hold : s.dirs r.old = some h := by
      rw [hl.dirs, set_other _ _ r.old_ne_new]
      exact hl.named
    unfold Client.rmdirent at hserver
    rw [hold] at hserver
    cases hserver
    dsimp only at hstep
    split_ifs at hstep
    cases hstep
    refine ⟨h, .inl { hl with dirs := ?_, objects := congrFun hl.objects _ }⟩
    rw [hl.dirs]

theorem Undoing.rmdirent (hu : Undoing r s₀ s h)
    (hfresh : x = .served → s.targetDirentExists = false) (hstep : renameRmdirent r s x = some s') :
    Stage cached r s₀ s' := by
  unfold renameRmdirent at hstep
  have hentry : r.entry s.rmdirentIndex = r.new := by rw [hu.index]; rfl
  rw [hentry] at hstep
  obtain ⟨h', hdirs⟩ := hu.dirs
  rcases hrun : x.run (Client.rmdirent r.new) s.dirs with ⟨answer, d⟩
  rw [hrun] at hstep
  -- whatever the answer, only the new name can have changed
  have hremoved : ∀ {old}, Client.rmdirent r.new s.dirs = .ok (old, d) →
      d = s₀.dirs.set r.new none := by
    intro old hserver
    unfold Client.rmdirent at hserver
    split at hserver
    · cases hserver
      rw [hdirs, set_set]
    · cases hserver
  cases answer with
  | error e =>
    cases hstep
    have hd : ∃ h'', d = s₀.dirs.set r.new h'' := by
      obtain heq | ⟨old, -, hserver⟩ := run_error hrun
      · exact ⟨h', heq.trans hdirs⟩
      · exact ⟨none, hremoved hserver⟩
    exact ⟨h, e, rfl, .inr { hu with dirs := hd }⟩
  | ok old =>
    obtain ⟨hserved, hserver⟩ := run_ok hrun
    have hfalse := hfresh hserved
    dsimp only at hstep
    split_ifs at hstep
    cases hstep
    refine ⟨h, .inr ⟨hu.stored, ?_, hfalse⟩⟩
    rw [hremoved hserver]
    exact set_eq_self _ (hu.fresh hfalse)

theorem stage_rmdirent (hs : ∃ h, Linked r s₀ s h ∨ Undoing r s₀ s h) (hstate : s.state = .rmdirent)
    (hsound : (RenameEvent.exchange x).Sound r s) (hstep : renameRmdirent r s x = some s') :
    Stage cached r s₀ s' := by
  unfold RenameEvent.Sound at hsound
  rw [hstate] at hsound
  obtain ⟨h, hl | hu⟩ := hs
  · dsimp only at hsound
    rw [if_pos hl.index] at hsound
    exact hl.rmdirent hsound.1 hsound.2 hstep
  · dsimp only at hsound
    rw [hu.index] at hsound
    exact hu.rmdirent hsound hstep

theorem stage_rmdirentRetryOrFail {e : RequestError} (hcode : s.errorCode = some e)
    (hcases : Linked r s₀ s h ∧ (e = .enoent → s.retryCount = 0) ∨ Undoing r s₀ s h) :
    Stage cached r s₀ (renameRmdirentRetryOrFail r s) := by
  unfold renameRmdirentRetryOrFail
  rw [hcode]
  dsimp only
  cases hretry : retryOrFail .enoent s.retryCount r.retryLimit e with
  | retry =>
    obtain ⟨hl, -⟩ | hu := hcases
    · exact ⟨h, .inl { hl with }⟩
    · exact ⟨h, .inr { hu with }⟩
  | goOn code =>
    obtain ⟨hl, hfirst⟩ | hu := hcases
    · rw [retryOrFail_code hfirst hretry]
      exact ⟨h, .inl ⟨{ hl with }, Option.some_ne_none e⟩⟩
    · exact ⟨h, .inr { hu with }⟩

theorem Undoing.old_named (hu : Undoing r s₀ s h) : s.dirs.Refers r.old (r.object h) := by
  obtain ⟨h', hdirs⟩ := hu.dirs
  refine ⟨?_, rfl⟩
  rw [hdirs, set_other _ _ r.old_ne_new]
  exact hu.named

theorem stage_rmdirentFailure
    (hs : ∃ h, Linked r s₀ s h ∧ s.errorCode ≠ none ∨ Undoing r s₀ s h) :
    Stage cached r s₀ (renameRmdirentFailure s) := by
  unfold renameRmdirentFailure
  obtain ⟨h, ⟨hl, hcode⟩ | hu⟩ := hs
  · rw [if_pos hl.index]
    exact ⟨h, .inr { hl with stored := hcode, index := rfl, dirs := ⟨some h, hl.dirs⟩ }⟩
  · rw [if_neg (by rw [hu.index]; decide)]
    cases hcode : s.errorCode with
    | none => exact ⟨h, .inr { hu with }⟩
    | some e =>
      refine ⟨Option.some_ne_none e, fun h1 hh1 => .inl ?_⟩
      have hsame : h1 = h := Option.some.inj (hh1.symm.trans hu.named)
      rw [hsame]
      exact hu.old_named

theorem Renamed.refers (hr : Renamed r s₀ s h) : s.dirs.Refers r.new (r.object h) := by
  refine ⟨?_, hr.sameFs.symm⟩
  rw [hr.dirs, set_other _ _ r.old_ne_new.symm]
  exact set_same _ _ _

theorem Renamed.atomic (hr : Renamed r s₀ s h) (hcode : s.errorCode = none) :
    Atomic r s₀ s s.reported ∧ (s.reported = none → s.dirs.Refers r.new s.refn) := by
  have hreported : s.reported = none := by
    unfold reported
    rw [hr.stored, hcode]
    rfl
  refine ⟨⟨fun _ => ⟨h, hr.named, hr.refers, ?_, hr.objects⟩, fun herror => absurd hreported herror,
    fun h1 hh1 => .inr ?_⟩, fun _ => ?_⟩
  · rw [hr.dirs]
    exact set_same _ _ _
  · have hsame : h1 = h := Option.some.inj (hh1.symm.trans hr.named)
    rw [hsame]
    exact hr.refers
  · rw [hr.refn]
    exact hr.refers

theorem stage_checkForRemove (hs : ∃ h, Renamed r s₀ s h ∨ Undone s₀ s) :
    Stage cached r s₀ (renameCheckForRemove s) := by
  unfold renameCheckForRemove
  obtain ⟨h, hr | hu⟩ := hs
  · split_ifs with htarget
    · exact ⟨h, { hr with }, hr.target htarget⟩
    · exact Renamed.atomic (h := h) { hr with } rfl
  · rw [hu.target]
    exact ⟨atomic_unchanged hu.dirs (reported_stored hu.stored),
      fun hnone => absurd hnone (reported_stored hu.stored)⟩

theorem removeObject_other {o o' : ObjectRef} {objects objects' : ObjectRef → Bool} {u : Unit}
    (hne : o' ≠ o) (hremove : removeObject o objects = .ok (u, objects')) :
    objects' o' = objects o' := by
  unfold removeObject at hremove
  split_ifs at hremove
  cases hremove
  exact if_neg hne

theorem Renamed.doRemove (hr : Renamed r s₀ s h) (hother : s.oldDirentHandle ≠ h) (x : Exchange) :
    Stage cached r s₀ (renameDoRemove r s x) := by
  unfold renameDoRemove
  rcases hrun : x.run (removeObject ⟨s.oldDirentHandle, r.new.parent.fsId⟩) s.objects with ⟨answer, objects⟩
  have hne : r.object h ≠ ⟨s.oldDirentHandle, r.new.parent.fsId⟩ := by
    intro heq
    exact hother (congrArg ObjectRef.handle heq).symm
  cases answer with
  | ok u =>
    obtain ⟨-, hserver⟩ := run_ok hrun
    exact Renamed.atomic (h := h)
      { hr with objects := (removeObject_other hne hserver).trans hr.objects } rfl
  | error e =>
    refine ⟨Option.some_ne_none e, fun h1 hh1 => .inr ?_⟩
    have hsame : h1 = h := Option.some.inj (hh1.symm.trans hr.named)
    rw [hsame]
    exact hr.refers

/-- The cache between `rename_init` and `rename_cleanup` holds neither name. -/
def Uncached (r : RenameOp Name) (s₀ s : RenameSm Name) : Prop :=
  s.state = .init ∨ (∃ reported, s.state = .terminated reported) ∨
    s.ncache = r.invalidated s₀.ncache

theorem Atomic.cleanup (ha : Atomic r s₀ s s.reported)
    (hrefers : s.reported = none → s.dirs.Refers r.new s.refn)
    (hcache : s.ncache = r.invalidated s₀.ncache)
    (hparent : cached → s.reported = none → r.old.parent = r.new.parent) :
    Stage cached r s₀ (renameCleanup r s) := by
  refine ⟨{ ha with }, ?_⟩
  intro hcached e o he hentry
  unfold renameCleanup at he hentry
  dsimp only at he hentry
  split_ifs at hentry with hput
  · obtain ⟨hnone, hname⟩ := hput
    rw [hparent hcached hnone] at hname
    cases hentry
    rw [hname]
    exact hrefers hnone
  · rw [if_neg hput, hcache] at he
    rw [hcache] at hentry
    unfold RenameOp.invalidated at he hentry
    split_ifs at hentry with htwo
    rw [if_neg htwo] at he
    obtain hold | hnew | hchanged := he
    · exact absurd (.inl hold) htwo
    · exact absurd (.inr hnew) htwo
    · exact absurd rfl hchanged

/-- The transitions of the machine, one for each state and event. -/
inductive Moves (r : RenameOp Name) (s : RenameSm Name) : RenameEvent → RenameSm Name → Prop where
  | init (hstate : s.state = .init) : Moves r s .run (renameInit r s)
  | lookups (hstate : s.state = .lookups) (x : Lookups) : Moves r s (.lookups x) (renameLookups r s x)
  | getattrSrc (hstate : s.state = .getattrSrc) (answer : Except RequestError RenameAttr) :
      Moves r s (.getattr answer) (renameGetattrSrc s answer)
  | getattrDest (hstate : s.state = .getattrDest) (answer : Except RequestError RenameAttr) :
      Moves r s (.getattr answer) (renameGetattrDest r s answer)
  | crdirent (hstate : s.state = .crdirent) (x : Exchange) :
      Moves r s (.exchange x) (renameCrdirent r s x)
  | crdirentRetryOrFail (hstate : s.state = .crdirentRetryOrFail) :
      Moves r s .run (renameCrdirentRetryOrFail r s)
  | chdirent (hstate : s.state = .chdirent) (x : Exchange) :
      Moves r s (.exchange x) (renameChdirent r s x)
  | rmdirent (hstate : s.state = .rmdirent) (x : Exchange) {s' : RenameSm Name}
      (hstep : renameRmdirent r s x = some s') : Moves r s (.exchange x) s'
  | rmdirentRetryOrFail (hstate : s.state = .rmdirentRetryOrFail) :
      Moves r s .run (renameRmdirentRetryOrFail r s)
  | rmdirentFailure (hstate : s.state = .rmdirentFailure) : Moves r s .run (renameRmdirentFailure s)
  | checkForRemove (hstate : s.state = .checkForRemove) : Moves r s .run (renameCheckForRemove s)
  | doRemove (hstate : s.state = .doRemove) (x : Exchange) :
      Moves r s (.exchange x) (renameDoRemove r s x)
  | warnUserToRunFsck (hstate : s.state = .warnUserToRunFsck) :
      Moves r s .run { s with state := .cleanup, warned := true }
  | cleanup (hstate : s.state = .cleanup) : Moves r s .run (renameCleanup r s)

variable {e : RenameEvent}

theorem moves_of_step (hstep : s.step r e = some s') : Moves r s e s' := by
  cases e with
  | run =>
    dsimp only [step] at hstep
    split at hstep <;> cases hstep
    case h_1 hstate => exact .init hstate
    case h_2 hstate => exact .crdirentRetryOrFail hstate
    case h_3 hstate => exact .rmdirentRetryOrFail hstate
    case h_4 hstate => exact .rmdirentFailure hstate
    case h_5 hstate => exact .checkForRemove hstate
    case h_6 hstate => exact .warnUserToRunFsck hstate
    case h_7 hstate => exact .cleanup hstate
  | lookups x =>
    dsimp only [step] at hstep
    split_ifs at hstep with hstate
    cases hstep
    exact .lookups hstate x
  | getattr answer =>
    dsimp only [step] at hstep
    split at hstep <;> cases hstep
    case h_1 hstate => exact .getattrSrc hstate answer
    case h_2 hstate => exact .getattrDest hstate answer
  | exchange x =>
    dsimp only [step] at hstep
    split at hstep
    case h_1 hstate =>
      cases hstep
      exact .crdirent hstate x
    case h_2 hstate =>
      cases hstep
      exact .chdirent hstate x
    case h_3 hstate => exact .rmdirent hstate x hstep
    case h_4 hstate =>
      cases hstep
      exact .doRemove hstate x
    case h_5 => cases hstep

theorem Moves.stage (hmove : Moves r s e s') (hstored0 : s₀.storedErrorCode = none)
    (hindex0 : s₀.rmdirentIndex = 0) (htarget0 : s₀.targetDirentExists = false) (hs : Stage cached r s₀ s)
    (hcache : Uncached r s₀ s) (horderly : e.Orderly r s) (hsound : cached → e.Sound r s) :
    Stage cached r s₀ s' := by
  unfold Stage at hs
  cases hmove with
  | init hstate =>
    rw [hstate] at hs
    cases hs
    exact ⟨rfl, rfl, hstored0, hindex0, htarget0⟩
  | lookups hstate x =>
    rw [hstate] at hs
    exact stage_lookups hs x
  | getattrSrc hstate answer =>
    rw [hstate] at hs
    obtain ⟨h, hu, htarget⟩ := hs
    exact hu.getattrSrc htarget answer
  | getattrDest hstate answer =>
    rw [hstate] at hs
    obtain ⟨h, hu, htarget⟩ := hs
    exact hu.getattrDest htarget answer
  | crdirent hstate x =>
    have hsound := horderly RenameEvent.noConfusion
    unfold RenameEvent.Sound at hsound
    rw [hstate] at hs hsound
    obtain ⟨h, hu, hthere⟩ := hs
    exact hu.crdirent hthere hsound.1 hsound.2.1 hsound.2.2
  | crdirentRetryOrFail hstate =>
    rw [hstate] at hs
    obtain ⟨h, e, hu, hthere, hcode, hfirst⟩ := hs
    exact hu.retryOrFail hthere hcode hfirst
  | chdirent hstate x =>
    have hsound := horderly RenameEvent.noConfusion
    unfold RenameEvent.Sound at hsound
    rw [hstate] at hs hsound
    obtain ⟨h, hu, htarget, hfs⟩ := hs
    exact hu.chdirent hstate htarget hfs hsound.1 hsound.2
  | rmdirent hstate x hstep =>
    rw [hstate] at hs
    exact stage_rmdirent hs hstate (horderly RenameEvent.noConfusion) hstep
  | rmdirentRetryOrFail hstate =>
    rw [hstate] at hs
    obtain ⟨h, e, hcode, hcases⟩ := hs
    exact stage_rmdirentRetryOrFail hcode hcases
  | rmdirentFailure hstate =>
    rw [hstate] at hs
    exact stage_rmdirentFailure hs
  | checkForRemove hstate =>
    rw [hstate] at hs
    exact stage_checkForRemove hs
  | doRemove hstate x =>
    rw [hstate] at hs
    obtain ⟨h, hr, hother⟩ := hs
    exact hr.doRemove hother x
  | warnUserToRunFsck hstate =>
    rw [hstate] at hs
    obtain ⟨hcode, hnamed⟩ := hs
    have herror : s.reported ≠ none := reported_error hcode
    -- after the warning nothing is promised but that the object has a name
    exact ⟨⟨fun hnone => absurd hnone herror, fun _ hwarned => (by cases hwarned), hnamed⟩,
      fun hnone => absurd hnone herror⟩
  | cleanup hstate =>
    obtain hinit | ⟨reported, hterm⟩ | hclean := hcache
    · rw [hstate] at hinit
      cases hinit
    · rw [hstate] at hterm
      cases hterm
    · rw [hstate] at hs
      exact hs.1.cleanup hs.2 hclean fun hcached => hsound hcached hstate

theorem Moves.ncache (hmove : Moves r s e s') (hinit : s.state ≠ .init)
    (hcleanup : s.state ≠ .cleanup) : s'.ncache = s.ncache := by
  cases hmove with
  | init hstate => exact absurd hstate hinit
  | lookups hstate x =>
    have looked : ∀ again, (lookedUp r s again).ncache = s.ncache := by
      intro again
      unfold lookedUp
      split
      · rfl
      · split <;> rfl
    cases x with
    | answered => exact looked false
    | oldAskedAgain => exact looked true
    | failed e => rfl
  | getattrSrc hstate answer => cases answer <;> rfl
  | getattrDest hstate answer =>
    cases answer with
    | error e => rfl
    | ok attr =>
      dsimp only [renameGetattrDest]
      split_ifs <;> rfl
  | crdirent hstate x =>
    unfold renameCrdirent
    split <;> rfl
  | crdirentRetryOrFail hstate =>
    unfold renameCrdirentRetryOrFail
    split
    · rfl
    · split <;> rfl
  | chdirent hstate x =>
    unfold renameChdirent
    split
    · rfl
    · split_ifs <;> rfl
  | rmdirent hstate x hstep =>
    unfold renameRmdirent at hstep
    split at hstep
    · split_ifs at hstep
      cases hstep
      rfl
    · cases hstep
      rfl
  | rmdirentRetryOrFail hstate =>
    unfold renameRmdirentRetryOrFail
    split
    · rfl
    · split <;> rfl
  | rmdirentFailure hstate =>
    unfold renameRmdirentFailure
    split
    · rfl
    · split <;> rfl
  | checkForRemove hstate =>
    unfold renameCheckForRemove
    split <;> rfl
  | doRemove hstate x =>
    unfold renameDoRemove
    split <;> rfl
  | warnUserToRunFsck hstate => rfl
  | cleanup hstate => exact absurd hstate hcleanup

theorem Moves.uncached (hmove : Moves r s e s') (hs : Stage cached r s₀ s) (hcache : Uncached r s₀ s) :
    Uncached r s₀ s' := by
  by_cases hinit : s.state = .init
  · unfold Stage at hs
    rw [hinit] at hs
    cases hs
    cases hmove with
    | init => exact .inr (.inr rfl)
    | _ hstate => rw [hinit] at hstate; cases hstate
  · by_cases hcleanup : s.state = .cleanup
    · cases hmove with
      | cleanup => exact .inr (.inl ⟨_, rfl⟩)
      | _ hstate => rw [hcleanup] at hstate; cases hstate
    · obtain hstate | ⟨reported, hterm⟩ | hclean := hcache
      · exact absurd hstate hinit
      · cases hmove with
        | _ hstate => rw [hterm] at hstate; cases hstate
      · exact .inr (.inr ((hmove.ncache hinit hcleanup).trans hclean))

/-- The object has a name. -/
def Named (r : RenameOp Name) (s₀ s : RenameSm Name) : Prop :=
  ∀ h, s₀.dirs r.old = some h →
    s.dirs.Refers r.old (r.object h) ∨ s.dirs.Refers r.new (r.object h)

theorem Stage.named (hs : Stage cached r s₀ s) : Named r s₀ s := by
  -- until the old name is removed the object can be found under it
  have hkept (hk : s.dirs r.old = s₀.dirs r.old) : Named r s₀ s :=
    fun h hold => .inl ⟨hk.trans hold, rfl⟩
  have hsame (hd : s.dirs = s₀.dirs) : Named r s₀ s := hkept (by rw [hd])
  have hset {h} (hd : s.dirs = s₀.dirs.set r.new h) : Named r s₀ s :=
    hkept (by rw [hd, set_other _ _ r.old_ne_new])
  have hrenamed {h} (hr : Renamed r s₀ s h) : Named r s₀ s := fun h₁ hold =>
    .inr (Option.some.inj (hr.named.symm.trans hold) ▸ hr.refers)
  unfold Stage at hs
  split at hs
  case h_1 => exact hsame (by rw [hs])
  case h_2 => exact hsame hs.1
  case h_3 | h_4 | h_5 | h_6 =>
    obtain ⟨h, hu, -⟩ := hs
    exact hsame hu.dirs
  case h_7 =>
    obtain ⟨h, e, hu, -⟩ := hs
    exact hsame hu.dirs
  case h_8 =>
    obtain ⟨h, hl | hu⟩ := hs
    exacts [hset hl.dirs, hset hu.dirs.choose_spec]
  case h_9 =>
    obtain ⟨h, e, -, ⟨hl, -⟩ | hu⟩ := hs
    exacts [hset hl.dirs, hset hu.dirs.choose_spec]
  case h_10 =>
    obtain ⟨h, ⟨hl, -⟩ | hu⟩ := hs
    exacts [hset hl.dirs, hset hu.dirs.choose_spec]
  case h_11 =>
    obtain ⟨h, hr | hu⟩ := hs
    exacts [hrenamed hr, hsame hu.dirs]
  case h_12 =>
    obtain ⟨h, hr, -⟩ := hs
    exact hrenamed hr
  case h_13 => exact hs.2
  case h_14 | h_15 => exact hs.1.named

/-- Every state of a run of orderly steps is at its stage. -/
theorem stage_throughout {C : RenameSm Name → RenameEvent → Prop} {dirs : Directories Name}
    {objects : ObjectRef → Bool} {ncache : DirEntry Name → Option ObjectRef} {es : List RenameEvent}
    (hC : ∀ s e, C s e → e.Orderly r s ∧ (cached → e.Sound r s))
    (hrun : EachStep (step r) C (.posted dirs objects ncache) es) :
    Throughout (step r) (Stage cached r (.posted dirs objects ncache))
      (.posted dirs objects ncache) es := by
  have hinv := Throughout.of_eachStep (I := fun s =>
      Stage cached r (.posted dirs objects ncache) s ∧ Uncached r (.posted dirs objects ncache) s)
    (fun s e s' hs he hstep =>
      ⟨(moves_of_step hstep).stage rfl rfl rfl hs.1 hs.2 (hC s e he).1 (hC s e he).2,
        (moves_of_step hstep).uncached hs.1 hs.2⟩)
    (s := .posted dirs objects ncache) ⟨rfl, .inl rfl⟩ hrun
  exact hinv.mono fun _ hs => hs.1

end

/-- **A rename happens as a whole or not at all**, in every run whose steps are sound: whatever
directories and objects there are, whatever the servers answer, and however often the client
repeats a request. -/
theorem rename_atomic (r : RenameOp Name) (dirs : Directories Name) (objects : ObjectRef → Bool)
    (ncache : DirEntry Name → Option ObjectRef) (es : List RenameEvent)
    (hsound : EachStep (step r) (fun s e => e.Sound r s) (.posted dirs objects ncache) es) :
    Throughout (step r) (RenamedAtomically r (.posted dirs objects ncache))
      (.posted dirs objects ncache) es := by
  have hinv := @stage_throughout _ _ True _ _ _ _ _ _ (fun _ _ h => ⟨fun _ => h, fun _ => h⟩) hsound
  refine hinv.mono fun s hs reported hterm => ?_
  unfold Stage at hs
  rw [hterm] at hs
  exact ⟨hs.1, hs.2 trivial⟩

/-- Name 10 of directory 1 becomes name 11 of directory `parent`; a request is repeated three times. -/
def renameTo (parent : Nat) : RenameOp Nat :=
  ⟨⟨⟨1, 9⟩, 10⟩, ⟨⟨parent, 9⟩, 11⟩, 3, by simp⟩

/-- The object 50 under the old name and, where there is one, a target under the new. -/
def renameStart (parent : Nat) (target : Option Nat) : RenameSm Nat :=
  .posted (fun e => if e = (renameTo parent).old then some 50
    else if e = (renameTo parent).new then target else none) (fun _ => true) fun _ => none

/-- The first `crdirent` does not reach the server; then the old name cannot be removed, and the
new one is removed again. -/
def undoneRun : List RenameEvent :=
  [.run, .lookups .answered, .exchange (.failed false .bmi), .run, .exchange .served,
    .exchange (.failed false (.other 13)), .run, .run, .exchange .served, .run, .run]

theorem rename_atomic_undone :
    Throughout (step (renameTo 2)) (RenamedAtomically (renameTo 2) (renameStart 2 none))
      (renameStart 2 none) undoneRun := by
  refine rename_atomic _ _ _ _ _ ?_
  refine .cons rfl (fun hstate => nomatch hstate) ?_
  refine .cons rfl trivial ?_
  refine .cons rfl ⟨answered_failed _, rfl, fun h => nomatch h⟩ ?_
  refine .cons rfl (fun hstate => nomatch hstate) ?_
  refine .cons rfl ⟨answered_served, rfl, fun h => nomatch h⟩ ?_
  refine .cons rfl ⟨answered_failed _, fun h => nomatch h⟩ ?_
  refine .cons rfl (fun hstate => nomatch hstate) ?_
  refine .cons rfl (fun hstate => nomatch hstate) ?_
  refine .cons rfl (fun _ => rfl) ?_
  refine .cons rfl (fun hstate => nomatch hstate) ?_
  exact .cons rfl (fun _ hnone => nomatch hnone) trivial

/-- The old name's removal takes effect and its reply is lost: the repetition finds no entry, and
the machine removes the new name, too. -/
def lostRmdirent : List RenameEvent :=
  [.run, .lookups .answered, .exchange .served, .exchange (.failed true .bmi), .run,
    .exchange .served, .run, .run, .exchange .served, .run, .run]

/-- The new name's creation takes effect and its reply is lost. -/
def lostCrdirent : List RenameEvent :=
  [.run, .lookups .answered, .exchange (.failed true .bmi), .run, .exchange .served, .run, .run]

/-- There is a target, and the old name cannot be removed. -/
def refusedRmdirent : List RenameEvent :=
  [.run, .lookups .answered, .getattr (.ok ⟨.metafile, 0⟩), .getattr (.ok ⟨.metafile, 0⟩),
    .exchange .served, .exchange (.failed false (.other 13)), .run, .run, .exchange .served, .run,
    .exchange .served, .run]

/-- There is a target, and the reply of the exchange is lost. -/
def lostChdirent : List RenameEvent :=
  [.run, .lookups .answered, .getattr (.ok ⟨.metafile, 0⟩), .getattr (.ok ⟨.metafile, 0⟩),
    .exchange (.failed true .bmi), .exchange .served, .exchange .served, .run, .exchange .served, .run]

/-- A rename to a new name, where every request is answered. -/
def plainRename : List RenameEvent :=
  [.run, .lookups .answered, .exchange .served, .exchange .served, .run, .run]

/-- With a lost reply the object loses all its names, or keeps both, and success is reported; a
target is not put back, and with a lost reply the renamed object is removed in its place; and
from directory to directory every rename leaves a wrong entry in the name cache. -/
theorem rename_not_atomic :
    (∃ s, exec (step (renameTo 1)) (renameStart 1 none) lostRmdirent = some s ∧
      ¬ RenamedAtomically (renameTo 1) (renameStart 1 none) s) ∧
    (∃ s, exec (step (renameTo 1)) (renameStart 1 none) lostCrdirent = some s ∧
      ¬ RenamedAtomically (renameTo 1) (renameStart 1 none) s) ∧
    (∃ s, exec (step (renameTo 1)) (renameStart 1 (some 60)) refusedRmdirent = some s ∧
      ¬ RenamedAtomically (renameTo 1) (renameStart 1 (some 60)) s) ∧
    (∃ s, exec (step (renameTo 1)) (renameStart 1 (some 60)) lostChdirent = some s ∧
      ¬ RenamedAtomically (renameTo 1) (renameStart 1 (some 60)) s) ∧
    ∃ s, exec (step (renameTo 2)) (renameStart 2 none) plainRename = some s ∧
      ¬ RenamedAtomically (renameTo 2) (renameStart 2 none) s := by
  refine ⟨⟨_, rfl, ?_⟩, ⟨_, rfl, ?_⟩, ⟨_, rfl, ?_⟩, ⟨_, rfl, ?_⟩, ⟨_, rfl, ?_⟩⟩
  · intro hs
    obtain ⟨hold, -⟩ | ⟨hnew, -⟩ := (hs none rfl).1.named 50 rfl
    · cases hold
    · cases hnew
  · intro hs
    obtain ⟨h, -, -, hgone, -⟩ := (hs none rfl).1.success rfl
    cases hgone
  · intro hs
    obtain ⟨-, hnew⟩ := (hs (some (.other 13)) rfl).1.failure (Option.some_ne_none _) rfl
    cases hnew
  · intro hs
    obtain ⟨h, hfound, -, -, hobjects⟩ := (hs none rfl).1.success rfl
    cases hfound
    cases hobjects
  · intro hs
    obtain ⟨hrefers, -⟩ := (hs none rfl).2 ⟨⟨1, 9⟩, 11⟩ ⟨50, 9⟩
      (.inr (.inr (Option.some_ne_none _))) rfl
    cases hrefers

/-- **The object never loses its name**: after every step of an orderly run it can be found under the
old name or the new one, so a client that stops in between leaves no object behind. -/
theorem rename_keeps_name (r : RenameOp Name) (dirs : Directories Name)
    (objects : ObjectRef → Bool) (ncache : DirEntry Name → Option ObjectRef) (es : List RenameEvent)
    (horderly : EachStep (step r) (fun s e => e.Orderly r s) (.posted dirs objects ncache) es) :
    Throughout (step r) (Named r (.posted dirs objects ncache)) (.posted dirs objects ncache) es := by
  have hinv := @stage_throughout _ _ False _ _ _ _ _ _ (fun _ _ h => ⟨h, False.elim⟩) horderly
  exact hinv.mono fun s hs => hs.named

/-- From one directory to another. -/
theorem rename_keeps_name_plain :
    Throughout (step (renameTo 2)) (Named (renameTo 2) (renameStart 2 none)) (renameStart 2 none)
      plainRename := by
  refine rename_keeps_name _ _ _ _ _ ?_
  refine .cons rfl (absurd rfl) (.cons rfl (fun _ => trivial) ?_)
  refine .cons rfl (fun _ => ⟨answered_served, rfl, fun h => nomatch h⟩) ?_
  refine .cons rfl (fun _ => ⟨answered_served, fun h => nomatch h⟩) ?_
  exact .cons rfl (absurd rfl) (.cons rfl (absurd rfl) trivial)

end Pvfs.Client
