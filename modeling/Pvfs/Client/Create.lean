import Pvfs.Client.Dirent
import Pvfs.Lib.Steps

/-! # Creating a file

`pvfs2_client_create_sm` (`sys-create.sm`) has the metafile and the datafiles made by one
request, enters the name by a second, and where the second fails removes the objects again. A
whole round is to be repeated after a network error; but the state that the attributes of the
parent are looked up with has been cleared by then and is not filled again, and the second
round ends in a failed assertion.

A name must not outlive what it refers to. `create_dangles` shows that it can: an error is
taken for the absence of the entry, although the entry may have been written.
`create_no_dangling` is the result for the runs in which every `crdirent` that takes effect is
answered. -/

namespace Pvfs.Client

open Lib

/-- The objects of a file system: a metafile holds the handles of its datafiles. -/
structure Objects where
  metafile : Nat → Option (List Nat)
  datafile : Nat → Bool

/-- No object has the handle. -/
def Objects.Free (o : Objects) (h : Nat) : Prop := o.metafile h = none ∧ o.datafile h = false

instance (o : Objects) (h : Nat) : Decidable (o.Free h) := inferInstanceAs (Decidable (_ ∧ _))

/-- A metafile all of whose datafiles exist. -/
def Objects.Whole (o : Objects) (h : Nat) : Prop :=
  ∃ datafiles, o.metafile h = some datafiles ∧ ∀ d ∈ datafiles, o.datafile d = true

/-- What the server of the metafile does for `create`. -/
def createFile (metafile : Nat) (datafiles : List Nat) (o : Objects) :
    Except RequestError (Unit × Objects) :=
  .ok ((), { metafile := fun h => if h = metafile then some datafiles else o.metafile h
             datafile := fun h => if h ∈ datafiles then true else o.datafile h })

/-- `remove` of one object. -/
def removeHandle (handle : Nat) (o : Objects) : Except RequestError (Unit × Objects) :=
  if o.Free handle then .error .enoent
  else .ok ((), { metafile := fun h => if h = handle then none else o.metafile h
                  datafile := fun h => if h = handle then false else o.datafile h })

/-- The code of an array of messages that are not repeated: a network error, or else the last. -/
def msgpairarrayCode (codes : List RequestError) : Option RequestError :=
  if .bmi ∈ codes then some .bmi else codes.getLast?

/-- The array of `remove` messages: the objects that are left, and the errors. -/
def deleteHandles : List (Nat × Exchange) → Objects → List RequestError × Objects
  | [], o => ([], o)
  | (handle, x) :: rest, o =>
    match x.run (removeHandle handle) o with
    | (.ok _, o') => deleteHandles rest o'
    | (.error e, o') => (e :: (deleteHandles rest o').1, (deleteHandles rest o').2)

/-- `sm_p->u.create`, as far as it is read. -/
structure CreateOp (Name : Type) where
  /-- `object_name` in the directory `object_ref` -/
  entry : DirEntry Name
  retryLimit : Nat

/-- The states of `create.sm`. -/
inductive CreateState where
  /-- `retry`: the error code is `CREATE_RETRY` -/
  | init (retry : Bool)
  | parentGetattr
  | parentGetattrInspect
  | create
  | crdirent
  | crdirentFailure
  | deleteHandles
  | cleanup
  | terminated (error : Option RequestError)
  deriving DecidableEq

/-- The machine, the directories and the objects it works on. -/
structure CreateSm (Name : Type) where
  state : CreateState
  /-- `sm_p->getattr.object_ref` -/
  getattrRef : ObjectRef
  /-- `js_p->error_code` -/
  errorCode : Option RequestError
  storedErrorCode : Option RequestError
  retryCount : Nat
  /-- of the message pair of `create`, which is repeated below the machine -/
  msgRetryCount : Nat
  metafileHandle : Nat
  datafileHandles : List Nat
  /-- `create_resp->ref` -/
  resp : Option ObjectRef
  dirs : Directories Name
  objects : Objects

inductive CreateEvent where
  /-- the action of a state that waits for nothing -/
  | run
  /-- a nested machine, or a check of the client's own, ends with this code -/
  | checked (code : Option RequestError)
  /-- the server has these handles for the new file -/
  | create (metafile : Nat) (datafiles : List Nat) (x : Exchange)
  | crdirent (x : Exchange)
  /-- one exchange for each datafile and, last, one for the metafile -/
  | deleteHandles (xs : List Exchange)

variable {Name : Type} [DecidableEq Name]

def CreateSm.posted (dirs : Directories Name) (objects : Objects) : CreateSm Name where
  state := .init false
  getattrRef := ⟨0, 0⟩
  errorCode := none
  storedErrorCode := none
  retryCount := 0
  msgRetryCount := 0
  metafileHandle := 0
  datafileHandles := []
  resp := none
  dirs := dirs
  objects := objects

section
variable (c : CreateOp Name) (s : CreateSm Name)

/-- The message of `create` is one with `PVFS_MSGPAIR_RETRY`. -/
def createCreate (metafile : Nat) (datafiles : List Nat) (x : Exchange) : CreateSm Name :=
  match x.run (createFile metafile datafiles) s.objects with
  | (.ok _, o) =>
    { s with
      state := .crdirent
      objects := o
      metafileHandle := metafile
      datafileHandles := datafiles
      errorCode := none }
  | (.error e, o) =>
    if e = .bmi ∧ s.msgRetryCount < c.retryLimit then
      { s with objects := o, msgRetryCount := s.msgRetryCount + 1 }
    else { s with state := .cleanup, objects := o, errorCode := some e }

/-- The request for the entry, and `create_crdirent_comp_fn`. -/
def createCrdirent (x : Exchange) : CreateSm Name :=
  match x.run (crdirent s.metafileHandle c.entry) s.dirs with
  | (.ok _, d) => { s with state := .cleanup, dirs := d, errorCode := none }
  | (.error e, d) => { s with state := .crdirentFailure, dirs := d, errorCode := some e }

/-- What has been created is removed again, as far as the servers answer. -/
def createDeleteHandles (xs : List Exchange) : CreateSm Name :=
  let array := (s.datafileHandles ++ [s.metafileHandle]).zip xs
  { s with
    state := .cleanup
    objects := (deleteHandles array s.objects).2
    errorCode := msgpairarrayCode (deleteHandles array s.objects).1 }

/-- `sm_p->error_code`. -/
def CreateSm.reported : Option RequestError := s.storedErrorCode.or s.errorCode

/-- `create_init`: a retry only sets the timer. -/
def createInit (retry : Bool) : CreateSm Name :=
  { s with
    state := .parentGetattr
    getattrRef := if retry then s.getattrRef else c.entry.parent }

/-- `create_cleanup`, which clears the `getattr` state at its start. -/
def createCleanup : CreateSm Name :=
  match s.reported with
  | none =>
    { s with
      state := .terminated none
      getattrRef := ⟨0, 0⟩
      resp := some ⟨s.metafileHandle, c.entry.parent.fsId⟩ }
  | some e =>
    if e = .bmi ∧ s.retryCount < c.retryLimit then
      { s with
        state := .init true
        getattrRef := ⟨0, 0⟩
        storedErrorCode := none
        retryCount := s.retryCount + 1
        errorCode := none }
    else { s with state := .terminated (some e), getattrRef := ⟨0, 0⟩ }

/-- One step of the machine; none is possible where an assertion fails. -/
def CreateSm.step : CreateEvent → Option (CreateSm Name)
  | .run =>
    match s.state with
    | .init retry => some (createInit c s retry)
    | .crdirentFailure => some { s with state := .deleteHandles, storedErrorCode := s.errorCode }
    | .cleanup => some (createCleanup c s)
    | _ => none
  | .checked code =>
    match s.state, code with
    | .parentGetattr, none =>
      -- the assertions of `getattr_acache_lookup`, also below
      if s.getattrRef.handle ≠ 0 ∧ s.getattrRef.fsId ≠ 0 then
        some { s with state := .parentGetattrInspect, errorCode := none }
      else none
    | .parentGetattrInspect, none =>
      some { s with state := .create, errorCode := none, msgRetryCount := 0 }
    -- the message array cannot be made, or a server not be found: nothing is removed
    | .deleteHandles, some e => some { s with state := .cleanup, errorCode := some e }
    | .parentGetattr, some e =>
      if s.getattrRef.handle ≠ 0 ∧ s.getattrRef.fsId ≠ 0 then
        some { s with state := .cleanup, errorCode := some e }
      else none
    | .parentGetattrInspect, some e => some { s with state := .cleanup, errorCode := some e }
    | _, _ => none
  | .create metafile datafiles x =>
    -- a server gives out handles that nothing has
    if s.state = .create ∧ s.objects.Free metafile ∧ (∀ d ∈ datafiles, s.objects.Free d) then
      some (createCreate c s metafile datafiles x)
    else none
  | .crdirent x => if s.state = .crdirent then some (createCrdirent c s x) else none
  | .deleteHandles xs =>
    if s.state = .deleteHandles ∧ xs.length = s.datafileHandles.length + 1 then
      some (createDeleteHandles s xs)
    else none

end

/-! ## What a create is for -/

section
variable (c : CreateOp Name) (s₀ s : CreateSm Name)

/-- The create is over. A name that is there because of it refers to a whole file, and after a
success the handle it returns is the name's. -/
def NoDanglingName : Prop :=
  ∀ reported, s.state = .terminated reported →
    (∀ h, s.dirs c.entry = some h → s₀.dirs c.entry ≠ some h → s.objects.Whole h) ∧
    (reported = none → ∃ o, s.resp = some o ∧ s.dirs.Refers c.entry o)

/-- An entry that is written is reported to the client. -/
def CreateEvent.Sound : CreateEvent → Prop
  | .crdirent x => x.Answered
  | _ => True

/-- What is known of the stores in each state. -/
def CreateStage : Prop :=
  match s.state with
  | .init _ | .parentGetattr | .parentGetattrInspect | .create =>
    s.dirs = s₀.dirs ∧ s.storedErrorCode = none
  | .crdirent => s.dirs = s₀.dirs ∧ s.storedErrorCode = none ∧ s.objects.Whole s.metafileHandle
  | .crdirentFailure => s.dirs = s₀.dirs ∧ s.errorCode ≠ none
  | .deleteHandles => s.dirs = s₀.dirs ∧ s.storedErrorCode ≠ none
  | .cleanup => s.reported ≠ none ∧ s.dirs = s₀.dirs ∨
      s.reported = none ∧ s.dirs c.entry = some s.metafileHandle ∧ s.objects.Whole s.metafileHandle
  | .terminated _ => NoDanglingName c s₀ s

end

section
variable {c : CreateOp Name} {s₀ s : CreateSm Name}
variable {metafile : Nat} {datafiles : List Nat}

theorem createFile_whole {o o' : Objects} {u : Unit}
    (h : createFile metafile datafiles o = .ok (u, o')) : o'.Whole metafile := by
  cases h
  refine ⟨datafiles, if_pos rfl, fun d hd => ?_⟩
  exact if_pos hd

omit [DecidableEq Name] in
theorem createReported_code (hcode : s.errorCode ≠ none) : s.reported ≠ none := by
  intro hnone
  exact hcode (Option.or_eq_none_iff.mp hnone).2

omit [DecidableEq Name] in
theorem createReported_stored (hstored : s.storedErrorCode ≠ none) : s.reported ≠ none := by
  intro hnone
  exact hstored (Option.or_eq_none_iff.mp hnone).1

omit [DecidableEq Name] in
theorem createStage_create (x : Exchange)
    (hstate : s.state = .create) (hdirs : s.dirs = s₀.dirs) (hstored : s.storedErrorCode = none) :
    CreateStage c s₀ (createCreate c s metafile datafiles x) := by
  unfold createCreate
  rcases hrun : x.run (createFile metafile datafiles) s.objects with ⟨answer, o⟩
  cases answer with
  | ok u =>
    obtain ⟨-, hserver⟩ := Exchange.run_ok hrun
    exact ⟨hdirs, hstored, createFile_whole hserver⟩
  | error e =>
    dsimp only
    split_ifs
    · unfold CreateStage
      rw [hstate]
      exact ⟨hdirs, hstored⟩
    · exact .inl ⟨createReported_code (Option.some_ne_none e), hdirs⟩

theorem createStage_crdirent {x : Exchange} (hanswered : x.Answered) (hdirs : s.dirs = s₀.dirs)
    (hstored : s.storedErrorCode = none) (hwhole : s.objects.Whole s.metafileHandle) :
    CreateStage c s₀ (createCrdirent c s x) := by
  unfold createCrdirent
  rcases hrun : x.run (crdirent s.metafileHandle c.entry) s.dirs with ⟨answer, d⟩
  cases answer with
  | ok u =>
    obtain ⟨-, hserver⟩ := Exchange.run_ok hrun
    unfold crdirent at hserver
    split at hserver
    · cases hserver
    · cases hserver
      refine .inr ⟨?_, Directories.set_same _ _ _, hwhole⟩
      rw [hstored]
      rfl
  | error e => exact ⟨(hanswered.run_error hrun).trans hdirs, Option.some_ne_none e⟩

omit [DecidableEq Name] in
theorem createStage_cleanup
    (hs : s.reported ≠ none ∧ s.dirs = s₀.dirs ∨
      s.reported = none ∧ s.dirs c.entry = some s.metafileHandle ∧ s.objects.Whole s.metafileHandle) :
    CreateStage c s₀ (createCleanup c s) := by
  unfold createCleanup
  obtain ⟨herror, hdirs⟩ | ⟨hnone, hentry, hwhole⟩ := hs
  · cases hrep : s.reported with
    | none => exact absurd hrep herror
    | some e =>
      dsimp only
      split_ifs
      · exact ⟨hdirs, rfl⟩
      · intro reported hterm
        cases hterm
        refine ⟨fun h hnew hold => ?_, fun hnone => nomatch hnone⟩
        rw [hdirs] at hnew
        exact absurd hnew hold
  · rw [hnone]
    intro reported hterm
    refine ⟨fun h hh _ => ?_, fun _ => ⟨_, rfl, hentry, rfl⟩⟩
    have hsame : s.metafileHandle = h := Option.some.inj (hentry.symm.trans hh)
    rw [← hsame]
    exact hwhole

/-- Each transition leads from stage to stage. -/
theorem createStage_step {e : CreateEvent} {s' : CreateSm Name} (hs : CreateStage c s₀ s)
    (hsound : e.Sound) (hstep : s.step c e = some s') : CreateStage c s₀ s' := by
  unfold CreateStage at hs
  cases e with
  | run =>
    dsimp only [CreateSm.step] at hstep
    split at hstep <;> cases hstep
    case h_1 hstate =>
      rw [hstate] at hs
      exact hs
    case h_2 hstate =>
      rw [hstate] at hs
      exact hs
    case h_3 hstate =>
      rw [hstate] at hs
      exact createStage_cleanup hs
  | checked code =>
    dsimp only [CreateSm.step] at hstep
    split at hstep
    case h_1 hstate =>
      split_ifs at hstep
      cases hstep
      rw [hstate] at hs
      exact hs
    case h_2 hstate =>
      cases hstep
      rw [hstate] at hs
      exact hs
    case h_4 hstate =>
      split_ifs at hstep
      cases hstep
      rw [hstate] at hs
      exact .inl ⟨createReported_code (Option.some_ne_none _), hs.1⟩
    case h_6 => cases hstep
    all_goals
      next hstate =>
        cases hstep
        rw [hstate] at hs
        exact .inl ⟨createReported_code (Option.some_ne_none _), hs.1⟩
  | create metafile datafiles x =>
    dsimp only [CreateSm.step] at hstep
    split_ifs at hstep with hcond
    cases hstep
    rw [hcond.1] at hs
    exact createStage_create x hcond.1 hs.1 hs.2
  | crdirent x =>
    dsimp only [CreateSm.step] at hstep
    split_ifs at hstep with hstate
    cases hstep
    rw [hstate] at hs
    exact createStage_crdirent hsound hs.1 hs.2.1 hs.2.2
  | deleteHandles xs =>
    dsimp only [CreateSm.step] at hstep
    split_ifs at hstep with hcond
    cases hstep
    rw [hcond.1] at hs
    exact .inl ⟨createReported_stored hs.2, hs.1⟩

end

/-- **No dangling name**, in every run in which a `crdirent` that takes effect is answered: whatever
the number of datafiles, whatever else fails or loses its reply, in however many rounds. -/
theorem create_no_dangling (c : CreateOp Name) (dirs : Directories Name) (objects : Objects)
    (es : List CreateEvent)
    (hsound : EachStep (CreateSm.step c) (fun _ e => e.Sound) (.posted dirs objects) es) :
    Throughout (CreateSm.step c) (NoDanglingName c (.posted dirs objects)) (.posted dirs objects) es := by
  have hinv := Throughout.of_eachStep (I := CreateStage c (.posted dirs objects))
    (fun s e s' hs he hstep => createStage_step hs he hstep)
    (s := .posted dirs objects) ⟨rfl, rfl⟩ hsound
  refine hinv.mono fun s hs reported hterm => ?_
  unfold CreateStage at hs
  rw [hterm] at hs
  exact hs reported hterm

/-- A create whose messages are repeated at most so many times. -/
def createTen (retryLimit : Nat) : CreateOp Nat := ⟨⟨⟨1, 9⟩, 10⟩, retryLimit⟩

/-- No entry and no object yet. -/
def createStart : CreateSm Nat := .posted (fun _ => none) ⟨fun _ => none, fun _ => false⟩

/-- The first `create` takes effect and loses its reply, so its objects stay behind; the message is
repeated, and the name refers to the objects of the second one. -/
def repeatedCreate : List CreateEvent :=
  [.run, .checked none, .checked none, .create 50 [51, 52] (.failed true .bmi),
    .create 53 [54, 55] .served, .crdirent .served, .run]

theorem create_no_dangling_repeatedCreate :
    Throughout (CreateSm.step (createTen 1)) (NoDanglingName (createTen 1) createStart) createStart
      repeatedCreate := by
  refine create_no_dangling _ _ _ _ ?_
  iterate 5 refine .cons rfl trivial ?_
  refine .cons rfl Exchange.answered_served ?_
  exact .cons rfl trivial trivial

/-- The entry is written and the reply is lost; the objects are removed, and with no retries left
the create ends with the network error. -/
def lostEntry : List CreateEvent :=
  [.run, .checked none, .checked none, .create 50 [51] .served, .crdirent (.failed true .bmi), .run,
    .deleteHandles [.served, .served], .run]

/-- The entry is made, its answer is lost, and the objects are removed. -/
theorem create_dangles :
    ∃ s, exec (CreateSm.step (createTen 0)) createStart lostEntry = some s ∧
      s.state = .terminated (some .bmi) ∧ s.dirs (createTen 0).entry = some 50 ∧
      s.objects.metafile 50 = none ∧ ¬ NoDanglingName (createTen 0) createStart s := by
  refine ⟨_, rfl, rfl, rfl, rfl, ?_⟩
  intro hs
  obtain ⟨datafiles, hfile, -⟩ := (hs (some .bmi) rfl).1 50 rfl (fun h => nomatch h)
  cases hfile

end Pvfs.Client
