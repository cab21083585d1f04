import Mathlib.Algebra.Order.Field.Rat
import Pvfs.Server.Scheduler

/-! # A server that balances its load

Two kinds of state machine take part in moving a datafile from one server to another. The
periodic `pvfs2_perf_update_sm` decides that this server is too hot and then runs
`pvfs2_migrate_file_sm`, the source's side; and for each migration request that arrives,
one `pvfs2_migrate_file_server_sm` plays the target. They share the process-wide
`mig_state` and `mig_datafile_handle`, and the machines of the target share `new_handle`.

A step of the server is one action of one machine, with what the job it waits for comes
back with, or a call of the request scheduler by some other part of the server. Which
handle is chosen, what the other servers report and how jobs end is up to the event. -/

namespace Pvfs.Server

open Lib (Timeval toDouble)

/-! ## The machine of the target -/

/-- The states of `pvfs2_migrate_file_server_sm` and of the prelude it begins with. In
`waiting` the scheduler holds the request back, in `creating` the storage layer is at work
on the new datafile. `stopped` is a machine that has nothing to wait for and was not told
to go on: it stays there. -/
inductive TargetState where
  | reqSched | waiting | permCheck | createNewDatafile | creating | getDatafileAttribs
  | setNewDatafileAttribs | sendPositiveAck | sendNegativeAck | startFlow | sendCompletionAck
  | testRecvOneMsg | decodeRecvMsg | release | cleanup | terminated | stopped
deriving DecidableEq, Repr

/-- Where the action of a state leads, by the error code it ends with; `decode_recv_msg_f`
passes on what `PINT_decode` returns, and 0 there means that a job is pending. -/
def TargetState.next (error : Int) : TargetState → TargetState
  | .reqSched => if error = 0 then .permCheck else .sendNegativeAck
  | .waiting => .permCheck
  | .permCheck => if error = 0 then .createNewDatafile else .sendNegativeAck
  | .createNewDatafile => if error = 0 then .creating else .sendNegativeAck
  | .creating => if error = 0 then .getDatafileAttribs else .sendNegativeAck
  | .getDatafileAttribs => if error = 0 then .setNewDatafileAttribs else .sendNegativeAck
  | .setNewDatafileAttribs => if error = 0 then .sendPositiveAck else .sendNegativeAck
  | .sendPositiveAck => if error = 0 then .startFlow else .release
  | .sendNegativeAck => .release
  | .startFlow => if error = 0 then .sendCompletionAck else .release
  | .sendCompletionAck => .testRecvOneMsg
  | .testRecvOneMsg => .decodeRecvMsg
  | .decodeRecvMsg => .stopped
  | .release => .cleanup
  | .cleanup => .terminated
  | .terminated => .terminated
  | .stopped => .stopped

/-- One migration request at its target. `created` and `begun` are not in the source: the
handle that the storage layer created for this request, and whether the machine has been
through `create_new_datafile`. `ack` is the status and the handle of the response. -/
structure Target where
  state : TargetState
  scheduledId : Option ReqSchedId
  errorCode : Int
  created : Option Handle
  begun : Bool
  ack : Option (Int × Handle)
deriving DecidableEq, Repr

def Target.arrived : Target := ⟨.reqSched, none, 0, none, false, none⟩

def Target.goto (t : Target) (error : Int) : Target :=
  { t with state := t.state.next error, errorCode := error }

/-! ## The machine of the source -/

/-- The states of `pvfs2_migrate_file_sm`. -/
inductive MigrateState where
  | init | getattrMigration | sendMigrationRequest | sendMigrationRequestXfer | postFlow
  | postCompleteAck | testSendOneMsg | updateMetadata | updateMetadataXfer
  | removeDatafileHandle | cleanup
deriving DecidableEq, Repr

/-- The next state after success; every error leads to `cleanup`. -/
def MigrateState.next : MigrateState → MigrateState
  | .init => .getattrMigration
  | .getattrMigration => .sendMigrationRequest
  | .sendMigrationRequest => .sendMigrationRequestXfer
  | .sendMigrationRequestXfer => .postFlow
  | .postFlow => .postCompleteAck
  | .postCompleteAck => .testSendOneMsg
  | .testSendOneMsg => .updateMetadata
  | .updateMetadata => .updateMetadataXfer
  | .updateMetadataXfer => .removeDatafileHandle
  | .removeDatafileHandle => .cleanup
  | .cleanup => .cleanup

/-- The states of `pvfs2_perf_update_sm`; `finalize` remembers whether a migration led to it,
and in `timing` the machine waits for its timer. -/
inductive PerfState where
  | initPerf | loadPredict | srvLoadCollect | migDecide
  | doMigration (state : MigrateState)
  | finalize (migrated : Bool)
  | timing | error | terminated | stopped
deriving DecidableEq, Repr

/-- The machine with the identifier of its timer and `u.migposter.handle`, once a handle has
been chosen. -/
structure PerfUpdate where
  state : PerfState
  timer : Option ReqSchedId
  handle : Option Handle
deriving DecidableEq, Repr

/-- What the loop of `mig_decide_fun` keeps; the loads are doubles. -/
structure LoadScan where
  sum : ℚ
  max : ℚ
  min : ℚ
  minIndex : Nat

/-- The load that stands for a server with a migration under way. -/
def migratingLoad : Nat := 0xFFFFFFFF

/-- One row of `perf_load_matrix`: what has been written to and read from a server. -/
def LoadScan.row (a : LoadScan) (i : Nat) (write read : Int) : LoadScan :=
  if write = migratingLoad then
    a
  else
    let load := toDouble (toDouble (write + read) / 10000)
    { sum := toDouble (a.sum + load)
      max := if a.max < load then load else a.max
      min := if a.min > load then load else a.min
      minIndex := if a.min > load then i else a.minIndex }

def scanLoads (matrix : List (Int × Int)) : LoadScan :=
  matrix.zipIdx.foldl (fun a (x, i) => a.row i x.1 x.2) ⟨0, 0, migratingLoad, 0⟩

/-- How `mig_decide_fun` comes out: a return value the engine does not know, nothing to do, not
the hottest server, or a migration to the server with the least load. -/
inductive Decision where
  | invalid
  | onTheWay
  | notHottest
  | balanced
  | datafile (target : Nat)
deriving DecidableEq, Repr

/-- `mig_decide_fun`, with `global_forecast_load` and `balance_threshold`. -/
def migDecide (migState : Bool) (matrix : Option (List (Int × Int))) (forecast threshold : ℚ) :
    Decision :=
  if migState then
    .onTheWay
  else
    match matrix with
    | none => .invalid
    | some m =>
      let a := scanLoads m
      if forecast > a.max then
        let balanceRate := toDouble (toDouble (toDouble (forecast + a.sum) / (m.length + 1)) / forecast)
        if balanceRate < threshold then
          .datafile a.minIndex
        else
          .balanced
      else
        .notHottest

/-! ## The server -/

/-- A server with its scheduler, its targets and its own migration. -/
structure MigrationServer where
  sched : Scheduler
  migState : Bool
  migDatafileHandle : Handle
  newHandle : Handle
  targets : List Target
  perf : PerfUpdate

def MigrationServer.start : MigrationServer where
  sched := reqSchedInitialize
  migState := false
  migDatafileHandle := 0
  newHandle := 0
  targets := []
  perf := ⟨.initPerf, none, none⟩

/-- `-PVFS_EAGAIN`. -/
def pvfsEagain : Int := -(2 ^ 30 + 7)

/-- The action of a target's state. `error` is what the job it posts, or the part of it that
is not modelled, comes to. -/
def runTarget (s : MigrationServer) (k : Nat) (t : Target) (error : Int) :
    Option MigrationServer :=
  match t.state with
  | .reqSched =>
    -- migrations are posted as modifying operations on the null handle
    let r := reqSchedPost s.sched .migrationPoster 0 .modify .schedule
    let t' := match r.1 with
      | .eagain => t.goto pvfsEagain
      | .proceed id => { t.goto 0 with scheduledId := some id }
      | .wait id => { t with state := .waiting, scheduledId := some id }
    some { s with sched := r.2, targets := s.targets.set k t' }
  | .createNewDatafile =>
    some { s with migState := true, targets := s.targets.set k { t.goto error with begun := true } }
  | .creating =>
    -- a job that succeeds has filled in the handle
    if error = 0 ∧ t.created = none then
      none
    else
      some { s with targets := s.targets.set k (t.goto error) }
  | .sendPositiveAck | .sendNegativeAck =>
    -- `io_send_ack`
    let t' := { t.goto error with ack := some (t.errorCode, s.newHandle) }
    some { s with migDatafileHandle := s.newHandle, targets := s.targets.set k t' }
  | .release =>
    -- `io_release`; a machine that was not scheduled has no descriptor to release
    match t.scheduledId with
    | none => some { s with migState := false, targets := s.targets.set k (t.goto error) }
    | some id =>
      (reqSchedRelease s.sched id).map fun sched' =>
        { s with sched := sched', migState := false, targets := s.targets.set k (t.goto error) }
  | .waiting | .terminated | .stopped => none
  | _ => some { s with targets := s.targets.set k (t.goto error) }

/-- The storage layer writes the handle of the new datafile into `new_handle`. -/
def storeHandle (s : MigrationServer) (k : Nat) (t : Target) (handle : Handle) :
    Option MigrationServer :=
  if t.state = .creating ∧ t.created = none then
    some { s with newHandle := handle, targets := s.targets.set k { t with created := some handle } }
  else
    none

/-- What an action of the source's machine finds: whether balancing is enabled, whether the
forecast is high, the loads of the servers, the heaviest datafile (0 for none) with the
address of its target, the timer to set, or just how a job ended. -/
inductive PerfInput where
  | enabled (lbEnable : Bool)
  | forecast (high : Bool)
  | loads (matrix : Option (List (Int × Int))) (forecast threshold : ℚ)
  | chosen (item : Handle) (haveAddr : Bool)
  | timer (msecs : Nat) (now : Timeval)
  | result (error : Int)
deriving DecidableEq

/-- `post_timer_fun`. -/
def postTimer (s : MigrationServer) (msecs : Nat) (now : Timeval) : MigrationServer :=
  let r := reqSchedPostTimer s.sched msecs now
  let perf := match r.1 with
    | .wait id => { s.perf with state := .timing, timer := some id }
    | _ => { s.perf with state := .initPerf }
  { s with sched := r.2, migState := false, perf := perf }

/-- The action of the state of `pvfs2_perf_update_sm`, or of the machine nested in it. -/
def runPerf (s : MigrationServer) (input : PerfInput) : Option MigrationServer :=
  let goto (st : PerfState) : MigrationServer := { s with perf := { s.perf with state := st } }
  match s.perf.state, input with
  | .initPerf, .enabled lbEnable => some (goto (if lbEnable then .loadPredict else .finalize false))
  | .loadPredict, .forecast high => some (goto (if high then .srvLoadCollect else .finalize false))
  | .srvLoadCollect, .result error => some (goto (if error = 0 then .migDecide else .error))
  | .migDecide, .loads matrix forecast threshold =>
    some <| match migDecide s.migState matrix forecast threshold with
      | .invalid => goto .stopped
      | .onTheWay | .balanced => goto (.finalize false)
      | .notHottest => { goto (.finalize false) with migState := false }
      | .datafile _ =>
        { s with migState := true, perf := ⟨.doMigration .init, s.perf.timer, none⟩ }
  | .doMigration .init, .chosen item haveAddr =>
    -- `init_migration`
    if item = 0 then
      some (goto (.doMigration .cleanup))
    else
      some { s with
        migDatafileHandle := item
        perf := ⟨.doMigration (if haveAddr then .getattrMigration else .cleanup), s.perf.timer,
          some item⟩ }
  | .doMigration .cleanup, .result _ => some (goto (.finalize true))
  | .doMigration .init, _ => none
  | .doMigration st, .result error =>
    some (goto (.doMigration (if error = 0 then st.next else .cleanup)))
  | .finalize _, .timer msecs now => some (postTimer s msecs now)
  | .finalize _, .result error =>
    -- the timer could not be posted
    if error = 0 then none else some { goto .error with migState := false }
  | .error, .result _ => some { goto .terminated with migState := false }
  | _, _ => none

def Target.resume (ids : List ReqSchedId) (t : Target) : Target :=
  if t.state = .waiting ∧ t.scheduledId.any (fun id => id ∈ ids) then t.goto 0 else t

def PerfUpdate.resume (ids : List ReqSchedId) (p : PerfUpdate) : PerfUpdate :=
  if p.state = .timing ∧ p.timer.any (fun id => id ∈ ids) then { p with state := .initPerf } else p

/-- A call by another part of the server, which does not release or take back what belongs to
these machines. -/
def MigrationServer.foreign (s : MigrationServer) : Call → Bool
  | .unpost id | .release id =>
    (s.targets.all fun t => t.scheduledId ≠ some id) && s.perf.timer ≠ some id
  | _ => true

def callScheduler (s : MigrationServer) (c : Call) : Option MigrationServer :=
  if s.foreign c then
    (s.sched.call c).map fun (ids, sched') =>
      { s with
        sched := sched'
        targets := s.targets.map (Target.resume ids)
        perf := s.perf.resume ids }
  else
    none

inductive Event where
  | arrive
  | target (k : Nat) (error : Int)
  | stored (k : Nat) (handle : Handle)
  | perf (input : PerfInput)
  | sched (call : Call)

def MigrationServer.step (s : MigrationServer) : Event → Option MigrationServer
  | .arrive => some { s with targets := s.targets ++ [Target.arrived] }
  | .target k error => s.targets[k]?.bind fun t => runTarget s k t error
  | .stored k handle => s.targets[k]?.bind fun t => storeHandle s k t handle
  | .perf input => runPerf s input
  | .sched call => callScheduler s call

/-! ## What a target's machine can do -/

def TargetState.plain : TargetState → Bool
  | .reqSched | .createNewDatafile | .sendPositiveAck | .sendNegativeAck | .release
  | .waiting | .terminated | .stopped => false
  | _ => true

theorem TargetState.ne_of_plain {st st' : TargetState} (h : st.plain = true)
    (h' : st'.plain = false) : st ≠ st' := by
  rintro rfl
  rw [h] at h'
  cases h'

/-- **All that a target's machine can do in one step.** -/
inductive TargetActs (s : MigrationServer) (k : Nat) (t : Target) (error : Int) :
    MigrationServer → Prop where
  | post (hst : t.state = .reqSched) : TargetActs s k t error { s with
      sched := (reqSchedPost s.sched .migrationPoster 0 .modify .schedule).2
      targets := s.targets.set k
        (match (reqSchedPost s.sched .migrationPoster 0 .modify .schedule).1 with
        | .eagain => t.goto pvfsEagain
        | .proceed id => { t.goto 0 with scheduledId := some id }
        | .wait id => { t with state := .waiting, scheduledId := some id }) }
  | create (hst : t.state = .createNewDatafile) : TargetActs s k t error { s with
      migState := true, targets := s.targets.set k { t.goto error with begun := true } }
  | ack (hst : t.state = .sendPositiveAck ∨ t.state = .sendNegativeAck) :
      TargetActs s k t error { s with
        migDatafileHandle := s.newHandle
        targets := s.targets.set k { t.goto error with ack := some (t.errorCode, s.newHandle) } }
  | release {sched' : Scheduler} (hst : t.state = .release)
      (hrel : (t.scheduledId = none ∧ sched' = s.sched) ∨
        ∃ id, t.scheduledId = some id ∧ reqSchedRelease s.sched id = some sched') :
      TargetActs s k t error { s with
        sched := sched', migState := false, targets := s.targets.set k (t.goto error) }
  | goto (hst : t.state.plain = true)
      (hcreate : t.state = .creating → error = 0 → t.created ≠ none) :
      TargetActs s k t error { s with targets := s.targets.set k (t.goto error) }

variable {s s' : MigrationServer}

theorem TargetActs.of_runTarget {k : Nat} {t : Target} {error : Int}
    (h : runTarget s k t error = some s') : TargetActs s k t error s' := by
  unfold runTarget at h
  cases hst : t.state with
  | reqSched =>
    simp only [hst, Option.some.injEq] at h
    subst h
    exact .post hst
  | createNewDatafile =>
    simp only [hst, Option.some.injEq] at h
    subst h
    exact .create hst
  | creating =>
    simp only [hst] at h
    split at h
    · cases h
    · rename_i hcond
      cases h
      exact .goto (by rw [hst]; rfl) fun _ herr hnone => hcond ⟨herr, hnone⟩
  | sendPositiveAck | sendNegativeAck =>
    simp only [hst, Option.some.injEq] at h
    subst h
    exact .ack (by simp [hst])
  | release =>
    simp only [hst] at h
    cases hid : t.scheduledId with
    | none =>
      simp only [hid, Option.some.injEq] at h
      subst h
      exact .release hst (.inl ⟨hid, rfl⟩)
    | some id =>
      simp only [hid, Option.map_eq_some_iff] at h
      obtain ⟨sched', hc, rfl⟩ := h
      exact .release hst (.inr ⟨id, hid, hc⟩)
  | waiting | terminated | stopped => simp [hst] at h
  | _ =>
    simp only [hst, Option.some.injEq] at h
    subst h
    exact .goto (by rw [hst]; rfl) (by simp [hst])

/-! ## What the source's machine can do -/

def PerfState.migrating : PerfState → Bool
  | .doMigration _ => true
  | .finalize migrated => migrated
  | _ => false

/-- States whose action clears `mig_state`. -/
def PerfState.closing : PerfState → Bool
  | .finalize _ | .error => true
  | _ => false

/-- A step of the source that leaves the flag alone. -/
def PerfQuiet (s s' : MigrationServer) : Prop :=
  ∃ p : PerfUpdate, s.perf.state.closing = false ∧ s' = { s with perf := p } ∧
    p.state.migrating = s.perf.state.migrating ∧ p.handle = s.perf.handle

/-- The source sets the flag. -/
def PerfDecides (s s' : MigrationServer) : Prop :=
  ∃ p : PerfUpdate, s.perf.state.closing = false ∧ s.migState = false ∧
    s' = { s with migState := true, perf := p } ∧ p.state.migrating = true ∧ p.handle = none

/-- The source chooses what to migrate. -/
def PerfChooses (s s' : MigrationServer) : Prop :=
  ∃ (p : PerfUpdate) (item : Handle), s.perf.state.closing = false ∧
    s.perf.state.migrating = true ∧ s' = { s with migDatafileHandle := item, perf := p } ∧
    p.state.migrating = true ∧ p.handle = some item

/-- The step clears `mig_state`, and may post a timer. -/
def PerfCloses (s s' : MigrationServer) : Prop :=
  ∃ (p : PerfUpdate) (sched' : Scheduler),
    (sched' = s.sched ∨ ∃ msecs now, sched' = (reqSchedPostTimer s.sched msecs now).2) ∧
    s.perf.state.closing = true ∧ s' = { s with sched := sched', migState := false, perf := p } ∧
    p.state.migrating = false

theorem runPerf_decide {matrix : Option (List (Int × Int))} {forecast threshold : ℚ}
    (hst : s.perf.state = .migDecide) (h : runPerf s (.loads matrix forecast threshold) = some s') :
    PerfQuiet s s' ∨ PerfDecides s s' := by
  simp only [runPerf, hst, Option.some.injEq] at h
  subst h
  have hquiet : ∀ st : PerfState, st.migrating = false →
      PerfQuiet s { s with perf := { s.perf with state := st } } :=
    fun st h => ⟨_, by rw [hst]; rfl, rfl, by rw [hst]; exact h, rfl⟩
  -- a server that takes part in a migration already stops at the first test
  have hzero : migDecide s.migState matrix forecast threshold ≠ .onTheWay → s.migState = false := by
    intro hd
    cases hm : s.migState with
    | false => rfl
    | true => exact absurd (by simp [migDecide, hm]) hd
  cases hd : migDecide s.migState matrix forecast threshold with
  | invalid => exact .inl (hquiet .stopped rfl)
  | onTheWay | balanced => exact .inl (hquiet (.finalize false) rfl)
  | notHottest =>
    -- `mig_state` is 0 already where it is set to 0
    refine .inl ⟨{ s.perf with state := .finalize false }, by rw [hst]; rfl, ?_, by rw [hst]; rfl,
      rfl⟩
    simp only [← hzero (by simp [hd])]
  | datafile target => exact .inr ⟨_, by rw [hst]; rfl, hzero (by simp [hd]), rfl, rfl, rfl⟩

theorem runPerf_cases {input : PerfInput} (h : runPerf s input = some s') :
    PerfQuiet s s' ∨ PerfDecides s s' ∨ PerfChooses s s' ∨ PerfCloses s s' := by
  have hquiet : ∀ st : PerfState, s.perf.state.closing = false →
      st.migrating = s.perf.state.migrating →
      PerfQuiet s { s with perf := { s.perf with state := st } } :=
    fun st hc h => ⟨_, hc, rfl, h, rfl⟩
  have hdecide := h
  dsimp only [runPerf] at h
  split at h
  case h_1 lbEnable hst =>
    cases h
    exact .inl (hquiet _ (by rw [hst]; rfl) (by rw [hst]; cases lbEnable <;> rfl))
  case h_2 high hst =>
    cases h
    exact .inl (hquiet _ (by rw [hst]; rfl) (by rw [hst]; cases high <;> rfl))
  case h_3 error hst =>
    cases h
    exact .inl (hquiet _ (by rw [hst]; rfl) (by rw [hst]; split <;> rfl))
  case h_4 hst => exact (runPerf_decide hst hdecide).imp_right .inl
  case h_5 item haveAddr hst =>
    split at h
    · cases h
      exact .inl (hquiet (.doMigration .cleanup) (by rw [hst]; rfl) (by rw [hst]; rfl))
    · cases h
      exact .inr (.inr (.inl ⟨_, item, by rw [hst]; rfl, by rw [hst]; rfl, rfl, rfl, rfl⟩))
  case h_6 error hst =>
    cases h
    exact .inl (hquiet (.finalize true) (by rw [hst]; rfl) (by rw [hst]; rfl))
  case h_7 => cases h
  case h_8 st error _ _ hst =>
    cases h
    exact .inl (hquiet _ (by rw [hst]; rfl) (by rw [hst]; rfl))
  case h_9 migrated msecs now hst =>
    cases h
    refine .inr (.inr (.inr ⟨_, _, .inr ⟨msecs, now, rfl⟩, by rw [hst]; rfl, rfl, ?_⟩))
    split <;> rfl
  case h_10 migrated error hst =>
    split at h
    · cases h
    · cases h
      exact .inr (.inr (.inr ⟨_, _, .inl rfl, by rw [hst]; rfl, rfl, rfl⟩))
  case h_11 error hst =>
    cases h
    exact .inr (.inr (.inr ⟨_, _, .inl rfl, by rw [hst]; rfl, rfl, rfl⟩))
  case h_12 => cases h

end Pvfs.Server
