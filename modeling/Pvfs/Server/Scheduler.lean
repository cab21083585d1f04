import Mathlib.Tactic.Common
import Pvfs.Lib.Machine

/-! # The request scheduler

`request-scheduler.c` keeps one queue of requests for each handle and decides which of
them may run. An element of these queues is a C structure, and the identifier a caller
gets for it is its address. Here the queues hold the elements themselves, each with its
identifier, and `listHead` says for an identifier which queue its element is in.

A call that runs into a failed `assert`, or is given an identifier whose element has been
freed, gives `none`. Each of the functions below is the one of the same name in the
source; what they return besides the new scheduler is what the source returns and
writes through its output pointers. -/

namespace Pvfs.Server

open Lib (Timeval)

/-- `PVFS_handle`; the scheduler only compares handles. -/
abbrev Handle := Nat

/-- `req_sched_id`, the address of an element; 0 is no element. -/
abbrev ReqSchedId := Nat

/-- `enum PVFS_server_op`. -/
inductive ServerOp where
  | invalid | create | remove | io | getattr | setattr | lookupPath | crdirent | rmdirent
  | chdirent | truncate | mkdir | readdir | getconfig | writeCompletion | flush
  | mgmtSetparam | mgmtNoop | statfs | perfUpdate | mgmtPerfMon | mgmtIterateHandles
  | mgmtDspaceInfoList | mgmtEventMon | mgmtRemoveObject | mgmtRemoveDirent
  | mgmtGetDirdataHandle | jobTimer | protoError | geteattr | seteattr | deleattr | listeattr
  | smallIo | listattr | batchCreate | batchRemove | precreatePoolRefiller | unstuff
  | migrationPoster | setDfAttrPoster
deriving DecidableEq, Repr

/-- `PVFS_SERV_IS_MGMT_OP`: the operations that must work in administrative mode too. -/
def ServerOp.isMgmtOp (op : ServerOp) : Bool :=
  op = .mgmtSetparam || op = .mgmtRemoveObject || op = .mgmtRemoveDirent

/-- `enum req_sched_states`. -/
inductive ReqState where
  | queued
  | scheduled
  | readyToSchedule
  | timing
deriving DecidableEq, Repr

/-- `enum PINT_server_req_access_type`; a structure cleared by `memset` has the first. -/
inductive AccessType where
  | readonly
  | modify
deriving DecidableEq, Repr

/-- `enum PINT_server_sched_policy`. -/
inductive SchedPolicy where
  | bypass
  | schedule
deriving DecidableEq, Repr

/-- `enum PVFS_server_mode`. -/
inductive ServerMode where
  | normal
  | admin
deriving DecidableEq, Repr

/-- `struct req_sched_element`, without its links and the caller's pointer. `declared` is
not in the source: it keeps what the caller declared where `accessType` is overwritten. -/
structure Element where
  op : ServerOp
  id : ReqSchedId
  state : ReqState
  handle : Handle
  tv : Timeval
  accessType : AccessType
  declared : AccessType
  modeChange : Bool
  mode : ServerMode
deriving DecidableEq, Repr

def Element.active (e : Element) : Bool :=
  e.state = .readyToSchedule || e.state = .scheduled

def Element.withState (st : ReqState) (e : Element) : Element := { e with state := st }

/-- The file-scope variables of the scheduler. `placed` is not among them: it records every
time that an element was put on the ready queue. -/
structure Scheduler where
  nextId : ReqSchedId
  listHead : ReqSchedId → Option Handle
  reqSchedTable : Handle → List Element
  readyQueue : List ReqSchedId
  timerQueue : List Element
  modeQueue : List Element
  schedCount : Int
  currentMode : ServerMode
  placed : List ReqSchedId

/-- `PINT_req_sched_initialize`. -/
def reqSchedInitialize : Scheduler where
  nextId := 1
  listHead := fun _ => none
  reqSchedTable := fun _ => []
  readyQueue := []
  timerQueue := []
  modeQueue := []
  schedCount := 0
  currentMode := .normal
  placed := []

namespace Scheduler

/-- The element at an address: in the queue it is linked to, or among the special operations,
which are not associated with a handle. -/
def lookup (s : Scheduler) (id : ReqSchedId) : Option Element :=
  match s.listHead id with
  | some h => (s.reqSchedTable h).find? fun e => e.id = id
  | none => (s.modeQueue ++ s.timerQueue).find? fun e => e.id = id

def setQueue (s : Scheduler) (h : Handle) (q : List Element) : Scheduler :=
  { s with reqSchedTable := fun h' => if h' = h then q else s.reqSchedTable h' }

def addReady (s : Scheduler) (ids : List ReqSchedId) : Scheduler :=
  { s with readyQueue := s.readyQueue ++ ids, placed := s.placed ++ ids }

end Scheduler

open Scheduler

/-- `PINT_req_sched_in_admin_mode`: in that mode, or about to enter it. -/
def reqSchedInAdminMode (s : Scheduler) : Bool :=
  s.currentMode = .admin || s.modeQueue.head?.any fun e => e.mode = .admin

/-- What `PINT_req_sched_post` answers. -/
inductive PostResult where
  | eagain
  | proceed (id : ReqSchedId)
  | wait (id : ReqSchedId)
deriving DecidableEq, Repr

/-- The state in which a request enters the queue of its handle and the access type it is
given there. -/
def admission (op : ServerOp) (accessType : AccessType) : List Element → ReqState × AccessType
  | [] => (.scheduled, accessType)
  | next :: rest =>
    let queue := next :: rest
    let allScheduled := next.state = .scheduled ∧ (rest.getLastD next).state = .scheduled
    if op = .io ∧ allScheduled then
      (if queue.all (fun e => e.op = .io) then .scheduled else .queued, accessType)
    else if accessType = .readonly ∧ allScheduled then
      (if queue.any (fun e => e.accessType = .modify) then .queued else .scheduled, accessType)
    else if (op = .crdirent ∨ op = .rmdirent) ∧ allScheduled then
      -- the comment in the source has it that all of the others are such operations too
      (.scheduled, .readonly)
    else
      (.queued, accessType)

/-- A request that modifies the file system is turned away in administrative mode. -/
def turnedAway (s : Scheduler) (op : ServerOp) (accessType : AccessType) : Bool :=
  accessType = .modify && !op.isMgmtOp && reqSchedInAdminMode s

def newElement (s : Scheduler) (op : ServerOp) (handle : Handle) (accessType : AccessType) :
    Element :=
  let a := admission op accessType (s.reqSchedTable handle)
  ⟨op, s.nextId, a.1, handle, ⟨0, 0⟩, a.2, accessType, false, .normal⟩

/-- The request is put at the end of the queue of its handle. -/
def enqueue (s : Scheduler) (e : Element) : Scheduler :=
  { s.setQueue e.handle (s.reqSchedTable e.handle ++ [e]) with
    nextId := s.nextId + 1
    listHead := fun i => if i = e.id then some e.handle else s.listHead i
    schedCount := s.schedCount + 1 }

/-- `PINT_req_sched_post`. -/
def reqSchedPost (s : Scheduler) (op : ServerOp) (handle : Handle) (accessType : AccessType)
    (schedPolicy : SchedPolicy) : PostResult × Scheduler :=
  if turnedAway s op accessType then
    (.eagain, s)
  else
    match schedPolicy with
    | .bypass => (.proceed 0, s)
    | .schedule =>
      let e := newElement s op handle accessType
      (if e.state = .scheduled then .proceed e.id else .wait e.id, enqueue s e)

/-- The time a timer of `msecs` milliseconds set at `now` goes off. -/
def timerExpiry (now : Timeval) (msecs : Nat) : Timeval :=
  let sec := now.sec + msecs / 1000
  let usec := now.usec + msecs % 1000 * 1000
  if usec > 1000000 then ⟨sec + usec / 1000000, usec % 1000000⟩ else ⟨sec, usec⟩

/-- `PINT_req_sched_post_timer`: before the first timer that goes off later. -/
def reqSchedPostTimer (s : Scheduler) (msecs : Nat) (now : Timeval) : PostResult × Scheduler :=
  if msecs < 1 then
    (.proceed 0, s)
  else
    let tv := timerExpiry now msecs
    let e : Element :=
      ⟨.invalid, s.nextId, .timing, 0, tv, .readonly, .readonly, false, .normal⟩
    let sooner : Element → Bool := fun e' => !e'.tv.after tv
    (.wait e.id, { s with
      nextId := s.nextId + 1
      timerQueue := s.timerQueue.takeWhile sooner ++ e :: s.timerQueue.dropWhile sooner })

def modeElement (s : Scheduler) (mode : ServerMode) (state : ReqState) : Element :=
  ⟨.invalid, s.nextId, state, 0, ⟨0, 0⟩, .readonly, .readonly, true, mode⟩

def enqueueMode (s : Scheduler) (e : Element) : Scheduler :=
  { s with nextId := s.nextId + 1, modeQueue := s.modeQueue ++ [e] }

/-- `PINT_req_sched_change_mode`. -/
def reqSchedChangeMode (s : Scheduler) (mode : ServerMode) : Option (PostResult × Scheduler) :=
  let wait := (PostResult.wait s.nextId, enqueueMode s (modeElement s mode .queued))
  let proceed := (PostResult.proceed s.nextId,
    { enqueueMode s (modeElement s mode .scheduled) with currentMode := mode })
  if s.modeQueue = [] then
    match mode with
    | .normal => some proceed
    | .admin =>
      if s.schedCount > -1 then
        if s.schedCount = 0 then some proceed else some wait
      else
        none
  else
    some wait

def readyMode (s : Scheduler) (next : Element) (rest : List Element) : Scheduler :=
  { s.addReady [next.id] with modeQueue := next.withState .readyToSchedule :: rest }

/-- `PINT_req_sched_schedule_mode_change`, which looks at the front of the mode queue in
whatever state it is. An element that is on the ready queue already comes to follow
itself there when it is linked again: the list is broken, and there is no result. -/
def reqSchedScheduleModeChange (s : Scheduler) : Option Scheduler :=
  match s.modeQueue with
  | [] => some s
  | next :: rest =>
    if s.schedCount = 0 then
      if next.id ∈ s.readyQueue then none else some (readyMode s next rest)
    else
      some s

/-- How many requests are woken at the front of the queue that one leaves behind: I/O runs
with I/O and, if they are looked for at all, read-only operations with read-only
operations; any other request is woken alone. -/
def woken (readonlyToo : Bool) : List Element → Nat
  | [] => 0
  | next :: rest =>
    if next.active then 0
    else if next.op = .io then (rest.takeWhile fun e => e.op = .io).length + 1
    else if readonlyToo ∧ next.accessType = .readonly then
      (rest.takeWhile fun e => e.accessType = .readonly).length + 1
    else 1

def wokenByRelease : List Element → Nat := woken true

def wokenByUnpost : List Element → Nat := woken false

/-- The queue with its first `n` requests made ready. -/
def wake (n : Nat) (q : List Element) : List Element :=
  (q.take n).map (Element.withState .readyToSchedule) ++ q.drop n

def without (id : ReqSchedId) (q : List Element) : List Element :=
  q.filter fun e => e.id ≠ id

/-- Take a request out of its queue, free it and wake `n` requests behind it. The source
frees it last, when nothing reads it any more. -/
def leaveQueue (s : Scheduler) (h : Handle) (id : ReqSchedId) (n : Nat) : Scheduler :=
  let q := without id (s.reqSchedTable h)
  { (s.setQueue h (wake n q)).addReady ((q.take n).map Element.id) with
    listHead := fun i => if i = id then none else s.listHead i
    schedCount := s.schedCount - 1 }

def leaveSpecial (s : Scheduler) (id : ReqSchedId) : Scheduler :=
  { s with modeQueue := without id s.modeQueue, timerQueue := without id s.timerQueue }

/-- `PINT_req_sched_unpost`; a scheduled request is refused (`-EALREADY`). -/
def reqSchedUnpost (s : Scheduler) (id : ReqSchedId) : Option (Bool × Scheduler) :=
  match s.lookup id with
  | none => none
  | some e =>
    if e.state = .scheduled then
      some (false, s)
    else
      let nextReadyFlag := e.state = .readyToSchedule
      let s₁ := if nextReadyFlag then { s with readyQueue := s.readyQueue.erase id } else s
      let s₂ := match s.listHead id with
        | none => leaveSpecial s₁ id
        | some h =>
          leaveQueue s₁ h id
            (if nextReadyFlag then wokenByUnpost (without id (s.reqSchedTable h)) else 0)
      (reqSchedScheduleModeChange s₂).map fun s' => (true, s')

/-- `PINT_req_sched_release`; an identifier of 0 was let past the scheduler. -/
def reqSchedRelease (s : Scheduler) (id : ReqSchedId) : Option Scheduler :=
  if id = 0 then
    some s
  else
    match s.lookup id with
    | none => none
    | some _ =>
      match s.listHead id with
      | none => reqSchedScheduleModeChange (leaveSpecial s id)
      | some h =>
        let q := without id (s.reqSchedTable h)
        let n := wokenByRelease q
        -- each request woken behind the first one is asserted to be queued
        if (q.take n).tail.all (fun e => e.state = .queued) then
          reqSchedScheduleModeChange (leaveQueue s h id n)
        else
          none

def roll (id : ReqSchedId) (q : List Element) : List Element :=
  q.map fun e => if e.id = id then e.withState .scheduled else e

/-- Let a ready request go ahead, `PINT_req_sched_do_change_mode` included. -/
def letRoll (s : Scheduler) (e : Element) : Scheduler :=
  { s with
    reqSchedTable := fun h => roll e.id (s.reqSchedTable h)
    modeQueue := roll e.id s.modeQueue
    readyQueue := s.readyQueue.erase e.id
    currentMode := if e.modeChange then e.mode else s.currentMode }

inductive TestResult where
  | einval
  | notYet
  | done
deriving DecidableEq, Repr

/-- `PINT_req_sched_test`. -/
def reqSchedTest (s : Scheduler) (id : ReqSchedId) (now : Timeval) :
    Option (TestResult × Scheduler) :=
  match s.lookup id with
  | none => none
  | some e =>
    match e.state with
    | .scheduled => some (.einval, s)
    | .queued => some (.notYet, s)
    | .readyToSchedule => some (.done, letRoll s e)
    | .timing =>
      if now.after e.tv then
        some (.done, { s with timerQueue := without id s.timerQueue })
      else
        some (.notYet, s)

/-- `PINT_req_sched_testsome`: whether the call went well and which requests of the list are
done. An already scheduled one ends it with an error, after what was done before. -/
def reqSchedTestsome (now : Timeval) :
    List ReqSchedId → Scheduler → Option (Bool × List ReqSchedId × Scheduler)
  | [], s => some (true, [], s)
  | id :: ids, s =>
    match reqSchedTest s id now with
    | none => none
    | some (.einval, s') => some (false, [], s')
    | some (.notYet, s') => reqSchedTestsome now ids s'
    | some (.done, s') =>
      (reqSchedTestsome now ids s').map fun (ok, done, s'') => (ok, id :: done, s'')

/-- How many timers `testworld` reports: from the front of the queue to the first that is
still to come, but no more than the caller has room for. The room is looked at after a
timer has been reported, so a caller with none gets them all. -/
def expired (now : Timeval) : Nat → List Element → Nat
  | _, [] => 0
  | room, e :: es =>
    if e.tv.after now then 0
    else if room = 1 then 1
    else expired now (room - 1) es + 1

/-- Let the first `n` requests of the ready queue go ahead. -/
def rollReady : Nat → Scheduler → Option (List ReqSchedId × Scheduler)
  | 0, s => some ([], s)
  | n + 1, s =>
    match s.readyQueue with
    | [] => some ([], s)
    | id :: _ =>
      match s.lookup id with
      | none => none
      | some e => (rollReady n (letRoll s e)).map fun (ids, s') => (id :: ids, s')

/-- `PINT_req_sched_testworld`: the requests reported done, timers first. -/
def reqSchedTestworld (s : Scheduler) (incount : Nat) (now : Timeval) :
    Option (List ReqSchedId × Scheduler) :=
  let n := expired now incount s.timerQueue
  (rollReady (incount - n) { s with timerQueue := s.timerQueue.drop n }).map
    fun (ids, s') => ((s.timerQueue.take n).map Element.id ++ ids, s')

/-- A call of the scheduler's interface. -/
inductive Call where
  | post (op : ServerOp) (handle : Handle) (accessType : AccessType) (schedPolicy : SchedPolicy)
  | postTimer (msecs : Nat) (now : Timeval)
  | changeMode (mode : ServerMode)
  | unpost (id : ReqSchedId)
  | release (id : ReqSchedId)
  | test (id : ReqSchedId) (now : Timeval)
  | testsome (ids : List ReqSchedId) (now : Timeval)
  | testworld (incount : Nat) (now : Timeval)
deriving DecidableEq, Repr

def PostResult.reported : PostResult → List ReqSchedId
  | .eagain => []
  | .proceed id => [id]
  | .wait _ => []

/-- The requests that a call reports as ready, and the scheduler after it. -/
def Scheduler.call (s : Scheduler) : Call → Option (List ReqSchedId × Scheduler)
  | .post op handle accessType schedPolicy =>
    let r := reqSchedPost s op handle accessType schedPolicy
    some (r.1.reported, r.2)
  | .postTimer msecs now =>
    let r := reqSchedPostTimer s msecs now
    some (r.1.reported, r.2)
  | .changeMode mode => (reqSchedChangeMode s mode).map fun r => (r.1.reported, r.2)
  | .unpost id => (reqSchedUnpost s id).map fun r => ([], r.2)
  | .release id => (reqSchedRelease s id).map fun s' => ([], s')
  | .test id now =>
    (reqSchedTest s id now).map fun r => (if r.1 = .done then [id] else [], r.2)
  | .testsome ids now => (reqSchedTestsome now ids s).map fun r => (r.2.1, r.2.2)
  | .testworld incount now => reqSchedTestworld s incount now

end Pvfs.Server
