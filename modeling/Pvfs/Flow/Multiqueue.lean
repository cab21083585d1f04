import Mathlib.Algebra.GroupWithZero.Nat
import Mathlib.Tactic.Common

/-! # The multiqueue flow protocol (flowproto-multiqueue.c)

A flow moves the bytes of a request between the network (BMI), the storage (Trove) and memory, a
few buffers at a time. Everything happens in callbacks that hold the flow's mutex: a callback
takes the next piece of the request for a buffer and posts operations for it, and an operation
that completes at once has its callback called right there, from inside the function that posted
it. So the code that runs is a stack of calls, and the model keeps it as one: a `Frame` is a
function that is about to post an operation or to go round its loop again.

One `Event.run` lets the innermost function take its next step and says how the operation that it
posts, if any, comes out. With an empty stack the mutex is free, and an operation that is still
out calls back, or the flow is cancelled. A run is any list of events, so a theorem about every
run is one about every nesting of immediate and later completions.

What `PINT_process_request` hands out for one buffer (`Pvfs.Flow.Fill`) is a list of results, each
of some bytes: a `Plan` is what it hands out until the request is done. -/

namespace Pvfs.Flow

variable {α : Type}

/-- What one buffer holds: the bytes of each entry of its chain. -/
abbrev Piece (α : Type) := List (List α)

/-- What is handed out for one buffer after the other. A result that is kept has bytes, and only the
last buffer may find nothing left. -/
structure Plan (α : Type) where
  pieces : List (Piece α)
  positive : ∀ p ∈ pieces, ∀ bytes ∈ p, bytes ≠ []
  inner : ∀ p ∈ pieces.dropLast, p ≠ []

/-- Between what a flow moves data. -/
inductive Endpoints where
  | bmiMem
  | memBmi
  | troveBmi
  | bmiTrove
  deriving DecidableEq, Repr

/-- `struct result_chain_entry`: `postedId` is whether `posted_id` is not 0. -/
structure Entry (α : Type) where
  bytes : List α
  postedId : Bool

/-- `struct fp_queue_item`, a buffer. `data` is what has been moved between the buffer and the
storage so far, result by result. -/
structure Item (α : Type) where
  postedId : Bool
  last : Bool
  seq : Nat
  buffer : Bool
  bufferUsed : Nat
  resultChain : List (Entry α)
  resultChainCount : Nat
  data : List (Option (List α))

namespace Item

/-- Set `posted_id` of entry `k`. -/
def setPosted (it : Item α) (k : Nat) (posted : Bool) : Item α :=
  { it with resultChain := it.resultChain.modify k fun e => { e with postedId := posted } }

/-- The bytes of entry `k` have been moved between the buffer and the storage. -/
def move (it : Item α) (k : Nat) : Item α :=
  { it with data := it.data.set k (it.resultChain[k]?.map Entry.bytes) }

/-- A buffer is filled with a piece, with nothing read yet. -/
def take (it : Item α) (p : Piece α) : Item α :=
  { it with
    resultChain := p.map fun bytes => ⟨bytes, false⟩
    resultChainCount := it.resultChainCount + p.length
    data := p.map fun _ => none }

def reset (it : Item α) : Item α := { it with resultChain := [], resultChainCount := 0 }

end Item

/-- An operation that is posted and has not called back: of the network on buffer `i`, or of the
storage on entry `k` of its result chain. -/
inductive Op where
  | bmi (i : Nat)
  | trove (i k : Nat)
  deriving DecidableEq, Repr

/-- A function that has called another one, and where it goes on. -/
inductive Frame where
  /-- the loop of `fp_multiqueue_post` over the buffers of a read flow -/
  | start (i : Nat)
  /-- `bmi_send_callback_fn`, about to read entry `k` of `n` -/
  | postReads (i k n : Nat)
  /-- the loop of `trove_read_callback_fn`, with `i` in `q_item` -/
  | sendLoop (i : Nat)
  /-- the end of `trove_write_callback_fn` or of `bmi_recv_callback_fn` -/
  | postRecv (i : Nat)
  /-- `bmi_recv_callback_fn`, about to write entry `k` of `n` -/
  | postWrites (i k n : Nat)
  /-- `bmi_recv_callback_fn` behind its writes -/
  | repost
  /-- the end of `mem_to_bmi_callback_fn` or of `bmi_to_mem_callback_fn` -/
  | postMem
  deriving DecidableEq, Repr

/-- What the call that posts an operation returns. -/
inductive Posting where
  | pending
  | immediate
  | failed (error : Nat)
  deriving DecidableEq, Repr

/-! ## The storage under a write flow -/

/-- A write that was posted. A write with the sync flag is followed by a sync of the file before it
calls back (`aio_progress_notification`); `covered` is whether some sync of the file began after
the write was done. -/
structure Write (α : Type) where
  item : Nat
  entry : Nat
  bytes : List α
  sync : Bool
  written : Bool
  synced : Bool
  covered : Bool
  finished : Bool

abbrev Disk (α : Type) := List (Write α)

/-- What has been written is on disk. -/
def Disk.fsync (d : Disk α) : Disk α :=
  d.map fun w => if w.written then { w with covered := true } else w

/-- `trove_bstream_write_list`; one that completes at once has been through all of it. -/
def Disk.post (d : Disk α) (i k : Nat) (bytes : List α) (sync immediate : Bool) : Disk α :=
  let d' : Disk α := d ++ [⟨i, k, bytes, sync, immediate, immediate && sync, false, immediate⟩]
  if immediate && sync then Disk.fsync d' else d'

/-- The write of an entry may be reported. -/
def Disk.Ready (d : Disk α) (i k : Nat) : Prop :=
  ∀ w ∈ d, w.item = i → w.entry = k → w.finished = false →
    w.written = true ∧ (w.sync = true → w.synced = true)

instance (d : Disk α) (i k : Nat) : Decidable (d.Ready i k) := by
  unfold Disk.Ready
  infer_instance

def Disk.finish (d : Disk α) (i k : Nat) : Disk α :=
  d.map fun w => if w.item = i ∧ w.entry = k then { w with finished := true } else w

/-- What the storage does on its own: the `n`-th write is done, or the sync behind it begins. -/
inductive StorageEvent where
  | written (n : Nat)
  | synced (n : Nat)
  deriving DecidableEq, Repr

def Disk.step (d : Disk α) : StorageEvent → Option (Disk α)
  | .written n =>
    if (d[n]?.any fun w => !w.written) then some (d.modify n fun w => { w with written := true })
    else none
  | .synced n =>
    if (d[n]?.any fun w => w.sync && w.written && !w.synced) then
      some (Disk.fsync (d.modify n fun w => { w with synced := true }))
    else none

/-! ## The flow -/

/-- `struct fp_private_data`, with what it needs of its flow descriptor: `complete` is the state
`FLOW_COMPLETE`, `remaining` what request processing has still to hand out. Below that the stack
of calls, a failed assertion, and what the flow does to the world: the operations that are out,
the buffers handed to the network, the writes. -/
structure FlowData (α : Type) where
  endpoints : Endpoints
  buffersPerFlow : Nat
  dataSync : Bool
  items : Nat → Item α
  srcList : List Nat
  destList : List Nat
  emptyList : List Nat
  remaining : List (Piece α)
  totalTransferred : Nat
  totalBytesProcessed : Nat
  nextSeq : Nat
  nextSeqToSend : Nat
  destPending : Int
  destLastPosted : Bool
  initialPosts : Int
  reqProcDone : Bool
  cleanupPendingCount : Int
  errorCode : Int
  complete : Bool
  stack : List Frame
  fault : Bool
  ops : List Op
  sent : List (List (Option (List α)))
  disk : Disk α

def Piece.size (p : Piece α) : Nat := (p.map List.length).sum

namespace FlowData

/-- `PINT_REQUEST_DONE`. -/
def done (f : FlowData α) : Bool := f.remaining.isEmpty

/-- What `PINT_process_request` hands out for the next buffer. -/
def next (f : FlowData α) : Piece α := f.remaining.headD []

def onItem (f : FlowData α) (i : Nat) (g : Item α → Item α) : FlowData α :=
  { f with items := Function.update f.items i (g (f.items i)) }

/-- `qlist_del` of the buffer's link. -/
def unlink (f : FlowData α) (i : Nat) : FlowData α :=
  { f with srcList := f.srcList.erase i, destList := f.destList.erase i,
           emptyList := f.emptyList.erase i }

/-- `qlist_add_tail` to each of the queues. -/
def linkSrc (f : FlowData α) (i : Nat) : FlowData α := { f with srcList := f.srcList ++ [i] }

def linkDest (f : FlowData α) (i : Nat) : FlowData α := { f with destList := f.destList ++ [i] }

def linkEmpty (f : FlowData α) (i : Nat) : FlowData α := { f with emptyList := f.emptyList ++ [i] }

/-- A buffer is taken from its list, or allocated. -/
def reuse (f : FlowData α) (i : Nat) : FlowData α :=
  if (f.items i).buffer then f.unlink i else f.onItem i fun it => { it with buffer := true }

/-- Mark the flow as done. Every place that does asserts that it is the first. -/
def markComplete (f : FlowData α) : FlowData α :=
  { f with fault := f.fault || f.complete, complete := true }

/-- `cancel_pending_bmi`. -/
def cancelPendingBmi (f : FlowData α) (list : List Nat) : Nat :=
  (list.filter fun i => (f.items i).postedId).length

/-- `cancel_pending_trove`. -/
def cancelPendingTrove (f : FlowData α) (list : List Nat) : Nat :=
  (list.map fun i => ((f.items i).resultChain.filter fun e => e.postedId).length).sum

def cancelPending (f : FlowData α) : Nat :=
  match f.endpoints with
  | .bmiMem => f.cancelPendingBmi f.srcList
  | .memBmi => f.cancelPendingBmi f.destList
  | .troveBmi => f.cancelPendingTrove f.srcList + f.cancelPendingBmi f.destList
  | .bmiTrove => f.cancelPendingBmi f.srcList + f.cancelPendingTrove f.destList

/-- `handle_io_error`, for buffer `q` if the error is one of a buffer. -/
def handleIoError (f : FlowData α) (errorCode : Int) (q : Option Nat) : FlowData α :=
  let f : FlowData α :=
    if f.errorCode = 0 then
      let f := { f with errorCode := errorCode }
      let f : FlowData α :=
        match q with
        | some i => f.unlink i
        | none => f
      { f with cleanupPendingCount := f.cancelPending }
    else
      -- one of the previous cancels came through
      { f with cleanupPendingCount := f.cleanupPendingCount - 1 }
  if f.cleanupPendingCount = 0 then f.markComplete else f

/-- Take the next piece of the request for buffer `i`. -/
def processRequest (f : FlowData α) (i : Nat) : FlowData α :=
  { f.onItem i fun it => it.take f.next with
    remaining := f.remaining.tail
    totalBytesProcessed := f.totalBytesProcessed + Piece.size f.next }

def postBmi (f : FlowData α) (i : Nat) : FlowData α :=
  { f.onItem i fun it => { it with postedId := true } with ops := f.ops ++ [.bmi i] }

def postTrove (f : FlowData α) (i k : Nat) : FlowData α :=
  { f.onItem i fun it => it.setPosted k true with ops := f.ops ++ [.trove i k] }

/-- `posted_id = 0`. -/
def unpostBmi (f : FlowData α) (i : Nat) : FlowData α :=
  f.onItem i fun it => { it with postedId := false }

def unpostTrove (f : FlowData α) (i k : Nat) : FlowData α := f.onItem i fun it => it.setPosted k false

def moved (f : FlowData α) (i k : Nat) : FlowData α := f.onItem i fun it => it.move k

def resetChain (f : FlowData α) (i : Nat) : FlowData α := f.onItem i Item.reset

def push (f : FlowData α) (fr : Frame) : FlowData α := { f with stack := fr :: f.stack }

/-! ## Storage to network -/

/-- Where a call that returned 1 is taken up: a loop of `trove_read_callback_fn` returns as well. -/
def afterOne : List Frame → List Frame
  | .sendLoop _ :: rest => rest
  | stack => stack

/-- `bmi_send_callback_fn` returns 1. -/
def returnOne (f : FlowData α) : FlowData α := { f with stack := afterOne f.stack }

/-- A buffer gets the next sequence number. -/
def stamp (f : FlowData α) (i used : Nat) : FlowData α :=
  { f.onItem i fun it => { it with seq := f.nextSeq, bufferUsed := used } with
    nextSeq := f.nextSeq + 1 }

def lastPosted (f : FlowData α) : FlowData α := { f with initialPosts := 0, destLastPosted := true }

/-- What `bmi_send_callback_fn` notes when the request is done. There is never a last operation when
there is no work to do. -/
def noteDone (f : FlowData α) (i : Nat) : FlowData α :=
  let nothing := f.done && f.totalBytesProcessed == 0
  { f.onItem i fun it => { it with last := it.last || f.done } with
    reqProcDone := f.reqProcDone || f.done
    initialPosts := if nothing then 0 else f.initialPosts
    destLastPosted := f.destLastPosted || nothing }

/-- The second half of `bmi_send_callback_fn`: take the next piece and read it. -/
def load (f : FlowData α) (i : Nat) : FlowData α :=
  let taken := (((f.linkSrc i).processRequest i).stamp i (Piece.size f.next)).noteDone i
  if f.next = [] then
    let left := taken.unlink i
    if left.destPending = 0 ∧ left.srcList = [] then left.markComplete.returnOne
    else left.lastPosted
  else taken.push (.postReads i 0 f.next.length)

/-- `bmi_send_callback_fn` when nothing went wrong. -/
def sendDone (f : FlowData α) (i : Nat) (initialCallFlag : Bool) : FlowData α :=
  let f : FlowData α :=
    { f with initialPosts := if initialCallFlag then f.initialPosts - 1 else f.initialPosts
             destPending := if initialCallFlag then f.destPending else f.destPending - 1 }
  -- if this was the last operation, then mark the flow as done
  if f.initialPosts = 0 ∧ f.destPending = 0 ∧ f.destLastPosted ∧ f.srcList = [] then
    f.markComplete.returnOne
  else if f.reqProcDone then
    if (f.items i).buffer then f.unlink i else f
  else (f.reuse i).load i

/-- `bmi_send_callback_fn`. -/
def bmiSendCallbackFn (f : FlowData α) (i : Nat) (errorCode : Int) (initialCallFlag : Bool) :
    FlowData α :=
  if f.errorCode ≠ 0 ∧ initialCallFlag then f.returnOne
  else if errorCode ≠ 0 ∨ f.errorCode ≠ 0 then
    let f := (f.unpostBmi i).handleIoError errorCode (some i)
    if f.complete then f.returnOne else f
  else (f.unpostBmi i).sendDone i initialCallFlag

/-- `trove_read_callback_fn` when nothing went wrong, up to its loop. -/
def readDone (f : FlowData α) (i : Nat) : FlowData α :=
  -- nothing is done until the last read completes
  if (f.items i).resultChainCount > 1 then
    f.onItem i fun it => { it with resultChainCount := it.resultChainCount - 1 }
  else (((f.unlink i).linkDest i).resetChain i).push (.sendLoop i)

/-- `trove_read_callback_fn`. -/
def troveReadCallbackFn (f : FlowData α) (i k : Nat) (errorCode : Int) : FlowData α :=
  if errorCode ≠ 0 ∨ f.errorCode ≠ 0 then (f.unpostTrove i k).handleIoError errorCode (some i)
  else (f.unpostTrove i k).readDone i

/-- Look for the next sequence number to send: `q_item` is left at the buffer that has it, at the last
of the queue if none has, and where it was if the queue is empty. -/
def scan (f : FlowData α) (i : Nat) : Nat :=
  (f.destList.find? fun j => (f.items j).seq = f.nextSeqToSend).getD (f.destList.getLast?.getD i)

/-- What `trove_read_callback_fn` notes when it has posted a send. -/
def noteSend (f : FlowData α) (i : Nat) : FlowData α :=
  { f with nextSeqToSend := f.nextSeqToSend + 1
           initialPosts := if (f.items i).last then 0 else f.initialPosts
           destLastPosted := f.destLastPosted || (f.items i).last }

def code (error : Nat) : Int := -((error : Int) + 1)

/-- `trove_read_callback_fn`, once round its loop. -/
def sendNext (f : FlowData α) (i : Nat) (r : Posting) : FlowData α :=
  let q := f.scan i
  if (f.items q).seq = f.nextSeqToSend then
    let f := { f with destPending := f.destPending + 1 }
    if (f.items q).bufferUsed = 0 then { f with fault := true }
    else
      let handed := { f with sent := f.sent ++ [(f.items q).data] }
      match r with
      | .pending => ((handed.postBmi q).noteSend q).push (.sendLoop q)
      | .immediate => ((handed.noteSend q).push (.sendLoop q)).bmiSendCallbackFn q 0 false
      | .failed error => (f.noteSend q).handleIoError (code error) (some q)
  else f

/-- `bmi_send_callback_fn` posts the read of entry `k`. -/
def postRead (f : FlowData α) (i k n : Nat) (r : Posting) : FlowData α :=
  let continued : FlowData α :=
    { f with stack := if k + 1 < n then .postReads i (k + 1) n :: f.stack else f.stack }
  match r with
  | .pending => continued.postTrove i k
  | .immediate => (continued.moved i k).troveReadCallbackFn i k 0
  | .failed error =>
    let f := f.handleIoError (code error) (some i)
    if f.complete then f.returnOne else f

/-! ## Network to storage -/

/-- The end of `trove_write_callback_fn`: post a new recv if none is out, or else queue the buffer. -/
def recvNext (f : FlowData α) (i : Nat) : FlowData α :=
  let ready := f.reuse i
  if ready.srcList = [] then
    let taken := (ready.linkSrc i).processRequest i
    if f.next = [] then
      if taken.totalTransferred = taken.totalBytesProcessed ∧ taken.done then taken.markComplete
      else taken
    else taken.push (.postRecv i)
  else ready.linkEmpty i

/-- `trove_write_callback_fn` when nothing went wrong. -/
def writeDone (f : FlowData α) (i : Nat) : FlowData α :=
  -- nothing is done until the last write completes
  if (f.items i).resultChainCount > 1 then
    f.onItem i fun it => { it with resultChainCount := it.resultChainCount - 1 }
  else
    let transferred := ((f.items i).resultChain.map fun e => e.bytes.length).sum
    let f : FlowData α :=
      { f.resetChain i with totalTransferred := f.totalTransferred + transferred }
    if f.totalTransferred = f.totalBytesProcessed ∧ f.done then f.markComplete
    -- there are no more receives to post
    else if f.done then f
    else f.recvNext i

/-- `trove_write_callback_fn`. -/
def troveWriteCallbackFn (f : FlowData α) (i k : Nat) (errorCode : Int) : FlowData α :=
  if errorCode ≠ 0 ∨ f.errorCode ≠ 0 then (f.unpostTrove i k).handleIoError errorCode (some i)
  else (f.unpostTrove i k).writeDone i

/-- `bmi_recv_callback_fn` when nothing went wrong, up to its writes. -/
def recvDone (f : FlowData α) (i : Nat) : FlowData α :=
  ((f.unlink i).linkDest i).push (.postWrites i 0 (f.items i).resultChain.length)

/-- `bmi_recv_callback_fn`. -/
def bmiRecvCallbackFn (f : FlowData α) (i : Nat) (errorCode : Int) : FlowData α :=
  if errorCode ≠ 0 ∨ f.errorCode ≠ 0 then (f.unpostBmi i).handleIoError errorCode (some i)
  else (f.unpostBmi i).recvDone i

/-- `bmi_recv_callback_fn` posts the write of entry `k`. The write gets the sync flag if there is
nothing left of the request. -/
def postWrite (f : FlowData α) (i k n : Nat) (r : Posting) : FlowData α :=
  let bytes := ((f.items i).resultChain[k]?.map Entry.bytes).getD []
  let sync := f.dataSync && f.done
  let continued := f.push (if k + 1 < n then .postWrites i (k + 1) n else .repost)
  match r with
  | .pending => { continued with disk := f.disk.post i k bytes sync false }.postTrove i k
  | .immediate =>
    ({ continued with disk := f.disk.post i k bytes sync true }.moved i k).troveWriteCallbackFn i k 0
  | .failed error => f.handleIoError (code error) (some i)

/-- The end of `bmi_recv_callback_fn`: do we need to repost another recv? -/
def repost (f : FlowData α) : FlowData α :=
  match f.emptyList with
  | [] => f
  | j :: rest =>
    if f.done = false ∧ f.srcList = [] then
      let ready := ({ f with emptyList := rest }.linkSrc j).onItem j fun it => { it with buffer := true }
      let taken := ready.processRequest j
      if f.next = [] then (taken.unlink j).linkEmpty j else taken.push (.postRecv j)
    else f

/-- The end of `trove_write_callback_fn` and `bmi_recv_callback_fn`. -/
def postRecv (f : FlowData α) (i : Nat) (r : Posting) : FlowData α :=
  match r with
  | .pending => f.postBmi i
  | .immediate => f.bmiRecvCallbackFn i 0
  | .failed error => f.handleIoError (code error) (some i)

/-! ## Network and memory -/

/-- The callback of a flow without storage when nothing went wrong. Such a flow has one buffer in use
and one operation out; `link` puts the buffer in the queue of the active side. -/
def memDone (link : FlowData α → FlowData α) (f : FlowData α) : FlowData α :=
  let ready := link (f.unlink 0)
  if ready.done then ready.markComplete
  else
    let taken := ready.processRequest 0
    if f.next = [] then taken.markComplete else taken.push .postMem

def memCallbackFn (link : FlowData α → FlowData α) (f : FlowData α) (errorCode : Int) : FlowData α :=
  if errorCode ≠ 0 ∨ f.errorCode ≠ 0 then (f.unpostBmi 0).handleIoError errorCode (some 0)
  else memDone link (f.unpostBmi 0)

/-- `mem_to_bmi_callback_fn`. -/
def memToBmiCallbackFn : FlowData α → Int → FlowData α :=
  memCallbackFn fun f => f.linkDest 0

/-- `bmi_to_mem_callback_fn`. -/
def bmiToMemCallbackFn : FlowData α → Int → FlowData α :=
  memCallbackFn fun f => f.linkSrc 0

def bmiCallback (f : FlowData α) (i : Nat) (errorCode : Int) : FlowData α :=
  match f.endpoints with
  | .bmiMem => f.bmiToMemCallbackFn errorCode
  | .memBmi => f.memToBmiCallbackFn errorCode
  | .troveBmi => f.bmiSendCallbackFn i errorCode false
  | .bmiTrove => f.bmiRecvCallbackFn i errorCode

def troveCallback (f : FlowData α) (i k : Nat) (errorCode : Int) : FlowData α :=
  match f.endpoints with
  | .troveBmi => f.troveReadCallbackFn i k errorCode
  | .bmiTrove => { f with disk := f.disk.finish i k }.troveWriteCallbackFn i k errorCode
  | _ => f

/-- The one operation of a flow without storage. -/
def postMem (f : FlowData α) (r : Posting) : FlowData α :=
  match r with
  | .pending => f.postBmi 0
  | .immediate => f.bmiCallback 0 0
  | .failed error => f.handleIoError (code error) (some 0)

/-! ## Runs -/

/-- The innermost function takes its next step; `f` is the flow without its frame. -/
def runFrame (f : FlowData α) (r : Posting) : Frame → FlowData α
  | .start i =>
    if f.destLastPosted ∨ f.buffersPerFlow ≤ i then f
    else (f.push (.start (i + 1))).bmiSendCallbackFn i 0 true
  | .postReads i k n => f.postRead i k n r
  | .sendLoop i => f.sendNext i r
  | .postRecv i => f.postRecv i r
  | .postWrites i k n => f.postWrite i k n r
  | .repost => f.repost
  | .postMem => f.postMem r

/-- What can happen to a flow. -/
inductive Event where
  | run (r : Posting)
  | callback (op : Op) (errorCode : Int)
  | cancel
  | storage (e : StorageEvent)
  deriving DecidableEq, Repr

/-- `-(PVFS_ECANCEL | PVFS_ERROR_FLOW)`, a code that is not 0. -/
def ecancel : Int := -1

/-- An operation calls back. Once the flow is complete it has been released. -/
def callback (f : FlowData α) (op : Op) (errorCode : Int) : FlowData α :=
  let f := { f with ops := f.ops.erase op }
  if f.complete then { f with fault := true }
  else
    match op with
    | .bmi i => f.bmiCallback i errorCode
    | .trove i k => (if errorCode = 0 then f.moved i k else f).troveCallback i k errorCode

/-- `fp_multiqueue_cancel`. -/
def fpMultiqueueCancel (f : FlowData α) : FlowData α :=
  if f.complete then f else f.handleIoError ecancel none

/-- A write may only call back without an error when the storage is through with it. -/
def Ready (f : FlowData α) : Op → Int → Prop
  | .trove i k, 0 => f.endpoints = .bmiTrove → f.disk.Ready i k
  | _, _ => True

instance (f : FlowData α) (op : Op) (errorCode : Int) : Decidable (f.Ready op errorCode) := by
  unfold Ready
  split <;> infer_instance

/-- One event; `none` is an event that cannot happen now. -/
def step (f : FlowData α) : Event → Option (FlowData α)
  | .run r =>
    match f.stack with
    | [] => none
    | fr :: rest => some ({ f with stack := rest }.runFrame r fr)
  | .callback op errorCode =>
    if f.stack = [] ∧ op ∈ f.ops ∧ f.Ready op errorCode then some (f.callback op errorCode) else none
  | .cancel => if f.stack = [] then some f.fpMultiqueueCancel else none
  | .storage e => (f.disk.step e).map fun d => { f with disk := d }

/-- The transitions of a flow. -/
inductive Steps (f : FlowData α) : Event → FlowData α → Prop where
  | run {r : Posting} {fr : Frame} {rest : List Frame} (hstack : f.stack = fr :: rest) :
    Steps f (.run r) ({ f with stack := rest }.runFrame r fr)
  | callback {op : Op} {errorCode : Int} (hstack : f.stack = []) (hop : op ∈ f.ops)
    (hready : f.Ready op errorCode) : Steps f (.callback op errorCode) (f.callback op errorCode)
  | cancel (hstack : f.stack = []) : Steps f .cancel f.fpMultiqueueCancel
  | storage {e : StorageEvent} {d : Disk α} (hdisk : f.disk.step e = some d) :
    Steps f (.storage e) { f with disk := d }

theorem steps_of_step {f g : FlowData α} {e : Event} (h : f.step e = some g) : f.Steps e g := by
  cases e with
  | run r =>
    cases hstack : f.stack with
    | nil => simp [step, hstack] at h
    | cons fr rest =>
      simp only [step, hstack, Option.some.injEq] at h
      exact h ▸ .run hstack
  | callback op errorCode =>
    simp only [step, Option.ite_none_right_eq_some, Option.some.injEq] at h
    obtain ⟨⟨hstack, hop, hready⟩, h⟩ := h
    exact h ▸ .callback hstack hop hready
  | cancel =>
    simp only [step, Option.ite_none_right_eq_some, Option.some.injEq] at h
    exact h.2 ▸ .cancel h.1
  | storage e =>
    obtain ⟨d, hdisk, hd⟩ := Option.map_eq_some_iff.mp h
    exact hd ▸ .storage hdisk

/-- A flow before `fp_multiqueue_post` has set it going. -/
def new (endpoints : Endpoints) (buffersPerFlow : Nat) (dataSync : Bool) (plan : Plan α) :
    FlowData α where
  endpoints := endpoints
  buffersPerFlow := buffersPerFlow
  dataSync := dataSync
  items := fun _ => ⟨false, false, 0, false, 0, [], 0, []⟩
  srcList := []
  destList := []
  emptyList := []
  remaining := plan.pieces
  totalTransferred := 0
  totalBytesProcessed := 0
  nextSeq := 0
  nextSeqToSend := 0
  destPending := 0
  destLastPosted := false
  initialPosts := 0
  reqProcDone := false
  cleanupPendingCount := 0
  errorCode := 0
  complete := false
  stack := []
  fault := false
  ops := []
  sent := []
  disk := []

/-- `fp_multiqueue_post`. -/
def fpMultiqueuePost (endpoints : Endpoints) (buffersPerFlow : Nat) (dataSync : Bool)
    (plan : Plan α) : FlowData α :=
  let f := new endpoints buffersPerFlow dataSync plan
  match endpoints with
  | .bmiMem => { f with emptyList := List.range buffersPerFlow }.bmiToMemCallbackFn 0
  | .memBmi => { f with emptyList := List.range buffersPerFlow }.memToBmiCallbackFn 0
  | .troveBmi => { f with initialPosts := buffersPerFlow }.push (.start 0)
  | .bmiTrove =>
    -- only post one outstanding recv at a time
    { f with initialPosts := 1, emptyList := (List.range buffersPerFlow).tail }.troveWriteCallbackFn
      0 0 0

end FlowData

end Pvfs.Flow
