import Mathlib.Algebra.Group.Int.Defs
import Mathlib.Algebra.Group.Nat.Defs
import Pvfs.Lib.Steps

/-! # The I/O operations of a client process

A client runs one `pvfs2_client_io_sm` for each read or write. It posts a request to each
server that has data for it, and then goes through the completions of its sends, receives,
flows and write acks in whatever order they come, until nothing is pending and it analyses
what it has got. A server that is moving a datafile away answers with status -1. The
machine that sees such an answer sets `migration_at_server_flag`, which all operations of
the process share, and the next machine that analyses its results looks at it.

How jobs end, what servers answer and whether a job can be posted is up to the event. Not
modelled are small I/O, which this client never does, and an encoding that fails. -/

namespace Pvfs.Client

inductive IoType where
  | read | write
deriving DecidableEq, Repr

/-- `PINT_client_io_ctx`: the dealings with one server. `ack` is the status and the number of
bytes in the final ack of a write. -/
structure IoContext where
  msgSendHasBeenPosted : Bool
  msgRecvHasBeenPosted : Bool
  msgSendInProgress : Bool
  msgRecvInProgress : Bool
  opStatus : Int
  sendStatus : Int
  recvStatus : Int
  flowInProgress : Bool
  flowStatus : Int
  totalTransferred : Nat
  writeAckHasBeenPosted : Bool
  writeAckInProgress : Bool
  writeAckStatus : Int
  ack : Int × Nat
deriving DecidableEq, Repr

/-- A context as `io_contexts_init` leaves it. -/
def IoContext.fresh : IoContext :=
  ⟨false, false, false, false, 0, 0, 0, false, 0, 0, false, false, 0, (0, 0)⟩

/-- One of the four jobs of a context has not completed. -/
def IoContext.pending (c : IoContext) : Bool :=
  c.msgSendInProgress || c.msgRecvInProgress || c.flowInProgress || c.writeAckInProgress

/-- The states of `pvfs2_client_io_sm` that wait for something. `init` goes on through the
attributes of the file to `io_datafile_post_msgpairs`; `finished` has the error code. -/
inductive IoState where
  | init
  | postMsgpairs
  | postMsgpairsRetry
  | completeOperations
  | analyzeResults
  | finished (error : Int)
deriving DecidableEq, Repr

/-- One operation. `refused` is not in the source: a server has answered this attempt of the
operation that the datafile is migrating. -/
structure IoOp where
  objectRef : Nat
  ioType : IoType
  state : IoState
  contexts : List IoContext
  retryCount : Nat
  retryLimit : Nat
  totalSize : Nat
  totalCompleted : Nat
  cancelled : Bool
  refused : Bool
deriving DecidableEq, Repr

def IoOp.posted (objectRef : Nat) (ioType : IoType) (retryLimit : Nat) : IoOp :=
  ⟨objectRef, ioType, .init, [], 0, retryLimit, 0, 0, false, false⟩

/-! ## Error codes -/

def pvfsErrorBit : Int := 2 ^ 30

def pvfsEcancel : Int := 1 + 2 ^ 29 + 2 ^ 30

def pvfsEproto : Int := 38 + 2 ^ 30

/-- `IO_RETRY_NODELAY`. -/
def ioRetryNodelay : Int := 135

/-- `-BMI_ECANCEL`. -/
def bmiEcancel : Int := -(1 + 2 ^ 29 + 2 ^ 30 + 2 ^ 7)

/-- `PVFS_ERROR_CLASS`, of a 32 bit integer. -/
def pvfsErrorClass (error : Int) : Nat := (error % 2 ^ 32).toNat &&& 0x9fffff80

/-- The errors after which something is tried again: those of BMI, those of a flow, a reset
connection (`ECONNRESET`) and a protocol error. -/
def canRetry (error : Int) : Bool :=
  pvfsErrorClass (-error) = 1 * 2 ^ 7 || pvfsErrorClass (-error) = 3 * 2 ^ 7 || error = -104 ||
    error = -pvfsEproto

/-! ## Posting -/

/-- What becomes of posting the messages of one context. An error of the send is a code of
PVFS, so it is not taken for a refusal. -/
inductive Posting where
  | recvFails
  | sendFails (code : Nat)
  | sentAtOnce
  | posted
deriving DecidableEq, Repr

/-- The turn of the loop of `io_datafile_post_msgpairs` for one context. -/
def IoContext.post (c : IoContext) (p : Posting) : IoContext :=
  let recvPosted : Option IoContext :=
    if c.msgRecvHasBeenPosted && c.msgRecvInProgress then some c
    else if p = .recvFails then none
    else some { c with msgRecvHasBeenPosted := true, msgRecvInProgress := true }
  match recvPosted with
  | none => { c with msgRecvHasBeenPosted := false, msgRecvInProgress := false }
  | some c =>
    if c.msgSendHasBeenPosted && c.msgSendInProgress then
      c
    else
      match p with
      | .sendFails code =>
        { c with
          msgSendHasBeenPosted := false
          msgSendInProgress := false
          opStatus := -(pvfsErrorBit + code) }
      | .sentAtOnce => { c with msgSendHasBeenPosted := true, msgSendInProgress := false }
      | _ => { c with msgSendHasBeenPosted := true, msgSendInProgress := true }

def IoOp.pending (op : IoOp) : Bool := op.contexts.any IoContext.pending

/-- `io_datafile_post_msgpairs`; `ps i` is what becomes of context `i`. -/
def ioDatafilePostMsgpairs (op : IoOp) (ps : Nat → Posting) : IoOp :=
  if op.cancelled then
    -- `io_datafile_complete_operations` is run at once, and goes on if it has nothing to wait for
    { op with state := if op.pending then .completeOperations else .analyzeResults }
  else
    let op := { op with contexts := op.contexts.mapIdx fun i (c : IoContext) => c.post (ps i) }
    { op with state := if op.pending then .completeOperations else .postMsgpairsRetry }

/-- `io_datafile_post_msgpairs_retry`. -/
def ioDatafilePostMsgpairsRetry (op : IoOp) : IoOp :=
  let op := { op with retryCount := op.retryCount + 1 }
  { op with state := if op.retryCount > op.retryLimit then .analyzeResults else .postMsgpairs }

/-! ## Completions -/

/-- What a server has answered, if that can be decoded. -/
inductive Answer where
  | undecodable (error : Int)
  | status (status : Int)
deriving DecidableEq, Repr

/-- A job that is done. After a receive that went well, `ackPosted` and `flowPosted` say
whether the receive of the final ack and the flow could be posted. -/
inductive Completion where
  | send (error : Int)
  | recv (error : Int) (answer : Answer) (ackPosted flowPosted : Bool)
  | flow (error : Int) (transferred : Nat)
  | writeAck (error : Int) (status : Int) (total : Nat)
deriving DecidableEq, Repr

/-- `io_process_context_recv` with `io_decode_ack_response`. -/
def ioProcessContextRecv (c : IoContext) (error : Int) (answer : Answer) : Int × IoContext :=
  if error ≠ 0 then
    (error, c)
  else
    match answer with
    | .undecodable e => (e, c)
    | .status st => (if st ≠ 0 ∧ st ≠ -1 then st else 0, { c with opStatus := st })

/-- A context whose messages are posted once more. -/
def IoContext.repost (c : IoContext) : IoContext :=
  { c with msgSendHasBeenPosted := false, msgRecvHasBeenPosted := false }

/-- What a completion does to its context, to the retry count of the operation and to
`migration_at_server_flag`; `none` if there was no such job. -/
def IoContext.complete (c : IoContext) (ioType : IoType) (retryCount retryLimit : Nat)
    (flag : Bool) : Completion → Option (IoContext × Nat × Bool)
  | .send error =>
    if c.msgSendInProgress then
      some ({ c with msgSendInProgress := false, sendStatus := error }, retryCount, flag)
    else
      none
  | .recv error answer ackPosted flowPosted =>
    if c.msgRecvInProgress then
      let (ret, c) := ioProcessContextRecv { c with msgRecvInProgress := false, recvStatus := error }
        error answer
      if ret < 0 ∨ c.opStatus = -1 then
        -- a refusal is kept, and no flow is posted
        if c.opStatus = -1 then some (c, retryCount, true) else some (c.repost, retryCount, flag)
      else if ioType = .write ∧ ¬ ackPosted then
        some (c, retryCount, flag)
      else
        let c := if ioType = .write then
          { c with writeAckHasBeenPosted := true, writeAckInProgress := true } else c
        if flowPosted then
          some ({ c with flowInProgress := true }, retryCount, flag)
        else
          some (c.repost, retryCount, flag)
    else
      none
  | .flow error transferred =>
    if c.flowInProgress then
      let c := { c with
        flowInProgress := false, flowStatus := error, totalTransferred := transferred }
      if error < 0 ∧ ¬ c.writeAckInProgress then
        if canRetry error then some (c.repost, retryCount, flag) else some (c, retryLimit, flag)
      else
        some (c, retryCount, flag)
    else
      none
  | .writeAck error status total =>
    if c.writeAckInProgress then
      let c := { c with writeAckInProgress := false, writeAckStatus := error, ack := (status, total) }
      if error < 0 then
        some (c.repost, retryCount, flag)
      else
        -- an ack before the flow is done reports an error
        some (c, if c.flowInProgress then retryLimit else retryCount, flag)
    else
      none

/-- Where `io_datafile_complete_operations` goes once nothing is pending; the completion of a
send does not come to look. -/
def IoOp.checkNextStep (op : IoOp) : Completion → IoOp
  | .send _ => op
  | _ =>
    if op.pending then
      op
    else if (op.contexts.any fun c => !c.msgRecvHasBeenPosted || !c.msgSendHasBeenPosted) ∧
        ¬ op.cancelled then
      { op with state := .postMsgpairsRetry }
    else
      { op with state := .analyzeResults }

/-- The server has answered that it does not do the request. -/
def Completion.refuses : Completion → Bool
  | .recv error answer _ _ => error = 0 && answer = .status (-1)
  | _ => false

/-- `io_datafile_complete_operations`, for a job of context `i`. -/
def ioDatafileCompleteOperations (op : IoOp) (flag : Bool) (i : Nat) (done : Completion) :
    Option (IoOp × Bool) :=
  op.contexts[i]?.bind fun c =>
    (c.complete op.ioType op.retryCount op.retryLimit flag done).map fun (c', retryCount, flag') =>
      (IoOp.checkNextStep { op with
        contexts := op.contexts.set i c'
        retryCount := retryCount
        refused := op.refused || done.refuses } done, flag')

/-! ## Analysis -/

/-- `io_check_context_status`: an error, and what has been transferred so far. -/
def ioCheckContextStatus (c : IoContext) (ioType : IoType) (totalSize : Nat) : Int × Nat :=
  if c.sendStatus ≠ 0 then (c.sendStatus, totalSize)
  else if c.recvStatus ≠ 0 then (c.recvStatus, totalSize)
  else
    match ioType with
    | .write =>
      if c.writeAckStatus ≠ 0 then (c.writeAckStatus, totalSize)
      else if c.writeAckHasBeenPosted then (c.ack.1, totalSize + c.ack.2)
      else (c.flowStatus, totalSize)
    | .read =>
      if c.flowStatus ≠ 0 then (c.flowStatus, totalSize)
      else (0, totalSize + c.totalTransferred)

/-- The loop of `io_analyze_results` over the contexts. -/
def ioCheckContexts (ioType : IoType) : List IoContext → Nat → Int × Nat
  | [], totalSize => (0, totalSize)
  | c :: cs, totalSize =>
    match ioCheckContextStatus c ioType totalSize with
    | (ret, totalSize') => if ret < 0 then (ret, totalSize') else ioCheckContexts ioType cs totalSize'

/-- How `io_analyze_results` ends: in a fresh start because of a migration or because of an
error that may go away, or at the end of the operation (where a read still has to find out
how much of it lies before the end of the file). -/
inductive Outcome where
  | migration
  | retry
  | finished (error : Int)
deriving DecidableEq, Repr

/-- The part of `io_analyze_results` after the look at the flag. -/
def ioAnalyzeContexts (op : IoOp) : Outcome × IoOp :=
  let (ret, totalSize) := if op.cancelled then (-pvfsEcancel, op.totalSize)
    else ioCheckContexts op.ioType op.contexts op.totalSize
  if canRetry ret ∧ op.retryCount < op.retryLimit then
    -- `IO_RETRY_NODELAY` has no transition of its own and ends the operation
    if ret = bmiEcancel then
      (.finished ioRetryNodelay, { op with
        state := .finished ioRetryNodelay, totalSize := 0, retryCount := op.retryCount + 1 })
    else
      (.retry, { op with
        state := .init, contexts := [], totalSize := 0, retryCount := op.retryCount + 1
        refused := false })
  else
    (.finished ret, { op with state := .finished ret, totalSize, totalCompleted := totalSize })

/-- `io_analyze_results`, with the flag. -/
def ioAnalyzeResults (op : IoOp) (flag : Bool) : Outcome × IoOp :=
  if flag then
    (.migration, { op with state := .init, contexts := [], refused := false })
  else
    ioAnalyzeContexts op

/-! ## The process -/

/-- The record of one analysis: whether the attempt had been refused by a server that moves the
datafile, how the analysis came out, and whether the attributes were in the cache after it. -/
structure Analysis where
  refused : Bool
  outcome : Outcome
  cached : Bool
deriving DecidableEq, Repr

/-- A client process. `acache` has the objects whose attributes are cached; `analyses` is
not in the source. -/
structure IoProcess where
  migrationAtServerFlag : Bool
  acache : List Nat
  ops : List IoOp
  analyses : List Analysis
deriving DecidableEq, Repr

def IoProcess.start : IoProcess := ⟨false, [], [], []⟩

/-- What can happen to the operations of a client. -/
inductive IoEvent where
  | isysIo (objectRef : Nat) (ioType : IoType) (retryLimit : Nat)
  | setup (k : Nat) (targets : Except Int Nat)
  | post (k : Nat) (ps : Nat → Posting)
  | retry (k : Nat)
  | complete (k i : Nat) (done : Completion)
  | cancel (k : Nat)
  | analyze (k : Nat)

/-- Replace operation `k`, which is in the given state. -/
def IoProcess.update (s : IoProcess) (k : Nat) (state : IoState) (f : IoOp → IoOp) :
    Option IoProcess :=
  match s.ops[k]? with
  | none => none
  | some op => if op.state = state then some { s with ops := s.ops.set k (f op) } else none

def IoProcess.step (s : IoProcess) : IoEvent → Option IoProcess
  | .isysIo objectRef ioType retryLimit =>
    some { s with ops := s.ops ++ [IoOp.posted objectRef ioType retryLimit] }
  | .setup k targets =>
    -- the attributes are fetched, unless that fails, and there is a context for each target
    match s.ops[k]? with
    | none => none
    | some op =>
      if op.state = .init then
        match targets with
        | .error error => some { s with ops := s.ops.set k { op with state := .finished error } }
        | .ok n => some { s with
            acache := op.objectRef :: s.acache
            ops := s.ops.set k { op with
              state := .postMsgpairs, contexts := List.replicate n .fresh } }
      else
        none
  | .post k ps => s.update k .postMsgpairs fun op => ioDatafilePostMsgpairs op ps
  | .retry k => s.update k .postMsgpairsRetry ioDatafilePostMsgpairsRetry
  | .complete k i done =>
    match s.ops[k]? with
    | none => none
    | some op =>
      if op.state = .completeOperations then
        (ioDatafileCompleteOperations op s.migrationAtServerFlag i done).map fun (op', flag) =>
          { s with migrationAtServerFlag := flag, ops := s.ops.set k op' }
      else
        none
  | .cancel k =>
    match s.ops[k]? with
    | none => none
    | some op => some { s with ops := s.ops.set k { op with cancelled := true } }
  | .analyze k =>
    match s.ops[k]? with
    | none => none
    | some op =>
      if op.state = .analyzeResults then
        let (outcome, op') := ioAnalyzeResults op s.migrationAtServerFlag
        let acache := if s.migrationAtServerFlag then s.acache.filter (· ≠ op.objectRef) else s.acache
        some
          { migrationAtServerFlag := false
            acache := acache
            ops := s.ops.set k op'
            analyses := ⟨op.refused, outcome, acache.contains op.objectRef⟩ :: s.analyses }
      else
        none

end Pvfs.Client
