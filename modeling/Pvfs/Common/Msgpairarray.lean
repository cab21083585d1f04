import Mathlib.Algebra.Group.Int.Defs
import Mathlib.Algebra.Group.Nat.Defs
import Pvfs.Lib.Steps

/-! # Message pair arrays (msgpairarray.sm)

`pvfs2_msgpairarray_sm` sends a request to each of a number of servers and receives their
responses. For every message it posts the receive and then the send, waits until all that it
posted has completed, and looks at the answers; messages that failed are posted again.

Between two steps the machine waits for the job layer, so an event is what the job layer, the
decoder or a completion function answers. The statuses of jobs and the codes of the encoder are 0
or negative; what a server or a completion function answers is any number. What the job layer does
with a cancel is to complete the operation, as it may at any time, so a cancel is only noted.

Some fields are there for the theorems: how often a message was sent and why, whether its response
has come, what its answer was, and which operations are out. -/

namespace Pvfs.Common

/-- `PVFS_ERROR_CLASS`, of a number of 32 bits. -/
def errorClass (error : Int) : Nat :=
  (error % 2 ^ 32).toNat &&& (2 ^ 32 - 1 - (127 + 2 ^ 30 + 2 ^ 29))

/-- `PVFS_ERROR_CLASS(-op_status) == PVFS_ERROR_BMI`. -/
def isBmi (opStatus : Int) : Bool := errorClass (-opStatus) == 2 ^ 7

/-- `BMI_ECANCEL`. -/
def bmiEcancel : Int := 1 + 2 ^ 29 + 2 ^ 30 + 2 ^ 7

def msgpairsComplete : Int := 190

def msgpairsRetry : Int := 191

def msgpairsRetryNodelay : Int := 192

/-- `-EPROTONOSUPPORT`. -/
def eprotonosupport : Int := -93

/-- An error as PVFS returns it. -/
def code (error : Nat) : Int := -((error : Int) + 1)

def status : Option Nat → Int
  | none => 0
  | some error => code error

/-- A send: what `op_status` was before the round, and whether the response had come. -/
structure Sending where
  failed : Int
  answered : Bool
  deriving DecidableEq, Repr

/-- `PINT_sm_msgpair_state`. `encoded` is whether `encoded_resp_p` is not `NULL`, and `compFn` whether
there is a completion function. -/
structure Msg where
  retryFlag : Bool
  compFn : Bool
  retryCount : Nat
  complete : Bool
  encoded : Bool
  opStatus : Int
  recvStatus : Int
  sendStatus : Int
  recvId : Bool
  sendId : Bool
  sendings : List Sending
  answered : Bool
  result : Option Int
  deriving DecidableEq, Repr

/-- What posting a receive and testing it comes to. When the test itself fails, the receive is out
and its status is what it was. -/
inductive RecvPost where
  | pending
  | failed (error : Nat)
  | testFailed
  deriving DecidableEq, Repr

inductive SendPost where
  | pending
  | done
  | failed (error : Nat)
  deriving DecidableEq, Repr

/-- What happens to one message in a round; `encode` is the error of encoding it or of allocating the
buffer of its response. -/
structure PostOutcome where
  encode : Option Nat
  recv : RecvPost
  send : SendPost
  deriving DecidableEq, Repr

/-- What `PINT_serv_decode_resp` returns. A response that is not understood is there, too. -/
inductive Decoded where
  | response (status : Int)
  | failed (error : Nat)
  | protoError (status : Int)
  deriving DecidableEq, Repr

namespace Decoded

def status : Decoded → Option Int
  | .response status => some status
  | .failed _ => none
  | .protoError status => some status

/-- What `op_status` is set to. -/
def opStatus : Decoded → Int
  | .response status => status
  | .failed error => code error
  | .protoError _ => eprotonosupport

end Decoded

/-- What is found in a receive buffer, and what the completion function says. -/
structure Answer where
  decoded : Decoded
  compFn : Int
  deriving DecidableEq, Repr

/-- The states of the machine. In `wait` an operation that completes takes it to its state
`complete`. -/
inductive Stage where
  | post
  | postRetry
  | wait
  | complete
  | completionFn
  | done
  deriving DecidableEq, Repr

/-- `PINT_sm_msgarray_op` and the job status. The first tags are those of the receives, then come those
of the sends; `outstanding` are the tags of the operations that are out. -/
structure MsgArray where
  msgs : List Msg
  retryLimit : Nat
  compCt : Int
  errorCode : Int
  statusUserTag : Nat
  stage : Stage
  outstanding : List Nat
  cancelled : List Nat
  fault : Bool

/-! ## Posting a round -/

/-- What a message, or a part of the array, adds to a round: the operations that are through, those that
are out, those that are cancelled, and the error that ends it. -/
structure Round (μ : Type) where
  msgs : μ
  through : Nat
  tags : List Nat
  cancelled : List Nat
  localEncAndAlloc : Bool
  error : Option Nat

namespace Msg

/-- The message is sent once more, after what it had met before. -/
def sent (m : Msg) : Msg := { m with sendings := m.sendings ++ [⟨m.opStatus, m.answered⟩] }

/-- `msgpairarray_post` for a message that is encoded. -/
def post (m : Msg) (count i : Nat) (localEncAndAlloc : Bool) (o : PostOutcome) : Round Msg :=
  match o.recv with
  | .failed error =>
    -- the send is not posted
    ⟨{ m with recvStatus := code error, sendStatus := code error, opStatus := code error, recvId := false,
              sendId := false, encoded := !localEncAndAlloc },
      2, [], [], false, none⟩
  | .testFailed =>
    ⟨{ m with sendStatus := m.recvStatus, opStatus := m.recvStatus, recvId := false, sendId := false,
              encoded := !localEncAndAlloc },
      2, [i], [], false, none⟩
  | .pending =>
    match o.send with
    | .pending =>
      ⟨{ m.sent with opStatus := 0, recvId := true, sendId := true, encoded := true }, 0,
        [i, count + i], [], localEncAndAlloc, none⟩
    | .done =>
      ⟨{ m.sent with opStatus := 0, recvId := true, sendId := false, sendStatus := 0, encoded := true },
        1, [i], [], localEncAndAlloc, none⟩
    | .failed error =>
      ⟨{ m.sent with opStatus := code error, recvId := true, sendId := false, sendStatus := code error,
                     encoded := true },
        1, [i], [i], localEncAndAlloc, none⟩

end Msg

/-- The loop of `msgpairarray_post`: message `i` and those behind it. -/
def postAll (count : Nat) (o : Nat → PostOutcome) : Nat → Bool → List Msg → Round (List Msg)
  | _, localEncAndAlloc, [] => ⟨[], 0, [], [], localEncAndAlloc, none⟩
  | i, localEncAndAlloc, m :: rest =>
    if m.complete then
      -- a message that already completed
      let r := postAll count o (i + 1) localEncAndAlloc rest
      { r with msgs := m :: r.msgs }
    else
      match if m.encoded then none else (o i).encode with
      | some error => ⟨{ m with opStatus := 0 } :: rest, 0, [], [], localEncAndAlloc, some error⟩
      | none =>
        let p := m.post count i (localEncAndAlloc || !m.encoded) (o i)
        let r := postAll count o (i + 1) p.localEncAndAlloc rest
        ⟨p.msgs :: r.msgs, p.through + r.through, p.tags ++ r.tags, p.cancelled ++ r.cancelled,
          r.localEncAndAlloc, r.error⟩

/-! ## Looking at the answers -/

/-- Where the first loop of `msgpairarray_completion_fn` stands: `respP` is what `resp_p` was last set
to. -/
structure Looking where
  errorCode : Int
  needRetry : Nat
  respP : Option Int
  fault : Bool

/-- Whether the loop goes on after a message. -/
inductive Looked where
  | next (m : Msg) (l : Looking)
  | leave (m : Msg) (l : Looking)

namespace Msg

/-- The message is done with. -/
def settle (m : Msg) : Msg := { m with encoded := false, complete := true }

/-- `msgpairarray_completion_fn` for a message that is not complete. -/
def look (m : Msg) (a : Answer) (l : Looking) : Looked :=
  if m.opStatus ≠ 0 then .next m { l with needRetry := l.needRetry + 1 }
  else
    let respP := a.decoded.status.or l.respP
    if m.compFn then
      .next { m.settle with opStatus := a.compFn, result := some a.compFn }
        { l with errorCode := if a.compFn ≠ 0 then a.compFn else l.errorCode, respP := respP }
    else
      match respP with
      | none => .leave m { l with fault := true }
      | some status =>
        if status ≠ 0 then
          -- there is no point in continuing to process after seeing a failure
          .leave { m with opStatus := a.decoded.opStatus, result := a.decoded.status }
            { l with errorCode := status, respP := respP }
        else
          .next { m.settle with opStatus := a.decoded.opStatus, result := a.decoded.status }
            { l with respP := respP }

end Msg

/-- The first loop of `msgpairarray_completion_fn`. -/
def lookAll (a : Nat → Answer) : Nat → Looking → List Msg → List Msg × Looking
  | _, l, [] => ([], l)
  | i, l, m :: rest =>
    if m.complete then
      let r := lookAll a (i + 1) l rest
      (m :: r.1, r.2)
    else
      match m.look (a i) l with
      | .leave m l => (m :: rest, l)
      | .next m l =>
        let r := lookAll a (i + 1) l rest
        (m :: r.1, r.2)

/-- The message is to be tried again. -/
def Msg.Chosen (retryLimit : Nat) (m : Msg) : Prop :=
  m.complete = false ∧ m.retryFlag = true ∧ isBmi m.opStatus = true ∧ m.retryCount < retryLimit

instance (retryLimit : Nat) (m : Msg) : Decidable (m.Chosen retryLimit) := by
  unfold Msg.Chosen
  infer_instance

/-- The second loop of `msgpairarray_completion_fn`: the messages, `comp_ct` and the code. -/
def chooseAll (retryLimit : Nat) : Int → Int → List Msg → List Msg × Int × Int
  | compCt, errorCode, [] => ([], compCt, errorCode)
  | compCt, errorCode, m :: rest =>
    if m.complete then
      let r := chooseAll retryLimit compCt errorCode rest
      (m :: r.1, r.2)
    else if m.Chosen retryLimit then
      let r := chooseAll retryLimit (compCt + 2)
        (if m.opStatus = -bmiEcancel then msgpairsRetryNodelay else msgpairsRetry) rest
      ({ m with retryCount := m.retryCount + 1 } :: r.1, r.2)
    else
      let r := chooseAll retryLimit compCt (if errorCode = 0 then m.opStatus else errorCode) rest
      (m :: r.1, r.2)

namespace Msg

/-- The first error of a message is kept. -/
def save (errorCode : Int) (m : Msg) : Msg :=
  { m with opStatus := if m.opStatus = 0 then errorCode else m.opStatus }

def noteRecv (errorCode : Int) (m : Msg) : Msg :=
  { m.save errorCode with recvId := false, recvStatus := errorCode }

def noteSend (errorCode : Int) (m : Msg) : Msg :=
  { m.save errorCode with sendId := false, sendStatus := errorCode }

end Msg

/-! ## The machine -/

namespace MsgArray

def count (s : MsgArray) : Nat := s.msgs.length

/-- `msgpairarray_post`. -/
def msgpairarrayPost (s : MsgArray) (o : Nat → PostOutcome) : MsgArray :=
  if s.count = 0 ∨ s.compCt < 2 then { s with fault := true }
  else
    let r := postAll s.count o 0 false s.msgs
    let s : MsgArray :=
      { s with msgs := r.msgs, compCt := s.compCt - r.through, errorCode := 0,
               outstanding := s.outstanding ++ r.tags, cancelled := s.cancelled ++ r.cancelled }
    match r.error with
    | some error => { s with errorCode := code error, stage := .complete }
    | none =>
      if s.compCt = 0 then { s with errorCode := msgpairsComplete, stage := .completionFn }
      else { s with stage := .wait }

/-- What `msgpairarray_complete` notes of an operation. -/
def note (s : MsgArray) : MsgArray :=
  let i := s.statusUserTag - s.count
  if s.statusUserTag < s.count then
    { s with
      msgs := s.msgs.modify s.statusUserTag (Msg.noteRecv s.errorCode)
      cancelled := s.cancelled ++
        if s.errorCode ≠ 0 ∧ (s.msgs[s.statusUserTag]?.any fun m => m.sendId) then
          [s.count + s.statusUserTag] else [] }
  else
    { s with
      msgs := s.msgs.modify i (Msg.noteSend s.errorCode)
      cancelled := s.cancelled ++
        if s.errorCode ≠ 0 ∧ (s.msgs[i]?.any fun m => m.recvId) then [i] else [] }

/-- `msgpairarray_complete`. -/
def msgpairarrayComplete (s : MsgArray) : MsgArray :=
  if s.statusUserTag < 2 * s.count then
    let s := s.note
    let s := { s with compCt := s.compCt - 1 }
    if 0 < s.compCt then { s with stage := .wait }
    else { s with errorCode := msgpairsComplete, stage := .completionFn,
                  fault := s.fault || decide (s.compCt ≠ 0) }
  else { s with fault := true }

/-- Where `msgpairarray_completion_fn` leads. -/
def next (errorCode : Int) : Stage :=
  if errorCode = msgpairsRetry then .postRetry
  else if errorCode = msgpairsRetryNodelay then .post
  else .done

/-- `msgpairarray_completion_fn`. -/
def msgpairarrayCompletionFn (s : MsgArray) (a : Nat → Answer) : MsgArray :=
  let r := lookAll a 0 ⟨0, 0, none, false⟩ s.msgs
  if r.2.fault then { s with fault := true }
  else if r.2.needRetry = 0 then
    { s with msgs := r.1, errorCode := r.2.errorCode, stage := next r.2.errorCode }
  else
    let c := chooseAll s.retryLimit 0 0 r.1
    { s with msgs := c.1, compCt := c.2.1, errorCode := c.2.2, stage := next c.2.2 }

/-- `msgpairarray_init`. -/
def msgpairarrayInit (retryLimit : Nat) (msgs : List Msg) : MsgArray where
  msgs := msgs.map fun m =>
    { m with encoded := false, retryCount := 0, complete := false, sendings := [], answered := false,
             result := none }
  retryLimit := retryLimit
  compCt := 2 * msgs.length
  errorCode := 0
  statusUserTag := 0
  stage := .post
  outstanding := []
  cancelled := []
  fault := false

/-- What a state machine of the array waits for. -/
inductive Event where
  /-- a round is posted -/
  | post (o : Nat → PostOutcome)
  /-- an operation completes -/
  | completed (tag : Nat) (error : Option Nat)
  /-- the answers are looked at -/
  | answers (a : Nat → Answer)
  /-- the machine goes on by itself, or the timer of `msgpairarray_post_retry` is up -/
  | run

/-- The response of message `i` has come. -/
def answer (s : MsgArray) (i : Nat) : MsgArray :=
  { s with msgs := s.msgs.modify i fun m => { m with answered := true } }

/-- The completion of a job is recorded. -/
def completed (s : MsgArray) (tag : Nat) (error : Option Nat) : MsgArray :=
  let s := if tag < s.count ∧ error = none then s.answer tag else s
  { s with outstanding := s.outstanding.erase tag, statusUserTag := tag,
           errorCode := status error }.msgpairarrayComplete

/-- One event; `none` is an event that cannot happen now. -/
def step (s : MsgArray) : Event → Option MsgArray
  | .post o => if s.fault = false ∧ s.stage = .post then some (s.msgpairarrayPost o) else none
  | .completed tag error =>
    if s.fault = false ∧ s.stage = .wait ∧ tag ∈ s.outstanding then some (s.completed tag error)
    else none
  | .answers a =>
    if s.fault = false ∧ s.stage = .completionFn then some (s.msgpairarrayCompletionFn a) else none
  | .run =>
    if s.fault = false ∧ s.stage = .postRetry then
      some { s with errorCode := 0, statusUserTag := 0, stage := .post }
    else if s.fault = false ∧ s.stage = .complete then some s.msgpairarrayComplete
    else none

/-- The transitions of the machine, stage by stage. -/
inductive Steps (s : MsgArray) : Event → MsgArray → Prop where
  | post {o : Nat → PostOutcome} (hstage : s.stage = .post) : Steps s (.post o) (s.msgpairarrayPost o)
  | completed {tag : Nat} {error : Option Nat} (hstage : s.stage = .wait) (htag : tag ∈ s.outstanding) :
    Steps s (.completed tag error) (s.completed tag error)
  | answers {a : Nat → Answer} (hstage : s.stage = .completionFn) :
    Steps s (.answers a) (s.msgpairarrayCompletionFn a)
  | postRetry (hstage : s.stage = .postRetry) :
    Steps s .run { s with errorCode := 0, statusUserTag := 0, stage := .post }
  | complete (hstage : s.stage = .complete) : Steps s .run s.msgpairarrayComplete

theorem steps_of_step {s s' : MsgArray} {e : Event} (h : s.step e = some s') : s.Steps e s' := by
  cases e with
  | post o =>
    simp only [step, Option.ite_none_right_eq_some, Option.some.injEq] at h
    exact h.2 ▸ .post h.1.2
  | completed tag error =>
    simp only [step, Option.ite_none_right_eq_some, Option.some.injEq] at h
    exact h.2 ▸ .completed h.1.2.1 h.1.2.2
  | answers a =>
    simp only [step, Option.ite_none_right_eq_some, Option.some.injEq] at h
    exact h.2 ▸ .answers h.1.2
  | run =>
    simp only [step] at h
    split at h
    next hstage =>
      cases h
      exact .postRetry hstage.2
    next =>
      simp only [Option.ite_none_right_eq_some, Option.some.injEq] at h
      exact h.2 ▸ .complete h.1.2

end MsgArray

end Pvfs.Common
