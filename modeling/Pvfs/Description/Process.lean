import Pvfs.Lib.Loop
import Pvfs.Description.Request
import Pvfs.Description.Distribution

/-! # Request processing

`PINT_process_request` walks a request with a stack of levels instead of recursion, so
that it can stop in the middle when the caller's segment or byte budget is used up and
pick up there on the next call. For each contiguous piece it decodes it calls
`PINT_distribute`, which cuts the piece into the fragments this server stores.

Both functions are translated line by line. The structures the C code passes by
reference are passed in and returned; the two `while` loops are bodies for
`Lib.iterate`; the `goto return_from_level` is a recursion on the level. A failed
`assert`, a division by a zero size and a read through `NULL` are a `fault`.

**The knot.**  `PINT_distribute` calls `PINT_process_request` again, on the memory type
and in `PINT_MEMREQ` mode, where no distribution takes place. So `processWith` takes
the distribute function as an argument, the memory run uses it with none, `distribute`
uses the memory run, and `processRequest` uses `distribute`. -/

namespace Pvfs.Description

open Pvfs.Lib Function

/-- The mode bits of `PINT_process_request`. -/
structure Mode where
  server : Bool := false
  client : Bool := false
  cksize : Bool := false
  modifyOffset : Bool := false
  logicalSkip : Bool := false
  seeking : Bool := false
  memreq : Bool := false
deriving DecidableEq, Repr

namespace Mode

def pintServer : Mode := { server := true }
def pintClient : Mode := { client := true }
def pintCksize : Mode := { cksize := true }

/-- `PINT_EQ_CKSIZE`. -/
def eqCksize (m : Mode) : Bool := decide (m = pintCksize)

end Mode

/-- `-PVFS_EINVAL`. -/
def negEinval : Int := -(2 ^ 30 + 15)

/-- `PINT_reqstack`. -/
structure Reqstack where
  el : Int
  maxel : Int
  rq : Request
  rqbase : Request
  blk : Nat
  chunkOffset : Int

/-- `PINT_Request_state`. -/
structure RequestState where
  cur : Nat → Reqstack
  lvl : Int
  /-- bytes of the current contiguous chunk already processed -/
  bytes : Int
  /-- logical offset within the request type -/
  typeOffset : Int
  targetOffset : Int
  finalOffset : Int
  eofFlag : Bool

/-- `PINT_Request_result`. -/
structure RequestResult where
  offsetArray : Nat → Int
  sizeArray : Nat → Int
  segmax : Nat
  segs : Nat
  bytemax : Int
  bytes : Int

/-- `PINT_request_file_data`. -/
structure RequestFileData where
  /-- size of the local storage object -/
  fsize : Int
  serverNr : Nat
  serverCt : Nat
  dist : Dist
  extendFlag : Bool

namespace RequestFileData

def nextMappedOffset (rf : RequestFileData) (x : Int) : Int :=
  rf.dist.nextMappedOffset rf.serverNr rf.serverCt x

def logicalToPhysicalOffset (rf : RequestFileData) (x : Int) : Int :=
  rf.dist.logicalToPhysicalOffset rf.serverNr rf.serverCt x

def contiguousLength (rf : RequestFileData) (x : Int) : Int :=
  rf.dist.contiguousLength rf.serverNr rf.serverCt x

/-- How much of the `rest` of a region lies in one fragment at `loff` on this server and within
the byte limit. -/
def fragment (rf : RequestFileData) (res : RequestResult) (loff rest : Int) : Int :=
  let fraglen := rf.contiguousLength (rf.logicalToPhysicalOffset loff)
  -- frag extends beyond this strip
  let sz := if rest > fraglen ∧ rf.serverCt ≠ 1 then fraglen else rest
  -- contiguous segment extends beyond byte limit
  if res.bytes + sz > res.bytemax then res.bytemax - res.bytes else sz

end RequestFileData

/-- The arguments next to the request state that are passed by reference. -/
structure Shared where
  mem : Option RequestState
  rfdata : RequestFileData
  result : RequestResult

/-! ## Request states -/

namespace RequestState

/-- `PINT_new_request_state`. -/
def new (request : Request) : RequestState where
  cur _ := { el := 0, maxel := 1, rq := request, rqbase := request, blk := 0, chunkOffset := 0 }
  lvl := 0
  bytes := 0
  typeOffset := 0
  targetOffset := 0
  finalOffset := request.aggregateSize
  eofFlag := false

/-- `PINT_REQUEST_STATE_SET_TARGET` and `PINT_REQUEST_STATE_SET_FINAL`. -/
def setWindow (req : RequestState) (target final : Int) : RequestState :=
  { req with targetOffset := target, finalOffset := final }

/-- `PINT_REQUEST_STATE_RST`. -/
def rst (req : RequestState) : RequestState :=
  { req with
    lvl := 0
    bytes := 0
    typeOffset := 0
    eofFlag := false
    cur := update req.cur 0
      { req.cur 0 with el := 0, rq := (req.cur 0).rqbase, blk := 0, chunkOffset := 0 } }

/-- `PINT_REQUEST_DONE`. -/
def done (req : RequestState) : Bool :=
  decide (req.typeOffset ≥ req.finalOffset) || req.eofFlag

/-- The level that is being processed. -/
def top (req : RequestState) : Reqstack := req.cur req.lvl.toNat

end RequestState

/-- `PINT_request_disp`: the offsets down the chain of element types. -/
def Request.disp : Request → Int
  | .null => 0
  | .node _ ereq _ => ereq.offset + ereq.disp

/-! ## Decoding the next contiguous chunk -/

/-- What the switch over a level decides on. -/
inductive Decoded where
  /-- process this contiguous region; `lvlFlag`: afterwards the level is finished -/
  | chunk (contigOffset contigSize : Int) (lvlFlag : Bool)
  /-- go to the next level -/
  | descend (level : Reqstack)
  /-- exceeded request depth -/
  | exceeded
  | fault

/-- The contiguity test on the first entry of a sequence: packed bytes, or a size that equals
the extent above an element type of one chunk. -/
def Request.isWhole (rq : Request) : Bool :=
  decide (rq.ereq = .null ∨
    (rq.aggregateSize = rq.extent ∧ rq.ereq.numContigChunks = 1))

/-- The test for a type that is one run of bytes. -/
def Request.isContig (r : Request) : Bool :=
  decide (r.aggregateSize = r.extent ∧ r.numContigChunks = 1)

/-- Where the current block of a level begins. -/
def Reqstack.blockOffset (s : Reqstack) : Int :=
  s.chunkOffset + s.el * s.rqbase.extent + s.rq.offset + s.rq.stride * s.blk

/-- The level pushed for the current block of `s`. -/
def Reqstack.child (s : Reqstack) : Reqstack where
  el := 0
  maxel := s.rq.numEreqs
  rq := s.rq.ereq
  rqbase := s.rq.ereq
  blk := 0
  chunkOffset := s.blockOffset

/-- What to do next, decided by the contiguity tests on the top level of the stack. -/
def RequestState.decode (req : RequestState) : Decoded :=
  let s := req.top
  if s.rq = .null then
    -- NULL type indicates packed data
    .chunk (s.chunkOffset + req.bytes) (s.maxel - req.bytes) true
  else if s.rq = s.rqbase ∧ s.rq.isWhole then
    .chunk (s.rq.offset + s.chunkOffset + req.bytes + s.rq.disp)
      (s.maxel * s.rq.aggregateSize - req.bytes) true
  else if s.rq.ereq = .null then .fault
  else if s.rq.ereq.isContig then
    .chunk (s.blockOffset + req.bytes + s.rq.disp)
      (s.rq.ereq.aggregateSize * s.rq.numEreqs - req.bytes) false
  else if req.lvl + 1 ≥ (req.cur 0).rqbase.depth then .exceeded
  else .descend s.child

/-- The next level is entered. -/
def RequestState.push (req : RequestState) (level : Reqstack) : RequestState :=
  { req with cur := update req.cur (req.lvl + 1).toNat level, lvl := req.lvl + 1 }

/-- Step to the next block, entry of the sequence or element of a level; the flag says that
the last element is finished. -/
def Reqstack.next (s : Reqstack) : Reqstack × Bool :=
  if s.blk + 1 ≥ s.rq.numBlocks then
    if s.rq.sreq = .null then
      ({ s with blk := 0, rq := s.rqbase, el := s.el + 1 }, decide (s.el + 1 ≥ s.maxel))
    else ({ s with blk := 0, rq := s.rq.sreq }, false)
  else ({ s with blk := s.blk + 1 }, false)

/-- The code at the label `return_from_level`, for the level below `n`. -/
def RequestState.returnFromLevel : Nat → RequestState → RequestState
  | 0, req => { req with lvl := -1, bytes := 0 }
  | n + 1, req =>
    let s := (req.cur n).next
    let req := { req with cur := update req.cur n s.1, lvl := n, bytes := 0 }
    if s.2 then returnFromLevel n req else req

/-! ## Adding segments -/

namespace RequestResult

/-- `PINT_ADD_SEGMENT`. -/
def addSegment (res : RequestResult) (offset size : Int) (mode : Mode) : RequestResult :=
  if size > 0 then
    if mode.cksize then { res with segs := res.segs + 1, bytes := res.bytes + size }
    else if 0 < res.segs ∧
        res.offsetArray (res.segs - 1) + res.sizeArray (res.segs - 1) = offset then
      -- combine adjacent segments
      { res with
        sizeArray := update res.sizeArray (res.segs - 1)
          (res.sizeArray (res.segs - 1) + size)
        bytes := res.bytes + size }
    else
      { res with
        offsetArray := update res.offsetArray res.segs offset
        sizeArray := update res.sizeArray res.segs size
        segs := res.segs + 1
        bytes := res.bytes + size }
  else res

/-- The offset is left in the next free entry of the array. -/
def setScratch (res : RequestResult) (offset : Int) : RequestResult :=
  { res with offsetArray := update res.offsetArray res.segs offset }

/-- There is no room for more bytes, or for more segments. -/
def full (res : RequestResult) (mode : Mode) : Prop :=
  res.bytes ≥ res.bytemax ∨ (mode.cksize = false ∧ res.segs ≥ res.segmax)

instance (res : RequestResult) (mode : Mode) : Decidable (res.full mode) :=
  inferInstanceAs (Decidable (_ ∨ _))

end RequestResult

/-! ## Processing, given a distribute function -/

/-- How `PINT_distribute` ends. -/
inductive Distributed where
  | fault
  | ret (retval : Int) (sh : Shared) (eofFlag : Bool)

/-- How `PINT_process_request` ends: the return code and the structures it leaves behind. -/
inductive Processed where
  | fault
  | ret (code : Int) (req : RequestState) (sh : Shared)

/-- The variables of the loop of `PINT_process_request`. -/
structure ProcLoop where
  req : RequestState
  sh : Shared
  mode : Mode

def Shared.scratch (sh : Shared) (mode : Mode) (offset : Int) : Shared :=
  if mode.client then { sh with result := sh.result.setScratch offset } else sh

def ProcLoop.scratched (st : ProcLoop) : Shared :=
  st.sh.scratch st.mode (st.req.typeOffset - st.req.targetOffset)

/-- After calling distribute: account for `retval` bytes of a chunk of `contigSize`. -/
def ProcLoop.after (st : ProcLoop) (retval contigSize : Int) (lvlFlag : Bool) :
    Turn ProcLoop Processed :=
  let req := { st.req with typeOffset := st.req.typeOffset + retval }
  if retval ≠ contigSize then
    let req := { req with bytes := req.bytes + retval }
    if st.mode.logicalSkip then
      .again { st with req := req, mode := { st.mode with logicalSkip := false } }
    else .leave (.ret 0 req st.sh)
  else
    let req := req.returnFromLevel (if lvlFlag then req.lvl else req.lvl + 1).toNat
    if req.lvl < 0 then .leave (.ret 0 req st.sh)
    else if st.sh.result.bytes = st.sh.result.bytemax ∨
        (st.mode.cksize = false ∧ st.sh.result.segs = st.sh.result.segmax) then
      .leave (.ret 0 req st.sh)
    else if req.typeOffset ≥ req.finalOffset then .leave (.ret 0 req st.sh)
    else .again { st with req := req }

/-- One turn of the loop of `PINT_process_request`. -/
def processBody (distribute : Nat → Int → Int → Shared → Mode → Option Distributed)
    (fuel : Nat) (st : ProcLoop) : Option (Turn ProcLoop Processed) :=
  match st.req.decode with
  | .fault => some (.leave .fault)
  | .exceeded => some (.leave (.ret negEinval st.req st.sh))
  | .descend level => some (.again { st with req := st.req.push level })
  | .chunk contigOffset contigSize lvlFlag =>
    let req := st.req
    let sh := st.scratched
    if st.mode.logicalSkip then
      let retval :=
        if req.typeOffset + contigSize ≥ req.targetOffset then
          req.targetOffset - req.typeOffset
        else contigSize
      let eof := decide (sh.rfdata.fsize ≤ req.typeOffset) && !sh.rfdata.extendFlag
      let st := { st with req := { req with eofFlag := eof }, sh := sh }
      some (st.after retval contigSize lvlFlag)
    else
      -- stop at final offset
      let sz :=
        if req.typeOffset + contigSize > req.finalOffset then req.finalOffset - req.typeOffset
        else contigSize
      if st.mode.memreq then
        let res := sh.result
        let sz := if res.bytes + sz ≥ res.bytemax then res.bytemax - res.bytes else sz
        let sh := { sh with result := res.addSegment contigOffset sz st.mode }
        some (ProcLoop.after { st with sh := sh } sz contigSize lvlFlag)
      else
        (distribute fuel contigOffset sz sh st.mode).map fun d =>
          match d with
          | .fault => .leave .fault
          | .ret retval sh eof =>
            if retval = -1 then
              .leave (.ret 0 { req with typeOffset := req.finalOffset, eofFlag := eof }
                { sh with result := { sh.result with segs := 0, bytes := 0 } })
            else
              ProcLoop.after { st with req := { req with eofFlag := eof }, sh := sh }
                retval contigSize lvlFlag

/-- Tile the request: `count` more copies than the one there is. -/
def RequestState.tile (req : RequestState) (count : Int) : RequestState :=
  { req with cur := update req.cur 0 { req.cur 0 with maxel := count + 1 } }

/-- Everything before the loop: resume or restart, the end of the request, tiling. `none` is
the division by a zero aggregate size. -/
def RequestState.prepare (req : RequestState) (sh : Shared) (mode : Mode) :
    Option RequestState :=
  let req := if req.lvl < 0 then req.rst else req
  let req :=
    match sh.mem with
    | some mem =>
      -- automatically set final_offset of req based on mem size
      if mode.client ∧ req.finalOffset = 0 then
        { req with finalOffset := req.targetOffset + (mem.cur 0).rqbase.aggregateSize }
      else req
    | none => req
  if mode.memreq then some req
  else
    -- automatically tile the req
    let base := (req.cur 0).rqbase
    if base = .null then some (req.tile req.finalOffset)
    else if base.aggregateSize = 0 then none
    else some (req.tile (req.finalOffset.tdiv base.aggregateSize))

/-- `PINT_process_request` with `distribute` for `PINT_distribute`. The answer `none` means
that `fuel` turns of a loop were not enough. -/
def processWith (distribute : Nat → Int → Int → Shared → Mode → Option Distributed)
    (fuel : Nat) (req : RequestState) (sh : Shared) (mode : Mode) : Option Processed :=
  let res := sh.result
  if res.segmax = 0 ∨ res.bytemax = 0 then some (.ret negEinval req sh)
  else if res.segs ≥ res.segmax ∨ res.bytes ≥ res.bytemax then some (.ret negEinval req sh)
  else
    match req.prepare sh mode with
    | none => some .fault
    | some work =>
      let mode' :=
        if work.targetOffset > work.typeOffset then { mode with logicalSkip := true } else mode
      (iterate (processBody distribute fuel) fuel ⟨work, sh, mode'⟩).map fun p =>
        match p with
        | .fault => .fault
        -- a size check works on a copy of the request state
        | .ret code work sh => .ret code (if mode.eqCksize then req else work) sh

/-! ## Distributing a contiguous region -/

/-- `PINT_process_request` in `PINT_MEMREQ` mode, which does not distribute. -/
def processMem (fuel : Nat) (mem : RequestState) (rfdata : RequestFileData)
    (result : RequestResult) (mode : Mode) : Option Processed :=
  processWith (fun _ _ _ _ _ => some .fault) fuel mem ⟨none, rfdata, result⟩
    { mode with memreq := true }

/-- The variables of the loop of `PINT_distribute`. -/
structure DistLoop where
  offset : Int
  size : Int
  loff : Int
  sh : Shared
  eofFlag : Bool

/-- The part of a fragment of `sz` bytes at `poff` that lies before the end of the file:
the file may grow, or `sz` is cut and the end of the file is noted. -/
def clipEof (rf : RequestFileData) (poff sz : Int) : RequestFileData × Int × Bool :=
  if poff + sz > rf.fsize then
    if rf.extendFlag then ({ rf with fsize := poff + sz }, sz, false)
    else (rf, rf.fsize - poff, true)
  else (rf, sz, false)

/-- What becomes of a fragment. -/
inductive Emitted where
  | fault
  /-- there are no new segments within the memory request -/
  | stop (sh : Shared)
  | added (sz : Int) (sh : Shared)

/-- Process a segment: on a server it lies at `poff`, on a client `diff` bytes behind the scratch
entry, which a memory request turns into places in memory. -/
def emit (mode : Mode) (fuel : Nat) (sh : Shared) (diff poff sz : Int) : Option Emitted :=
  let res := sh.result
  let poff := if mode.client then res.offsetArray res.segs + diff else poff
  match mode.client, sh.mem with
  | true, some mem =>
    (processMem fuel (mem.setWindow poff (poff + sz)) sh.rfdata res mode).map fun p =>
      match p with
      | .fault => .fault
      | .ret _ mem sh =>
        let sz := mem.typeOffset - poff
        let sh := { sh with mem := some mem }
        if sz ≤ 0 ∧ sh.result.segs = res.segs then .stop sh else .added sz sh
  | _, _ => some (.added sz { sh with result := res.addSegment poff sz mode })

def Shared.rescratch (sh : Shared) (mode : Mode) : Shared :=
  let res := sh.result
  if mode.client ∧ res.segs < res.segmax then
    { sh with
      result := res.setScratch (res.offsetArray (res.segs - 1) + res.sizeArray (res.segs - 1)) }
  else sh

/-- The bookkeeping after a segment of `sz` bytes has been added: step over the segment, and see
whether we are finished. -/
def DistLoop.advance (st : DistLoop) (sz : Int) (mode : Mode) :
    Turn DistLoop (Option DistLoop) :=
  let st := { st with sh := st.sh.rescratch mode }
  -- sz should never be zero or negative
  if sz < 1 then .leave (some st)
  else
    let loff := st.loff + sz
    let size := st.size - (loff - st.offset)
    let next := st.sh.rfdata.nextMappedOffset loff
    -- assert(-1 != loff)
    if next = -1 then .leave none
    else
      let st := { st with offset := loff, size := size, loff := next }
      if st.sh.result.full mode then .leave (some st) else .again st

/-- One turn of the loop of `PINT_distribute`; leaving with `none` is a failed assertion. -/
def distributeBody (mode : Mode) (fuel : Nat) (st : DistLoop) :
    Option (Turn DistLoop (Option DistLoop)) :=
  let rf := st.sh.rfdata
  let diff := st.loff - st.offset
  if diff < st.size then
    let poff := rf.logicalToPhysicalOffset st.loff
    let (rf, sz, hitEof) := clipEof rf poff (rf.fragment st.sh.result st.loff (st.size - diff))
    let st := { st with sh := { st.sh with rfdata := rf }, eofFlag := st.eofFlag || hitEof }
    if hitEof ∧ sz ≤ 0 then
      -- not even any more bytes before EOF
      some (.leave (some st))
    else
      (emit mode fuel st.sh diff poff sz).map fun e =>
        match e with
        | .fault => .leave none
        | .stop sh => .leave (some { st with sh := sh })
        | .added sz sh => DistLoop.advance { st with sh := sh } sz mode
  else some (.leave (some st))

def DistLoop.atEof (st : DistLoop) : Bool :=
  let rf := st.sh.rfdata
  st.eofFlag || (decide (rf.logicalToPhysicalOffset st.loff ≥ rf.fsize) && !rf.extendFlag)

/-- `PINT_distribute`. -/
def distribute (fuel : Nat) (offset size : Int) (sh : Shared) (mode : Mode) :
    Option Distributed :=
  if sh.result.full mode ∨ size = 0 then
    -- not an error, but we didn't process any bytes
    some (.ret 0 sh false)
  else
    let loff := sh.rfdata.nextMappedOffset offset
    if loff = -1 then some (.ret (-1) sh false)
    else
      (iterate (distributeBody mode fuel) fuel ⟨offset, size, loff, sh, false⟩).map fun l =>
        match l with
        | none => .fault
        | some st =>
          .ret (if st.loff ≥ offset + size then size else st.offset - offset) st.sh st.atEof

/-- `PINT_process_request`. -/
def processRequest (fuel : Nat) (req : RequestState) (sh : Shared) (mode : Mode) :
    Option Processed :=
  processWith distribute fuel req sh mode

/-! ## Calling it again until the request is done -/

namespace RequestResult

/-- What a caller does to its result before every call: new budgets, nothing written. -/
def reset (res : RequestResult) (segmax : Nat) (bytemax : Int) : RequestResult :=
  { res with segmax := segmax, segs := 0, bytemax := bytemax, bytes := 0 }

/-- The segments of a result, in the order in which they were added. -/
def segments (res : RequestResult) : List (Int × Int) :=
  (List.range res.segs).map fun i => (res.offsetArray i, res.sizeArray i)

end RequestResult

/-- A striped file that may grow, seen from server `nr` of `ct`. -/
def RequestFileData.striped (strip : Int) (nr ct : Nat) : RequestFileData where
  fsize := 0
  serverNr := nr
  serverCt := ct
  dist := .simpleStripe strip
  extendFlag := true

/-- The structures of a caller with no memory type that has not called yet. -/
def Shared.fresh (rfdata : RequestFileData) : Shared where
  mem := none
  rfdata := rfdata
  result := { offsetArray := fun _ => 0, sizeArray := fun _ => 0, segmax := 0, segs := 0,
              bytemax := 0, bytes := 0 }

/-- Call with one budget after the other until the request is done, and collect the segments.
`none` is a budget of turns that is too small, an error code or a fault. -/
def processCalls (fuel : Nat) (mode : Mode) :
    List (Nat × Int) → RequestState → Shared → Option (List (Int × Int) × RequestState × Shared)
  | [], req, sh => some ([], req, sh)
  | b :: budgets, req, sh =>
    if req.done then some ([], req, sh)
    else
      match processRequest fuel req { sh with result := sh.result.reset b.1 b.2 } mode with
      | some (.ret code req' sh') =>
        if code = 0 then
          (processCalls fuel mode budgets req' sh').map fun r => (sh'.result.segments ++ r.1, r.2)
        else none
      | _ => none

end Pvfs.Description
