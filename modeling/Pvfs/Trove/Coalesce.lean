import Pvfs.Lib.Steps
import Mathlib.Data.List.Count

/-! # Queueing, servicing and sync coalescing of metadata operations (dbpf-sync.c)

Metadata operations wait in one queue, are serviced, and are then handed to
`dbpf_sync_coalesce`. An operation that was posted with `TROVE_SYNC` is completed only after a
sync of its database, but not every operation pays for a sync of its own: as long as others are
queued it is *parked* in the coalesce queue of its context, and the next operation that does
sync releases everything that is parked there. Whether to sync is decided by the sync counter
of the context, which enqueueing and dequeueing keep, and by the watermarks of the collection.

There is a coalesce queue for each context and each kind of operation (keyval or dspace), and
only for these: operations of different collections share it.

A run is a list of events (`Pvfs.Lib.exec`): posting, dequeueing by the service thread,
returning from the service routine, coalescing, cancelling, and the conversion of a bytestream
operation that has changed the size of a datafile into a `DSPACE_SETATTR` that goes through
coalescing without ever having been queued. Each event is atomic, as the mutexes make it.
`unsynced` is not part of the program: it is the set of updates that no successful sync of
their database has followed. -/

namespace Pvfs.Trove

open Pvfs.Lib List

/-- `enum dbpf_op_type`, the metadata operations. -/
inductive OpType where
  | keyvalRead | keyvalWrite | keyvalRemoveKey | keyvalValidate | keyvalIterate
  | keyvalIterateKeys | keyvalReadList | keyvalWriteList | keyvalFlush | keyvalGetHandleInfo
  | dspaceCreate | dspaceRemove | dspaceIterateHandles | dspaceVerify | dspaceGetattr
  | dspaceSetattr | dspaceGetattrList | dspaceCreateList | dspaceRemoveList
deriving DecidableEq, Repr

/-- `enum s_sync_context_e`. -/
inductive SyncKind where
  | keyval
  | dspace
deriving DecidableEq, Repr

namespace OpType

/-- `dbpf_sync_get_object_sync_context`. -/
def kind : OpType → SyncKind
  | keyvalRead | keyvalWrite | keyvalRemoveKey | keyvalValidate | keyvalIterate
  | keyvalIterateKeys | keyvalReadList | keyvalWriteList | keyvalFlush | keyvalGetHandleInfo =>
    .keyval
  | _ => .dspace

/-- `DBPF_OP_DOES_SYNC`. -/
def doesSync : OpType → Bool
  | keyvalWrite | keyvalRemoveKey | keyvalWriteList | dspaceCreate | dspaceCreateList
  | dspaceRemove | dspaceSetattr => true
  | _ => false

/-- The service routine changes the database (an iteration only if it is asked to remove). -/
def updates : OpType → Bool → Bool
  | keyvalIterate, iterateRemove | keyvalIterateKeys, iterateRemove => iterateRemove
  | dspaceRemoveList, _ => true
  | t, _ => t.doesSync

end OpType

/-- A `dbpf_queued_op_t`. -/
structure MetaOp where
  id : Nat
  type : OpType
  coll : Nat
  context : Nat
  /-- `TROVE_SYNC` -/
  sync : Bool
  /-- `TROVE_KEYVAL_ITERATE_REMOVE` -/
  iterateRemove : Bool
deriving DecidableEq, Repr

/-- The fields of `struct dbpf_collection` that coalescing reads. -/
structure Collection where
  metaSyncEnabled : Bool
  highWatermark : Int
  lowWatermark : Int
deriving DecidableEq, Repr

abbrev RetCode := Except Nat Unit

/-- `dbpf_sync_context_t`. -/
structure SyncContext where
  syncCounter : Int
  nonSyncCounter : Int
  coalesceCounter : Int
  syncQueue : List (MetaOp × RetCode)

/-- How an operation has ended: `OP_COMPLETED` or `OP_CANCELED`. -/
inductive OpEnd where
  | completed
  | canceled
deriving DecidableEq, Repr

structure Finished where
  op : MetaOp
  state : RetCode
  opEnd : OpEnd

/-- The operation queue, the operations in service (with their return code once the service routine
has returned), the sync contexts and the completion queues. -/
structure SyncState where
  queue : List MetaOp
  inService : List (MetaOp × Option RetCode)
  ctx : SyncKind → Nat → SyncContext
  completion : List Finished
  posted : List MetaOp
  unsynced : List MetaOp

/-- The state after `dbpf_sync_context_init`. -/
def SyncState.init : SyncState :=
  ⟨[], [], fun _ _ => ⟨0, 0, 0, []⟩, [], [], []⟩

/-- What a service routine returns: 1 or a negative error, or 0, and then it is called again.
(`dbpf_do_one_work_cycle` also has a branch for a positive `DBPF_ERROR_UNKNOWN`, but every
service routine negates the error that it gets from Berkeley DB.) -/
inductive Outcome where
  | returned (ret : RetCode)
  | again

inductive SyncEvent where
  | post (op : MetaOp)
  | convert (op : MetaOp)
  | dequeue
  | serve (op : MetaOp) (out : Outcome)
  | coalesce (op : MetaOp) (ret : RetCode) (dbSync : Bool)
  | cancel (op : MetaOp)

namespace SyncState

variable (s : SyncState)

def onCtx (kind : SyncKind) (context : Nat) (f : SyncContext → SyncContext) : SyncState :=
  { s with ctx := fun k n => if k = kind ∧ n = context then f (s.ctx k n) else s.ctx k n }

/-- `dbpf_sync_coalesce_enqueue` and `_dequeue`, with `1` and `-1`. -/
def count (op : MetaOp) (n : Int) : SyncState :=
  if op.type.doesSync then
    s.onCtx op.type.kind op.context fun c =>
      if op.sync then { c with syncCounter := c.syncCounter + n }
      else { c with nonSyncCounter := c.nonSyncCounter + n }
  else s

/-- `dbpf_queued_op_queue_nolock`. -/
def enqueue (op : MetaOp) : SyncState :=
  { s with queue := s.queue ++ [op] }.count op 1

/-- `dbpf_queued_op_complete` and the `DBPF_COMPLETION_` macros. -/
def complete (done : List Finished) : SyncState :=
  { s with completion := s.completion ++ done }

/-- `dbpf_sync_db`: a successful sync covers every update of that database so far. -/
def dbSync (coll : Nat) (kind : SyncKind) (ok : Bool) : SyncState :=
  if ok then { s with unsynced := s.unsynced.filter fun op =>
    !(decide (op.coll = coll ∧ op.type.kind = kind)) } else s

/-- `dbpf_sync_coalesce`. -/
def syncCoalesce (colls : Nat → Collection) (op : MetaOp) (ret : RetCode) (ok : Bool) :
    SyncState :=
  if !op.type.doesSync then s.complete [⟨op, ret, .completed⟩]
  else if !op.sync then s.complete [⟨op, ret, .completed⟩]
  else
    let coll := colls op.coll
    let kind := op.type.kind
    let c := s.ctx kind op.context
    if !coll.metaSyncEnabled then
      let s := s.complete [⟨op, ret, .completed⟩]
      if (0 < coll.highWatermark ∧ coll.highWatermark ≤ c.coalesceCounter + 1) ∨
          c.syncCounter < coll.lowWatermark then
        (s.onCtx kind op.context fun c => { c with coalesceCounter := 0 }).dbSync op.coll kind ok
      else s.onCtx kind op.context fun c => { c with coalesceCounter := c.coalesceCounter + 1 }
    else if c.syncCounter < coll.lowWatermark ∨
        (0 < coll.highWatermark ∧ coll.highWatermark ≤ c.coalesceCounter) then
      -- the result of the sync is overwritten, and everything parked is released
      ((s.dbSync op.coll kind ok).complete
        (⟨op, ret, .completed⟩ :: c.syncQueue.map fun p => ⟨p.1, p.2, .completed⟩)).onCtx kind
          op.context fun c => { c with coalesceCounter := 0, syncQueue := [] }
    else
      s.onCtx kind op.context fun c =>
        { c with syncQueue := c.syncQueue ++ [(op, ret)]
                 coalesceCounter := c.coalesceCounter + 1 }

/-- One event; `none` if it is not enabled. -/
def step (colls : Nat → Collection) (s : SyncState) : SyncEvent → Option SyncState
  | .post op =>
    if op ∈ s.posted then none else some ({ s with posted := op :: s.posted }.enqueue op)
  | .convert op =>
    -- a bytestream operation becomes a `DSPACE_SETATTR` that has set the size already
    if op ∈ s.posted ∨ op.type ≠ .dspaceSetattr ∨ op.sync = false then none
    else some { s with posted := op :: s.posted
                       inService := s.inService ++ [(op, some (.ok ()))]
                       unsynced := op :: s.unsynced }
  | .dequeue =>
    match s.queue with
    | [] => none
    | op :: queue =>
      some ({ s with queue := queue, inService := s.inService ++ [(op, none)] }.count op (-1))
  | .serve op out =>
    if (op, none) ∈ s.inService then
      match out with
      | .returned ret =>
        some { s with
          inService := s.inService.erase (op, none) ++ [(op, some ret)]
          unsynced := if op.type.updates op.iterateRemove ∧ ret = .ok () then op :: s.unsynced
            else s.unsynced }
      | .again => some ({ s with inService := s.inService.erase (op, none) }.enqueue op)
    else none
  | .coalesce op ret ok =>
    if (op, some ret) ∈ s.inService then
      some ({ s with inService := s.inService.erase (op, some ret) }.syncCoalesce colls op ret ok)
    else none
  | .cancel op =>
    -- `dbpf_dspace_cancel`: the operation leaves the queue, and the counters stay as they are
    if op ∈ s.queue then
      some ({ s with queue := s.queue.erase op }.complete [⟨op, .ok (), .canceled⟩])
    else some s

/-- **What a step can do.** -/
inductive Stepped (colls : Nat → Collection) (s : SyncState) : SyncEvent → SyncState → Prop
  | post {op : MetaOp} (hnew : op ∉ s.posted) :
    Stepped colls s (.post op) ({ s with posted := op :: s.posted }.enqueue op)
  | convert {op : MetaOp} (hnew : op ∉ s.posted) :
    Stepped colls s (.convert op) { s with
      posted := op :: s.posted
      inService := s.inService ++ [(op, some (.ok ()))]
      unsynced := op :: s.unsynced }
  | dequeue {op : MetaOp} {queue : List MetaOp} (hqueue : s.queue = op :: queue) :
    Stepped colls s .dequeue
      ({ s with queue := queue, inService := s.inService ++ [(op, none)] }.count op (-1))
  | returned {op : MetaOp} {ret : RetCode} (hin : (op, none) ∈ s.inService) :
    Stepped colls s (.serve op (.returned ret)) { s with
      inService := s.inService.erase (op, none) ++ [(op, some ret)]
      unsynced := if op.type.updates op.iterateRemove ∧ ret = .ok () then op :: s.unsynced
        else s.unsynced }
  | again {op : MetaOp} (hin : (op, none) ∈ s.inService) :
    Stepped colls s (.serve op .again)
      ({ s with inService := s.inService.erase (op, none) }.enqueue op)
  | coalesce {op : MetaOp} {ret : RetCode} {ok : Bool} (hin : (op, some ret) ∈ s.inService) :
    Stepped colls s (.coalesce op ret ok)
      ({ s with inService := s.inService.erase (op, some ret) }.syncCoalesce colls op ret ok)
  | canceled {op : MetaOp} (hin : op ∈ s.queue) :
    Stepped colls s (.cancel op)
      ({ s with queue := s.queue.erase op }.complete [⟨op, .ok (), .canceled⟩])
  | missed {op : MetaOp} (hnot : op ∉ s.queue) : Stepped colls s (.cancel op) s

theorem Stepped.of_step {colls : Nat → Collection} {s s' : SyncState} {e : SyncEvent}
    (h : step colls s e = some s') : Stepped colls s e s' := by
  cases e with
  | post op =>
    obtain ⟨hnew, h⟩ := Option.ite_none_left_eq_some.mp h
    cases h
    exact .post hnew
  | convert op =>
    obtain ⟨hnew, h⟩ := Option.ite_none_left_eq_some.mp h
    cases h
    exact .convert (not_or.mp hnew).1
  | dequeue =>
    simp only [step] at h
    split at h
    · cases h
    · next op queue hqueue =>
      cases h
      exact .dequeue hqueue
  | serve op out =>
    obtain ⟨hin, h⟩ := Option.ite_none_right_eq_some.mp h
    cases out with
    | returned ret =>
      cases h
      exact .returned hin
    | again =>
      cases h
      exact .again hin
  | coalesce op ret ok =>
    obtain ⟨hin, h⟩ := Option.ite_none_right_eq_some.mp h
    cases h
    exact .coalesce hin
  | cancel op =>
    simp only [step] at h
    split at h
    · next hin =>
      cases h
      exact .canceled hin
    · next hnot =>
      cases h
      exact .missed hnot

/-! ## What the building blocks change -/

/-- The operation is among those that a context counts. -/
def counted (kind : SyncKind) (context : Nat) (op : MetaOp) : Bool :=
  op.type.doesSync && op.sync && decide (op.type.kind = kind ∧ op.context = context)

section
variable {s : SyncState} {op : MetaOp} {kind k : SyncKind} {context n : Nat}
  {f : SyncContext → SyncContext}

theorem counted_iff : counted kind context op = true ↔
    op.type.doesSync = true ∧ op.sync = true ∧ op.type.kind = kind ∧ op.context = context := by
  simp [counted, and_assoc]

theorem counted_of_not (h : op.type.doesSync = false ∨ op.sync = false) :
    counted kind context op = false := by
  obtain h | h := h <;> simp [counted, h]

theorem onCtx_ctx (k : SyncKind) (n : Nat) : (s.onCtx kind context f).ctx k n =
    if k = kind ∧ n = context then f (s.ctx k n) else s.ctx k n := rfl

@[simp] theorem onCtx_same : (s.onCtx kind context f).ctx kind context = f (s.ctx kind context) :=
  if_pos ⟨rfl, rfl⟩

theorem onCtx_other (h : ¬ (k = kind ∧ n = context)) :
    (s.onCtx kind context f).ctx k n = s.ctx k n := if_neg h

theorem onCtx_keeps {α : Type} (field : SyncContext → α) (h : ∀ c, field (f c) = field c)
    (k : SyncKind) (n : Nat) : field ((s.onCtx kind context f).ctx k n) = field (s.ctx k n) := by
  rw [onCtx_ctx]
  split
  · exact h _
  · rfl

section
variable (op) (i : Int)

theorem count_eq :
    (s.count op i).queue = s.queue ∧ (s.count op i).inService = s.inService ∧
    (s.count op i).completion = s.completion ∧ (s.count op i).posted = s.posted ∧
    (s.count op i).unsynced = s.unsynced := by
  unfold count
  split
  · exact ⟨rfl, rfl, rfl, rfl, rfl⟩
  · exact ⟨rfl, rfl, rfl, rfl, rfl⟩

@[simp] theorem count_queue : (s.count op i).queue = s.queue :=
  (count_eq op i).1

@[simp] theorem count_inService :
    (s.count op i).inService = s.inService := (count_eq op i).2.1

@[simp] theorem count_completion :
    (s.count op i).completion = s.completion := (count_eq op i).2.2.1

@[simp] theorem count_posted : (s.count op i).posted = s.posted :=
  (count_eq op i).2.2.2.1

@[simp] theorem count_unsynced : (s.count op i).unsynced = s.unsynced :=
  (count_eq op i).2.2.2.2

@[simp] theorem count_syncQueue (k : SyncKind) (n : Nat) :
    ((s.count op i).ctx k n).syncQueue = (s.ctx k n).syncQueue := by
  unfold count
  split
  · apply onCtx_keeps SyncContext.syncQueue
    intro c
    split <;> rfl
  · rfl

theorem count_syncCounter (k : SyncKind) (n : Nat) :
    ((s.count op i).ctx k n).syncCounter =
      (s.ctx k n).syncCounter + if counted k n op then i else 0 := by
  unfold count
  by_cases hsync : op.type.doesSync = true
  · rw [if_pos hsync, onCtx_ctx]
    by_cases h : k = op.type.kind ∧ n = op.context
    · obtain ⟨rfl, rfl⟩ := h
      cases hflag : op.sync <;> simp [counted, hsync, hflag]
    · rw [if_neg h, if_neg, Int.add_zero]
      intro hc
      obtain ⟨-, -, hk, hn⟩ := counted_iff.mp hc
      exact h ⟨hk.symm, hn.symm⟩
  · rw [if_neg hsync, if_neg, Int.add_zero]
    intro hc
    exact hsync (counted_iff.mp hc).1

end

theorem dbSync_eq (coll : Nat) (kind : SyncKind) (ok : Bool) :
    (s.dbSync coll kind ok).queue = s.queue ∧ (s.dbSync coll kind ok).inService = s.inService ∧
    (s.dbSync coll kind ok).ctx = s.ctx ∧
    (s.dbSync coll kind ok).completion = s.completion ∧
    (s.dbSync coll kind ok).posted = s.posted := by
  cases ok <;> exact ⟨rfl, rfl, rfl, rfl, rfl⟩

end

/-- The four ways an operation can leave `dbpf_sync_coalesce`: completed without being counted,
completed on its own (metadata sync is disabled), completed together with everything parked,
or parked. -/
inductive Coalesced (colls : Nat → Collection) (s : SyncState) (op : MetaOp) (ret : RetCode)
    (ok : Bool) (s' : SyncState) : Prop
  | uncounted
    (hnot : op.type.doesSync = false ∨ op.sync = false)
    (hctx : s'.ctx = s.ctx)
    (hdone : s'.completion = s.completion ++ [⟨op, ret, .completed⟩])
    (hunsynced : s'.unsynced = s.unsynced)
  | alone
    (hsync : op.type.doesSync = true) (hflag : op.sync = true)
    (hdisabled : (colls op.coll).metaSyncEnabled = false)
    (hcounter : ∀ k n, (s'.ctx k n).syncCounter = (s.ctx k n).syncCounter)
    (hqueue : ∀ k n, (s'.ctx k n).syncQueue = (s.ctx k n).syncQueue)
    (hdone : s'.completion = s.completion ++ [⟨op, ret, .completed⟩])
    (hunsynced : s'.unsynced = s.unsynced ∨
      s'.unsynced = (s.dbSync op.coll op.type.kind ok).unsynced)
  | released
    (hsync : op.type.doesSync = true) (hflag : op.sync = true)
    (henabled : (colls op.coll).metaSyncEnabled = true)
    (hcounter : ∀ k n, (s'.ctx k n).syncCounter = (s.ctx k n).syncCounter)
    (hempty : (s'.ctx op.type.kind op.context).syncQueue = [])
    (hother : ∀ k n, ¬ (k = op.type.kind ∧ n = op.context) → s'.ctx k n = s.ctx k n)
    (hdone : s'.completion = s.completion ++ (⟨op, ret, .completed⟩ ::
      (s.ctx op.type.kind op.context).syncQueue.map fun p => ⟨p.1, p.2, .completed⟩))
    (hunsynced : s'.unsynced = (s.dbSync op.coll op.type.kind ok).unsynced)
  | parked
    (hsync : op.type.doesSync = true) (hflag : op.sync = true)
    (henabled : (colls op.coll).metaSyncEnabled = true)
    (hlow : (colls op.coll).lowWatermark ≤ (s.ctx op.type.kind op.context).syncCounter)
    (hcounter : ∀ k n, (s'.ctx k n).syncCounter = (s.ctx k n).syncCounter)
    (hqueue : (s'.ctx op.type.kind op.context).syncQueue =
      (s.ctx op.type.kind op.context).syncQueue ++ [(op, ret)])
    (hother : ∀ k n, ¬ (k = op.type.kind ∧ n = op.context) → s'.ctx k n = s.ctx k n)
    (hdone : s'.completion = s.completion)
    (hunsynced : s'.unsynced = s.unsynced)

theorem syncCoalesce_cases (colls : Nat → Collection) (s : SyncState) (op : MetaOp)
    (ret : RetCode) (ok : Bool) : Coalesced colls s op ret ok (s.syncCoalesce colls op ret ok) ∧
      (s.syncCoalesce colls op ret ok).queue = s.queue ∧
      (s.syncCoalesce colls op ret ok).inService = s.inService ∧
      (s.syncCoalesce colls op ret ok).posted = s.posted := by
  unfold syncCoalesce
  cases hsync : op.type.doesSync with
  | false => exact ⟨.uncounted (.inl hsync) rfl rfl rfl, rfl, rfl, rfl⟩
  | true =>
    cases hflag : op.sync with
    | false => exact ⟨.uncounted (.inr hflag) rfl rfl rfl, rfl, rfl, rfl⟩
    | true =>
      dsimp only
      cases henabled : (colls op.coll).metaSyncEnabled with
      | false =>
        simp only [Bool.not_true, Bool.not_false, if_true, Bool.false_eq_true, if_false]
        split
        · obtain ⟨hq, hi, hc, hd, hp⟩ := @dbSync_eq
            ((s.complete [⟨op, ret, .completed⟩]).onCtx op.type.kind op.context
              fun c => { c with coalesceCounter := 0 }) op.coll op.type.kind ok
          refine ⟨.alone hsync hflag henabled ?_ ?_ hd (.inr ?_), hq, hi, hp⟩
          · rw [hc]
            exact onCtx_keeps SyncContext.syncCounter (fun _ => rfl)
          · rw [hc]
            exact onCtx_keeps SyncContext.syncQueue (fun _ => rfl)
          · cases ok <;> rfl
        · refine ⟨.alone hsync hflag henabled ?_ ?_ rfl (.inl rfl), rfl, rfl, rfl⟩
          · exact onCtx_keeps SyncContext.syncCounter (fun _ => rfl)
          · exact onCtx_keeps SyncContext.syncQueue (fun _ => rfl)
      | true =>
        simp only [Bool.not_true, Bool.false_eq_true, if_false]
        obtain ⟨hq, hi, hc, hd, hp⟩ := @dbSync_eq s op.coll op.type.kind ok
        split
        · refine ⟨.released hsync hflag henabled ?_ ?_ ?_ ?_ rfl, hq, hi, hp⟩
          · rw [← hc]
            exact onCtx_keeps SyncContext.syncCounter (fun _ => rfl)
          · rw [onCtx_same]
          · intro k n hk
            rw [onCtx_other hk, ← hc]
            rfl
          · rw [← hd]
            rfl
        · next hnot =>
          refine ⟨.parked hsync hflag henabled (by omega) ?_ ?_ ?_ rfl rfl, rfl, rfl, rfl⟩
          · exact onCtx_keeps SyncContext.syncCounter (fun _ => rfl)
          · rw [onCtx_same]
          · intro k n hk
            exact onCtx_other hk

/-! ## Every posted operation is in one place -/

/-- In how many places an operation is. -/
def places (s : SyncState) (op : MetaOp) : Nat :=
  s.queue.count op + (s.inService.map Prod.fst).count op +
    ((s.ctx op.type.kind op.context).syncQueue.map Prod.fst).count op +
    (s.completion.map Finished.op).count op

def ParkedHome (s : SyncState) : Prop :=
  ∀ k n, ∀ p ∈ (s.ctx k n).syncQueue, p.1.type.kind = k ∧ p.1.context = n

/-- An operation that was posted is in one place. -/
structure EachOnce (s : SyncState) : Prop where
  nodup : s.posted.Nodup
  parked : s.ParkedHome
  places : ∀ op, s.places op = s.posted.count op

theorem eachOnce_init : EachOnce init where
  nodup := nodup_nil
  parked := fun _ _ _ hp => absurd hp not_mem_nil
  places := fun _ => rfl

theorem ParkedHome.count_eq_zero {s : SyncState} (h : s.ParkedHome) {kind : SyncKind}
    {context : Nat} {o : MetaOp} (hne : ¬ (o.type.kind = kind ∧ o.context = context)) :
    ((s.ctx kind context).syncQueue.map Prod.fst).count o = 0 := by
  apply List.count_eq_zero.mpr
  intro hmem
  obtain ⟨p, hp, rfl⟩ := mem_map.mp hmem
  exact hne (h kind context p hp)

theorem count_places (s : SyncState) (op : MetaOp) (i : Int) (o : MetaOp) :
    (s.count op i).places o = s.places o := by
  simp [places]

theorem enqueue_places (s : SyncState) (op o : MetaOp) :
    (s.enqueue op).places o = s.places o + [op].count o := by
  rw [enqueue, count_places]
  simp only [places, count_append]
  omega

theorem count_cons_one (op : MetaOp) (l : List MetaOp) (o : MetaOp) :
    (op :: l).count o = [op].count o + l.count o := by
  rw [← singleton_append, count_append]

section
variable {s : SyncState} (colls : Nat → Collection) (hparked : s.ParkedHome) (op : MetaOp)
  (ret : RetCode) (ok : Bool)
include hparked

theorem syncCoalesce_places (o : MetaOp) :
    (s.syncCoalesce colls op ret ok).places o = s.places o + [op].count o := by
  obtain ⟨hcase, hq, hi, -⟩ := syncCoalesce_cases colls s op ret ok
  unfold places
  rw [hq, hi]
  cases hcase with
  | uncounted _ hctx hdone _ =>
    rw [hctx, hdone, map_append, count_append]
    simp only [map_cons, map_nil]
    omega
  | alone _ _ _ _ hqueue hdone _ =>
    rw [hqueue, hdone, map_append, count_append]
    simp only [map_cons, map_nil]
    omega
  | released _ _ _ _ hempty hother hdone _ =>
    have hnew : (List.map Finished.op (⟨op, ret, .completed⟩ ::
        (s.ctx op.type.kind op.context).syncQueue.map fun p => ⟨p.1, p.2, .completed⟩)).count o =
        [op].count o + ((s.ctx op.type.kind op.context).syncQueue.map Prod.fst).count o := by
      rw [map_cons, map_map, count_cons_one]
      rfl
    rw [hdone, map_append, count_append, hnew]
    by_cases ho : o.type.kind = op.type.kind ∧ o.context = op.context
    · rw [ho.1, ho.2, hempty]
      simp only [map_nil, count_nil]
      omega
    · rw [hother _ _ ho, hparked.count_eq_zero ho]
      omega
  | parked _ _ _ _ _ hqueue hother hdone _ =>
    rw [hdone]
    by_cases ho : o.type.kind = op.type.kind ∧ o.context = op.context
    · rw [ho.1, ho.2, hqueue, map_append, count_append]
      simp only [map_cons, map_nil]
      omega
    · have hne : [op].count o = 0 := by
        apply count_eq_zero.mpr
        intro hmem
        obtain rfl := mem_singleton.mp hmem
        exact ho ⟨rfl, rfl⟩
      rw [hother _ _ ho, hne, Nat.add_zero]

theorem syncCoalesce_parkedHome : (s.syncCoalesce colls op ret ok).ParkedHome := by
  intro k n p hp
  cases (syncCoalesce_cases colls s op ret ok).1 with
  | uncounted _ hctx _ _ => exact hparked k n p (hctx ▸ hp)
  | alone _ _ _ _ hqueue _ _ => exact hparked k n p (hqueue k n ▸ hp)
  | released _ _ _ _ hempty hother _ _ =>
    by_cases hk : k = op.type.kind ∧ n = op.context
    · obtain ⟨rfl, rfl⟩ := hk
      rw [hempty] at hp
      exact absurd hp not_mem_nil
    · exact hparked k n p (hother k n hk ▸ hp)
  | parked _ _ _ _ _ hqueue hother _ _ =>
    by_cases hk : k = op.type.kind ∧ n = op.context
    · obtain ⟨rfl, rfl⟩ := hk
      rw [hqueue] at hp
      rcases mem_append.mp hp with hp | hp
      · exact hparked _ _ p hp
      · obtain rfl := mem_singleton.mp hp
        exact ⟨rfl, rfl⟩
    · exact hparked k n p (hother k n hk ▸ hp)

end

theorem count_map_erase {l : List (MetaOp × Option RetCode)} {x : MetaOp × Option RetCode}
    (hx : x ∈ l) (o : MetaOp) :
    (l.map Prod.fst).count o = [x.1].count o + ((l.erase x).map Prod.fst).count o := by
  rw [((perm_cons_erase hx).map Prod.fst).count_eq o, map_cons, count_cons_one]

section
variable {s s' : SyncState} (h : EachOnce s)
  (hqueue : ∀ k n, (s'.ctx k n).syncQueue = (s.ctx k n).syncQueue)
include h hqueue

theorem EachOnce.move (hposted : s'.posted = s.posted) (hplaces : ∀ o, s'.places o = s.places o) :
    EachOnce s' where
  nodup := hposted ▸ h.nodup
  parked := fun k n p hp => h.parked k n p (hqueue k n ▸ hp)
  places := fun o => by rw [hplaces, h.places, hposted]

theorem EachOnce.add {op : MetaOp} (hnew : op ∉ s.posted) (hposted : s'.posted = op :: s.posted)
    (hplaces : ∀ o, s'.places o = s.places o + [op].count o) : EachOnce s' where
  nodup := hposted ▸ nodup_cons.mpr ⟨hnew, h.nodup⟩
  parked := fun k n p hp => h.parked k n p (hqueue k n ▸ hp)
  places := fun o => by
    rw [hplaces, h.places, hposted, count_cons_one op s.posted, Nat.add_comm]

end

theorem step_eachOnce (colls : Nat → Collection) (s : SyncState) (e : SyncEvent)
    (s' : SyncState) (h : EachOnce s) (hstep : step colls s e = some s') : EachOnce s' := by
  cases Stepped.of_step hstep with
  | post hnew =>
    exact h.add (fun k n => by simp [enqueue]) hnew (by simp [enqueue]) (enqueue_places _ _)
  | convert hnew =>
    refine h.add (fun _ _ => rfl) hnew rfl fun o => ?_
    simp only [places, map_append, map_cons, map_nil, count_append]
    omega
  | @dequeue op queue hqueue =>
    refine h.move (fun k n => by simp) (by simp) fun o => ?_
    rw [count_places]
    simp only [places, hqueue, map_append, map_cons, map_nil, count_append,
      count_cons_one op queue]
    omega
  | returned hin =>
    refine h.move (fun _ _ => rfl) rfl fun o => ?_
    simp only [places, count_map_erase hin o, map_append, map_cons, map_nil,
      count_append]
    omega
  | again hin =>
    refine h.move (fun k n => by simp [enqueue]) (by simp [enqueue]) fun o => ?_
    rw [enqueue_places]
    simp only [places, count_map_erase hin o]
    omega
  | @coalesce op ret ok hin =>
    have hparked : ParkedHome { s with inService := s.inService.erase (op, some ret) } :=
      h.parked
    have hposted := (syncCoalesce_cases colls
      { s with inService := s.inService.erase (op, some ret) } op ret ok).2.2.2
    refine ⟨hposted.symm ▸ h.nodup, syncCoalesce_parkedHome colls hparked op ret ok, fun o => ?_⟩
    rw [syncCoalesce_places colls hparked op ret ok o, hposted, ← h.places o]
    simp only [places, count_map_erase hin o]
    omega
  | @canceled op hin =>
    refine h.move (fun _ _ => rfl) rfl fun o => ?_
    have hmoved : s.queue.count o = [op].count o + (s.queue.erase op).count o := by
      rw [(perm_cons_erase hin).count_eq o, count_cons_one]
    simp only [places, complete, hmoved, map_append, map_cons, map_nil,
      count_append]
    omega
  | missed hnot => exact h

/-- **No operation is lost or completed twice**, whatever the collections sync and however posts,
cancels and workers interleave: each one posted waits, is served, is parked or is completed. -/
theorem ops_each_once (colls : Nat → Collection) (es : List SyncEvent) :
    Throughout (step colls) EachOnce init es :=
  .of_step (step_eachOnce colls) eachOnce_init es

/-! ## No operation is stranded -/

def Pending (s : SyncState) (op : MetaOp) : Prop :=
  op ∈ s.queue ∨ op ∈ s.inService.map Prod.fst

/-- No operation that the context counts is queued or served. -/
def Quiet (s : SyncState) (kind : SyncKind) (context : Nat) : Prop :=
  ∀ op, counted kind context op = true → ¬ s.Pending op

/-- The counters are right. -/
def Accurate (s : SyncState) : Prop :=
  ∀ kind context, (s.ctx kind context).syncCounter = (s.queue.countP (counted kind context) : Int)

/-- Nothing stays parked in a context that is quiet. -/
def Drained (s : SyncState) : Prop :=
  ∀ kind context, s.Quiet kind context → (s.ctx kind context).syncQueue = []

/-- Coalescing strands nothing: every operation that is not waiting any more has reached the
completion queue, once its context is quiet. -/
structure Sound (s : SyncState) : Prop where
  accurate : s.Accurate
  drained : s.Drained
  reaches : ∀ op ∈ s.posted, ¬ s.Pending op → s.Quiet op.type.kind op.context →
    op ∈ s.completion.map Finished.op

/-- What a step has to observe: an operation that is cancelled while it is queued is not one that
the sync counter counts, and the last waiting operation of a context in which others are parked
is of a collection with metadata sync enabled. -/
def Keeps (colls : Nat → Collection) (s : SyncState) : SyncEvent → Prop
  | .cancel op => op ∈ s.queue → op.type.doesSync = false ∨ op.sync = false
  | .coalesce op ret _ =>
    op.type.doesSync = true → op.sync = true → (colls op.coll).metaSyncEnabled = false →
      (s.ctx op.type.kind op.context).syncQueue ≠ [] →
      ¬ Quiet { s with inService := s.inService.erase (op, some ret) } op.type.kind op.context
  | _ => True

section
variable {colls : Nat → Collection} {s s' : SyncState} {op : MetaOp} {kind : SyncKind}
  {context : Nat}

theorem EachOnce.settled (h : EachOnce s) (hop : op ∈ s.posted) (hpending : ¬ s.Pending op) :
    op ∈ (s.ctx op.type.kind op.context).syncQueue.map Prod.fst ∨
      op ∈ s.completion.map Finished.op := by
  have hplaces := h.places op
  have hcount : 0 < s.posted.count op := count_pos_iff.mpr hop
  have hqueue : s.queue.count op = 0 :=
    count_eq_zero.mpr fun hmem => hpending (.inl hmem)
  have hservice : (s.inService.map Prod.fst).count op = 0 :=
    count_eq_zero.mpr fun hmem => hpending (.inr hmem)
  unfold SyncState.places at hplaces
  rcases Nat.eq_zero_or_pos
    (((s.ctx op.type.kind op.context).syncQueue.map Prod.fst).count op) with hzero | hpos
  · right
    apply count_pos_iff.mp
    omega
  · left
    exact count_pos_iff.mp hpos

/-- Coalescing is sound just if counters are right and queues drained. -/
theorem sound_iff (h : EachOnce s) : Sound s ↔ s.Accurate ∧ s.Drained := by
  constructor
  · intro hs
    exact ⟨hs.accurate, hs.drained⟩
  · intro hs
    refine ⟨hs.1, hs.2, fun op hop hpending hquiet => ?_⟩
    rcases h.settled hop hpending with hparked | hdone
    · rw [hs.2 _ _ hquiet] at hparked
      exact absurd hparked not_mem_nil
    · exact hdone

theorem Quiet.mono (hquiet : s'.Quiet kind context)
    (hle : ∀ op, counted kind context op = true → s.Pending op → s'.Pending op) :
    s.Quiet kind context :=
  fun op hop hpending => hquiet op hop (hle op hop hpending)

theorem Drained.mono (h : s.Drained)
    (hqueue : ∀ k n, (s'.ctx k n).syncQueue = (s.ctx k n).syncQueue)
    (hle : ∀ op, s.Pending op → s'.Pending op) : s'.Drained := by
  intro k n hquiet
  rw [hqueue]
  exact h k n (hquiet.mono fun op _ => hle op)

theorem Accurate.not_quiet (h : s.Accurate) (hpos : 1 ≤ (s.ctx kind context).syncCounter) :
    ¬ s.Quiet kind context := by
  intro hquiet
  rw [h kind context] at hpos
  have hcount : 0 < s.queue.countP (counted kind context) := by omega
  obtain ⟨op, hop, hcounted⟩ := countP_pos_iff.mp hcount
  exact hquiet op hcounted (.inl hop)

theorem Accurate.enqueue (h : s.Accurate) (op : MetaOp) : (s.enqueue op).Accurate := by
  intro k n
  simp only [SyncState.enqueue, count_syncCounter, count_queue, countP_append,
    countP_singleton]
  rw [h k n]
  split <;> simp

theorem Pending.of_erase {x : MetaOp × Option RetCode} {o : MetaOp}
    (hpending : s.Pending o) :
    o = x.1 ∨ Pending { s with inService := s.inService.erase x } o := by
  rcases hpending with hqueue | hservice
  · exact .inr (.inl hqueue)
  · obtain ⟨y, hy, rfl⟩ := mem_map.mp hservice
    by_cases hxy : y = x
    · exact .inl (congrArg Prod.fst hxy)
    · exact .inr (.inr (mem_map_of_mem ((mem_erase_of_ne hxy).mpr hy)))

theorem quiet_congr (hq : s'.queue = s.queue) (hi : s'.inService = s.inService) :
    s'.Quiet kind context ↔ s.Quiet kind context := by
  unfold Quiet Pending
  rw [hq, hi]

theorem Accurate.syncCoalesce (h : s.Accurate) (op : MetaOp) (ret : RetCode) (ok : Bool) :
    (s.syncCoalesce colls op ret ok).Accurate := by
  obtain ⟨hcase, hq, -, -⟩ := syncCoalesce_cases colls s op ret ok
  intro k n
  rw [hq, ← h k n]
  cases hcase with
  | uncounted _ hctx _ _ => rw [hctx]
  | alone _ _ _ hcounter _ _ _ | released _ _ _ hcounter _ _ _ _ => exact hcounter k n
  | parked _ _ _ _ hcounter _ _ _ _ => exact hcounter k n

/-- **When `dbpf_sync_coalesce` leaves parked operations behind.**  Of the four ways out only the
one for collections with metadata sync disabled neither flushes the coalesce queue nor knows
that another operation will. -/
theorem syncCoalesce_drained_iff (hlow : ∀ c, 1 ≤ (colls c).lowWatermark) (h : s.Accurate)
    (hdrained : ∀ k n, counted k n op = false → s.Quiet k n → (s.ctx k n).syncQueue = [])
    (ret : RetCode) (ok : Bool) : (s.syncCoalesce colls op ret ok).Drained ↔
      (op.type.doesSync = true → op.sync = true → (colls op.coll).metaSyncEnabled = false →
        (s.ctx op.type.kind op.context).syncQueue ≠ [] →
        ¬ s.Quiet op.type.kind op.context) := by
  obtain ⟨hcase, hq, hi, -⟩ := syncCoalesce_cases colls s op ret ok
  have helse : ∀ k n, ¬ (k = op.type.kind ∧ n = op.context) → s.Quiet k n →
      (s.ctx k n).syncQueue = [] := by
    intro k n hne hquiet
    refine hdrained k n ?_ hquiet
    cases hc : counted k n op with
    | false => rfl
    | true =>
      obtain ⟨-, -, hk, hn⟩ := counted_iff.mp hc
      exact absurd ⟨hk.symm, hn.symm⟩ hne
  cases hcase with
  | uncounted hnot hctx _ _ =>
    refine ⟨fun _ hsync hflag => ?_, fun _ k n hquiet => ?_⟩
    · rcases hnot with hnot | hnot
      · rw [hsync] at hnot
        cases hnot
      · rw [hflag] at hnot
        cases hnot
    · rw [hctx]
      exact hdrained k n (counted_of_not hnot) ((quiet_congr hq hi).mp hquiet)
  | alone hsync hflag hdisabled _ hqueue _ _ =>
    constructor
    · intro hd _ _ _ hparked hquiet
      have hempty := hd _ _ ((quiet_congr hq hi).mpr hquiet)
      rw [hqueue] at hempty
      exact hparked hempty
    · intro hkeeps k n hquiet
      have hquiet' := (quiet_congr hq hi).mp hquiet
      rw [hqueue]
      by_cases hk : k = op.type.kind ∧ n = op.context
      · obtain ⟨rfl, rfl⟩ := hk
        by_contra hparked
        exact hkeeps hsync hflag hdisabled hparked hquiet'
      · exact helse k n hk hquiet'
  | released hsync hflag henabled _ hempty hother _ _ =>
    refine ⟨fun _ _ _ hdisabled => ?_, fun _ k n hquiet => ?_⟩
    · rw [henabled] at hdisabled
      cases hdisabled
    · by_cases hk : k = op.type.kind ∧ n = op.context
      · obtain ⟨rfl, rfl⟩ := hk
        exact hempty
      · rw [hother k n hk]
        exact helse k n hk ((quiet_congr hq hi).mp hquiet)
  | parked hsync hflag henabled hcounter _ _ hother _ _ =>
    refine ⟨fun _ _ _ hdisabled => ?_, fun _ k n hquiet => ?_⟩
    · rw [henabled] at hdisabled
      cases hdisabled
    · have hquiet' := (quiet_congr hq hi).mp hquiet
      by_cases hk : k = op.type.kind ∧ n = op.context
      · obtain ⟨rfl, rfl⟩ := hk
        -- the low watermark keeps the operation parked only while another one is queued
        exact absurd hquiet' (h.not_quiet (Int.le_trans (hlow op.coll) hcounter))
      · rw [hother k n hk]
        exact helse k n hk hquiet'

theorem cancel_accurate_iff (h : s.Accurate) (hop : op ∈ s.queue) (done : List Finished) :
    ({ s with queue := s.queue.erase op }.complete done).Accurate ↔
      (op.type.doesSync = false ∨ op.sync = false) := by
  have hcount : ∀ k n, s.queue.countP (counted k n) =
      (s.queue.erase op).countP (counted k n) + if counted k n op then 1 else 0 := by
    intro k n
    rw [(perm_cons_erase hop).countP_eq, countP_cons]
  constructor
  · intro h'
    have hold := h op.type.kind op.context
    have hnew := h' op.type.kind op.context
    rw [hcount] at hold
    by_contra hcontra
    rw [not_or, Bool.not_eq_false, Bool.not_eq_false] at hcontra
    rw [if_pos (counted_iff.mpr ⟨hcontra.1, hcontra.2, rfl, rfl⟩)] at hold
    simp only [complete] at hnew
    omega
  · intro hnot k n
    have hold := h k n
    rw [hcount, counted_of_not hnot, if_neg Bool.false_ne_true] at hold
    exact hold

/-- **One step.**  The events that neither coalesce nor cancel keep the contexts accurate and
drained. -/
theorem step_sound_iff (hlow : ∀ c, 1 ≤ (colls c).lowWatermark) (s : SyncState) (e : SyncEvent)
    (s' : SyncState) (hI : EachOnce s) (h : Sound s) (hstep : step colls s e = some s') :
    Sound s' ↔ Keeps colls s e := by
  rw [sound_iff (step_eachOnce colls s e s' hI hstep)]
  cases Stepped.of_step hstep with
  | @post op hnew =>
    have h1 : Accurate { s with posted := op :: s.posted } := h.accurate
    refine iff_of_true ⟨h1.enqueue op, h.drained.mono (fun k n => ?_) fun o ho => ?_⟩ trivial
    · simp only [enqueue, count_syncQueue]
    · simp only [Pending, enqueue, count_queue, count_inService, mem_append]
      exact ho.imp_left .inl
  | convert hnew =>
    refine iff_of_true ⟨h.accurate, h.drained.mono (fun k n => rfl) fun o ho => ?_⟩ trivial
    refine ho.imp_right fun ho => ?_
    rw [map_append]
    exact mem_append_left _ ho
  | dequeue hqueue =>
    refine iff_of_true ⟨fun k n => ?_, h.drained.mono (fun k n => ?_) fun o' ho => ?_⟩ trivial
    · have hold := h.accurate k n
      rw [hqueue, countP_cons] at hold
      simp only [count_syncCounter, count_queue]
      rw [hold]
      split
      · omega
      · simp
    · simp only [count_syncQueue]
    · simp only [Pending, hqueue, mem_cons] at ho
      simp only [Pending, count_queue, count_inService, map_append, mem_append]
      rcases ho with (rfl | ho) | ho
      · exact .inr (.inr (mem_singleton.mpr rfl))
      · exact .inl ho
      · exact .inr (.inl ho)
  | @returned op ret hin =>
    refine iff_of_true ⟨h.accurate, h.drained.mono (fun k n => rfl) fun o ho => ?_⟩ trivial
    simp only [Pending, map_append, mem_append]
    rcases ho.of_erase (x := (op, none)) with rfl | ho
    · exact .inr (.inr (mem_singleton.mpr rfl))
    · exact ho.imp_right .inl
  | @again op hin =>
    have h1 : Accurate { s with inService := s.inService.erase (op, none) } := h.accurate
    refine iff_of_true ⟨h1.enqueue op, h.drained.mono (fun k n => ?_) fun o ho => ?_⟩ trivial
    · simp only [enqueue, count_syncQueue]
    · simp only [Pending, enqueue, count_queue, count_inService, mem_append]
      rcases ho.of_erase (x := (op, none)) with rfl | ho
      · exact .inl (.inr (mem_singleton.mpr rfl))
      · exact ho.imp_left .inl
  | @coalesce op ret ok hin =>
    have h1 : Accurate { s with inService := s.inService.erase (op, some ret) } := h.accurate
    rw [and_iff_right (h1.syncCoalesce op ret ok), syncCoalesce_drained_iff hlow h1 ?_]
    · rfl
    · intro k n hnot hquiet
      apply h.drained k n
      intro o ho hpending
      rcases hpending.of_erase (x := (op, some ret)) with rfl | hpending
      · rw [hnot] at ho
        cases ho
      · exact hquiet o ho hpending
  | canceled hin =>
    rw [cancel_accurate_iff h.accurate hin]
    refine ⟨fun h' _ => h'.1, fun hkeeps => ⟨hkeeps hin, fun k n hquiet => ?_⟩⟩
    refine h.drained k n (hquiet.mono fun o ho hpending => hpending.imp_left fun hqueue => ?_)
    refine (mem_erase_of_ne ?_).mpr hqueue
    rintro rfl
    rw [counted_of_not (hkeeps hin)] at ho
    cases ho
  | missed hnot => exact ⟨fun _ hin => absurd hin hnot, fun _ => ⟨h.accurate, h.drained⟩⟩

end

theorem sound_init : Sound init :=
  (sound_iff eachOnce_init).mpr ⟨fun _ _ => rfl, fun _ _ _ => rfl⟩

end SyncState

open SyncState

section

def twoCollections : Nat → Collection :=
  fun c => ⟨c == 0, 0, 1⟩

/-- A `DSPACE_SETATTR` with `TROVE_SYNC` in context 0. -/
def setattrOp (id coll : Nat) : MetaOp := ⟨id, .dspaceSetattr, coll, 0, true, false⟩

/-- Two queued operations are serviced one after the other: the first is parked, the second
passes when nothing is queued any more. -/
def parkThenPass (a b : MetaOp) : List SyncEvent :=
  [.post a, .post b,
    .dequeue, .serve a (.returned (.ok ())), .coalesce a (.ok ()) true,
    .dequeue, .serve b (.returned (.ok ())), .coalesce b (.ok ()) true]

end

end Pvfs.Trove
