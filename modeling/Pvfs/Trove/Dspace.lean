import Pvfs.Trove.Ledger

/-! # Dataspaces and their handles (dbpf-dspace.c)

A dataspace that is created takes a handle out of the ledger and puts a record for it into the
dataspace database; one that is removed goes the other way. Each operation does the two in
sequence, and has code of its own to undo the first if the second fails.

A handle is to be free in the ledger just when the database has no record for it. The
operations get there from a state in which one handle is neither (`Taken`): storing its record
and freeing it both end such a state. Where the code does something else with a handle, or
does one of the two to a handle that is not in between, the two stores part. -/

namespace Pvfs.Trove

open Lib List OrderedMap Extent

/-- `TROVE_HANDLE_NULL`. -/
def handleNull : Nat := 0

inductive DspaceError where
  | einval
  | enospc
  | eexist
  | enoent
  | db
deriving DecidableEq, Repr

/-- The ledger of a collection, and whether its dataspace database has a record for a handle. -/
structure Dspaces where
  ledger : HandleLedger
  records : Nat → Bool

/-- Which calls of `dbpf_dspace_create_store_handle` fail: the look for a record, moving an old
byte stream away (where there is one), and putting the record. -/
structure StoreFaults where
  get : Bool
  rename : Bool
  put : Bool
deriving DecidableEq, Repr

/-- Which calls of `remove_one_handle` fail: deleting the record, and deleting the key/value
pairs. -/
structure RemoveFaults where
  del : Bool
  iterate : Bool
deriving DecidableEq, Repr

/-- `TROVE_handle_extent_array`, which the operations refuse if it is empty. -/
structure ExtentArray where
  extents : List Extent
  ne_nil : extents ≠ []
  bounded : ∀ e ∈ extents, e.first < handleLimit

def setRecord (records : Nat → Bool) (handle : Nat) (present : Bool) : Nat → Bool :=
  fun h => if h = handle then present else records h

/-- `dbpf_dspace_create_store_handle`. -/
def createStoreHandle (records : Nat → Bool) (newHandle : Nat) (faults : StoreFaults) :
    Except DspaceError (Nat → Bool) :=
  if faults.get then .error .db
  else if records newHandle then .error .eexist
  else if faults.rename then .error .db
  else if faults.put then .error .db
  else .ok (setRecord records newHandle true)

section
variable (avl : Avl) (purgatory : Timeval)

/-- `trove_handle_alloc`. The allocator says -1 if there is no handle, which is the greatest
handle. -/
def troveHandleAlloc (hl : HandleLedger) : Nat × HandleLedger :=
  let r := troveLedgerHandleAlloc avl hl
  (r.1.getD (handleLimit - 1), r.2)

/-- `trove_handle_alloc_from_range`. -/
def troveHandleAllocFromRange : List Extent → HandleLedger → Option (Nat × HandleLedger)
  | [], hl => some (handleNull, hl)
  | e :: es, hl =>
    match troveLedgerHandleAllocFromRange avl hl e with
    | none => none
    | some (some handle, hl') => some (handle, hl')
    | some (none, hl') => troveHandleAllocFromRange es hl'

/-- `trove_handle_free`. -/
def troveHandleFree (s : Dspaces) (handle : Nat) (clock : Nat → Timeval) : Option Dspaces :=
  (troveLedgerHandleFree avl purgatory s.ledger handle clock).map fun r =>
    { s with ledger := r.2 }

/-- The handle that `dbpf_dspace_create_op_svc` decides on. Whether `trove_handle_set_used` finds
a forced handle on the free list is not looked at. -/
def newHandle (hl : HandleLedger) (forced : Bool) : List Extent → Option (Nat × HandleLedger)
  | [cur] =>
    if cur.first = cur.last then
      if forced then (troveHandleRemove avl hl cur.first).map fun r => (cur.first, r.2)
      else if cur.first = handleNull then some (troveHandleAlloc avl hl)
      else some (handleNull, hl)
    else troveHandleAllocFromRange avl [cur] hl
  | extents => troveHandleAllocFromRange avl extents hl

/-- `dbpf_dspace_create_op_svc`. -/
def dspaceCreateOpSvc (s : Dspaces) (extents : List Extent) (forced : Bool) (faults : StoreFaults)
    (clock : Nat → Timeval) : Option (Except DspaceError Nat × Dspaces) :=
  match newHandle avl s.ledger forced extents with
  | none => none
  | some (handle, hl) =>
    if handle = handleNull then some (.error .enospc, { s with ledger := hl })
    else
      match createStoreHandle s.records handle faults with
      | .error e =>
        (troveHandleFree avl purgatory { s with ledger := hl } handle clock).map fun s' =>
          (.error e, s')
      | .ok records => some (.ok handle, ⟨hl, records⟩)

/-- The loop that is to release what a batch has created so far. What `del` returns is not looked
at. -/
def releaseHandles (dels : Nat → Bool) (clocks : Nat → Nat → Timeval) :
    Nat → List Nat → Dspaces → Option Dspaces
  | _, [], s => some s
  | j, handle :: handles, s =>
    let records := if dels j then s.records else setRecord s.records handle false
    (troveHandleFree avl purgatory { s with records := records } handle (clocks j)).bind
      (releaseHandles dels clocks (j + 1) handles)

/-- The loop of `dbpf_dspace_create_list_op_svc`, with the part of `out_handle_array` that has been
filled. The handle of the turn that fails is not in there yet. -/
def createListFrom (extents : List Extent) (faults : Nat → StoreFaults) (dels : Nat → Bool)
    (clocks : Nat → Nat → Timeval) :
    Nat → List Nat → Dspaces → Option (Except DspaceError (List Nat) × Dspaces)
  | 0, outHandleArray, s => some (.ok outHandleArray, s)
  | n + 1, outHandleArray, s =>
    match troveHandleAllocFromRange avl extents s.ledger with
    | none => none
    | some (handle, hl) =>
      if handle = handleNull then some (.error .enospc, { s with ledger := hl })
      else
        match createStoreHandle s.records handle (faults outHandleArray.length) with
        | .error e =>
          (releaseHandles avl purgatory dels clocks 0 outHandleArray { s with ledger := hl }).map
            fun s' => (.error e, s')
        | .ok records =>
          createListFrom extents faults dels clocks n (outHandleArray ++ [handle]) ⟨hl, records⟩

/-- `dbpf_dspace_create_list` and its service function. -/
def dspaceCreateList (s : Dspaces) (extents : List Extent) (forced : Bool) (count : Nat)
    (faults : Nat → StoreFaults) (dels : Nat → Bool) (clocks : Nat → Nat → Timeval) :
    Option (Except DspaceError (List Nat) × Dspaces) :=
  if forced = true ∨ extents.head?.map first = some handleNull then
    some (.error .einval, s)
  else createListFrom avl purgatory extents faults dels clocks count [] s

/-- `remove_one_handle`. -/
def removeOneHandle (s : Dspaces) (handle : Nat) (faults : RemoveFaults) (clock : Nat → Timeval) :
    Option (Except DspaceError Unit × Dspaces) :=
  if faults.del then some (.error .db, s)
  else if s.records handle = false then some (.error .enoent, s)
  else
    let s' := { s with records := setRecord s.records handle false }
    if faults.iterate then some (.error .db, s')
    else (troveHandleFree avl purgatory s' handle clock).map fun s'' => (.ok (), s'')

structure Removal where
  handle : Nat
  faults : RemoveFaults
  clock : Nat → Timeval

/-- The loop of `dbpf_dspace_remove_list_op_svc`, which goes on after an error. -/
def dspaceRemoveList : List Removal → Dspaces → Option Dspaces
  | [], s => some s
  | r :: rs, s =>
    match removeOneHandle avl purgatory s r.handle r.faults r.clock with
    | none => none
    | some (_, s') => dspaceRemoveList rs s'

/-- An operation on the dataspaces of a collection, with the outcomes of its database calls. -/
inductive DspaceOp where
  | create (extents : ExtentArray) (forced : Bool) (faults : StoreFaults) (clock : Nat → Timeval)
  | createList (extents : ExtentArray) (forced : Bool) (count : Nat) (faults : Nat → StoreFaults)
      (dels : Nat → Bool) (clocks : Nat → Nat → Timeval)
  | remove (removal : Removal)
  | removeList (removals : List Removal)

def DspaceOp.run (s : Dspaces) : DspaceOp → Option (Option DspaceError × Dspaces)
  | .create extents forced faults clock =>
    (dspaceCreateOpSvc avl purgatory s extents.extents forced faults clock).map fun r =>
      (errorOf r.1, r.2)
  | .createList extents forced count faults dels clocks =>
    (dspaceCreateList avl purgatory s extents.extents forced count faults dels clocks).map fun r =>
      (errorOf r.1, r.2)
  | .remove r =>
    (removeOneHandle avl purgatory s r.handle r.faults r.clock).map fun r => (errorOf r.1, r.2)
  | .removeList rs => (dspaceRemoveList avl purgatory rs s).map fun s' => (none, s')
where
  errorOf {α : Type} : Except DspaceError α → Option DspaceError
    | .error e => some e
    | .ok _ => none

def DspaceOp.step (s : Dspaces) (op : DspaceOp) : Option Dspaces :=
  (op.run avl purgatory s).map Prod.snd

/-- The ranges have a handle for each of `n` allocations. -/
def supplies (extents : List Extent) : Nat → HandleLedger → Bool
  | 0, _ => true
  | n + 1, hl =>
    match troveHandleAllocFromRange avl extents hl with
    | none => false
    | some (handle, hl') => handle ≠ handleNull && supplies extents n hl'

end

/-! ## Agreement -/

def HandleLedger.Free (hl : HandleLedger) (handle : Nat) : Prop := 0 < hl.listed handle

/-- A handle of the collection is free just when the database has no record for it. -/
def Agrees (extents : List Extent) (s : Dspaces) : Prop :=
  ∀ h, (∃ e ∈ extents, e.contains h = true) → (s.ledger.Free h ↔ s.records h = false)

/-- What agreement rests on: no handle is on two lists, and the two stores have no handle in
common, whether it belongs to the collection or not. -/
structure Settled (extents : List Extent) (s : Dspaces) : Prop where
  wf : s.ledger.Wf
  valid : ∀ h, s.records h = true → Extent.Valid ⟨h, h⟩
  apart : ∀ h, s.records h = true → s.ledger.listed h = 0
  cover : ∀ h, (∃ e ∈ extents, e.contains h = true) → s.records h = false → s.ledger.Free h

/-- The state in which a new handle has been taken from the ledger. -/
structure Taken (extents : List Extent) (s : Dspaces) (handle : Nat) : Prop where
  wf : s.ledger.Wf
  valid : ∀ h, s.records h = true → Extent.Valid ⟨h, h⟩
  apart : ∀ h, s.records h = true → s.ledger.listed h = 0
  handle_valid : Extent.Valid ⟨handle, handle⟩
  unlisted : s.ledger.listed handle = 0
  absent : s.records handle = false
  cover : ∀ h, h ≠ handle → (∃ e ∈ extents, e.contains h = true) → s.records h = false →
    s.ledger.Free h

section
variable (avl : Avl) (purgatory : Timeval) {extents : List Extent} {s s' : Dspaces}
  {handle : Nat}

theorem Settled.agrees (hs : Settled extents s) : Agrees extents s := by
  intro h hmem
  constructor
  · intro hfree
    cases hrec : s.records h with
    | false => rfl
    | true =>
      unfold HandleLedger.Free at hfree
      rw [hs.apart h hrec] at hfree
      exact absurd hfree (Nat.lt_irrefl 0)
  · exact hs.cover h hmem

theorem Settled.take (hs : Settled extents s) {free' : Extentlist}
    (hloses : Loses s.ledger.freeList.index free'.index handle) :
    Taken extents { s with ledger := { s.ledger with freeList := free' } } handle := by
  obtain ⟨hw, hlisted⟩ := hs.wf.lose hloses
  have honce := hs.wf.once handle
  have hself := hlisted handle
  rw [if_pos rfl] at hself
  refine ⟨hw, hs.valid, ?_, valid_of_tally hs.wf.free.valid hloses.pos, by dsimp only; omega, ?_, ?_⟩
  · intro h hrec
    have hnone := hs.apart h hrec
    have hle := hlisted h
    dsimp only
    omega
  · cases hrec : s.records handle with
    | false => rfl
    | true =>
      have := hs.apart handle hrec
      omega
  · intro h hne hmem hrec
    have hfree := hs.cover h hmem hrec
    have heq := hlisted h
    rw [if_neg hne] at heq
    unfold HandleLedger.Free at hfree ⊢
    rwa [heq] at hfree

theorem Settled.taken (hs : Settled extents s) (hvalid : Extent.Valid ⟨handle, handle⟩)
    (hnone : s.ledger.listed handle = 0) (habsent : s.records handle = false) :
    Taken extents s handle where
  wf := hs.wf
  valid := hs.valid
  apart := hs.apart
  handle_valid := hvalid
  unlisted := hnone
  absent := habsent
  cover h _ := hs.cover h

theorem Taken.store (hs : Taken extents s handle) :
    Settled extents ⟨s.ledger, setRecord s.records handle true⟩ := by
  refine ⟨hs.wf, ?_, ?_, ?_⟩
  · intro h hrec
    simp only [setRecord] at hrec
    split at hrec
    · rename_i heq
      rw [heq]
      exact hs.handle_valid
    · exact hs.valid h hrec
  · intro h hrec
    simp only [setRecord] at hrec
    split at hrec
    · rename_i heq
      rw [heq]
      exact hs.unlisted
    · exact hs.apart h hrec
  · intro h hmem hrec
    simp only [setRecord] at hrec
    split at hrec
    · cases hrec
    · rename_i hne
      exact hs.cover h hne hmem hrec

theorem Taken.free (hs : Taken extents s handle) (clock : Nat → Timeval) :
    ∃ s', troveHandleFree avl purgatory s handle clock = some s' ∧ Settled extents s' ∧
      s'.records = s.records := by
  obtain ⟨k, hl', hfree, hw, hlisted, -⟩ := troveLedgerHandleFree_spec avl purgatory clock hs.wf
    hs.handle_valid hs.unlisted
  refine ⟨{ s with ledger := hl' }, by rw [troveHandleFree, hfree]; rfl, ⟨hw, hs.valid, ?_, ?_⟩, rfl⟩
  · intro h hrec
    have hne : h ≠ handle := by
      intro heq
      rw [heq, hs.absent] at hrec
      cases hrec
    rw [hlisted, if_neg hne]
    exact hs.apart h hrec
  · intro h hmem hrec
    unfold HandleLedger.Free
    rw [hlisted]
    by_cases hne : h = handle
    · rw [if_pos hne]
      exact Nat.succ_pos _
    · rw [if_neg hne, Nat.add_zero]
      exact hs.cover h hne hmem hrec

section
variable (hs : Settled extents s)
include hs

theorem Settled.delete (hrec : s.records handle = true) :
    Taken extents { s with records := setRecord s.records handle false } handle := by
  have hold : ∀ h, setRecord s.records handle false h = true → s.records h = true := by
    intro h hh
    simp only [setRecord] at hh
    split at hh
    · cases hh
    · exact hh
  refine ⟨hs.wf, fun h hh => hs.valid h (hold h hh), fun h hh => hs.apart h (hold h hh),
    hs.valid handle hrec, hs.apart handle hrec, if_pos rfl, fun h hne hmem hh => ?_⟩
  simp only [setRecord, if_neg hne] at hh
  exact hs.cover h hmem hh

/-! ## The operations -/

theorem troveHandleAllocFromRange_spec (ranges : List Extent) :
    troveHandleAllocFromRange avl ranges s.ledger = some (handleNull, s.ledger) ∨
      ∃ handle hl, troveHandleAllocFromRange avl ranges s.ledger = some (handle, hl) ∧
        Taken extents { s with ledger := hl } handle := by
  induction ranges with
  | nil => exact .inl rfl
  | cons e es ih =>
    rw [troveHandleAllocFromRange, troveLedgerHandleAllocFromRange]
    obtain ⟨hnone, -⟩ | ⟨handle, free', hsome, hsheds, -⟩ :=
      extentlistGetFromExtent_spec avl e hs.wf.free
    · rw [hnone]
      exact ih
    · rw [hsome]
      exact .inr ⟨handle, _, rfl, hs.take hsheds.toLoses⟩

/-- Nobody else has the handle: the database has no record, and the handle does not wait in one of
the lists of freed handles. -/
def Claimable (s : Dspaces) (handle : Nat) : Prop :=
  s.records handle = false ∧ tally s.ledger.recentlyFreedList.index.toList handle = 0 ∧
    tally s.ledger.overflowList.index.toList handle = 0

/-- A forced handle is claimable, and so is the one that stands for an empty free list. -/
def SoundExtents (s : Dspaces) (forced : Bool) : List Extent → Prop
  | [cur] => cur.first = cur.last →
    if forced then cur.first = handleNull ∨ Claimable s cur.first
    else cur.first = handleNull → s.ledger.freeList.index = .nil → Claimable s (handleLimit - 1)
  | _ => True

theorem troveHandleRemove_spec (hlt : handle < handleLimit)
    (hclaim : handle = handleNull ∨ Claimable s handle) :
    ∃ ret hl, troveHandleRemove avl s.ledger handle = some (ret, hl) ∧
      (handle = handleNull ∧ hl = s.ledger ∨ Taken extents { s with ledger := hl } handle) := by
  rw [troveHandleRemove]
  obtain ⟨hnone, hrem⟩ | ⟨free', hrem, hsheds, -⟩ :=
    extentlistHandleRemove_spec avl handle hs.wf.free
  · refine ⟨-1, s.ledger, by rw [hrem]; rfl, ?_⟩
    rcases Nat.eq_zero_or_pos handle with hzero | hpos
    · exact .inl ⟨hzero, rfl⟩
    · obtain ⟨habsent, hrecent, hover⟩ := hclaim.resolve_left (Nat.ne_of_gt hpos)
      refine .inr (hs.taken ⟨hpos, Nat.le_refl _, hlt⟩ ?_ habsent)
      rw [HandleLedger.listed, hnone, hrecent, hover]
  · exact ⟨0, _, by rw [hrem]; rfl, .inr (hs.take hsheds.toLoses)⟩

theorem troveHandleAlloc_spec
    (hclaim : s.ledger.freeList.index = .nil → Claimable s (handleLimit - 1)) :
    ∃ handle hl, troveHandleAlloc avl s.ledger = (handle, hl) ∧
      Taken extents { s with ledger := hl } handle := by
  rw [troveHandleAlloc, troveLedgerHandleAlloc]
  obtain ⟨hnil, hnone⟩ | ⟨ext, free', -, hsome, hsheds, -⟩ :=
    extentlistGetAndDecExtent_spec avl hs.wf.free
  · rw [hnone]
    obtain ⟨habsent, hrecent, hover⟩ := hclaim hnil
    refine ⟨handleLimit - 1, s.ledger, rfl, hs.taken ⟨by decide, Nat.le_refl _, by decide⟩ ?_ habsent⟩
    rw [HandleLedger.listed, hrecent, hover, hnil]
    rfl
  · rw [hsome]
    exact ⟨ext.last, _, rfl, hs.take hsheds.toLoses⟩

/-- A handle that is decided on is new. -/
theorem newHandle_spec {array : ExtentArray} {forced : Bool}
    (hsound : SoundExtents s forced array.extents) :
    ∃ handle hl, newHandle avl s.ledger forced array.extents = some (handle, hl) ∧
      (handle = handleNull ∧ hl = s.ledger ∨ Taken extents { s with ledger := hl } handle) := by
  obtain ⟨ranges, hne, hbounded⟩ := array
  dsimp only at hsound ⊢
  have hrange : ∃ handle hl, troveHandleAllocFromRange avl ranges s.ledger = some (handle, hl) ∧
      (handle = handleNull ∧ hl = s.ledger ∨ Taken extents { s with ledger := hl } handle) := by
    obtain hnone | ⟨handle, hl, hsome, htaken⟩ :=
      troveHandleAllocFromRange_spec avl hs ranges
    · exact ⟨handleNull, s.ledger, hnone, .inl ⟨rfl, rfl⟩⟩
    · exact ⟨handle, hl, hsome, .inr htaken⟩
  match ranges, hne, hsound, hrange, hbounded with
  | [cur], _, hsound, hrange, hbounded =>
    simp only [newHandle]
    by_cases hone : cur.first = cur.last
    · rw [if_pos hone]
      have hsound := hsound hone
      cases forced with
      | true =>
        obtain ⟨ret, hl, hrem, hcases⟩ := troveHandleRemove_spec avl hs
          (hbounded cur (mem_singleton_self cur)) hsound
        exact ⟨cur.first, hl, by rw [hrem]; rfl, hcases⟩
      | false =>
        rw [if_neg Bool.false_ne_true]
        by_cases hnull : cur.first = handleNull
        · rw [if_pos hnull]
          obtain ⟨handle, hl, halloc, htaken⟩ := troveHandleAlloc_spec avl hs (hsound hnull)
          exact ⟨handle, hl, by rw [halloc], .inr htaken⟩
        · rw [if_neg hnull]
          exact ⟨handleNull, s.ledger, rfl, .inl ⟨rfl, rfl⟩⟩
    · rw [if_neg hone]
      exact hrange
  | a :: b :: rest, _, _, hrange, _ => exact hrange

end

theorem createStoreHandle_absent {records : Nat → Bool} (habsent : records handle = false)
    (faults : StoreFaults) :
    createStoreHandle records handle faults = .ok (setRecord records handle true) ∨
      createStoreHandle records handle faults = .error .db ∧ faults ≠ ⟨false, false, false⟩ := by
  obtain ⟨get, rename, put⟩ := faults
  cases get
  · cases rename
    · cases put
      · exact .inl (by simp [createStoreHandle, habsent])
      · exact .inr (by simp [createStoreHandle, habsent])
    · exact .inr (by simp [createStoreHandle, habsent])
  · exact .inr (by simp [createStoreHandle])

theorem dspaceCreateOpSvc_settled (hs : Settled extents s) {array : ExtentArray} {forced : Bool}
    (hsound : SoundExtents s forced array.extents) (faults : StoreFaults)
    (clock : Nat → Timeval) :
    ∃ r s', dspaceCreateOpSvc avl purgatory s array.extents forced faults clock = some (r, s') ∧
      Settled extents s' := by
  obtain ⟨handle, hl, hnew, hcases⟩ := newHandle_spec avl hs hsound
  rw [dspaceCreateOpSvc, hnew]
  dsimp only
  split
  · rename_i hnull
    rcases hcases with ⟨-, rfl⟩ | htaken
    · exact ⟨_, _, rfl, hs⟩
    · exact absurd (htaken.handle_valid.1) (by rw [hnull]; decide)
  · rename_i hnull
    have htaken := hcases.resolve_left fun h => hnull h.1
    obtain hok | ⟨herr, -⟩ := createStoreHandle_absent htaken.absent faults
    · rw [hok]
      exact ⟨_, _, rfl, htaken.store⟩
    · rw [herr]
      obtain ⟨s', hfree, hs', -⟩ := htaken.free avl purgatory clock
      exact ⟨_, s', by rw [hfree]; rfl, hs'⟩

variable {ranges : List Extent}

theorem createListFrom_settled {faults : Nat → StoreFaults}
    (dels : Nat → Bool) (clocks : Nat → Nat → Timeval) (n : Nat) :
    ∀ {s : Dspaces} (outHandleArray : List Nat), Settled extents s →
      (∀ i < n, faults (outHandleArray.length + i) = ⟨false, false, false⟩) →
      supplies avl ranges n s.ledger = true →
      ∃ handles s', createListFrom avl purgatory ranges faults dels clocks n outHandleArray s =
        some (.ok handles, s') ∧ Settled extents s' := by
  induction n with
  | zero =>
    intro s out hs _ _
    exact ⟨out, s, rfl, hs⟩
  | succ n ih =>
    intro s out hs hfaults hsupplies
    rw [supplies] at hsupplies
    rw [createListFrom]
    obtain hnone | ⟨handle, hl, hsome, htaken⟩ := troveHandleAllocFromRange_spec avl hs ranges
    · rw [hnone] at hsupplies
      simp at hsupplies
    · rw [hsome] at hsupplies ⊢
      dsimp only at hsupplies ⊢
      rw [Bool.and_eq_true, decide_eq_true_eq] at hsupplies
      rw [if_neg hsupplies.1]
      obtain hok | ⟨-, hne⟩ := createStoreHandle_absent htaken.absent (faults out.length)
      · rw [hok]
        refine ih (out ++ [handle]) htaken.store (fun i hi => ?_) hsupplies.2
        rw [length_append, length_singleton, Nat.add_assoc, Nat.add_comm 1]
        exact hfaults (i + 1) (by omega)
      · exact absurd (hfaults 0 (Nat.succ_pos n)) hne

/-- The key/value pairs of the handle can be deleted, unless it does not come to that. -/
def Removal.SoundFor (s : Dspaces) (r : Removal) : Prop :=
  r.faults.iterate = true → r.faults.del = true ∨ s.records r.handle = false

theorem removeOneHandle_settled (hs : Settled extents s) {r : Removal} (hsound : r.SoundFor s) :
    ∃ e s', removeOneHandle avl purgatory s r.handle r.faults r.clock = some (e, s') ∧
      Settled extents s' ∧ ∀ h, s.records h = false → s'.records h = false := by
  rw [removeOneHandle]
  by_cases hdel : r.faults.del = true
  · rw [if_pos hdel]
    exact ⟨_, s, rfl, hs, fun _ h => h⟩
  · rw [if_neg hdel]
    cases hrec : s.records r.handle with
    | false =>
      exact ⟨_, s, rfl, hs, fun _ h => h⟩
    | true =>
      have hiterate : ¬ r.faults.iterate = true := by
        intro h
        rcases hsound h with h | h
        · exact hdel h
        · rw [hrec] at h
          cases h
      obtain ⟨s', hfree, hs', hrecords⟩ := (hs.delete hrec).free avl purgatory r.clock
      rw [if_neg hiterate, hfree]
      refine ⟨_, s', rfl, hs', fun h hh => ?_⟩
      rw [hrecords]
      simp only [setRecord, hh, ite_self]

theorem dspaceRemoveList_settled (rs : List Removal) :
    ∀ {s : Dspaces}, Settled extents s → (∀ r ∈ rs, r.SoundFor s) →
      ∃ s', dspaceRemoveList avl purgatory rs s = some s' ∧ Settled extents s' := by
  induction rs with
  | nil =>
    intro s hs _
    exact ⟨s, rfl, hs⟩
  | cons r rs ih =>
    intro s hs hsound
    obtain ⟨e, s', hrem, hs', hless⟩ :=
      removeOneHandle_settled avl purgatory hs (hsound r mem_cons_self)
    rw [dspaceRemoveList, hrem]
    refine ih hs' fun r' hr' hiterate => ?_
    exact (hsound r' (mem_cons_of_mem _ hr') hiterate).imp_right (hless r'.handle)

/-! ## Every run -/

/-- What the operation needs to keep the stores together: a forced handle is claimable; a batch
that gets a first handle gets all of them, and none of its calls fails; the key/value pairs of
a handle whose record is deleted can be deleted too. -/
def DspaceOp.Sound (s : Dspaces) : DspaceOp → Prop
  | .create array forced _ _ => SoundExtents s forced array.extents
  | .createList array _ count faults _ _ =>
    troveHandleAllocFromRange avl array.extents s.ledger = some (handleNull, s.ledger) ∨
      supplies avl array.extents count s.ledger = true ∧
        ∀ i < count, faults i = ⟨false, false, false⟩
  | .remove r => r.SoundFor s
  | .removeList rs => ∀ r ∈ rs, r.SoundFor s

def DspaceOp.isCreateList : DspaceOp → Bool
  | .createList .. => true
  | _ => false

/-- The stores agree after the operation, and a batch that fails has left both as they were. -/
def Kept (extents : List Extent) (s : Dspaces) (op : DspaceOp) : Prop :=
  ∃ e s', op.run avl purgatory s = some (e, s') ∧ Agrees extents s' ∧
    (op.isCreateList = true → e ≠ none → s' = s)

/-- A sound operation keeps ledger and records apart. -/
theorem DspaceOp.run_settled (hs : Settled extents s) {op : DspaceOp} (hsound : op.Sound avl s) :
    ∃ e s', op.run avl purgatory s = some (e, s') ∧ Settled extents s' ∧
      (op.isCreateList = true → e ≠ none → s' = s) := by
  cases op with
  | create array forced faults clock =>
    obtain ⟨r, s', hrun, hs'⟩ :=
      dspaceCreateOpSvc_settled avl purgatory hs hsound faults clock
    exact ⟨_, s', by rw [run, hrun]; rfl, hs', fun h => by cases h⟩
  | createList array forced count faults dels clocks =>
    rw [run, dspaceCreateList]
    split
    · exact ⟨_, s, rfl, hs, fun _ _ => rfl⟩
    · rcases hsound with hnull | ⟨hsupplies, hfaults⟩
      · cases count with
        | zero => exact ⟨_, s, rfl, hs, fun _ _ => rfl⟩
        | succ n =>
          refine ⟨some .enospc, s, ?_, hs, fun _ _ => rfl⟩
          rw [createListFrom, hnull]
          rfl
      · have hnone : ∀ i < count, faults (([] : List Nat).length + i) = ⟨false, false, false⟩ := by
          intro i hi
          rw [length_nil, Nat.zero_add]
          exact hfaults i hi
        obtain ⟨handles, s', hrun, hs'⟩ := createListFrom_settled avl purgatory dels clocks count []
          hs hnone hsupplies
        exact ⟨_, s', by rw [hrun]; rfl, hs', fun _ h => absurd rfl h⟩
  | remove r =>
    obtain ⟨e, s', hrun, hs', -⟩ := removeOneHandle_settled avl purgatory hs hsound
    exact ⟨_, s', by rw [run, hrun]; rfl, hs', fun h => by cases h⟩
  | removeList rs =>
    obtain ⟨s', hrun, hs'⟩ := dspaceRemoveList_settled avl purgatory rs hs hsound
    exact ⟨none, s', by rw [run, hrun]; rfl, hs', fun h => by cases h⟩

/-- **The ledger and the database agree** after every operation of a run whose operations are
sound. -/
theorem dspaces_agree (hs : Settled extents s) (ops : List DspaceOp)
    (hsound : Guarded (DspaceOp.step avl purgatory) (fun s op => op.Sound avl s) s ops) :
    Agrees extents s ∧ Guarded (DspaceOp.step avl purgatory) (Kept avl purgatory extents) s ops := by
  refine ⟨hs.agrees, (Guarded.of_step (fun s op hs hop => ?_) hs hsound).1⟩
  obtain ⟨e, s', hrun, hs', hfail⟩ := DspaceOp.run_settled avl purgatory hs hop
  exact ⟨⟨e, s', hrun, hs'.agrees, hfail⟩, s', by rw [DspaceOp.step, hrun]; rfl, hs'⟩

/-! ## When there is no handle -/

/-- Ranges that the handle of a new dataspace is to be in. -/
structure HandleRanges extends ExtentArray where
  ranged : extents ≠ [⟨handleNull, handleNull⟩]

/-- The extents of a request; `TROVE_HANDLE_NULL` stands for no range. -/
def createExtents : Option HandleRanges → List Extent
  | none => [⟨handleNull, handleNull⟩]
  | some ranges => ranges.extents

def allocFor (hl : HandleLedger) : Option HandleRanges → Option (Nat × HandleLedger)
  | none => some (troveHandleAlloc avl hl)
  | some ranges => troveHandleAllocFromRange avl ranges.extents hl

/-- The handle is free, and it is what the request asks for. -/
def Suits (hl : HandleLedger) (request : Option HandleRanges) (h : Nat) : Prop :=
  h ∈ hl.freeList.handles ∧ ∀ ranges ∈ request, ∃ e ∈ ranges.extents, e.contains h = true

/-- A request gets a handle that suits it, or no dataspace is created. -/
structure Served (hl : HandleLedger) (request : Option HandleRanges) : Prop where
  complete : (∃ h, Suits hl request h) →
    ∃ h hl', allocFor avl hl request = some (h, hl') ∧ Suits hl request h
  exhausted : (¬ ∃ h, Suits hl request h) → ∀ records faults clock, ∃ e s',
    dspaceCreateOpSvc avl purgatory ⟨hl, records⟩ (createExtents request) false faults clock =
      some (.error e, s')

variable {hl : HandleLedger}

/-- The first range that yields a handle yields one that lies in a range. -/
def Unmisled (free : Index) (ranges : List Extent) : List Extent → Prop
  | [] => True
  | e :: es => (∃ h, e.Yields free h ∧ ∃ d ∈ ranges, d.contains h = true) ∨
      (∀ h, ¬ e.Yields free h) ∧ Unmisled free ranges es

theorem Extent.yields_of_contains {e : Extent} {free : Index} {h : Nat}
    (hpos : 0 < tally free.toList h) (hc : e.contains h = true) : e.Yields free h := by
  have hdir := contains_iff.mp hc
  exact ⟨hpos, by rwa [if_pos (hdir.1.trans hdir.2)]⟩

/-- What lies in no range is yielded by one that is given the wrong way round, as the only one. -/
theorem Extent.Yields.unique {e : Extent} {free : Index} {h h' : Nat} (hy : e.Yields free h)
    (hno : e.contains h = false) (hy' : e.Yields free h') : h' = h := by
  obtain ⟨-, hy⟩ := hy
  obtain ⟨-, hy'⟩ := hy'
  split at hy
  · rw [hno] at hy
    cases hy
  · rename_i hdir
    rw [if_neg hdir] at hy'
    obtain ⟨x, hx, rfl⟩ := hy
    obtain ⟨x', hx', rfl⟩ := hy'
    rw [Option.mem_unique hx' hx]

theorem troveHandleAllocFromRange_yields (hw : WellFormed hl.freeList.index) {es : List Extent}
    (hes : es ⊆ ranges) :
    (troveHandleAllocFromRange avl es hl = some (handleNull, hl) ∧
        Unmisled hl.freeList.index ranges es ∧ ∀ e ∈ es, ∀ h, ¬ e.Yields hl.freeList.index h) ∨
      ∃ h hl', troveHandleAllocFromRange avl es hl = some (h, hl') ∧ h ∈ hl.freeList.handles ∧
        (Unmisled hl.freeList.index ranges es ↔ ∃ d ∈ ranges, d.contains h = true) := by
  induction es with
  | nil => exact .inl ⟨rfl, trivial, by simp⟩
  | cons e es ih =>
    obtain ⟨he, hes⟩ := cons_subset.mp hes
    rw [troveHandleAllocFromRange, troveLedgerHandleAllocFromRange, Unmisled, forall_mem_cons]
    obtain ⟨hnone, hno⟩ | ⟨handle, free', hsome, hyields⟩ := extentlistGetFromExtent_yields avl e hw
    · have hskip : ¬ ∃ h, e.Yields hl.freeList.index h ∧ ∃ d ∈ ranges, d.contains h = true :=
        fun hd => hd.elim fun h hy => hno h hy.1
      rw [hnone, and_iff_right hno, or_iff_right hskip]
      exact (ih hes).imp_left fun h => ⟨h.1, h.2.1, hno, h.2.2⟩
    · rw [hsome]
      refine .inr ⟨handle, _, rfl, Extentlist.mem_handles.mpr hyields.1, ?_⟩
      rw [or_iff_left fun h => h.1 handle hyields]
      refine ⟨?_, fun hd => ⟨handle, hyields, hd⟩⟩
      rintro ⟨h, hy, hd⟩
      cases hc : e.contains handle with
      | true => exact ⟨e, he, hc⟩
      | false => rwa [← hyields.unique hc hy]

theorem newHandle_of_null {ranges : HandleRanges}
    (hnull : troveHandleAllocFromRange avl ranges.extents hl = some (handleNull, hl)) :
    newHandle avl hl false ranges.extents = some (handleNull, hl) := by
  obtain ⟨⟨extents, hne, hbounded⟩, hranged⟩ := ranges
  dsimp only at hnull hranged ⊢
  match extents, hne, hnull, hranged with
  | [⟨first, last⟩], _, hnull, hranged =>
    simp only [newHandle, Bool.false_eq_true, if_false]
    split_ifs with hone hfirst
    · subst hone
      exact absurd (by rw [hfirst]) hranged
    · rfl
    · exact hnull
  | _ :: _ :: _, _, hnull, _ => exact hnull

theorem unmisled_of_directed {e : Extent} {free : Index} (hdir : e.first ≤ e.last) :
    Unmisled free [e] [e] := by
  by_cases hyields : ∃ h, e.Yields free h
  · obtain ⟨h, hy⟩ := hyields
    refine .inl ⟨h, hy, e, mem_singleton_self e, ?_⟩
    have hc := hy.2
    rwa [if_pos hdir] at hc
  · exact .inr ⟨not_exists.mp hyields, trivial⟩

theorem newHandle_of_misled {ranges : HandleRanges}
    (hmisled : ¬ Unmisled hl.freeList.index ranges.extents ranges.extents) :
    newHandle avl hl false ranges.extents = troveHandleAllocFromRange avl ranges.extents hl := by
  obtain ⟨⟨extents, hne, hbounded⟩, hranged⟩ := ranges
  dsimp only at hmisled ⊢
  match extents, hmisled with
  | [], _ => rfl
  | [cur], hmisled => exact if_neg fun hone => hmisled (unmisled_of_directed hone.le)
  | _ :: _ :: _, _ => rfl

/-- **Allocation is complete, and exhaustion is recognised** but for a request without a range
that finds the free list empty, and for ranges the first of which that yields a handle is given the
wrong way round. -/
theorem served_iff (hw : WellFormed hl.freeList.index) (request : Option HandleRanges) :
    Served avl purgatory hl request ↔ (request = none → hl.freeList.index ≠ .nil) ∧
      ∀ ranges ∈ request, Unmisled hl.freeList.index ranges.extents ranges.extents := by
  cases request with
  | some ranges =>
    simp only [reduceCtorEq, false_implies, true_and, Option.mem_some, forall_eq']
    obtain ⟨hnull, hunmisled, hno⟩ | ⟨h, hl', halloc, hfree, hmisled⟩ :=
      troveHandleAllocFromRange_yields avl hw (Subset.refl ranges.extents)
    · refine iff_of_true ⟨?_, fun _ records faults clock => ⟨.enospc, ⟨hl, records⟩, ?_⟩⟩ hunmisled
      · rintro ⟨h, hfree, hmem⟩
        obtain ⟨e, he, hc⟩ := hmem ranges rfl
        exact absurd (Extent.yields_of_contains (Extentlist.mem_handles.mp hfree) hc) (hno e he h)
      · rw [createExtents, dspaceCreateOpSvc, newHandle_of_null avl hnull]
        rfl
    · refine ⟨fun hserved => ?_, fun hunmisled => ?_⟩
      · by_contra hno
        by_cases hsome : ∃ h, Suits hl (some ranges) h
        · obtain ⟨h1, hl1, halloc1, hsuits⟩ := hserved.complete hsome
          cases halloc.symm.trans halloc1
          exact hno (hmisled.mpr (hsuits.2 ranges rfl))
        · -- the end of a range that has no handle is taken for one
          obtain ⟨e, s', hcreate⟩ := hserved.exhausted hsome (fun _ => false)
            ⟨false, false, false⟩ fun _ => ⟨0, 0⟩
          obtain ⟨x, hx, hc⟩ := hfree
          have hpos : h ≠ handleNull :=
            Nat.ne_of_gt ((hw.valid x hx).1.trans (contains_iff.mp hc).1)
          rw [createExtents, dspaceCreateOpSvc, newHandle_of_misled avl hno, halloc] at hcreate
          simp [createStoreHandle, hpos] at hcreate
      · have hsuits : Suits hl (some ranges) h :=
          ⟨hfree, fun r hr => by cases hr; exact hmisled.mp hunmisled⟩
        exact ⟨fun _ => ⟨h, hl', halloc, hsuits⟩, fun hnone => absurd ⟨h, hsuits⟩ hnone⟩
  | none =>
    obtain ⟨hnil, hnone⟩ | ⟨ext, free', hhigh, hsome, hsheds, -⟩ :=
      extentlistGetAndDecExtent_spec avl hw
    · refine iff_of_false (fun hs => ?_) fun h => h.1 rfl hnil
      -- nothing is free, and -1 is taken for a handle
      obtain ⟨e, s', hcreate⟩ := hs.exhausted (by simp [Suits, Extentlist.mem_handles, hnil])
        (fun _ => false) ⟨false, false, false⟩ fun _ => ⟨0, 0⟩
      simp [createExtents, dspaceCreateOpSvc, newHandle, troveHandleAlloc, troveLedgerHandleAlloc,
        hnone, createStoreHandle, handleNull, handleLimit] at hcreate
    · have hpos := hsheds.pos
      have hsuits : Suits hl none ext.last := ⟨Extentlist.mem_handles.mpr hpos, fun _ h => by cases h⟩
      refine iff_of_true ⟨fun _ => ?_, fun hno => absurd ⟨_, hsuits⟩ hno⟩
        ⟨fun _ hnil => ?_, fun _ h => by cases h⟩
      · exact ⟨_, _, by rw [allocFor, troveHandleAlloc, troveLedgerHandleAlloc, hsome]; rfl, hsuits⟩
      · rw [hnil] at hpos
        exact absurd hpos (Nat.lt_irrefl 0)

/-- A new collection: every handle is free and there are no records. -/
def Dspaces.start (extents : List Extent) (clock : Nat → Timeval) : Dspaces :=
  ⟨(LedgerRun.start avl extents clock).ledger, fun _ => false⟩

theorem settled_start (hvalid : ∀ e ∈ extents, e.Valid) (honce : ∀ h, tally extents h ≤ 1)
    (clock : Nat → Timeval) : Settled extents (Dspaces.start avl extents clock) := by
  obtain ⟨hwf, hcount⟩ := accounted_start avl hvalid honce clock
  refine ⟨hwf, fun h hrec => (by cases hrec), fun h hrec => (by cases hrec), fun h hmem _ => ?_⟩
  obtain ⟨e, he, hc⟩ := hmem
  have hpos := tally_pos he hc
  rw [← hcount h] at hpos
  have hnone : (LedgerRun.start avl extents clock).allocated.count h = 0 := rfl
  rw [hnone, Nat.zero_add] at hpos
  exact hpos

end

def fiveHandles : Dspaces :=
  .start (unbalanced first) [⟨3, 7⟩] fun _ => ⟨0, 0⟩

theorem fiveHandles_settled : Settled [⟨3, 7⟩] fiveHandles := by
  refine settled_start _ ?_ (tally_le_one (pairwise_singleton _ _)) _
  simp [Extent.Valid, handleLimit]

/-- While some of them are free, a dataspace without a range gets one. -/
theorem served_five :
    Served (unbalanced first) ⟨50, 0⟩ fiveHandles.ledger none :=
  (served_iff _ _ fiveHandles_settled.wf.free none).mpr ⟨fun _ => by decide, fun _ h => by cases h⟩

/-- A range without a handle in it: its ends are given the wrong way round. -/
def sevenToFive : HandleRanges := ⟨⟨[⟨7, 5⟩], by decide, by decide⟩, by decide⟩

/-- A collection of one handle: the first dataspace gets it, and the second is created under the
handle 2^64 - 1. And a dataspace that is to be in an empty range is created under an end of it. -/
theorem created_under_minus_one :
    (∃ s, DspaceOp.step (unbalanced first) ⟨50, 0⟩
        (.start (unbalanced first) [⟨1, 1⟩] fun _ => ⟨0, 0⟩)
        (.create ⟨[⟨0, 0⟩], by decide, by decide⟩ false ⟨false, false, false⟩ fun _ => ⟨9, 0⟩) =
          some s ∧ (¬ ∃ h, Suits s.ledger none h) ∧
      ∃ s', dspaceCreateOpSvc (unbalanced first) ⟨50, 0⟩ s [⟨0, 0⟩] false
        ⟨false, false, false⟩ (fun _ => ⟨9, 0⟩) = some (.ok (2 ^ 64 - 1), s')) ∧
    (¬ ∃ h, Suits fiveHandles.ledger (some sevenToFive) h) ∧
      ∃ s', dspaceCreateOpSvc (unbalanced first) ⟨50, 0⟩ fiveHandles [⟨7, 5⟩] false
        ⟨false, false, false⟩ (fun _ => ⟨9, 0⟩) = some (.ok 7, s') := by
  refine ⟨⟨_, rfl, ?_, _, rfl⟩, ?_, _, rfl⟩
  · rintro ⟨h, ⟨e, he, -⟩, -⟩
    cases he
  · rintro ⟨h, -, hmem⟩
    obtain ⟨e, he, hc⟩ := hmem sevenToFive rfl
    rw [mem_singleton.mp he, contains_iff] at hc
    exact absurd (hc.1.trans hc.2) (by decide)

/-- Handle 5 is asked for, and its record cannot be put; then two handles are created at once. -/
def forcedThenBatch : List DspaceOp :=
  [.create ⟨[⟨5, 5⟩], by decide, by decide⟩ true ⟨false, false, true⟩ fun _ => ⟨9, 0⟩,
    .createList ⟨[⟨3, 7⟩], by decide, by decide⟩ false 2 (fun _ => ⟨false, false, false⟩)
      (fun _ => false) fun _ _ => ⟨9, 0⟩]

theorem dspaces_agree_five :
    Agrees [⟨3, 7⟩] fiveHandles ∧
      Guarded (DspaceOp.step (unbalanced first) ⟨50, 0⟩)
        (Kept (unbalanced first) ⟨50, 0⟩ [⟨3, 7⟩]) fiveHandles forcedThenBatch := by
  refine dspaces_agree _ _ fiveHandles_settled _ ?_
  refine .cons rfl ?_ (.cons rfl ?_ trivial)
  · exact fun _ => .inr ⟨rfl, by decide, by decide⟩
  · exact .inr ⟨by decide, fun _ _ => rfl⟩

def forceFive : DspaceOp :=
  .create ⟨[⟨5, 5⟩], by decide, by decide⟩ true ⟨false, false, false⟩ fun _ => ⟨9, 0⟩

/-- A batch of `count` handles, whose records can be put or not. -/
def batchOf (count : Nat) (putFails : Bool) : DspaceOp :=
  .createList ⟨[⟨3, 7⟩], by decide, by decide⟩ false count (fun _ => ⟨false, false, putFails⟩)
    (fun _ => false) fun _ _ => ⟨9, 0⟩

/-- A batch whose first record cannot be put loses a handle, and a batch of six out of five handles
fails and keeps what it got. A forced handle that exists already is freed, and a dataspace whose
key/value pairs cannot be deleted is gone while its handle stays in use. -/
theorem dspaces_part :
    ¬ Kept (unbalanced first) ⟨50, 0⟩ [⟨3, 7⟩] fiveHandles (batchOf 1 true) ∧
      ¬ Kept (unbalanced first) ⟨50, 0⟩ [⟨3, 7⟩] fiveHandles (batchOf 6 false) ∧
      ∃ s, forceFive.step (unbalanced first) ⟨50, 0⟩ fiveHandles = some s ∧
        ¬ Kept (unbalanced first) ⟨50, 0⟩ [⟨3, 7⟩] s forceFive ∧
        ¬ Kept (unbalanced first) ⟨50, 0⟩ [⟨3, 7⟩] s
          (.remove ⟨5, ⟨false, true⟩, fun _ => ⟨9, 0⟩⟩) := by
  refine ⟨?_, ?_, _, rfl, ?_, ?_⟩
  · rintro ⟨e, s', hrun, hagree, -⟩
    cases hrun
    have hfree := (hagree 3 (by decide)).mpr rfl
    revert hfree
    unfold HandleLedger.Free
    decide
  · rintro ⟨e, s', hrun, -, hsame⟩
    cases hrun
    have hrecords := congrFun (congrArg Dspaces.records (hsame rfl (by decide))) 3
    revert hrecords
    decide
  · rintro ⟨e, s', hrun, hagree, -⟩
    cases hrun
    have hgone := (hagree 5 (by decide)).mp (by unfold HandleLedger.Free; decide)
    revert hgone
    decide
  · rintro ⟨e, s', hrun, hagree, -⟩
    cases hrun
    have hfree := (hagree 5 (by decide)).mpr rfl
    revert hfree
    unfold HandleLedger.Free
    decide

end Pvfs.Trove
