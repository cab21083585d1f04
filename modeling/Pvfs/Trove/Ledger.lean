import Mathlib.Data.List.Nodup
import Mathlib.Order.CompletePartialOrder
import Pvfs.Description.Distribution
import Pvfs.Lib.Steps
import Pvfs.Trove.Extentlist

/-! # The ledger of handles

A ledger deals out the handles of a collection from its free list. A handle that is freed
waits in the list of recently freed handles, or in the overflow list once that is long
enough, and goes back to the free list when the lists are recycled. Whatever is called in
whatever order, each handle of the collection is in just one place: it is allocated or it
is in one of the three lists. -/

namespace Pvfs.Trove

open Lib

/-- `struct handle_ledger`, without what is meant for a backing store. -/
structure HandleLedger where
  freeList : Extentlist
  recentlyFreedList : Extentlist
  overflowList : Extentlist
  cutoff : Nat
deriving DecidableEq, Repr

/-- `trove_handle_ledger_init`; `clock i` is what the `i`-th look at the clock finds. -/
def troveHandleLedgerInit (clock : Nat → Timeval) : HandleLedger :=
  ⟨extentlistInit (clock 0), extentlistInit (clock 1), extentlistInit (clock 2), 0⟩

/-- `trove_handle_ledger_set_threshold`. -/
def troveHandleLedgerSetThreshold (hl : HandleLedger) (nhandles : Nat) : HandleLedger :=
  { hl with cutoff := nhandles / 4 + 1 }

/-- `extentlist_endured_purgatory`, with the seconds of `s_extentlist_purgatory`. -/
def extentlistEnduredPurgatory (purgatory : Timeval) (querent reference : Extentlist) : Bool :=
  toInt32 ((querent.timestamp.sec : Int) - reference.timestamp.sec) > purgatory.sec

section
variable (avl : Avl) (purgatory : Timeval)

/-- `trove_handle_ledger_addextent`. -/
def troveHandleLedgerAddextent (hl : HandleLedger) (extent : Extent) (now : Timeval) :
    Int × HandleLedger :=
  let r := extentlistAddextent avl hl.freeList extent.first extent.last now
  (r.1, { hl with freeList := r.2 })

/-- The loop of `trove_map_handle_ranges` and the threshold it ends with. -/
def troveMapHandleRanges (clock : Nat → Timeval) : Nat → Nat → List Extent → HandleLedger →
    HandleLedger
  | _, total, [], hl => troveHandleLedgerSetThreshold hl total
  | i, total, e :: es, hl =>
    let r := troveHandleLedgerAddextent avl hl e (clock i)
    if r.1 ≠ 0 then
      troveHandleLedgerSetThreshold r.2 total
    else
      troveMapHandleRanges clock (i + 1)
        ((total + (e.last + handleLimit - e.first + 1)) % handleLimit) es r.2

/-- `trove_ledger_handle_alloc`. -/
def troveLedgerHandleAlloc (hl : HandleLedger) : Option Nat × HandleLedger :=
  let r := extentlistGetAndDecExtent avl hl.freeList
  (r.1, { hl with freeList := r.2 })

/-- `trove_ledger_handle_alloc_from_range`. -/
def troveLedgerHandleAllocFromRange (hl : HandleLedger) (extent : Extent) :
    Option (Option Nat × HandleLedger) :=
  (extentlistGetFromExtent avl hl.freeList extent).map fun r => (r.1, { hl with freeList := r.2 })

/-- `trove_handle_remove`. -/
def troveHandleRemove (hl : HandleLedger) (handle : Nat) : Option (Int × HandleLedger) :=
  (extentlistHandleRemove avl hl.freeList handle).map fun r => (r.1, { hl with freeList := r.2 })

/-- `handle_recycle`, with the number of times it looks at the clock. -/
def handleRecycle (hl : HandleLedger) (clock : Nat → Timeval) : Option (Nat × HandleLedger) :=
  (extentlistMerge avl hl.freeList hl.recentlyFreedList clock).map fun r =>
    (r.1 + 1,
      { hl with
        freeList := r.2
        recentlyFreedList := hl.overflowList
        overflowList := ⟨0, clock r.1, .nil⟩ })

/-- The list that `trove_ledger_handle_free` puts the handle on. -/
def putAside (hl : HandleLedger) (handle : Nat) (now : Timeval) : HandleLedger :=
  if extentlistHitCutoff hl.recentlyFreedList hl.cutoff then
    { hl with overflowList := (extentlistAddextent avl hl.overflowList handle handle now).2 }
  else
    { hl with
      recentlyFreedList := (extentlistAddextent avl hl.recentlyFreedList handle handle now).2 }

/-- `trove_ledger_handle_free`, with the number of times it looks at the clock. -/
def troveLedgerHandleFree (hl : HandleLedger) (handle : Nat) (clock : Nat → Timeval) :
    Option (Nat × HandleLedger) :=
  let hl := putAside avl hl handle (clock 0)
  if hl.freeList.numHandles > hl.cutoff then
    some (1, hl)
  else if extentlistEnduredPurgatory purgatory hl.recentlyFreedList hl.overflowList then
    (handleRecycle avl hl fun i => clock (i + 1)).map fun r => (r.1 + 1, r.2)
  else
    some (1, hl)

end

/-! ## Runs -/

/-- A ledger with what its users know: which handles are allocated, when each handle was freed
last, and the latest reading of the clock. -/
structure LedgerRun where
  ledger : HandleLedger
  allocated : List Nat
  freedAt : Nat → Option Timeval
  now : Timeval

/-- A call. One that frees a handle has the readings of the clock it gets to see. -/
inductive LedgerOp where
  | alloc
  | allocFromRange (extent : Extent)
  | remove (handle : Nat)
  | free (handle : Nat) (clock : Nat → Timeval)

section
variable (avl : Avl) (purgatory : Timeval)

/-- A ledger that has just been built from the extents of a collection. -/
def LedgerRun.start (extents : List Extent) (clock : Nat → Timeval) : LedgerRun where
  ledger := troveMapHandleRanges avl clock 3 0 extents (troveHandleLedgerInit clock)
  allocated := []
  freedAt := fun _ => none
  now := clock (2 + extents.length)

/-- Only a handle that is allocated is freed, and one that is removed counts as allocated. -/
def LedgerRun.step (s : LedgerRun) : LedgerOp → Option LedgerRun
  | .alloc =>
    let r := troveLedgerHandleAlloc avl s.ledger
    some { s with ledger := r.2, allocated := r.1.toList ++ s.allocated }
  | .allocFromRange extent =>
    (troveLedgerHandleAllocFromRange avl s.ledger extent).map fun r =>
      { s with ledger := r.2, allocated := r.1.toList ++ s.allocated }
  | .remove handle =>
    (troveHandleRemove avl s.ledger handle).map fun (ret, ledger) =>
      { s with
        ledger := ledger
        allocated := if ret = 0 then handle :: s.allocated else s.allocated }
  | .free handle clock =>
    if handle ∈ s.allocated then
      (troveLedgerHandleFree avl purgatory s.ledger handle clock).map fun r =>
        { ledger := r.2
          allocated := s.allocated.erase handle
          freedAt := fun h => if h = handle then some (clock 0) else s.freedAt h
          now := clock (r.1 - 1) }
    else
      none

end

/-! ## One call at a time -/

variable (avl : Avl) {hl hl' : HandleLedger} {handle : Nat}

/-- In how many extents of the three lists a handle is. -/
def HandleLedger.listed (hl : HandleLedger) (h : Nat) : Nat :=
  tally hl.freeList.index.toList h + tally hl.recentlyFreedList.index.toList h +
    tally hl.overflowList.index.toList h

structure HandleLedger.Wf (hl : HandleLedger) : Prop where
  free : WellFormed hl.freeList.index
  recentlyFreed : WellFormed hl.recentlyFreedList.index
  overflow : WellFormed hl.overflowList.index
  once : ∀ h, hl.listed h ≤ 1

variable {free' elist : Extentlist}

theorem HandleLedger.Wf.lose (hw : hl.Wf)
    (hloses : Loses hl.freeList.index free'.index handle) :
    HandleLedger.Wf { hl with freeList := free' } ∧ ∀ h, hl.listed h =
      HandleLedger.listed { hl with freeList := free' } h + if h = handle then 1 else 0 := by
  have hlisted : ∀ h, hl.listed h =
      HandleLedger.listed { hl with freeList := free' } h + if h = handle then 1 else 0 := by
    intro h
    simp only [listed, hloses.tally_eq h]
    omega
  refine ⟨⟨hloses.wellFormed, hw.recentlyFreed, hw.overflow, fun h => ?_⟩, hlisted⟩
  have honce := hw.once h
  rw [hlisted] at honce
  exact Nat.le_of_add_right_le honce

structure Added (elist elist' : Extentlist) (handle : Nat) (now : Timeval) : Prop where
  wellFormed : WellFormed elist'.index
  timestamp : elist'.timestamp = now
  tally_eq : ∀ h, tally elist'.index.toList h =
    tally elist.index.toList h + if h = handle then 1 else 0
  keeps : ∀ I, Adds avl I → I elist → I elist'

theorem extentlistAddextent_unlisted (now : Timeval)
    (hn : WellFormed elist.index) (hvalid : Extent.Valid ⟨handle, handle⟩)
    (hnone : tally elist.index.toList handle = 0) :
    Added avl elist (extentlistAddextent avl elist handle handle now).2 handle now := by
  have hfits : Fits elist.index ⟨handle, handle⟩ := by
    refine hn.fits hvalid fun h => ?_
    rw [tally_one]
    split
    · rename_i heq
      rw [heq, hnone]
    · rw [Nat.zero_add]
      exact hn.once h
  have hkeeps : ∀ I, Adds avl I → I elist → I (extentlistAddextent avl elist handle handle now).2 :=
    fun I hI h => hI _ ⟨handle, handle⟩ now hfits h
  obtain ⟨index, heq, hwf, htally⟩ : ∃ index, extentlistAddextent avl elist handle handle now =
    (0, ⟨_, now, index⟩) ∧ _ := extentlistAddextent_spec avl hfits
  rw [heq] at hkeeps ⊢
  refine ⟨hwf, rfl, fun h => ?_, hkeeps⟩
  rw [htally, tally_cons, tally_one, Nat.add_comm]

section
variable (now : Timeval) (hw : hl.Wf) (hvalid : Extent.Valid ⟨handle, handle⟩)
  (hnone : hl.listed handle = 0)
include hw hvalid hnone

theorem putAside_cases :
    (hl.cutoff < hl.recentlyFreedList.numHandles ∧ ∃ elist',
      putAside avl hl handle now = { hl with overflowList := elist' } ∧
      Added avl hl.overflowList elist' handle now) ∨
    (hl.recentlyFreedList.numHandles ≤ hl.cutoff ∧ ∃ elist',
      putAside avl hl handle now = { hl with recentlyFreedList := elist' } ∧
      Added avl hl.recentlyFreedList elist' handle now) := by
  unfold HandleLedger.listed at hnone
  unfold putAside extentlistHitCutoff
  split
  · rename_i hhit
    exact .inl ⟨of_decide_eq_true hhit, _, rfl,
      extentlistAddextent_unlisted avl now hw.overflow hvalid (by omega)⟩
  · rename_i hhit
    exact .inr ⟨by simpa using hhit, _, rfl,
      extentlistAddextent_unlisted avl now hw.recentlyFreed hvalid (by omega)⟩

def HandleLedger.Each (I : Extentlist → Prop) (hl : HandleLedger) : Prop :=
  I hl.freeList ∧ I hl.recentlyFreedList ∧ I hl.overflowList

theorem putAside_spec :
    (putAside avl hl handle now).Wf ∧
      (∀ h, (putAside avl hl handle now).listed h = hl.listed h + if h = handle then 1 else 0) ∧
      ∀ I, Adds avl I → hl.Each I → (putAside avl hl handle now).Each I := by
  have hcases := putAside_cases avl now hw hvalid hnone
  have hlisted : ∀ h, (putAside avl hl handle now).listed h =
      hl.listed h + if h = handle then 1 else 0 := by
    intro h
    obtain ⟨-, elist', heq, hadd⟩ | ⟨-, elist', heq, hadd⟩ := hcases
    all_goals
      simp only [heq, HandleLedger.listed, hadd.tally_eq]
      omega
  have honce : ∀ h, (putAside avl hl handle now).listed h ≤ 1 := by
    intro h
    rw [hlisted]
    split
    · rename_i heq
      rw [heq, hnone]
    · exact hw.once h
  obtain ⟨-, elist', heq, hadd⟩ | ⟨-, elist', heq, hadd⟩ := hcases
  · rw [heq] at honce hlisted ⊢
    exact ⟨⟨hw.free, hw.recentlyFreed, hadd.wellFormed, honce⟩, hlisted,
      fun I hI h => ⟨h.1, h.2.1, hadd.keeps I hI h.2.2⟩⟩
  · rw [heq] at honce hlisted ⊢
    exact ⟨⟨hw.free, hadd.wellFormed, hw.overflow, honce⟩, hlisted,
      fun I hI h => ⟨h.1, hadd.keeps I hI h.2.1, h.2.2⟩⟩

end

theorem handleRecycle_spec (clock : Nat → Timeval) (hw : hl.Wf) :
    let n := hl.recentlyFreedList.index.toList.length
    ∃ free', handleRecycle avl hl clock =
        some (n + 1, ⟨free', hl.overflowList, ⟨0, clock n, .nil⟩, hl.cutoff⟩) ∧
      HandleLedger.Wf ⟨free', hl.overflowList, ⟨0, clock n, .nil⟩, hl.cutoff⟩ ∧
      (∀ h, tally free'.index.toList h = tally hl.freeList.index.toList h +
        tally hl.recentlyFreedList.index.toList h) ∧
      ∀ I, Adds avl I → I hl.freeList → I free' := by
  have hfits : FitsAll hl.freeList.index hl.recentlyFreedList.index := by
    refine ⟨hw.free, hw.recentlyFreed, fun h => ?_⟩
    have honce := hw.once h
    unfold HandleLedger.listed at honce
    omega
  obtain ⟨free', hmerge, hwf, htally, hkeeps⟩ := extentlistMerge_spec avl clock hfits
  have hlisted : ∀ h, HandleLedger.listed ⟨free', hl.overflowList,
      ⟨0, clock hl.recentlyFreedList.index.toList.length, .nil⟩, hl.cutoff⟩ h = hl.listed h := by
    intro h
    simp only [HandleLedger.listed, htally, Lib.Tree.toList_nil, tally_nil]
    omega
  refine ⟨free', by rw [handleRecycle, hmerge]; rfl, ⟨hwf, hw.overflow, wellFormed_nil, fun h => ?_⟩,
    htally, hkeeps⟩
  exact (hlisted h).trans_le (hw.once h)

/-- A freed handle is listed, and no other changes. -/
theorem troveLedgerHandleFree_spec (purgatory : Timeval) (clock : Nat → Timeval) (hw : hl.Wf)
    (hvalid : Extent.Valid ⟨handle, handle⟩) (hnone : hl.listed handle = 0) :
    ∃ k hl', troveLedgerHandleFree avl purgatory hl handle clock = some (k, hl') ∧ hl'.Wf ∧
      (∀ h, hl'.listed h = hl.listed h + if h = handle then 1 else 0) ∧
      ∀ I, Adds avl I → (∀ t, I ⟨0, t, .nil⟩) → hl.Each I → hl'.Each I := by
  obtain ⟨hw1, hlisted1, hkeeps1⟩ := putAside_spec avl (clock 0) hw hvalid hnone
  unfold troveLedgerHandleFree
  dsimp only
  split
  · exact ⟨_, _, rfl, hw1, hlisted1, fun I hI _ => hkeeps1 I hI⟩
  · split
    · obtain ⟨free', hrec, hw', htally, hkeeps⟩ :=
        handleRecycle_spec avl (fun i => clock (i + 1)) hw1
      refine ⟨_, _, by rw [hrec]; rfl, hw', fun h => ?_, fun I hI hnil h => ?_⟩
      · rw [← hlisted1]
        simp only [HandleLedger.listed, htally, Lib.Tree.toList_nil, tally_nil, Nat.add_zero]
      · obtain ⟨hfree, -, hover⟩ := hkeeps1 I hI h
        exact ⟨hkeeps I hI hfree, hover, hnil _⟩
    · exact ⟨_, _, rfl, hw1, hlisted1, fun I hI _ => hkeeps1 I hI⟩

theorem troveMapHandleRanges_spec (clock : Nat → Timeval) (i total : Nat) {extents : List Extent}
    (hvalid : ∀ e ∈ extents, e.Valid) (hw : hl.Wf)
    (honce : ∀ h, hl.listed h + tally extents h ≤ 1) :
    (troveMapHandleRanges avl clock i total extents hl).Wf ∧
      (∀ h, (troveMapHandleRanges avl clock i total extents hl).listed h =
        hl.listed h + tally extents h) ∧
      ∀ I, Adds avl I → hl.Each I → (troveMapHandleRanges avl clock i total extents hl).Each I := by
  -- by induction on the extents that are left
  induction extents generalizing i total hl with
  | nil => exact ⟨⟨hw.free, hw.recentlyFreed, hw.overflow, hw.once⟩, fun h => rfl, fun I _ h => h⟩
  | cons e es ih =>
    have hfits : Fits hl.freeList.index ⟨e.first, e.last⟩ := by
      refine hw.free.fits (hvalid e List.mem_cons_self) fun h => ?_
      have hle := honce h
      rw [tally_cons, HandleLedger.listed] at hle
      exact (by omega : tally [e] h + tally hl.freeList.index.toList h ≤ 1)
    obtain ⟨index, heq, hwf, htally⟩ : ∃ index, extentlistAddextent avl hl.freeList e.first e.last
      (clock i) = (0, ⟨_, clock i, index⟩) ∧ _ := extentlistAddextent_spec avl hfits
    have hlisted : ∀ h, (troveHandleLedgerAddextent avl hl e (clock i)).2.listed h =
        hl.listed h + tally [e] h := by
      intro h
      have hadd : tally index.toList h = tally [e] h + tally hl.freeList.index.toList h := by
        rw [htally, tally_cons]
      simp only [troveHandleLedgerAddextent, HandleLedger.listed, heq, hadd]
      omega
    have hw' : (troveHandleLedgerAddextent avl hl e (clock i)).2.Wf := by
      refine ⟨?_, hw.recentlyFreed, hw.overflow, fun h => ?_⟩
      · rw [troveHandleLedgerAddextent, heq]
        exact hwf
      · have hle := honce h
        rw [tally_cons] at hle
        rw [hlisted]
        omega
    have hret : (troveHandleLedgerAddextent avl hl e (clock i)).1 = 0 := by
      rw [troveHandleLedgerAddextent, heq]
    rw [troveMapHandleRanges]
    simp only [hret, ne_eq, not_true_eq_false, if_false]
    obtain ⟨hw'', hlisted'', hkeeps⟩ := ih (i + 1) _ (fun x hx => hvalid x (List.mem_cons_of_mem _ hx)) hw'
      fun h => by
        have hle := honce h
        rw [tally_cons] at hle
        rw [hlisted]
        omega
    refine ⟨hw'', fun h => ?_, fun I hI h => hkeeps I hI ⟨hI _ _ _ hfits h.1, h.2⟩⟩
    have hes : tally (e :: es) h = tally [e] h + tally es h := tally_cons
    rw [hlisted'', hlisted, hes, Nat.add_assoc]

theorem troveMapHandleRanges_lists (clock : Nat → Timeval) (i total : Nat) (extents : List Extent)
    (hl : HandleLedger) :
    (troveMapHandleRanges avl clock i total extents hl).recentlyFreedList = hl.recentlyFreedList ∧
      (troveMapHandleRanges avl clock i total extents hl).overflowList = hl.overflowList := by
  induction extents generalizing i total hl with
  | nil => exact ⟨rfl, rfl⟩
  | cons e es ih =>
    rw [troveMapHandleRanges]
    split
    · exact ⟨rfl, rfl⟩
    · exact ih _ _ _

/-! ## Every run -/

variable {extents : List Extent} {s s' : LedgerRun} {purgatory : Timeval} {op : LedgerOp}

/-- Every handle is allocated or listed, as often as it was given. -/
structure Accounted (extents : List Extent) (s : LedgerRun) : Prop where
  wf : s.ledger.Wf
  count : ∀ h, s.allocated.count h + s.ledger.listed h = tally extents h

theorem Accounted.take (hs : Accounted extents s)
    (hloses : Loses s.ledger.freeList.index free'.index handle) :
    Accounted extents { s with
      ledger := { s.ledger with freeList := free' }, allocated := handle :: s.allocated } := by
  obtain ⟨hw, hlisted⟩ := hs.wf.lose hloses
  refine ⟨hw, fun h => ?_⟩
  have hcount := hs.count h
  rw [hlisted] at hcount
  rw [List.count_cons]
  simp only [beq_iff_eq, eq_comm (a := handle)]
  omega

theorem Accounted.of_allocated (hs : Accounted extents s) (hvalid : ∀ e ∈ extents, e.Valid)
    (honce : ∀ h, tally extents h ≤ 1) (hmem : handle ∈ s.allocated) :
    Extent.Valid ⟨handle, handle⟩ ∧ s.ledger.listed handle = 0 := by
  have hpos : 0 < s.allocated.count handle := List.count_pos_iff.mpr hmem
  have hcount := hs.count handle
  have hle := honce handle
  exact ⟨valid_of_tally hvalid (by omega), by omega⟩

/-- The calls that keep the number of free handles right: those that free a handle, those that
take none, and an allocation from an extent that has more than the one. -/
def LedgerOp.Counted (hl : HandleLedger) : LedgerOp → Prop
  | .alloc => ∀ ext ∈ avlgethighest hl.freeList.index, ext.first ≠ ext.last
  | .allocFromRange extent => tally hl.freeList.index.toList
      (avltreeExtentSearchInRange hl.freeList.index extent) = 0
  | .remove handle => tally hl.freeList.index.toList handle = 0
  | .free _ _ => True

theorem LedgerRun.step_takes (hw : WellFormed s.ledger.freeList.index)
    (hop : ∀ h clock, op ≠ .free h clock) :
    (s.step avl purgatory op = some s ∧ op.Counted s.ledger) ∨
    ∃ handle free', s.step avl purgatory op = some { s with
        ledger := { s.ledger with freeList := free' }, allocated := handle :: s.allocated } ∧
      Loses s.ledger.freeList.index free'.index handle ∧
      (op.Counted s.ledger ∧ free'.numHandles =
          (s.ledger.freeList.numHandles + (handleLimit - 1)) % handleLimit ∨
        ¬ op.Counted s.ledger ∧ free'.numHandles = s.ledger.freeList.numHandles) := by
  cases op with
  | alloc =>
    simp only [LedgerRun.step, troveLedgerHandleAlloc, LedgerOp.Counted]
    obtain ⟨hnil, hnone⟩ | ⟨ext, free', hhigh, hsome, hsheds, hcount⟩ :=
      extentlistGetAndDecExtent_spec avl hw
    · exact .inl ⟨by rw [hnone]; rfl, by rw [hnil]; nofun⟩
    · refine .inr ⟨_, free', by rw [hsome]; rfl, hsheds.toLoses, ?_⟩
      simp only [hhigh, Option.mem_some_iff, forall_eq', ne_eq, hcount]
      split
      · rename_i hone
        exact .inr ⟨not_not_intro hone, rfl⟩
      · rename_i hmore
        exact .inl ⟨hmore, rfl⟩
  | allocFromRange extent =>
    simp only [LedgerRun.step, troveLedgerHandleAllocFromRange, LedgerOp.Counted]
    obtain ⟨hnone, hno⟩ | ⟨handle, free', hsome, hsheds, hcount, hfound⟩ :=
      extentlistGetFromExtent_spec avl extent hw
    · exact .inl ⟨by rw [hnone]; rfl, hno⟩
    · exact .inr ⟨handle, free', by rw [hsome]; rfl, hsheds.toLoses,
        .inr ⟨hfound ▸ hsheds.pos.ne', hcount⟩⟩
  | remove handle =>
    simp only [LedgerRun.step, troveHandleRemove, LedgerOp.Counted]
    obtain ⟨hno, hnone⟩ | ⟨free', hsome, hsheds, hcount⟩ := extentlistHandleRemove_spec avl handle hw
    · exact .inl ⟨by rw [hnone]; rfl, hno⟩
    · exact .inr ⟨handle, free', by rw [hsome]; rfl, hsheds.toLoses,
        .inr ⟨hsheds.pos.ne', hcount⟩⟩
  | free handle clock => exact absurd rfl (hop handle clock)

section
variable (hs : Accounted extents s) (hvalid : ∀ e ∈ extents, e.Valid)
  (honce : ∀ h, tally extents h ≤ 1)
include hs hvalid honce

theorem Accounted.step_spec (hop : ∀ h clock, op = .free h clock → h ∈ s.allocated) :
    ∃ s', s.step avl purgatory op = some s' ∧ Accounted extents s' := by
  by_cases hfree : ∃ handle clock, op = .free handle clock
  · obtain ⟨handle, clock, rfl⟩ := hfree
    have hmem := hop handle clock rfl
    obtain ⟨hhandle, hnone⟩ := hs.of_allocated hvalid honce hmem
    obtain ⟨k, hl', hfree, hw, hlisted, -⟩ := troveLedgerHandleFree_spec avl purgatory clock hs.wf
      hhandle hnone
    have hpos : 0 < s.allocated.count handle := List.count_pos_iff.mpr hmem
    refine ⟨_, by rw [LedgerRun.step, if_pos hmem, hfree]; rfl, hw, fun h => ?_⟩
    have hcounth := hs.count h
    rw [hlisted, List.count_erase]
    simp only [beq_iff_eq, eq_comm (a := handle)]
    split
    · rename_i heq
      rw [heq] at hcounth ⊢
      omega
    · exact hcounth
  · obtain ⟨hnone, -⟩ | ⟨handle, free', hsome, hloses, -⟩ :=
      s.step_takes avl hs.wf.free fun handle clock heq => hfree ⟨handle, clock, heq⟩
    · exact ⟨s, hnone, hs⟩
    · exact ⟨_, hsome, hs.take hloses⟩

/-- Every operation accounts for every handle. -/
theorem Accounted.step (h : s.step avl purgatory op = some s') : Accounted extents s' := by
  have hop : ∀ handle clock, op = .free handle clock → handle ∈ s.allocated := by
    intro handle clock heq
    by_contra hmem
    rw [heq, LedgerRun.step, if_neg hmem] at h
    cases h
  obtain ⟨s1, hstep, hs1⟩ := hs.step_spec avl hvalid honce hop
  rw [hstep] at h
  cases h
  exact hs1

end

theorem tally_le_one (hdisj : extents.Pairwise fun a b => a.last < b.first ∨ b.last < a.first)
    (h : Nat) : tally extents h ≤ 1 := by
  induction extents with
  | nil => exact Nat.zero_le 1
  | cons e es ih =>
    obtain ⟨he, hes⟩ := List.pairwise_cons.mp hdisj
    rw [tally_cons, tally_singleton]
    split
    · rename_i hc
      have hzero : tally es h = 0 := by
        refine List.countP_eq_zero.mpr fun x hx hcx => ?_
        have hapart := he x hx
        rw [contains_iff] at hc hcx
        omega
      omega
    · rw [Nat.zero_add]
      exact ih hes

theorem accounted_start (hvalid : ∀ e ∈ extents, e.Valid) (honce : ∀ h, tally extents h ≤ 1)
    (clock : Nat → Timeval) : Accounted extents (LedgerRun.start avl extents clock) := by
  have hw : (troveHandleLedgerInit clock).Wf :=
    ⟨wellFormed_nil, wellFormed_nil, wellFormed_nil, fun h => Nat.zero_le 1⟩
  have hzero : ∀ h, (troveHandleLedgerInit clock).listed h = 0 := fun h => rfl
  obtain ⟨hw', hlisted, -⟩ := troveMapHandleRanges_spec avl clock 3 0 hvalid hw fun h => by
    rw [hzero, Nat.zero_add]
    exact honce h
  refine ⟨hw', fun h => ?_⟩
  dsimp only [LedgerRun.start]
  rw [hlisted, hzero, Nat.zero_add]
  exact Nat.zero_add _

def Extentlist.handles (elist : Extentlist) : Set Nat :=
  { h | ∃ e ∈ elist.index.toList, e.contains h = true }

def LedgerRun.parts (s : LedgerRun) : List (Set Nat) :=
  [{ h | h ∈ s.allocated }, s.ledger.freeList.handles, s.ledger.recentlyFreedList.handles,
    s.ledger.overflowList.handles]

/-- Each handle of the collection is in one place, and is allocated at most once. -/
structure Partition (extents : List Extent) (s : LedgerRun) : Prop where
  cover : ∀ h, (∃ e ∈ extents, e.contains h = true) ↔ ∃ part ∈ s.parts, h ∈ part
  disjoint : s.parts.Pairwise Disjoint
  nodup : s.allocated.Nodup

theorem Extentlist.mem_handles {h : Nat} :
    h ∈ elist.handles ↔ 0 < tally elist.index.toList h := List.countP_pos_iff.symm

theorem LedgerRun.mem_allocated {h : Nat} :
    h ∈ {h | h ∈ s.allocated} ↔ 0 < s.allocated.count h := List.count_pos_iff.symm

theorem Accounted.partition (hs : Accounted extents s) (honce : ∀ h, tally extents h ≤ 1) :
    Partition extents s where
  cover h := by
    have hcount := hs.count h
    unfold HandleLedger.listed at hcount
    rw [← List.countP_pos_iff]
    simp only [LedgerRun.parts, List.mem_cons, List.not_mem_nil, or_false, exists_eq_or_imp,
      exists_eq_left, Extentlist.mem_handles, LedgerRun.mem_allocated]
    unfold tally at *
    omega
  disjoint := by
    have hone : ∀ h, s.allocated.count h + s.ledger.listed h ≤ 1 := fun h =>
      (hs.count h).trans_le (honce h)
    unfold HandleLedger.listed at hone
    simp only [LedgerRun.parts, List.pairwise_cons, List.mem_cons, List.not_mem_nil, or_false,
      forall_eq_or_imp, forall_eq, Set.disjoint_left, Extentlist.mem_handles,
      LedgerRun.mem_allocated]
    refine ⟨⟨?_, ?_, ?_⟩, ⟨?_, ?_⟩, ?_, fun _ h => h.elim, List.Pairwise.nil⟩
    all_goals
      intro h hp hq
      have := hone h
      omega
  nodup := by
    refine List.nodup_iff_count_le_one.mpr fun h => ?_
    have hcount := hs.count h
    have hle := honce h
    omega

/-- **The ledger loses no handle and gives none out twice.** -/
theorem ledger_partition (clock : Nat → Timeval) (hvalid : ∀ e ∈ extents, e.Valid)
    (hdisj : extents.Pairwise fun a b => a.last < b.first ∨ b.last < a.first)
    (ops : List LedgerOp) :
    Throughout (LedgerRun.step avl purgatory) (Partition extents)
      (LedgerRun.start avl extents clock) ops := by
  have honce := tally_le_one hdisj
  have hinv : Throughout (LedgerRun.step avl purgatory) (Accounted extents)
      (LedgerRun.start avl extents clock) ops :=
    Throughout.of_step (fun _ _ _ hs h => hs.step avl hvalid honce h)
      (accounted_start avl hvalid honce clock) ops
  exact hinv.mono fun _ hs => hs.partition honce

/-- Handle 4 is allocated, freed after purgatory and recycled at once, and allocated again. -/
def recycledRun : List LedgerOp :=
  [.alloc, .remove 3, .free 4 fun _ => ⟨100, 0⟩, .allocFromRange ⟨2, 5⟩]

theorem ledger_partition_recycled :
    Throughout (LedgerRun.step (OrderedMap.unbalanced Extent.first) ⟨50, 0⟩) (Partition [⟨3, 4⟩])
        (LedgerRun.start (OrderedMap.unbalanced Extent.first) [⟨3, 4⟩] fun _ => ⟨0, 0⟩) recycledRun ∧
      (exec (LedgerRun.step (OrderedMap.unbalanced Extent.first) ⟨50, 0⟩)
        (LedgerRun.start (OrderedMap.unbalanced Extent.first) [⟨3, 4⟩] fun _ => ⟨0, 0⟩)
        recycledRun).map LedgerRun.allocated = some [4, 3] :=
  ⟨ledger_partition _ _ (by simp [Extent.Valid, handleLimit]) (by simp) _, rfl⟩

end Pvfs.Trove
