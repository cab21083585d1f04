import Pvfs.Trove.Ledger

/-! # How long freed handles rest

A freed handle is to rest for the purgatory time before it is handed out again. The ledger
compares the time stamp of the list of recently freed handles with that of the overflow
list, and both are stamped when something is added to them. So the list that is recycled
is as a rule the one that the last handle has just been added to, and that handle is free
again at once. -/

namespace Pvfs.Trove

open Lib LedgerRun OrderedMap Extent

/-- The clock does not run backwards. -/
structure Ticks (clock : Nat → Timeval) : Prop where
  mono : ∀ i j, i ≤ j → micros (clock i) ≤ micros (clock j)
  usec : ∀ i, (clock i).usec < 1000000

def LedgerOp.Ticks : LedgerOp → Prop
  | .free _ clock => Trove.Ticks clock
  | _ => True

/-- A call whose readings of the clock do not go back. -/
abbrev TimedOp := { op : LedgerOp // op.Ticks }

/-- The call does not find the clock before `now`. -/
def LedgerOp.notBefore (now : Timeval) : LedgerOp → Bool
  | .free _ clock => micros now ≤ micros (clock 0)
  | _ => true

variable (avl : Avl) (purgatory : Timeval)

def timedStep (s : LedgerRun) (op : TimedOp) : Option LedgerRun :=
  if op.1.notBefore s.now then s.step avl purgatory op.1 else none

def LedgerOp.handsOut (hl : HandleLedger) : LedgerOp → Option Nat
  | .alloc => (troveLedgerHandleAlloc avl hl).1
  | .allocFromRange extent => (troveLedgerHandleAllocFromRange avl hl extent).bind Prod.fst
  | _ => none

/-- The handle has been freed less than the purgatory time before `now`. -/
def InPurgatory (s : LedgerRun) (now : Timeval) (handle : Nat) : Prop :=
  ∃ t, s.freedAt handle = some t ∧ micros now < micros t + micros purgatory

/-- No allocation that may come next, at whatever time, hands out a handle that is in
purgatory. -/
def KeepsPurgatory (s : LedgerRun) : Prop :=
  ∀ (op : LedgerOp) (handle : Nat) (now : Timeval), op.handsOut avl s.ledger = some handle →
    micros s.now ≤ micros now → ¬ InPurgatory purgatory s now handle

/-- The free list runs low, there is room on the list of recently freed handles, and nothing
has been added to the overflow list for longer than the purgatory time. -/
def RunsLow (hl : HandleLedger) (clock : Nat → Timeval) : Prop :=
  hl.freeList.numHandles ≤ hl.cutoff ∧ hl.recentlyFreedList.numHandles ≤ hl.cutoff ∧
    (purgatory.sec : Int) < toInt32 (((clock 0).sec : Int) - hl.overflowList.timestamp.sec)

def recycledAt (hl : HandleLedger) (handle : Nat) (clock : Nat → Timeval) : Timeval :=
  clock ((putAside avl hl handle (clock 0)).recentlyFreedList.index.toList.length + 1)

/-- A handle is freed when the lists are not recycled at once, unless that takes as long as
the purgatory time itself. -/
def FreedInTime (s : LedgerRun) : LedgerOp → Prop
  | .free handle clock => RunsLow purgatory s.ledger clock →
    micros (clock 0) + micros purgatory ≤ micros (recycledAt avl s.ledger handle clock)
  | _ => True

/-! ## Any free handle can be had -/

variable {avl purgatory} {n : Index} {e : Extent} {h : Nat} {s s' : LedgerRun}
variable {hl : HandleLedger}

theorem handsOut_range (hw : WellFormed hl.freeList.index)
    (hpos : 0 < tally hl.freeList.index.toList h) :
    (LedgerOp.allocFromRange ⟨h, h⟩).handsOut avl hl = some h := by
  rw [LedgerOp.handsOut, troveLedgerHandleAllocFromRange]
  obtain ⟨-, hnone⟩ | ⟨handle, elist', hsome, -, hc⟩ :=
    @extentlistGetFromExtent_complete avl _ ⟨h, h⟩ le_rfl hw
  · exact absurd (contains_iff.mpr ⟨le_rfl, le_rfl⟩) (Bool.eq_false_iff.mp (hnone h hpos))
  · obtain ⟨hle, hge⟩ := contains_iff.mp hc
    obtain rfl : handle = h := Nat.le_antisymm hge hle
    rw [hsome]
    rfl

theorem free_of_handsOut {op : LedgerOp} (hw : WellFormed hl.freeList.index)
    (hout : op.handsOut avl hl = some h) : 0 < tally hl.freeList.index.toList h := by
  cases op with
  | alloc =>
    simp only [LedgerOp.handsOut, troveLedgerHandleAlloc] at hout
    obtain ⟨-, hnone⟩ | ⟨ext, elist', -, hsome, hsheds, -⟩ := extentlistGetAndDecExtent_spec avl hw
    · rw [hnone] at hout
      cases hout
    · rw [hsome] at hout
      cases hout
      exact hsheds.pos
  | allocFromRange extent =>
    simp only [LedgerOp.handsOut, troveLedgerHandleAllocFromRange] at hout
    obtain ⟨hnone, -⟩ | ⟨handle, elist', hsome, hsheds, -⟩ :=
      extentlistGetFromExtent_spec avl extent hw
    · rw [hnone] at hout
      cases hout
    · rw [hsome] at hout
      cases hout
      exact hsheds.pos
  | remove handle | free handle clock => cases hout

def Rested (purgatory : Timeval) (s : LedgerRun) : Prop :=
  ∀ h, 0 < tally s.ledger.freeList.index.toList h → ∀ t, s.freedAt h = some t →
    micros t + micros purgatory ≤ micros s.now

theorem keepsPurgatory_iff (hw : WellFormed s.ledger.freeList.index) :
    KeepsPurgatory avl purgatory s ↔ Rested purgatory s := by
  constructor
  · intro hs h hpos t ht
    by_contra hlt
    exact hs _ h s.now (handsOut_range hw hpos) le_rfl ⟨t, ht, Nat.not_le.mp hlt⟩
  · intro hs op h now hout hnow hin
    obtain ⟨t, ht, hlt⟩ := hin
    have hle := hs h (free_of_handsOut hw hout) t ht
    omega

/-! ## When the handles of a list were freed -/

/-- The handles of the list were freed no later than it was stamped, and that is not in the
future. -/
structure Dated (freedAt : Nat → Option Timeval) (now : Timeval) (elist : Extentlist) : Prop where
  freed : ∀ h, 0 < tally elist.index.toList h →
    ∃ t, freedAt h = some t ∧ micros t ≤ micros elist.timestamp
  stamp : micros elist.timestamp ≤ micros now
  usec : elist.timestamp.usec < 1000000

variable {freedAt : Nat → Option Timeval} {now t : Timeval}
variable {now' : Timeval} {handle : Nat}

theorem Dated.later {elist : Extentlist}
    (hd : Dated freedAt now elist) (hnone : tally elist.index.toList handle = 0)
    (hnow : micros now ≤ micros now') :
    Dated (fun h => if h = handle then some t else freedAt h) now' elist where
  freed h hpos := by
    have hne : h ≠ handle := by
      rintro rfl
      omega
    rw [if_neg hne]
    exact hd.freed h hpos
  stamp := hd.stamp.trans hnow
  usec := hd.usec

theorem Dated.add {elist elist' : Extentlist}
    (hd : Dated freedAt now elist) (hstamp : elist'.timestamp = t)
    (htally : ∀ h, tally elist'.index.toList h =
      tally elist.index.toList h + if h = handle then 1 else 0) (hnow : micros now ≤ micros t)
    (hnow' : micros t ≤ micros now') (husec : t.usec < 1000000) :
    Dated (fun h => if h = handle then some t else freedAt h) now' elist' where
  freed h hpos := by
    rw [hstamp]
    by_cases heq : h = handle
    · exact ⟨t, if_pos heq, le_rfl⟩
    · rw [if_neg heq]
      rw [htally, if_neg heq] at hpos
      obtain ⟨t', ht', hle⟩ := hd.freed h hpos
      exact ⟨t', ht', hle.trans (hd.stamp.trans hnow)⟩
  stamp := by rwa [hstamp]
  usec := by rwa [hstamp]

theorem dated_nil (husec : now.usec < 1000000) :
    Dated freedAt now ⟨0, now, .nil⟩ where
  freed _ hpos := absurd hpos (Nat.lt_irrefl 0)
  stamp := le_rfl
  usec := husec

structure Timed (extents : List Extent) (s : LedgerRun) : Prop where
  accounted : Accounted extents s
  recentlyFreed : Dated s.freedAt s.now s.ledger.recentlyFreedList
  overflow : Dated s.freedAt s.now s.ledger.overflowList

/-! ## What freeing a handle does -/

variable {hl : HandleLedger} {handle : Nat} {clock : Nat → Timeval} {extents : List Extent}

def Recycles (purgatory : Timeval) (hl : HandleLedger) : Prop :=
  hl.freeList.numHandles ≤ hl.cutoff ∧
    extentlistEnduredPurgatory purgatory hl.recentlyFreedList hl.overflowList = true

/-- The ledger after the call that frees a handle, where `aside` is the ledger with the handle
put aside. -/
inductive FreedAs (purgatory : Timeval) (clock : Nat → Timeval) (aside : HandleLedger)
    (s' : LedgerRun) : Prop where
  | kept (hnot : ¬ Recycles purgatory aside) (hledger : s'.ledger = aside)
    (hnow : s'.now = clock 0)
  | recycled (hrec : Recycles purgatory aside)
    (hnow : s'.now = clock (aside.recentlyFreedList.index.toList.length + 1))
    (hrecently : s'.ledger.recentlyFreedList = aside.overflowList)
    (hoverflow : s'.ledger.overflowList = ⟨0, s'.now, .nil⟩)
    (hfree : ∀ h, tally s'.ledger.freeList.index.toList h =
      tally aside.freeList.index.toList h + tally aside.recentlyFreedList.index.toList h)

theorem step_free (hs : Accounted extents s) (hvalid : ∀ e ∈ extents, e.Valid)
    (honce : ∀ h, tally extents h ≤ 1)
    (h : s.step avl purgatory (.free handle clock) = some s') :
    Extent.Valid ⟨handle, handle⟩ ∧ s.ledger.listed handle = 0 ∧
      s'.freedAt = (fun h => if h = handle then some (clock 0) else s.freedAt h) ∧
      FreedAs purgatory clock (putAside avl s.ledger handle (clock 0)) s' := by
  have hmem : handle ∈ s.allocated := by
    by_contra hmem
    rw [step, if_neg hmem] at h
    cases h
  obtain ⟨hhandle, hnone⟩ := hs.of_allocated hvalid honce hmem
  obtain ⟨hw, -⟩ := putAside_spec avl (clock 0) hs.wf hhandle hnone
  rw [step, if_pos hmem, Option.map_eq_some_iff] at h
  obtain ⟨⟨k, hl'⟩, hfree, rfl⟩ := h
  refine ⟨hhandle, hnone, rfl, ?_⟩
  unfold troveLedgerHandleFree at hfree
  dsimp only at hfree
  split at hfree
  · rename_i hmany
    cases hfree
    exact .kept (fun hrec => by have := hrec.1; omega) rfl rfl
  · rename_i hfew
    split at hfree
    · rename_i hend
      obtain ⟨free', hrec, -, htally, -⟩ := handleRecycle_spec avl (fun i => clock (i + 1)) hw
      rw [hrec] at hfree
      cases hfree
      exact .recycled ⟨Nat.not_lt.mp hfew, hend⟩ rfl rfl rfl htally
    · rename_i hend
      cases hfree
      exact .kept (fun hrec => hend hrec.2) rfl rfl

structure Shrinks (s s' : LedgerRun) : Prop where
  freedAt : s'.freedAt = s.freedAt
  now : s'.now = s.now
  recentlyFreed : s'.ledger.recentlyFreedList = s.ledger.recentlyFreedList
  overflow : s'.ledger.overflowList = s.ledger.overflowList
  free : ∀ h, tally s'.ledger.freeList.index.toList h ≤ tally s.ledger.freeList.index.toList h

theorem step_other {op : LedgerOp} (hw : WellFormed s.ledger.freeList.index)
    (hop : ∀ handle clock, op ≠ .free handle clock) (h : s.step avl purgatory op = some s') :
    Shrinks s s' := by
  obtain ⟨hnone, -⟩ | ⟨handle, free', hsome, hloses, -⟩ := s.step_takes avl hw hop
  · rw [hnone] at h
    cases h
    exact ⟨rfl, rfl, rfl, rfl, fun _ => le_rfl⟩
  · rw [hsome] at h
    cases h
    exact ⟨rfl, rfl, rfl, rfl, hloses.le⟩

/-! ## Runs -/

theorem Timed.shrink (hs : Timed extents s) (hs' : Accounted extents s') (hshrink : Shrinks s s') :
    Timed extents s' where
  accounted := hs'
  recentlyFreed := by
    rw [hshrink.freedAt, hshrink.now, hshrink.recentlyFreed]
    exact hs.recentlyFreed
  overflow := by
    rw [hshrink.freedAt, hshrink.now, hshrink.overflow]
    exact hs.overflow

theorem unlisted (hnone : hl.listed handle = 0) :
    tally hl.freeList.index.toList handle = 0 ∧
      tally hl.recentlyFreedList.index.toList handle = 0 ∧
        tally hl.overflowList.index.toList handle = 0 := by
  unfold HandleLedger.listed at hnone
  omega

theorem Timed.free (hs : Timed extents s) (hs' : Accounted extents s') (htick : Ticks clock)
    (hnow : micros s.now ≤ micros (clock 0)) (hvalid : Extent.Valid ⟨handle, handle⟩)
    (hnone : s.ledger.listed handle = 0)
    (hfreed : s'.freedAt = fun h => if h = handle then some (clock 0) else s.freedAt h)
    (has : FreedAs purgatory clock (putAside avl s.ledger handle (clock 0)) s') :
    Timed extents s' := by
  obtain ⟨-, hrecently, hoverflow⟩ := unlisted hnone
  -- both lists with the handle put aside, at any later time
  have haside : ∀ now', micros (clock 0) ≤ micros now' →
      Dated s'.freedAt now' (putAside avl s.ledger handle (clock 0)).recentlyFreedList ∧
        Dated s'.freedAt now' (putAside avl s.ledger handle (clock 0)).overflowList := by
    intro now' hnow'
    rw [hfreed]
    obtain ⟨-, elist', heq, hadd⟩ | ⟨-, elist', heq, hadd⟩ :=
      putAside_cases avl (clock 0) hs.accounted.wf hvalid hnone
    · rw [heq]
      exact ⟨hs.recentlyFreed.later hrecently (hnow.trans hnow'),
        hs.overflow.add hadd.timestamp hadd.tally_eq hnow hnow' (htick.usec 0)⟩
    · rw [heq]
      exact ⟨hs.recentlyFreed.add hadd.timestamp hadd.tally_eq hnow hnow' (htick.usec 0),
        hs.overflow.later hoverflow (hnow.trans hnow')⟩
  cases has with
  | kept _ hledger hnow' =>
    have hdated := haside s'.now (by rw [hnow'])
    rw [← hledger] at hdated
    exact ⟨hs', hdated.1, hdated.2⟩
  | recycled _ hnow' hrec hover _ =>
    have hdated := haside s'.now (by rw [hnow']; exact htick.mono 0 _ (Nat.zero_le _))
    refine ⟨hs', by rw [hrec]; exact hdated.2, ?_⟩
    rw [hover]
    exact dated_nil (by rw [hnow']; exact htick.usec _)

theorem Timed.step (hs : Timed extents s) (hvalid : ∀ e ∈ extents, e.Valid)
    (honce : ∀ h, tally extents h ≤ 1) {op : TimedOp} (h : timedStep avl purgatory s op = some s') :
    Timed extents s' := by
  obtain ⟨op, htick⟩ := op
  unfold timedStep at h
  split at h
  · rename_i hnow
    have hs' := hs.accounted.step avl hvalid honce h
    cases op with
    | free handle clock =>
      obtain ⟨hhandle, hnone, hfreed, has⟩ := step_free hs.accounted hvalid honce h
      exact hs.free hs' htick (of_decide_eq_true hnow) hhandle hnone hfreed has
    | _ => exact hs.shrink hs' (step_other hs.accounted.wf.free (by simp) h)
  · cases h

/-! ## Which handles have rested -/

/-- A difference of seconds that should be negative and is not has wrapped round, and so many
seconds are longer than any purgatory it is compared with. -/
theorem elapsed_of_wrapped {q c : Timeval} (hle : micros q ≤ micros c) (hq : q.usec < 1000000)
    (hc : c.usec < 1000000) (hpurg : purgatory.usec < 1000000)
    (h : (purgatory.sec : Int) < toInt32 ((q.sec : Int) - c.sec)) :
    micros q + micros purgatory ≤ micros c := by
  simp only [micros] at hle ⊢
  have hfar : q.sec + purgatory.sec + 2 ≤ c.sec := by
    simp only [toInt32, Int.bmod_def] at h
    split at h <;> omega
  clear h hle
  omega

theorem Rested.later (hrest : Rested purgatory s) (hnow : micros s.now ≤ micros s'.now)
    (hfreed : ∀ h, s'.freedAt h = if h = handle then some (clock 0) else s.freedAt h)
    (hnone : tally s.ledger.freeList.index.toList handle = 0)
    (hpos : 0 < tally s.ledger.freeList.index.toList h) (ht : s'.freedAt h = some t) :
    micros t + micros purgatory ≤ micros s'.now := by
  have hne : h ≠ handle := by
    rintro rfl
    omega
  rw [hfreed, if_neg hne] at ht
  exact (hrest h hpos t ht).trans hnow

theorem rested_free (hs : Timed extents s) (hrest : Rested purgatory s) (htick : Ticks clock)
    (hpurg : purgatory.usec < 1000000) (hnow : micros s.now ≤ micros (clock 0))
    (hvalid : Extent.Valid ⟨handle, handle⟩) (hnone : s.ledger.listed handle = 0)
    (hfreed : ∀ h, s'.freedAt h = if h = handle then some (clock 0) else s.freedAt h)
    (has : FreedAs purgatory clock (putAside avl s.ledger handle (clock 0)) s') :
    Rested purgatory s' ↔ FreedInTime avl purgatory s (.free handle clock) := by
  obtain ⟨hfree, hrecently, -⟩ := unlisted hnone
  cases has with
  | kept hnot hledger hnow' =>
    have hlater : micros s.now ≤ micros s'.now := by rwa [hnow']
    obtain ⟨hhit, elist', heq, -⟩ | ⟨-, elist', heq, hadd⟩ :=
      putAside_cases avl (clock 0) hs.accounted.wf hvalid hnone
    · refine iff_of_true (fun x hx t ht => ?_) fun hlow => absurd hlow.2.1 (Nat.not_le.mpr hhit)
      rw [hledger, heq] at hx
      exact hrest.later hlater hfreed hfree hx ht
    · refine iff_of_true (fun x hx t ht => ?_) fun hlow => absurd ?_ hnot
      · rw [hledger, heq] at hx
        exact hrest.later hlater hfreed hfree hx ht
      · -- running low would have meant to recycle
        rw [heq]
        refine ⟨hlow.1, ?_⟩
        rw [extentlistEnduredPurgatory, hadd.timestamp]
        exact decide_eq_true hlow.2.2
  | recycled hrec hnow' hrec' hover htally =>
    have hend : micros (clock 0) ≤ micros s'.now := by
      rw [hnow']
      exact htick.mono 0 _ (Nat.zero_le _)
    have hlater := hnow.trans hend
    obtain ⟨hhit, elist', heq, hadd⟩ | ⟨hroom, elist', heq, hadd⟩ :=
      putAside_cases avl (clock 0) hs.accounted.wf hvalid hnone
    · -- the overflow list has just been stamped, so the seconds have wrapped round
      rw [heq] at hrec htally
      dsimp only at htally
      have hwrap := hrec.2
      rw [extentlistEnduredPurgatory, hadd.timestamp] at hwrap
      have hold := elapsed_of_wrapped (hs.recentlyFreed.stamp.trans hnow) hs.recentlyFreed.usec
        (htick.usec 0) hpurg (of_decide_eq_true hwrap)
      refine iff_of_true (fun x hx t ht => ?_) fun hlow => absurd hlow.2.1 (Nat.not_le.mpr hhit)
      rw [htally] at hx
      obtain hx | hx := Nat.add_pos_iff_pos_or_pos.mp hx
      · exact hrest.later hlater hfreed hfree hx ht
      · have hne : x ≠ handle := by
          rintro rfl
          omega
        obtain ⟨t', ht', hle⟩ := hs.recentlyFreed.freed x hx
        rw [hfreed, if_neg hne, ht'] at ht
        cases ht
        omega
    · -- the handle goes round with the rest of its list
      have hlow : RunsLow purgatory s.ledger clock := by
        rw [heq] at hrec
        have hend := hrec.2
        rw [extentlistEnduredPurgatory, hadd.timestamp] at hend
        exact ⟨hrec.1, hroom, of_decide_eq_true hend⟩
      have hat : recycledAt avl s.ledger handle clock = s'.now := by
        rw [hnow', recycledAt]
      rw [heq] at htally
      constructor
      · intro hrest' _
        rw [hat]
        refine hrest' handle ?_ (clock 0) (by rw [hfreed, if_pos rfl])
        rw [htally, hadd.tally_eq, if_pos rfl]
        omega
      · intro htime x hx t ht
        have hpurgatory := htime hlow
        rw [hat] at hpurgatory
        rw [htally, hadd.tally_eq] at hx
        by_cases hx' : x = handle
        · rw [hfreed, if_pos hx'] at ht
          cases ht
          exact hpurgatory
        · rw [if_neg hx'] at hx
          obtain hx | hx := Nat.add_pos_iff_pos_or_pos.mp hx
          · exact hrest.later hlater hfreed hfree hx ht
          · obtain ⟨t', ht', hle⟩ := hs.recentlyFreed.freed x hx
            rw [hfreed, if_neg hx', ht'] at ht
            cases ht
            have hstamp := hs.recentlyFreed.stamp
            omega

theorem Rested.shrink (hrest : Rested purgatory s) (hshrink : Shrinks s s') :
    Rested purgatory s' := by
  intro x hx t ht
  rw [hshrink.freedAt] at ht
  rw [hshrink.now]
  exact hrest x (Nat.lt_of_lt_of_le hx (hshrink.free x)) t ht

/-- An operation keeps the handles rested just if it frees in time. -/
theorem rested_step (hs : Timed extents s) (hrest : Rested purgatory s)
    (hvalid : ∀ e ∈ extents, e.Valid) (honce : ∀ h, tally extents h ≤ 1)
    (hpurg : purgatory.usec < 1000000) {op : TimedOp} (h : timedStep avl purgatory s op = some s') :
    Rested purgatory s' ↔ FreedInTime avl purgatory s op.1 := by
  obtain ⟨op, htick⟩ := op
  unfold timedStep at h
  split at h
  · rename_i hnow
    cases op with
    | free handle clock =>
      obtain ⟨hhandle, hnone, hfreed, has⟩ := step_free hs.accounted hvalid honce h
      exact rested_free hs hrest htick hpurg (of_decide_eq_true hnow) hhandle hnone
        (fun x => by rw [hfreed]) has
    | _ => exact iff_of_true (hrest.shrink (step_other hs.accounted.wf.free (by simp) h)) trivial
  · cases h

theorem timed_start (hvalid : ∀ e ∈ extents, e.Valid) (honce : ∀ h, tally extents h ≤ 1)
    (htick : Ticks clock) : Timed extents (start avl extents clock) := by
  obtain ⟨hrecently, hoverflow⟩ := troveMapHandleRanges_lists avl clock 3 0 extents
    (troveHandleLedgerInit clock)
  have hdated : ∀ i, i ≤ 2 → Dated (fun _ => none) (clock (2 + extents.length))
      (extentlistInit (clock i)) := fun i hi => by
    refine ⟨fun _ hpos => absurd hpos (Nat.lt_irrefl 0), htick.mono i _ (by omega), htick.usec i⟩
  refine ⟨accounted_start avl hvalid honce clock, ?_, ?_⟩
  · dsimp only [start]
    rw [hrecently]
    exact hdated 1 (by omega)
  · dsimp only [start]
    rw [hoverflow]
    exact hdated 2 le_rfl

/-- **Which runs keep freed handles in purgatory.**  With a clock that does not go back, no
allocation along the run can hand out a handle too early if and only if each handle is
freed in time. -/
theorem keepsPurgatory_iff_freedInTime (hvalid : ∀ e ∈ extents, e.Valid)
    (hdisj : extents.Pairwise fun a b => a.last < b.first ∨ b.last < a.first)
    (htick : Ticks clock) (hpurg : purgatory.usec < 1000000) (ops : List TimedOp) :
    Throughout (timedStep avl purgatory) (KeepsPurgatory avl purgatory)
        (start avl extents clock) ops ↔
      EachStep (timedStep avl purgatory) (fun s op => FreedInTime avl purgatory s op.1)
        (start avl extents clock) ops := by
  have honce := tally_le_one hdisj
  refine throughout_iff_eachStep
    (fun _ _ _ hs h => hs.step hvalid honce h) (fun s op s' hs hkeeps h => ?_)
    (timed_start hvalid honce htick) ?_ ops
  · rw [keepsPurgatory_iff hs.accounted.wf.free] at hkeeps
    rw [keepsPurgatory_iff (hs.step hvalid honce h).accounted.wf.free]
    exact rested_step hs hkeeps hvalid honce hpurg h
  · rw [keepsPurgatory_iff (timed_start hvalid honce htick).accounted.wf.free]
    intro x _ t ht
    cases ht

theorem ticks_const (h : t.usec < 1000000) : Ticks fun _ => t :=
  ⟨fun _ _ _ => le_rfl, fun _ => h⟩

/-- A collection of one handle, which is allocated and freed after a hundred seconds. -/
theorem keepsPurgatory_iff_freedInTime_one :
    Throughout (timedStep (unbalanced first) ⟨50, 0⟩)
        (KeepsPurgatory (unbalanced first) ⟨50, 0⟩)
        (start (unbalanced first) [⟨1, 1⟩] fun _ => ⟨0, 0⟩)
        [⟨.alloc, trivial⟩, ⟨.free 1 fun _ => ⟨100, 0⟩, ticks_const (by decide)⟩] ↔
      EachStep (timedStep (unbalanced first) ⟨50, 0⟩)
        (fun s op => FreedInTime (unbalanced first) ⟨50, 0⟩ s op.1)
        (start (unbalanced first) [⟨1, 1⟩] fun _ => ⟨0, 0⟩)
        [⟨.alloc, trivial⟩, ⟨.free 1 fun _ => ⟨100, 0⟩, ticks_const (by decide)⟩] :=
  keepsPurgatory_iff_freedInTime (by simp [Extent.Valid, handleLimit]) (by simp)
    (ticks_const (by decide)) (by decide) _

/-- There the handle is handed out again in the same second, fifty seconds too early. -/
theorem handle_out_of_purgatory_at_once : ∃ s,
    exec (timedStep (unbalanced first) ⟨50, 0⟩)
      (start (unbalanced first) [⟨1, 1⟩] fun _ => ⟨0, 0⟩)
      [⟨.alloc, trivial⟩, ⟨.free 1 fun _ => ⟨100, 0⟩, ticks_const (by decide)⟩] = some s ∧
    s.freedAt 1 = some ⟨100, 0⟩ ∧ s.now = ⟨100, 0⟩ ∧
    LedgerOp.alloc.handsOut (unbalanced first) s.ledger = some 1 ∧
    ¬ KeepsPurgatory (unbalanced first) ⟨50, 0⟩ s := by
  have hrun : (exec (timedStep (unbalanced first) ⟨50, 0⟩)
      (start (unbalanced first) [⟨1, 1⟩] fun _ => ⟨0, 0⟩)
      [⟨.alloc, trivial⟩, ⟨.free 1 fun _ => ⟨100, 0⟩, ticks_const (by decide)⟩]).map
        (fun s => (s.freedAt 1, s.now,
          LedgerOp.alloc.handsOut (unbalanced first) s.ledger)) =
      some (some ⟨100, 0⟩, ⟨100, 0⟩, some 1) := by
    decide
  obtain ⟨s, hexec, hs⟩ := Option.map_eq_some_iff.mp hrun
  simp only [Prod.mk.injEq] at hs
  obtain ⟨hfreed, hnow, hout⟩ := hs
  refine ⟨s, hexec, hfreed, hnow, hout, fun hkeeps => ?_⟩
  exact hkeeps .alloc 1 ⟨100, 0⟩ hout (by rw [hnow]) ⟨⟨100, 0⟩, hfreed, by decide⟩

end Pvfs.Trove
