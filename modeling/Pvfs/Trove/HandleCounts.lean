import Mathlib.Algebra.Order.BigOperators.Group.Finset
import Mathlib.Data.Set.Card
import Mathlib.Order.Interval.Finset.Nat
import Pvfs.Trove.Ledger

/-! # Counts of handles

The number that a list keeps of its handles decides when freed handles are set aside and
when they are recycled. It is not brought down when the extent of a single handle is given
out, nor when a certain handle is taken from the list, so it can only be relied on in runs
that do neither. The number that is reported to the outside is added up from the extents
and does not depend on it. -/

namespace Pvfs.Trove

open Lib List LedgerRun Finset

/-- `extentlist_count`. -/
def extentlistCount (elist : Extentlist) : Nat :=
  elist.index.toList.foldl
    (fun counter e => (counter + (e.last + handleLimit - e.first + 1)) % handleLimit) 0

/-- `trove_handle_ledger_get_statistics`. -/
def troveHandleLedgerGetStatistics (hl : HandleLedger) : Nat :=
  ((extentlistCount hl.freeList + extentlistCount hl.recentlyFreedList) % handleLimit +
    extentlistCount hl.overflowList) % handleLimit

/-! ## The number of handles of some extents -/

variable {es es' : List Extent} {e : Extent}

theorem sum_eq_ncard {f : Nat → Nat} (hf : ∀ h, f h ≤ 1)
    (hvalid : ∀ h, 0 < f h → Extent.Valid ⟨h, h⟩) :
    ∑ h ∈ Finset.Ico 1 handleLimit, f h = {h | 0 < f h}.ncard ∧
      {h | 0 < f h}.ncard < handleLimit := by
  have hset : {h | 0 < f h} = ↑((Finset.Ico 1 handleLimit).filter fun h => 0 < f h) := by
    ext h
    simp only [coe_filter, mem_Ico, Set.mem_ofPred_eq]
    exact ⟨fun hpos => ⟨⟨(hvalid h hpos).1, (hvalid h hpos).2.2⟩, hpos⟩, And.right⟩
  rw [hset, Set.ncard_coe_finset]
  constructor
  · rw [card_filter]
    refine sum_congr rfl fun h _ => ?_
    have := hf h
    split <;> omega
  · -- handle 0 is not among them
    calc _ ≤ (Finset.Ico 1 handleLimit).card := card_filter_le _ _
      _ < handleLimit := by rw [Nat.card_Ico]; exact Nat.sub_one_lt (Nat.two_pow_pos 64).ne'

def size (es : List Extent) : Nat := ∑ h ∈ Finset.Ico 1 handleLimit, tally es h

theorem size_cons : size (e :: es) = size [e] + size es := by
  rw [size, size, size, ← sum_add_distrib]
  exact sum_congr rfl fun h _ => tally_cons

theorem size_congr (heq : ∀ h, tally es h = tally es' h) : size es = size es' :=
  sum_congr rfl fun h _ => heq h

theorem size_singleton (he : e.Valid) : size [e] = e.last + 1 - e.first := by
  have hfilter : (Finset.Ico 1 handleLimit).filter (fun h => e.contains h = true) =
      Finset.Icc e.first e.last := by
    ext h
    rw [Finset.mem_filter, Finset.mem_Ico, contains_iff, Finset.mem_Icc]
    have ⟨hfirst, _, hlast⟩ := he
    omega
  simp only [size, tally_singleton]
  rw [← card_filter, hfilter, Nat.card_Icc]

variable {elist : Extentlist}

theorem WellFormed.size_eq (hn : WellFormed elist.index) :
    size elist.index.toList = elist.handles.ncard ∧ size elist.index.toList < handleLimit := by
  have hset : elist.handles = {h | 0 < tally elist.index.toList h} :=
    Set.ext fun h => Extentlist.mem_handles
  obtain ⟨heq, hlt⟩ := sum_eq_ncard hn.once fun h => valid_of_tally hn.valid
  rw [hset]
  exact ⟨heq, heq.trans_lt hlt⟩

theorem extentlistCount_eq (hn : WellFormed elist.index) :
    extentlistCount elist = size elist.index.toList := by
  have hwalk : ∀ (es : List Extent) (counter : Nat), counter < handleLimit →
      (∀ e ∈ es, e.Valid) → es.foldl (fun counter e =>
        (counter + (e.last + handleLimit - e.first + 1)) % handleLimit) counter =
          (counter + size es) % handleLimit := by
    intro es
    induction es with
    | nil =>
      intro counter hlt _
      simp [size, Nat.mod_eq_of_lt hlt]
    | cons e es ih =>
      intro counter _ hvalid
      obtain ⟨he, hvalid⟩ := forall_mem_cons.mp hvalid
      rw [foldl_cons, ih _ (Nat.mod_lt _ (Nat.two_pow_pos 64)) hvalid, size_cons,
        size_singleton he]
      unfold Extent.Valid handleLimit at *
      omega
  rw [extentlistCount, hwalk _ 0 (Nat.two_pow_pos 64) hn.valid, Nat.zero_add,
    Nat.mod_eq_of_lt hn.size_eq.2]

/-! ## One call at a time -/

variable (avl : Avl) {extents : List Extent} {s s' : LedgerRun} {purgatory : Timeval}

def Extentlist.Tallied (elist : Extentlist) : Prop :=
  elist.numHandles = size elist.index.toList

theorem tallied_nil (t : Timeval) : Extentlist.Tallied ⟨0, t, .nil⟩ := by
  simp [Extentlist.Tallied, size]

theorem adds_tallied : Adds avl Extentlist.Tallied := by
  intro elist e now hfits htallied
  obtain ⟨index, heq, hwf, htally⟩ : ∃ index, extentlistAddextent avl elist e.first e.last now =
    (0, ⟨_, now, index⟩) ∧ _ := extentlistAddextent_spec avl hfits
  have hsize : size index.toList = size [e] + size elist.index.toList := by
    rw [size_congr htally, size_cons]
  have hlt := @WellFormed.size_eq ⟨0, now, index⟩ hwf
  have he := hfits.valid e mem_cons_self
  rw [heq]
  unfold Extentlist.Tallied at *
  rw [hsize, size_singleton he] at *
  unfold Extent.Valid handleLimit at *
  dsimp only
  omega

theorem Loses.size_eq {n n' : Index} {handle : Nat} (hn : WellFormed n) (h : Loses n n' handle) :
    size n.toList = size n'.toList + 1 := by
  have hvalid := valid_of_tally hn.valid h.pos
  have hmem : handle ∈ Finset.Ico 1 handleLimit := mem_Ico.mpr ⟨hvalid.1, hvalid.2.2⟩
  calc size n.toList
      = ∑ x ∈ Finset.Ico 1 handleLimit, (tally n'.toList x + if x = handle then 1 else 0) :=
        sum_congr rfl fun x _ => h.tally_eq x
    _ = size n'.toList + 1 := by
        rw [sum_add_distrib, sum_ite_eq', if_pos hmem, size]

/-- The numbers that are kept and reported are those of the handles, and so the tests that
compare them with the threshold are made on the right ones. -/
structure CountsExact (extents : List Extent) (s : LedgerRun) : Prop where
  kept : s.ledger.Each fun elist => elist.numHandles = elist.handles.ncard
  reported : troveHandleLedgerGetStatistics s.ledger =
    ({h | ∃ e ∈ extents, e.contains h = true} \ {h | h ∈ s.allocated}).ncard
  setAside : extentlistHitCutoff s.ledger.recentlyFreedList s.ledger.cutoff = true ↔
    s.ledger.cutoff < s.ledger.recentlyFreedList.handles.ncard
  recycled : s.ledger.freeList.numHandles > s.ledger.cutoff ↔
    s.ledger.cutoff < s.ledger.freeList.handles.ncard

section
variable (hs : Accounted extents s) (hvalid : ∀ e ∈ extents, e.Valid)
  (honce : ∀ h, tally extents h ≤ 1)
include hs hvalid honce

theorem Accounted.reported :
    troveHandleLedgerGetStatistics s.ledger =
      ({h | ∃ e ∈ extents, e.contains h = true} \ {h | h ∈ s.allocated}).ncard := by
  have hset : {h | ∃ e ∈ extents, e.contains h = true} \ {h | h ∈ s.allocated} =
      {h | 0 < s.ledger.listed h} := by
    ext h
    have hcount := hs.count h
    have hle := honce h
    have hin : (∃ e ∈ extents, e.contains h = true) ↔ 0 < tally extents h :=
      countP_pos_iff.symm
    have hout : h ∈ s.allocated ↔ 0 < s.allocated.count h := count_pos_iff.symm
    simp only [Set.mem_sdiff, Set.mem_ofPred_eq, hin, hout]
    omega
  obtain ⟨heq, hlt⟩ := sum_eq_ncard hs.wf.once fun h hpos => valid_of_tally hvalid
    (Nat.lt_of_lt_of_le hpos ((Nat.le_add_left _ _).trans_eq (hs.count h)))
  have hsum : size s.ledger.freeList.index.toList + size s.ledger.recentlyFreedList.index.toList +
      size s.ledger.overflowList.index.toList = {h | 0 < s.ledger.listed h}.ncard := by
    rw [size, size, size, ← sum_add_distrib, ← sum_add_distrib]
    exact heq
  rw [hset, troveHandleLedgerGetStatistics, extentlistCount_eq hs.wf.free,
    extentlistCount_eq hs.wf.recentlyFreed, extentlistCount_eq hs.wf.overflow]
  unfold handleLimit at *
  omega

theorem Accounted.countsExact_iff : CountsExact extents s ↔ s.ledger.Each Extentlist.Tallied := by
  unfold HandleLedger.Each Extentlist.Tallied
  rw [hs.wf.free.size_eq.1, hs.wf.recentlyFreed.size_eq.1, hs.wf.overflow.size_eq.1]
  refine ⟨fun h => h.kept, fun h => ⟨h, hs.reported hvalid honce, ?_, ?_⟩⟩
  · rw [extentlistHitCutoff, h.2.1, decide_eq_true_iff]
  · rw [h.1]

theorem Accounted.countsExact_step (hP : CountsExact extents s) {op : LedgerOp}
    (h : s.step avl purgatory op = some s') : CountsExact extents s' ↔ op.Counted s.ledger := by
  have hs' := hs.step avl hvalid honce h
  rw [hs'.countsExact_iff hvalid honce]
  have heach := (hs.countsExact_iff hvalid honce).mp hP
  by_cases hfree : ∃ handle clock, op = .free handle clock
  · obtain ⟨handle, clock, rfl⟩ := hfree
    refine iff_of_true ?_ trivial
    rw [LedgerRun.step] at h
    split at h
    · rename_i hmem
      obtain ⟨hhandle, hnone⟩ := hs.of_allocated hvalid honce hmem
      obtain ⟨k, hl', hfree, -, -, hkeeps⟩ :=
        troveLedgerHandleFree_spec avl purgatory clock hs.wf hhandle hnone
      rw [hfree] at h
      cases h
      exact hkeeps _ (adds_tallied avl) tallied_nil heach
    · cases h
  · obtain ⟨hnone, hcounted⟩ | ⟨handle, free', hsome, hloses, hcount⟩ :=
      @LedgerRun.step_takes avl s purgatory op hs.wf.free
        fun handle clock heq => hfree ⟨handle, clock, heq⟩
    · rw [hnone] at h
      cases h
      exact iff_of_true heach hcounted
    · rw [hsome] at h
      cases h
      have hsize := hloses.size_eq hs.wf.free
      have hlt := hs.wf.free.size_eq.2
      have hkept : s.ledger.freeList.numHandles = size s.ledger.freeList.index.toList := heach.1
      obtain ⟨hcounted, hcount⟩ | ⟨hcounted, hcount⟩ := hcount
      · refine iff_of_true ⟨?_, heach.2⟩ hcounted
        change free'.numHandles = size free'.index.toList
        unfold handleLimit at *
        omega
      · refine iff_of_false (fun h => ?_) hcounted
        have hkept' : free'.numHandles = size free'.index.toList := h.1
        omega

end

/-- **The counts of handles are right** throughout a run just when no call takes a handle that
leaves the number of free handles as it is. -/
theorem counts_exact_iff (clock : Nat → Timeval) (hvalid : ∀ e ∈ extents, e.Valid)
    (hdisj : extents.Pairwise fun a b => a.last < b.first ∨ b.last < a.first)
    (ops : List LedgerOp) :
    Throughout (step avl purgatory) (CountsExact extents)
      (start avl extents clock) ops ↔
    EachStep (step avl purgatory) (fun s op => op.Counted s.ledger)
      (start avl extents clock) ops := by
  have honce := tally_le_one hdisj
  have hstart := accounted_start avl hvalid honce clock
  refine throughout_iff_eachStep (I := Accounted extents)
    (fun _ _ _ hs h => hs.step avl hvalid honce h)
    (fun _ _ _ hs hP h => hs.countsExact_step avl hvalid honce hP h) hstart ?_ ops
  refine (hstart.countsExact_iff hvalid honce).mpr ?_
  have hw : (troveHandleLedgerInit clock).Wf :=
    ⟨wellFormed_nil, wellFormed_nil, wellFormed_nil, fun h => Nat.zero_le 1⟩
  refine (troveMapHandleRanges_spec avl clock 3 0 hvalid hw fun h => ?_).2.2 _ (adds_tallied avl)
    ⟨tallied_nil _, tallied_nil _, tallied_nil _⟩
  exact (Nat.zero_add _).trans_le (honce h)

/-- A handle is allocated from an extent of five and freed again. -/
theorem counts_exact_five :
    Throughout (step (OrderedMap.unbalanced Extent.first) ⟨50, 0⟩) (CountsExact [⟨3, 7⟩])
      (start (OrderedMap.unbalanced Extent.first) [⟨3, 7⟩] fun _ => ⟨0, 0⟩)
      [.alloc, .free 7 fun _ => ⟨100, 0⟩] := by
  refine (counts_exact_iff _ _ (by simp [Extent.Valid, handleLimit]) (by simp) _).mpr ?_
  refine .cons rfl (fun ext hext => ?_) (.cons rfl trivial trivial)
  cases hext
  decide

/-- The only handle of a collection is allocated, and still counted as free. -/
theorem last_handle_counted :
    ∃ s, exec (step (OrderedMap.unbalanced Extent.first) ⟨50, 0⟩)
        (start (OrderedMap.unbalanced Extent.first) [⟨3, 3⟩] fun _ => ⟨0, 0⟩) [.alloc] = some s ∧
      s.allocated = [3] ∧ s.ledger.freeList.numHandles = 1 ∧ s.ledger.freeList.handles = ∅ ∧
      ¬ CountsExact [⟨3, 3⟩] s := by
  have hempty : Extentlist.handles ⟨1, ⟨0, 0⟩, .nil⟩ = ∅ :=
    Set.eq_empty_of_forall_notMem fun h ⟨e, he, _⟩ => by cases he
  refine ⟨_, rfl, rfl, rfl, hempty, fun h => ?_⟩
  have hcount : (1 : Nat) = (Extentlist.handles ⟨1, ⟨0, 0⟩, .nil⟩).ncard := h.kept.1
  rw [hempty, Set.ncard_empty] at hcount
  cases hcount

/-- **The number of free handles that is reported** is right throughout every run, even where the
numbers that the lists keep are not. -/
theorem reported_exact (clock : Nat → Timeval) (hvalid : ∀ e ∈ extents, e.Valid)
    (hdisj : extents.Pairwise fun a b => a.last < b.first ∨ b.last < a.first)
    (ops : List LedgerOp) :
    Throughout (step avl purgatory) (fun s => troveHandleLedgerGetStatistics s.ledger =
      ({h | ∃ e ∈ extents, e.contains h = true} \ {h | h ∈ s.allocated}).ncard)
      (start avl extents clock) ops := by
  have honce := tally_le_one hdisj
  have hinv : Throughout (step avl purgatory) (Accounted extents) (start avl extents clock) ops :=
    .of_step (fun _ _ _ hs h => hs.step avl hvalid honce h)
      (accounted_start avl hvalid honce clock) ops
  exact hinv.mono fun s hs => hs.reported hvalid honce

theorem reported_exact_last : Throughout (step (OrderedMap.unbalanced Extent.first) ⟨50, 0⟩)
    (fun s => troveHandleLedgerGetStatistics s.ledger =
      ({h | ∃ e ∈ [⟨3, 3⟩], Extent.contains e h = true} \ {h | h ∈ s.allocated}).ncard)
    (start (OrderedMap.unbalanced Extent.first) [⟨3, 3⟩] fun _ => ⟨0, 0⟩) [.alloc] :=
  reported_exact _ _ (by simp [Extent.Valid, handleLimit]) (by simp) _

end Pvfs.Trove
