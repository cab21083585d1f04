import Pvfs.Client.ScanRequest
import Pvfs.Description.LogicalFileSize
import Pvfs.Description.Resume

/-! # How many bytes a read returns (sys-io.sm)

A read that comes back with fewer bytes than were asked for has met a hole or the end of the file.
`io_analyze_results`, and `io_analyze_size_results` once the sizes of all the datafiles have been
fetched, find out which: they compare the logical size of the file with the end of the request,
and where the request ends later they count the bytes of the request before the end of the file.

The end of the request is taken to be `io_find_offset` plus the offset of the request, and the
bytes that count are found by moving the request by its offset. Both go through the request from
its beginning, while the read began at the offset: a position of the request and a distance in the
file are used as if they were the same, which they are in a request that is one run of bytes.

The servers are taken to send what their datafiles have of the window. -/

namespace Pvfs.Client

open Pvfs.Description List Dist
open Pvfs.Lib

/-- Some datafile has stored the logical byte. -/
def stored (strip : Int) (sizes : List Int) (x : Int) : Bool :=
  (range sizes.length).any fun nr =>
    decide ((simpleStripe strip).Mapped nr sizes.length x) &&
      decide ((simpleStripe strip).logicalToPhysicalOffset nr sizes.length x <
        sizes.getD nr 0)

/-- `dfile_size_array` after the flows: what the targets have reported, one after the other. -/
def reportedSizes (sizes : List Int) (targets : List Nat) : List Int :=
  (targets.map fun nr => sizes.getD nr 0) ++ replicate (sizes.length - targets.length) 0

/-- `io_analyze_results` of a read that went well, and `io_analyze_size_results`: the value of
`total_completed`. The flows have transferred `totalSize` bytes. -/
def totalCompleted (fuel : Nat) (fileReq : Request) (fileReqOffset memSize : Nat) (strip : Int)
    (sizes : List Int) (targets : List Nat) (totalSize : Nat) : Option (Option Int) :=
  if totalSize = memSize then some (some memSize)
  else
    match ioFindOffset fuel fileReq strip memSize with
    | none => none
    | some none => some none
    | some (some filereqUbOffset) =>
      let eor := filereqUbOffset + fileReqOffset
      let maxDatafileLogicalOffset := logicalFileSize strip (reportedSizes sizes targets)
      if maxDatafileLogicalOffset > eor then some (some memSize)
      else if targets.length = sizes.length then
        ioFindTotalSize fuel fileReq strip fileReqOffset maxDatafileLogicalOffset
      else
        -- all the sizes are there now
        let eof := logicalFileSize strip sizes
        if eof > eor then some (some memSize)
        else ioFindTotalSize fuel fileReq strip fileReqOffset eof

/-- A read of a striped file: where it starts and how long it is, the datafiles, and those of them
that were asked. -/
structure StripedRead where
  fileReqOffset : Nat
  memSize : Nat
  strip : Int
  sizes : List Int
  targets : List Nat
  strip_pos : 0 < strip
  sizes_nonneg : ∀ s ∈ sizes, 0 ≤ s
  targets_sublist : targets.Sublist (range sizes.length)

namespace StripedRead

variable (t : StripedRead) {r : Request}

def serverCt : Nat := t.sizes.length

/-- The logical end of the file. -/
def eof : Int := logicalFileSize t.strip t.sizes

/-- The bytes that a read asks for. -/
def window (r : Request) : List Int := r.window t.fileReqOffset (t.fileReqOffset + t.memSize)

/-- The number of bytes of the window that lie before the end of the file is what the caller is
told. -/
def Right (r : Request) : Prop :=
  Returns
    (totalCompleted · r t.fileReqOffset t.memSize t.strip t.sizes t.targets
      ((t.window r).countP (stored t.strip t.sizes)))
    (some ((t.window r).countP fun x => decide (x < t.eof)))

/-- Everything that is looked at lies below `2 ^ 31` strips, and what is read below `2 ^ 31`
stripes. -/
def Within (r : Request) : Prop :=
  (∀ k, k < t.memSize ∨ (k : Int) < t.eof → r.byteAt k < stripeLimit t.strip 1) ∧
    ∀ x ∈ t.window r, x < stripeLimit t.strip t.serverCt

/-- The datafiles have every byte of the window. -/
def Sent (r : Request) : Prop := ∀ x ∈ t.window r, stored t.strip t.sizes x = true

/-- As many bytes into the window as into the request, a byte of the window lies before the end of
the file exactly if that of the request does when it is moved by the offset. -/
def Shifts (r : Request) : Prop :=
  ∀ i < t.memSize, r.byteAt i + t.fileReqOffset < t.eof ↔ r.byteAt (t.fileReqOffset + i) < t.eof

/-! ## The end of the file -/

theorem targets_ge {targets : List Nat} {n : Nat} (h : targets.Sublist (range n)) {i nr : Nat}
    (hi : targets[i]? = some nr) : i ≤ nr := by
  have hasc : targets.Pairwise (· < ·) := pairwise_lt_range.sublist h
  induction i generalizing nr with
  | zero => exact Nat.zero_le nr
  | succ i ih =>
    obtain ⟨hlt, rfl⟩ := List.getElem?_eq_some_iff.mp hi
    have hbefore := ih (List.getElem?_eq_getElem (show i < targets.length by omega))
    have := pairwise_iff_getElem.mp hasc i (i + 1) (by omega) hlt (Nat.lt_succ_self i)
    omega

theorem reported_le_eof : logicalFileSize t.strip (reportedSizes t.sizes t.targets) ≤ t.eof := by
  have hlen : (reportedSizes t.sizes t.targets).length = t.sizes.length := by
    have := t.targets_sublist.length_le
    rw [length_range] at this
    rw [reportedSizes, length_append, length_map, length_replicate]
    omega
  by_contra hgt
  have hlt : t.eof < logicalFileSize t.strip (reportedSizes t.sizes t.targets) :=
    Int.not_le.mp hgt
  obtain ⟨i, size, hsize, hne, hx⟩ :=
    (lt_logicalFileSize_iff (logicalFileSize_nonneg t.strip t.sizes)).mp hlt
  rw [hlen] at hx
  rw [reportedSizes, getElem?_append] at hsize
  split at hsize
  · rename_i hi
    rw [getElem?_map] at hsize
    obtain ⟨nr, hnr, rfl⟩ := Option.map_eq_some_iff.mp hsize
    have hmem : nr < t.sizes.length :=
      mem_range.mp (t.targets_sublist.subset (mem_of_getElem? hnr))
    have hget : t.sizes[nr]? = some (t.sizes.getD nr 0) := by
      rw [getD_eq_getElem?_getD, getElem?_eq_getElem hmem, Option.getD_some]
    have hmono := physicalToLogicalSize_mono t.strip_pos (targets_ge t.targets_sublist hnr)
      t.sizes.length (t.sizes.getD nr 0)
    have hself : t.eof < logicalFileSize t.strip t.sizes :=
      (lt_logicalFileSize_iff (logicalFileSize_nonneg t.strip t.sizes)).mpr
        ⟨nr, _, hget, hne, by omega⟩
    exact Int.lt_irrefl _ hself
  · rw [getElem?_replicate] at hsize
    split at hsize
    · cases hsize
      exact hne rfl
    · cases hsize

theorem reported_eq_eof (h : t.targets.length = t.sizes.length) :
    logicalFileSize t.strip (reportedSizes t.sizes t.targets) = t.eof := by
  have hall : t.targets = range t.sizes.length :=
    t.targets_sublist.eq_of_length (by rw [h, length_range])
  have hsizes : reportedSizes t.sizes t.targets = t.sizes := by
    rw [reportedSizes, h, Nat.sub_self, replicate_zero, append_nil, hall]
    apply ext_getElem?
    intro i
    rw [getElem?_map]
    by_cases hi : i < t.sizes.length
    · rw [getElem?_range hi, Option.map_some, getD_eq_getElem?_getD,
        getElem?_eq_getElem hi, Option.getD_some]
    · rw [getElem?_eq_none (by simpa using hi), getElem?_eq_none (by omega)]
      rfl
  rw [hsizes]
  rfl

theorem lt_eof_of_stored {x : Int} (hx : 0 ≤ x) (hlim : x < stripeLimit t.strip t.serverCt)
    (h : stored t.strip t.sizes x = true) : x < t.eof := by
  obtain ⟨nr, hnr, hboth⟩ := any_eq_true.mp h
  rw [Bool.and_eq_true, decide_eq_true_eq, decide_eq_true_eq] at hboth
  have hget : t.sizes[nr]? = some (t.sizes.getD nr 0) := by
    rw [getD_eq_getElem?_getD, getElem?_eq_getElem (mem_range.mp hnr),
      Option.getD_some]
  exact lt_logicalFileSize_of_stored t.strip_pos hget hx hlim hboth.1 hboth.2

theorem length_window (hr : r.Wf) : (t.window r).length = t.memSize := by
  rw [window, hr.window_eq_map, length_map, length_range]

theorem countP_stored_eq_iff (hr : r.Wf) :
    (t.window r).countP (stored t.strip t.sizes) = t.memSize ↔ t.Sent r := by
  rw [← t.length_window hr, countP_eq_length]
  rfl

theorem countP_lt_eof_of_stored (hnonneg : ∀ x ∈ t.window r, 0 ≤ x)
    (hlim : ∀ x ∈ t.window r, x < stripeLimit t.strip t.serverCt) (hr : r.Wf)
    (hall : (t.window r).countP (stored t.strip t.sizes) = t.memSize) :
    ((t.window r).countP fun x => decide (x < t.eof)) = t.memSize := by
  rw [← t.length_window hr] at hall ⊢
  rw [countP_eq_length] at hall ⊢
  intro x hx
  exact decide_eq_true (t.lt_eof_of_stored (hnonneg x hx) (hlim x hx) (hall x hx))

/-! ## The value that is reported -/

section
variable (hr : r.Wf) (hshort : (t.window r).countP (stored t.strip t.sizes) ≠ t.memSize)
include hr hshort

theorem memSize_pos : 0 < t.memSize := by
  have hle := countP_le_length (l := t.window r) (p := stored t.strip t.sizes)
  rw [t.length_window hr] at hle
  omega

/-- **What is reported** where not everything was sent: all of it if the file ends behind the end of
the request, and else what `io_find_total_size` makes of the end of the file. -/
theorem totalCompleted_returns (hnonneg : ∀ k, 0 ≤ r.byteAt k) (hwithin : t.Within r) {v : Int}
    (htotal : Returns (ioFindTotalSize · r t.strip t.fileReqOffset t.eof) (some v)) :
    Returns
      (totalCompleted · r t.fileReqOffset t.memSize t.strip t.sizes t.targets
        ((t.window r).countP (stored t.strip t.sizes)))
      (some (if t.eof > r.byteAt (t.memSize - 1) + 1 + t.fileReqOffset then t.memSize else v)) := by
  have hm := t.memSize_pos hr hshort
  have hub := ioFindOffset_returns hr t.strip_pos hm fun k hk =>
    ⟨hnonneg k, hwithin.1 k (.inl hk)⟩
  have hle := t.reported_le_eof
  refine hub.map₂ htotal fun n hub htotal => ?_
  rw [totalCompleted, if_neg hshort, hub]
  dsimp only
  by_cases hgt : t.eof > r.byteAt (t.memSize - 1) + 1 + t.fileReqOffset
  · split
    · rfl
    · rename_i hrep
      rw [if_neg fun hall => hrep (by rw [t.reported_eq_eof hall]; exact hgt)]
      exact if_pos hgt
  · rw [if_neg (by omega)]
    split
    · rename_i hall
      rw [t.reported_eq_eof hall]
      exact htotal
    · change (if t.eof > _ then _ else _) = _
      rw [if_neg hgt]
      exact htotal

end

/-! ## Requests in the order of the file

There both counts are of a beginning: what is reported, of the first bytes of the request moved by
the offset; what is right, of the window. -/

/-- Of the numbers below `m` a property that is inherited downwards holds for the first ones. -/
theorem lt_countP_range_iff {p : Nat → Bool} (hdown : ∀ i j, i < j → p j = true → p i = true)
    {m i : Nat} : i < (range m).countP p ↔ i < m ∧ p i = true := by
  induction m with
  | zero => simp
  | succ m ih =>
    rw [range_succ, countP_append, countP_singleton]
    by_cases hm : p m = true
    · have hall : (range m).countP p = m := by
        have := countP_eq_length.mpr fun k (hk : k ∈ range m) => hdown k m (mem_range.mp hk) hm
        rwa [length_range] at this
      rw [hall, if_pos hm]
      refine ⟨fun hi => ⟨hi, ?_⟩, And.left⟩
      rcases Nat.lt_succ_iff_lt_or_eq.mp hi with hi | rfl
      · exact hdown i m hi hm
      · exact hm
    · rw [if_neg hm, Nat.add_zero, ih]
      refine and_congr_left fun hi => ⟨fun h => by omega, fun h => ?_⟩
      have : i ≠ m := fun h => hm (h ▸ hi)
      omega

section
variable (hasc : r.Ascending)
include hasc

theorem ascending_down (e : Int) (o : Nat) (i j : Nat) (hij : i < j)
    (h : decide (r.byteAt (o + j) < e) = true) : decide (r.byteAt (o + i) < e) = true := by
  have := hasc.lt (show o + i < o + j by omega)
  simp only [decide_eq_true_eq] at h ⊢
  omega

theorem le_byteAt (h0 : 0 ≤ r.byteAt 0) (k : Nat) : (k : Int) ≤ r.byteAt k := by
  induction k with
  | zero => exact h0
  | succ k ih =>
    have := hasc k
    push_cast
    omega

/-- **What is reported** of an ascending request is the number of its first bytes that lie before the
end of the file when they are moved by the offset. -/
theorem reported_eq (h0 : 0 ≤ r.byteAt 0) {m : Nat} (hm : 0 < m) {e : Int} (o : Nat) :
    (if e > r.byteAt (m - 1) + 1 + o then (m : Int)
      else ((range e.toNat).countP fun k => decide (r.byteAt k < e - o) : Nat)) =
      ((range m).countP fun i => decide (r.byteAt i < e - o) : Nat) := by
  have hdown : ∀ i j, i < j → decide (r.byteAt j < e - o) = true →
      decide (r.byteAt i < e - o) = true := by
    simpa using ascending_down hasc (e - o) 0
  have hlast : ∀ i < m, r.byteAt i ≤ r.byteAt (m - 1) := by
    intro i hi
    rcases Nat.lt_or_eq_of_le (show i ≤ m - 1 by omega) with h | rfl
    · exact Int.le_of_lt (hasc.lt h)
    · exact Int.le_refl _
  split
  · have hall : ((range m).countP fun i => decide (r.byteAt i < e - o)) = m := by
      refine (countP_eq_length.mpr fun i hi => ?_).trans length_range
      have := hlast i (mem_range.mp hi)
      rw [decide_eq_true_eq]
      omega
    rw [hall]
  · congr 1
    refine eq_of_forall_lt_iff fun i => ?_
    rw [lt_countP_range_iff hdown, lt_countP_range_iff hdown, decide_eq_true_eq]
    refine and_congr_left fun hi => ⟨fun _ => ?_, fun _ => ?_⟩
    · by_contra hge
      rcases Nat.lt_or_eq_of_le (show m - 1 ≤ i by omega) with h | h
      · have := hasc.lt h
        omega
      · omega
    · have := le_byteAt hasc h0 i
      omega

theorem countP_window_eq_iff (hr : r.Wf) :
    (t.window r).countP (fun x => decide (x < t.eof)) =
        (range t.memSize).countP (fun i => decide (r.byteAt i < t.eof - t.fileReqOffset)) ↔
      t.Shifts r := by
  rw [window, hr.window_eq_map, countP_map]
  have hwin := ascending_down hasc t.eof t.fileReqOffset
  have hfirst : ∀ i j, i < j → decide (r.byteAt j < t.eof - t.fileReqOffset) = true →
      decide (r.byteAt i < t.eof - t.fileReqOffset) = true := by
    simpa using ascending_down hasc (t.eof - t.fileReqOffset) 0
  constructor
  · intro h i hi
    have hleft := @lt_countP_range_iff _ hwin t.memSize i
    have hright := @lt_countP_range_iff _ hfirst t.memSize i
    rw [← h] at hright
    have hboth := hleft.symm.trans hright
    simp only [hi, true_and, decide_eq_true_eq] at hboth
    rw [hboth]
    omega
  · intro h
    refine countP_congr fun i hi => ?_
    have := h i (mem_range.mp hi)
    simp only [Function.comp_apply, decide_eq_true_eq]
    omega

theorem right_iff_shifts (hr : r.Wf) (h0 : 0 ≤ r.byteAt 0) (hwithin : t.Within r)
    (hshort : ¬t.Sent r) : t.Right r ↔ t.Shifts r := by
  have hnonneg : ∀ k, 0 ≤ r.byteAt k := by
    intro k
    have := le_byteAt hasc h0 k
    omega
  rw [← t.countP_stored_eq_iff hr] at hshort
  have hcast : (t.eof.toNat : Int) = t.eof :=
    Int.toNat_of_nonneg (logicalFileSize_nonneg t.strip t.sizes)
  have htotal := ioFindTotalSize_returns hr hasc t.strip_pos t.fileReqOffset t.eof.toNat
    fun k hk => ⟨hnonneg k, hwithin.1 k (.inr (by omega))⟩
  rw [hcast] at htotal
  have hret := t.totalCompleted_returns hr hshort hnonneg hwithin htotal
  rw [reported_eq hasc h0 (t.memSize_pos hr hshort)] at hret
  rw [← t.countP_window_eq_iff hasc hr, Right]
  refine ⟨fun h => ?_, fun h => by rw [h]; exact hret⟩
  exact_mod_cast Option.some.inj (h.unique hret)

end

theorem right_of_sent (hr : r.Wf) (hnonneg : ∀ k, 0 ≤ r.byteAt k) (hwithin : t.Within r)
    (h : t.Sent r) : t.Right r := by
  rw [← t.countP_stored_eq_iff hr] at h
  rw [Right, t.countP_lt_eof_of_stored (fun x hx => ?_) hwithin.2 hr h]
  · -- everything was sent, and that is what is reported
    exact .always fun n => by rw [totalCompleted, if_pos h]
  · obtain ⟨k, -, rfl⟩ := hr.mem_window.mp hx
    exact hnonneg _

/-! ## When moving the request is harmless -/

theorem shifts_of_beginning (h : t.fileReqOffset = 0) : t.Shifts r := by
  intro i _
  rw [h, Nat.zero_add, Int.natCast_zero, Int.add_zero]

theorem shifts_of_oneRun (h : r.OneRun) : t.Shifts r := by
  intro i _
  rw [h.byteAt_eq i, h.byteAt_eq (t.fileReqOffset + i)]
  push_cast
  omega

end StripedRead

/-- Ten bytes are asked for of a file of seven, from its fourth. -/
def shortRead : StripedRead :=
  ⟨3, 10, 4, [4, 3], [0, 1], by decide, by decide, by decide⟩

def pastEof : StripedRead := ⟨1, 1, 65536, [5], [0], by decide, by decide, by decide⟩

end Pvfs.Client
