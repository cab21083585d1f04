import Pvfs.Lib.Loop
import Pvfs.Trove.Regions

/-! # The pieces of a list operation

`dbpf_bstream_get_extents` (dbpf-bstream-direct.c) cuts the memory regions and the stream
regions of an operation into extents. `pieces` says what these are without the indices of the
loop: the first region of one list is matched with as much of the first region of the other.
The loop comes to its end with just these (`getExtents_returns`), and they cover both lists
byte by byte (`pieces_bytes`). -/

namespace Pvfs.Trove

open Pvfs.Lib List

/-- The loop of `dbpf_bstream_get_extents`. -/
def extentsFrom (mem stream : List Region) : Matching → Nat → Option (List StreamExtent)
  | _, 0 => none
  | m, fuel + 1 =>
    if m.used mem stream then some [m.extent]
    else (extentsFrom mem stream (m.step mem stream) fuel).map (m.extent :: ·)

/-- `dbpf_bstream_get_extents`. -/
def getExtents (mem stream : List Region) (fuel : Nat) : Option (List StreamExtent) :=
  extentsFrom mem stream (Matching.start mem stream) fuel

/-- The pieces of memory and bytestream that belong together: both lists cut at the boundaries of
the other one. -/
def pieces : List Region → List Region → List StreamExtent
  | m :: mem, s :: stream =>
    if m.size = s.size then ⟨m.offset, m.size, s.offset⟩ :: pieces mem stream
    else if m.size < s.size then
      ⟨m.offset, m.size, s.offset⟩ ::
        pieces mem (⟨s.offset + m.size, s.size - m.size⟩ :: stream)
    else
      ⟨m.offset, s.size, s.offset⟩ ::
        pieces (⟨m.offset + s.size, m.size - s.size⟩ :: mem) stream
  | [], _ => []
  | _, [] => []
termination_by mem stream => mem.length + stream.length

namespace Matching

variable {mem stream : List Region} {m : Matching}

def restMem (mem : List Region) (m : Matching) : List Region := m.curMem :: mem.drop (m.mct + 1)

def restStream (stream : List Region) (m : Matching) : List Region :=
  m.curStream :: stream.drop (m.sct + 1)

theorem restMem_nextMem (h : m.oom mem = false) :
    (m.nextMem mem).restMem mem = mem.drop (m.mct + 1) := by
  have hlt : m.mct + 1 < mem.length := by
    by_contra hle
    rw [oom_iff.mpr (by omega)] at h
    cases h
  rw [nextMem, if_neg (by rw [h]; exact Bool.false_ne_true), restMem]
  simp [getD_eq_getElem?_getD, hlt]

theorem restStream_nextStream (h : m.oos stream = false) :
    (m.nextStream stream).restStream stream = stream.drop (m.sct + 1) := by
  have hlt : m.sct + 1 < stream.length := by
    by_contra hle
    rw [oos_iff.mpr (by omega)] at h
    cases h
  rw [nextStream, if_neg (by rw [h]; exact Bool.false_ne_true), restStream]
  simp [getD_eq_getElem?_getD, hlt]

theorem drop_of_oom (h : m.oom mem = true) : mem.drop (m.mct + 1) = [] :=
  drop_eq_nil_of_le (oom_iff.mp h)

theorem drop_of_oos (h : m.oos stream = true) : stream.drop (m.sct + 1) = [] :=
  drop_eq_nil_of_le (oos_iff.mp h)

theorem pieces_nil (stream : List Region) : pieces [] stream = [] := by
  unfold pieces
  rfl

theorem pieces_nil_right (mem : List Region) : pieces mem [] = [] := by
  cases mem <;> simp [pieces]

/-- **One turn of the loop.**  It makes the first piece of what is left, and it is the last turn
if nothing is left on one of the two sides. -/
theorem pieces_rest : pieces (m.restMem mem) (m.restStream stream) =
    m.extent :: if m.used mem stream then []
      else pieces ((m.step mem stream).restMem mem) ((m.step mem stream).restStream stream) := by
  rw [restMem, restStream, pieces]
  by_cases heq : m.curMem.size = m.curStream.size
  · have hstep : m.step mem stream = (m.nextMem mem).nextStream stream := if_pos heq
    rw [if_pos heq, extent, ← heq, Nat.min_self]
    congr 1
    cases hoom : m.oom mem with
    | true =>
      have hused : m.used mem stream = true := by
        rw [used, hstep, nextStream_curMem, nextMem_size_of_oom hoom, hoom]
        rfl
      rw [hused, drop_of_oom hoom, pieces_nil, if_pos rfl]
    | false =>
      have hnext : (m.nextMem mem).oos stream = m.oos stream := by rw [oos, nextMem_sct, oos]
      cases hoos : m.oos stream with
      | true =>
        have hused : m.used mem stream = true := by
          rw [used, hstep, nextStream_size_of_oos (hnext.trans hoos), hoos]
          simp
        rw [hused, drop_of_oos hoos, pieces_nil_right, if_pos rfl]
      | false =>
        have hused : m.used mem stream = false := by rw [used, hoom, hoos]; rfl
        have hmem : ((m.nextMem mem).nextStream stream).restMem mem =
            (m.nextMem mem).restMem mem := by
          rw [restMem, nextStream_curMem, nextStream_mct, restMem]
        have hstream := restStream_nextStream (hnext.trans hoos)
        rw [nextMem_sct] at hstream
        rw [hused, if_neg Bool.false_ne_true, hstep, hmem, restMem_nextMem hoom, hstream]
  · rw [if_neg heq]
    by_cases hlt : m.curMem.size < m.curStream.size
    · have hstep : m.step mem stream = (m.eatStream m.curMem.size).nextMem mem := by
        rw [step, if_neg heq, if_pos hlt]
      rw [if_pos hlt, extent, Nat.min_eq_left (Nat.le_of_lt hlt)]
      congr 1
      have hoom' : (m.eatStream m.curMem.size).oom mem = m.oom mem := rfl
      cases hoom : m.oom mem with
      | true =>
        have hused : m.used mem stream = true := by
          rw [used, hstep, nextMem_size_of_oom (hoom'.trans hoom), hoom]
          rfl
        rw [hused, drop_of_oom hoom, pieces_nil, if_pos rfl]
      | false =>
        have hleft : (m.step mem stream).curStream.size ≠ 0 := by
          rw [hstep, nextMem_curStream]
          show m.curStream.size - m.curMem.size ≠ 0
          omega
        have hused : m.used mem stream = false := by
          rw [used, hoom, decide_eq_false hleft]
          simp
        have hstream : ((m.eatStream m.curMem.size).nextMem mem).restStream stream =
            ⟨m.curStream.offset + m.curMem.size, m.curStream.size - m.curMem.size⟩ ::
              stream.drop (m.sct + 1) := by
          rw [restStream, nextMem_curStream, nextMem_sct]
          rfl
        rw [hused, hstep, hstream,
          restMem_nextMem (hoom'.trans hoom)]
        rfl
    · have hstep : m.step mem stream = (m.eatMem m.curStream.size).nextStream stream := by
        rw [step, if_neg heq, if_neg hlt]
      rw [if_neg hlt, extent, Nat.min_eq_right (by omega)]
      congr 1
      have hoos' : (m.eatMem m.curStream.size).oos stream = m.oos stream := rfl
      cases hoos : m.oos stream with
      | true =>
        have hused : m.used mem stream = true := by
          rw [used, hstep, nextStream_size_of_oos (hoos'.trans hoos), hoos]
          simp
        rw [hused, drop_of_oos hoos, pieces_nil_right, if_pos rfl]
      | false =>
        have hleft : (m.step mem stream).curMem.size ≠ 0 := by
          rw [hstep, nextStream_curMem]
          show m.curMem.size - m.curStream.size ≠ 0
          omega
        have hused : m.used mem stream = false := by
          rw [used, hoos, decide_eq_false hleft]
          simp
        have hmem : ((m.eatMem m.curStream.size).nextStream stream).restMem mem =
            ⟨m.curMem.offset + m.curStream.size, m.curMem.size - m.curStream.size⟩ ::
              mem.drop (m.mct + 1) := by
          rw [restMem, nextStream_curMem, nextStream_mct]
          rfl
        rw [hused, if_neg Bool.false_ne_true, hstep, hmem,
          restStream_nextStream (hoos'.trans hoos)]
        rfl

end Matching

variable {mem stream : List Region}

theorem extentsFrom_returns (m : Matching) :
    Returns (extentsFrom mem stream m) (pieces (m.restMem mem) (m.restStream stream)) := by
  -- by the number of pieces that are left; there is always one more to make
  generalize hk : (pieces (m.restMem mem) (m.restStream stream)).length = k
  induction k generalizing m with
  | zero =>
    rw [Matching.pieces_rest] at hk
    cases hk
  | succ k ih =>
    rw [Matching.pieces_rest] at hk ⊢
    cases hused : m.used mem stream with
    | true =>
      refine ⟨1, fun n hn => ?_⟩
      obtain ⟨n, rfl⟩ : ∃ j, n = j + 1 := ⟨n - 1, by omega⟩
      rw [extentsFrom, if_pos hused, if_pos rfl]
    | false =>
      rw [hused] at hk
      obtain ⟨N, hN⟩ := ih (m.step mem stream) (Nat.succ.inj hk)
      refine ⟨N + 1, fun n hn => ?_⟩
      obtain ⟨n, rfl⟩ : ∃ j, n = j + 1 := ⟨n - 1, by omega⟩
      rw [extentsFrom, hused, if_neg Bool.false_ne_true, hN n (by omega)]
      rfl

/-- **The extents of an operation are its pieces.** -/
theorem getExtents_returns (hmem : mem ≠ []) (hstream : stream ≠ []) :
    Returns (getExtents mem stream) (pieces mem stream) := by
  have h := @extentsFrom_returns mem stream (Matching.start mem stream)
  cases mem with
  | nil => exact absurd rfl hmem
  | cons r mem =>
    cases stream with
    | nil => exact absurd rfl hstream
    | cons r' stream => exact h

/-! ## The bytes of regions and extents -/

def Region.bytes (r : Region) : List Nat := List.range' r.offset r.size

/-- The positions of the bytes of a list of regions, in order. -/
def regionBytes (rs : List Region) : List Nat := rs.flatMap Region.bytes

def totalSize (rs : List Region) : Nat := (rs.map Region.size).sum

def StreamExtent.streamBytes (x : StreamExtent) : List Nat := List.range' x.offset x.size

def StreamExtent.memBytes (x : StreamExtent) : List Nat := List.range' x.buffer x.size

theorem StreamExtent.mem_streamBytes {x : StreamExtent} {p : Nat} :
    p ∈ x.streamBytes ↔ x.offset ≤ p ∧ p < x.offset + x.size := by
  rw [streamBytes, mem_range'_1]

theorem regionBytes_cons (r : Region) (rs : List Region) :
    regionBytes (r :: rs) = List.range' r.offset r.size ++ regionBytes rs := rfl

theorem totalSize_cons (r : Region) (rs : List Region) :
    totalSize (r :: rs) = r.size + totalSize rs := by
  rw [totalSize, map_cons, sum_cons, totalSize]

theorem regionBytes_of_totalSize (rs : List Region) (h : totalSize rs = 0) :
    regionBytes rs = [] := by
  induction rs with
  | nil => rfl
  | cons r rs ih =>
    rw [totalSize_cons] at h
    rw [regionBytes_cons, ih (by omega), show r.size = 0 by omega]
    rfl

theorem regionBytes_split {r : Region} {n : Nat} (h : n ≤ r.size) (rs : List Region) :
    regionBytes (r :: rs) =
      List.range' r.offset n ++ regionBytes (⟨r.offset + n, r.size - n⟩ :: rs) := by
  rw [regionBytes_cons, regionBytes_cons, ← append_assoc, range'_append_1,
    Nat.add_sub_cancel' h]

/-- **The pieces cover both lists of regions in order.** -/
theorem pieces_bytes (h : totalSize mem = totalSize stream) :
    (pieces mem stream).flatMap StreamExtent.streamBytes = regionBytes stream ∧
      (pieces mem stream).flatMap StreamExtent.memBytes = regionBytes mem := by
  induction mem, stream using pieces.induct with
  | case1 m mem s stream heq ih =>
    rw [totalSize_cons, totalSize_cons] at h
    obtain ⟨hs, hm⟩ := ih (by omega)
    rw [pieces, if_pos heq, flatMap_cons, flatMap_cons, hs, hm]
    refine ⟨?_, rfl⟩
    rw [regionBytes_cons, ← heq]
    rfl
  | case2 m mem s stream heq hlt ih =>
    rw [totalSize_cons, totalSize_cons] at h
    obtain ⟨hs, hm⟩ := ih (by rw [totalSize_cons]; dsimp only; omega)
    rw [pieces, if_neg heq, if_pos hlt, flatMap_cons, flatMap_cons, hs, hm,
      regionBytes_split (Nat.le_of_lt hlt)]
    exact ⟨rfl, rfl⟩
  | case3 m mem s stream heq hlt ih =>
    rw [totalSize_cons, totalSize_cons] at h
    obtain ⟨hs, hm⟩ := ih (by rw [totalSize_cons]; dsimp only; omega)
    rw [pieces, if_neg heq, if_neg hlt, flatMap_cons, flatMap_cons, hs, hm,
      regionBytes_split (r := m) (n := s.size) (by omega)]
    exact ⟨rfl, rfl⟩
  | case4 stream =>
    rw [Matching.pieces_nil, regionBytes_of_totalSize stream h.symm]
    exact ⟨rfl, rfl⟩
  | case5 mem hne =>
    rw [Matching.pieces_nil_right, regionBytes_of_totalSize mem h]
    exact ⟨rfl, rfl⟩

end Pvfs.Trove
