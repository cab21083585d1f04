import Mathlib.Algebra.GroupWithZero.Nat
import Mathlib.Tactic.Common

/-! # Matching memory regions with stream regions

A list operation names the memory it works on and the part of the bytestream it works on by two
lists of regions. `dbpf_bstream_listio_convert` (dbpf-bstream-aio.c) and
`dbpf_bstream_get_extents` (dbpf-bstream-direct.c) walk over both lists with the same loop body
and cut them into extents that are contiguous on both sides. `Matching` are the variables of
that loop and `Matching.step` is its body.

Sizes are not negative and offsets do not overflow. -/

namespace Pvfs.Trove

structure Region where
  offset : Nat
  size : Nat
deriving DecidableEq, Repr

/-- `dbpf_stream_extents_t`: `size` bytes at `buffer` go to `offset`. -/
structure StreamExtent where
  buffer : Nat
  size : Nat
  offset : Nat
deriving DecidableEq, Repr

/-- The variables `mct`, `sct`, `cur_mem_*` and `cur_stream_*`. -/
structure Matching where
  mct : Nat
  sct : Nat
  curMem : Region
  curStream : Region
deriving DecidableEq, Repr

namespace Matching

variable (mem stream : List Region) (m : Matching)

def start : Matching := ⟨0, 0, mem.headD ⟨0, 0⟩, stream.headD ⟨0, 0⟩⟩

def oom : Bool := !decide (m.mct + 1 < mem.length)

def oos : Bool := !decide (m.sct + 1 < stream.length)

def nextMem : Matching :=
  if m.oom mem then { m with curMem := { m.curMem with size := 0 } }
  else { m with mct := m.mct + 1, curMem := mem.getD (m.mct + 1) ⟨0, 0⟩ }

def nextStream : Matching :=
  if m.oos stream then { m with curStream := { m.curStream with size := 0 } }
  else { m with sct := m.sct + 1, curStream := stream.getD (m.sct + 1) ⟨0, 0⟩ }

def extent : StreamExtent := ⟨m.curMem.offset, min m.curMem.size m.curStream.size, m.curStream.offset⟩

/-- The current stream region without its first `n` bytes. -/
def eatStream (n : Nat) : Matching :=
  { m with curStream := ⟨m.curStream.offset + n, m.curStream.size - n⟩ }

/-- The current memory region without its first `n` bytes. -/
def eatMem (n : Nat) : Matching :=
  { m with curMem := ⟨m.curMem.offset + n, m.curMem.size - n⟩ }

/-- One turn of the loop: the smaller of the two regions is consumed, both if they are equal. -/
def step : Matching :=
  if m.curMem.size = m.curStream.size then (m.nextMem mem).nextStream stream
  else if m.curMem.size < m.curStream.size then (m.eatStream m.curMem.size).nextMem mem
  else (m.eatMem m.curStream.size).nextStream stream

/-- The loop is left after the turn from `m`: one of the lists has been used up. -/
def used : Bool :=
  (m.oom mem && decide ((m.step mem stream).curMem.size = 0)) ||
    (m.oos stream && decide ((m.step mem stream).curStream.size = 0))

variable {mem stream m}

theorem oom_iff : m.oom mem = true ↔ mem.length ≤ m.mct + 1 := by
  simp [oom]

theorem oos_iff : m.oos stream = true ↔ stream.length ≤ m.sct + 1 := by
  simp [oos]

theorem nextMem_mct : (m.nextMem mem).mct = if m.oom mem then m.mct else m.mct + 1 := by
  unfold nextMem
  split <;> rfl

theorem nextStream_sct : (m.nextStream stream).sct = if m.oos stream then m.sct else m.sct + 1 := by
  unfold nextStream
  split <;> rfl

@[simp] theorem nextMem_sct : (m.nextMem mem).sct = m.sct := by
  unfold nextMem
  split <;> rfl

@[simp] theorem nextStream_mct : (m.nextStream stream).mct = m.mct := by
  unfold nextStream
  split <;> rfl

@[simp] theorem nextMem_curStream : (m.nextMem mem).curStream = m.curStream := by
  unfold nextMem
  split <;> rfl

@[simp] theorem nextStream_curMem : (m.nextStream stream).curMem = m.curMem := by
  unfold nextStream
  split <;> rfl

theorem nextMem_size_of_oom (h : m.oom mem = true) : (m.nextMem mem).curMem.size = 0 := by
  rw [nextMem, if_pos h]

theorem nextStream_size_of_oos (h : m.oos stream = true) :
    (m.nextStream stream).curStream.size = 0 := by
  rw [nextStream, if_pos h]

theorem step_le : m.mct ≤ (m.step mem stream).mct ∧ m.sct ≤ (m.step mem stream).sct := by
  unfold step
  split
  · simp only [nextStream_mct, nextMem_mct, nextStream_sct, nextMem_sct]
    constructor <;> split <;> omega
  · split
    · rw [nextMem_mct, nextMem_sct]
      exact ⟨by split <;> simp [eatStream], Nat.le_refl _⟩
    · rw [nextStream_mct, nextStream_sct]
      exact ⟨Nat.le_refl _, by split <;> simp [eatMem]⟩

theorem step_bound :
    ((m.step mem stream).mct = m.mct ∨ (m.step mem stream).mct + 1 ≤ mem.length) ∧
    ((m.step mem stream).sct = m.sct ∨ (m.step mem stream).sct + 1 ≤ stream.length) := by
  have hmem : ∀ n : Matching, n.mct = m.mct →
      (n.nextMem mem).mct = m.mct ∨ (n.nextMem mem).mct + 1 ≤ mem.length := by
    intro n hn
    rw [nextMem_mct]
    by_cases h : n.oom mem = true
    · rw [if_pos h]
      exact .inl hn
    · rw [if_neg h]
      rw [oom_iff] at h
      omega
  have hstream : ∀ n : Matching, n.sct = m.sct →
      (n.nextStream stream).sct = m.sct ∨ (n.nextStream stream).sct + 1 ≤ stream.length := by
    intro n hn
    rw [nextStream_sct]
    by_cases h : n.oos stream = true
    · rw [if_pos h]
      exact .inl hn
    · rw [if_neg h]
      rw [oos_iff] at h
      omega
  unfold step
  split
  · exact ⟨by rw [nextStream_mct]; exact hmem m rfl, hstream _ nextMem_sct⟩
  · split
    · exact ⟨hmem _ rfl, .inl nextMem_sct⟩
    · exact ⟨.inl nextStream_mct, hstream _ rfl⟩

theorem step_lt (h : m.used mem stream = false) :
    m.mct + m.sct < (m.step mem stream).mct + (m.step mem stream).sct := by
  obtain ⟨hmle, hsle⟩ := @step_le mem stream m
  rw [used, Bool.or_eq_false_iff] at h
  obtain ⟨hmem, hstream⟩ := h
  -- a side that is consumed at its last region has nothing left, and the loop is left
  have hoom : (m.step mem stream).curMem = (m.nextMem mem).curMem → m.oom mem = false := by
    intro hcur
    cases hoom : m.oom mem with
    | false => rfl
    | true =>
      rw [hcur, nextMem_size_of_oom hoom, hoom] at hmem
      cases hmem
  have hoos : ∀ n : Matching, n.sct = m.sct →
      (m.step mem stream).curStream = (n.nextStream stream).curStream → m.oos stream = false := by
    intro n hn hcur
    cases hoos : m.oos stream with
    | false => rfl
    | true =>
      have hoos' : n.oos stream = true := by rwa [oos, hn]
      rw [hcur, nextStream_size_of_oos hoos', hoos] at hstream
      cases hstream
  by_cases heq : m.curMem.size = m.curStream.size
  · have hstep : m.step mem stream = (m.nextMem mem).nextStream stream := if_pos heq
    have hmct : (m.step mem stream).mct = m.mct + 1 := by
      rw [hstep, nextStream_mct, nextMem_mct, hoom (by rw [hstep, nextStream_curMem])]
      rfl
    omega
  · by_cases hlt : m.curMem.size < m.curStream.size
    · have hstep : m.step mem stream = (m.eatStream m.curMem.size).nextMem mem := by
        rw [step, if_neg heq, if_pos hlt]
      have hcur : (m.step mem stream).curMem = (m.nextMem mem).curMem := by
        rw [hstep]
        unfold nextMem
        show (if m.oom mem = true then _ else _ : Matching).curMem = _
        split <;> rfl
      have hmct : (m.step mem stream).mct = m.mct + 1 := by
        rw [hstep, nextMem_mct]
        show (if m.oom mem = true then m.mct else m.mct + 1) = m.mct + 1
        rw [hoom hcur]
        rfl
      omega
    · have hstep : m.step mem stream = (m.eatMem m.curStream.size).nextStream stream := by
        rw [step, if_neg heq, if_neg hlt]
      have hsct : (m.step mem stream).sct = m.sct + 1 := by
        have hnot := hoos (m.eatMem m.curStream.size) rfl (by rw [hstep])
        rw [hstep, nextStream_sct]
        show (if m.oos stream = true then m.sct else m.sct + 1) = m.sct + 1
        rw [hnot]
        rfl
      omega

end Matching

end Pvfs.Trove
