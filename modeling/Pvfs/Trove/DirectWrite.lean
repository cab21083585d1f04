import Pvfs.Lib.ByteFile
import Pvfs.Description.Distribution
import Pvfs.Trove.Pieces
import Mathlib.Data.List.Nodup
import Mathlib.Data.List.Pairwise

/-! # List writes with direct I/O (dbpf-bstream-direct.c)

The file of a datafile is open with `O_DIRECT`, so it is written in whole blocks only.
`dbpf_bstream_direct_write_op_svc` cuts the operation into extents and writes one after the
other; an extent whose ends are not on block boundaries is put into an aligned buffer whose
first and last block come from the file (*read-modify-write*), or are zero where the block lies
behind the end of the bytestream. That end is looked up once, before the first extent.

So an extent may put zeros over what an earlier extent of the same operation has written. When
this happens is a matter of the layout alone, of the extents and of the recorded size.

`pread` and `pwrite` behave as on a byte array (`Pvfs.Lib.ByteFile`) and the attributes of the
datafile can be read and set; the aligned buffer comes from `posix_memalign` with any content. -/

namespace Pvfs.Trove

open Pvfs.Lib Pvfs.Description List StreamExtent

/-! ## Blocks -/

/-- `BLOCK_SIZE`. -/
def blockSize : Nat := 4096

/-- `ALIGNED_OFFSET`: the beginning of the block of an offset. -/
def alignedOffset (offset : Nat) : Nat := offset / blockSize * blockSize

def alignedEnd (offset : Nat) : Nat := (offset + blockSize - 1) / blockSize * blockSize

/-- `ALIGNED_SIZE`. -/
def alignedSize (offset size : Nat) : Nat := alignedEnd (offset + size) - alignedOffset offset

/-- `IS_ALIGNED_PTR`. -/
def isAlignedPtr (ptr : Nat) : Bool := alignedOffset ptr == ptr

theorem alignedOffset_le (o : Nat) : alignedOffset o ≤ o := by
  unfold alignedOffset blockSize
  omega

theorem lt_alignedOffset (o : Nat) : o < alignedOffset o + blockSize := by
  unfold alignedOffset blockSize
  omega

theorem le_alignedEnd (o : Nat) : o ≤ alignedEnd o := by
  unfold alignedEnd blockSize
  omega

theorem alignedOffset_le_alignedEnd {o o' : Nat} (h : o ≤ o') : alignedOffset o ≤ alignedEnd o' :=
  Nat.le_trans (alignedOffset_le o) (Nat.le_trans h (le_alignedEnd o'))

variable {p : Nat}

theorem alignedOffset_back {o : Nat} (h : o ≤ p) (h' : p < alignedEnd o) :
    alignedOffset p + blockSize = alignedEnd o := by
  unfold alignedOffset alignedEnd blockSize at *
  omega

theorem alignedOffset_lt_iff {o : Nat} :
    alignedOffset p < alignedEnd o ↔ alignedOffset p + blockSize ≤ alignedEnd o := by
  unfold alignedOffset alignedEnd blockSize
  omega

/-! ## Writing one extent -/

def StreamExtent.Spans (x : StreamExtent) (p : Nat) : Prop :=
  alignedOffset x.offset ≤ p ∧ p < alignedEnd (x.offset + x.size)

instance (x : StreamExtent) (p : Nat) : Decidable (x.Spans p) :=
  inferInstanceAs (Decidable (_ ∧ _))

section
variable (streamSize : Nat) (f : ByteFile) (x : StreamExtent) (buf : Buffer)

/-- The first block is read before it is changed. -/
def frontEdge : Buffer :=
  if alignedOffset x.offset < x.offset then
    if alignedOffset x.offset < alignedSize 0 streamSize then
      f.pread buf 0 blockSize (alignedOffset x.offset)
    else buf.fill 0 blockSize fun _ => 0
  else buf

/-- The last block is read before it is changed. -/
def backEdge : Buffer :=
  let size := alignedSize x.offset x.size
  let alignedEndOffset := alignedOffset x.offset + size
  if x.offset + x.size < alignedEndOffset then
    if alignedEndOffset ≤ alignedSize 0 streamSize then
      f.pread buf (size - blockSize) blockSize (alignedEndOffset - blockSize)
    else buf.fill (size - blockSize) blockSize fun _ => 0
  else buf

def writeAligned (memory : Buffer) : ByteFile :=
  f.pwrite (buf.fill (x.offset - alignedOffset x.offset) x.size fun i => memory (x.buffer + i))
    (alignedSize x.offset x.size) (alignedOffset x.offset)

def StreamExtent.aligned : Bool :=
  isAlignedPtr x.buffer && alignedSize x.offset x.size == x.size

/-- `direct_write`, with the content of the new buffer. -/
def directWrite (memory : Buffer) : ByteFile :=
  if x.aligned then f.pwrite (fun i => memory (x.buffer + i)) x.size x.offset
  else writeAligned f x (backEdge streamSize f x (frontEdge streamSize f x buf)) memory

end

section
variable {streamSize : Nat} {f g : ByteFile} {x : StreamExtent} {buf : Buffer} {p : Nat}
  {b : UInt8}

theorem alignedSize_zero (s : Nat) : alignedSize 0 s = alignedEnd s := by
  rw [alignedSize, Nat.zero_add]
  rfl

theorem alignedOffset_add_alignedSize (x : StreamExtent) :
    alignedOffset x.offset + alignedSize x.offset x.size = alignedEnd (x.offset + x.size) := by
  have hle : alignedOffset x.offset ≤ alignedEnd (x.offset + x.size) :=
    alignedOffset_le_alignedEnd (Nat.le_add_right _ _)
  rw [alignedSize]
  omega

/-- A byte of an edge block in the aligned buffer: from the file where the block begins before
the end of the bytestream, as far as the file reaches, and zero behind that. -/
def edgeByte (streamSize : Nat) (f : ByteFile) (p : Nat) (old : UInt8) : UInt8 :=
  if alignedOffset p < alignedEnd streamSize then (f.get? p).getD old else 0

theorem frontEdge_first (hfront : alignedOffset x.offset < x.offset)
    (h : alignedOffset x.offset ≤ p) (h' : p < alignedOffset x.offset + blockSize) :
    frontEdge streamSize f x buf (p - alignedOffset x.offset) =
      edgeByte streamSize f p (buf (p - alignedOffset x.offset)) := by
  have hoff : alignedOffset p = alignedOffset x.offset := by
    revert h h'
    unfold alignedOffset blockSize
    omega
  rw [frontEdge, if_pos hfront, edgeByte, hoff, alignedSize_zero]
  split
  · rw [ByteFile.pread_inside (Nat.zero_le _) (by omega), Nat.sub_zero, Nat.add_sub_cancel' h]
  · rw [Buffer.fill_inside (Nat.zero_le _) (by omega)]

theorem frontEdge_cases (h : alignedOffset x.offset ≤ p) :
    frontEdge streamSize f x buf (p - alignedOffset x.offset) = buf (p - alignedOffset x.offset) ∨
      frontEdge streamSize f x buf (p - alignedOffset x.offset) =
        edgeByte streamSize f p (buf (p - alignedOffset x.offset)) := by
  by_cases hfront : alignedOffset x.offset < x.offset
  · by_cases hp : p < alignedOffset x.offset + blockSize
    · exact .inr (frontEdge_first hfront h hp)
    · left
      rw [frontEdge, if_pos hfront]
      split
      · exact ByteFile.pread_outside (by omega)
      · exact Buffer.fill_outside (by omega)
  · rw [frontEdge, if_neg hfront]
    exact .inl rfl

theorem backEdge_back (h : x.offset + x.size < alignedEnd (x.offset + x.size))
    (hp : alignedEnd (x.offset + x.size) ≤ p + blockSize) (hspans : x.Spans p) :
    backEdge streamSize f x buf (p - alignedOffset x.offset) =
      edgeByte streamSize f p (buf (p - alignedOffset x.offset)) := by
  obtain ⟨hfront, hback⟩ := hspans
  have hend := alignedOffset_add_alignedSize x
  have hblock : alignedOffset x.offset + blockSize ≤ alignedEnd (x.offset + x.size) :=
    alignedOffset_lt_iff.mp (Nat.lt_of_le_of_lt hfront hback)
  have hoff : alignedOffset p + blockSize = alignedEnd (x.offset + x.size) := by
    revert hp hback
    unfold alignedOffset alignedEnd blockSize
    omega
  have hread : alignedEnd (x.offset + x.size) ≤ alignedEnd streamSize ↔
      alignedOffset p < alignedEnd streamSize := by
    rw [alignedOffset_lt_iff, hoff]
  rw [backEdge, hend, if_pos h, edgeByte, alignedSize_zero]
  have hin : alignedSize x.offset x.size - blockSize ≤ p - alignedOffset x.offset := by omega
  have hin' : p - alignedOffset x.offset <
      alignedSize x.offset x.size - blockSize + blockSize := by omega
  by_cases hlt : alignedOffset p < alignedEnd streamSize
  · have hplace : alignedEnd (x.offset + x.size) - blockSize +
        (p - alignedOffset x.offset - (alignedSize x.offset x.size - blockSize)) = p := by omega
    rw [if_pos hlt, if_pos (hread.mpr hlt), ByteFile.pread_inside hin hin', hplace]
  · rw [if_neg hlt, if_neg (mt hread.mp hlt), Buffer.fill_inside hin hin']

theorem backEdge_front (hp : ¬ (x.offset + x.size < alignedEnd (x.offset + x.size) ∧
    alignedEnd (x.offset + x.size) ≤ p + blockSize)) (hspans : x.Spans p) :
    backEdge streamSize f x buf (p - alignedOffset x.offset) =
      buf (p - alignedOffset x.offset) := by
  obtain ⟨hfront, hback⟩ := hspans
  have hend := alignedOffset_add_alignedSize x
  rw [backEdge]
  split
  · next h =>
    split
    · exact ByteFile.pread_outside (by omega)
    · exact Buffer.fill_outside (by omega)
  · rfl

variable (hspans : x.Spans p) (hdata : p ∉ x.streamBytes)
include hspans hdata

theorem edges_eq :
    backEdge streamSize g x (frontEdge streamSize f x buf) (p - alignedOffset x.offset) =
        edgeByte streamSize f p (buf (p - alignedOffset x.offset)) ∨
      ∃ old, (old = buf (p - alignedOffset x.offset) ∨
          old = edgeByte streamSize f p (buf (p - alignedOffset x.offset))) ∧
        backEdge streamSize g x (frontEdge streamSize f x buf) (p - alignedOffset x.offset) =
          edgeByte streamSize g p old := by
  rw [mem_streamBytes] at hdata
  by_cases hp : x.offset + x.size < alignedEnd (x.offset + x.size) ∧
      alignedEnd (x.offset + x.size) ≤ p + blockSize
  · right
    exact ⟨_, frontEdge_cases hspans.1, backEdge_back hp.1 hp.2 hspans⟩
  · left
    rw [backEdge_front hp hspans]
    have hfront : p < x.offset := by
      by_contra hle
      have hback := hspans.2
      have hoff := alignedOffset_back (by omega) hback
      have hle' := alignedOffset_le p
      exact hp ⟨by omega, by omega⟩
    exact frontEdge_first (Nat.lt_of_le_of_lt hspans.1 hfront) hspans.1
      (Nat.lt_trans hfront (lt_alignedOffset x.offset))

theorem edges_kept (hread : alignedOffset p < alignedEnd streamSize) (hf : f.get? p = some b)
    (hg : g.get? p = some b) :
    backEdge streamSize g x (frontEdge streamSize f x buf) (p - alignedOffset x.offset) = b := by
  rcases @edges_eq streamSize f g x buf p hspans hdata with heq | ⟨old, -, heq⟩
  · rw [heq, edgeByte, if_pos hread, hf]
    rfl
  · rw [heq, edgeByte, if_pos hread, hg]
    rfl

theorem edges_zero (hzero : alignedEnd streamSize ≤ alignedOffset p) :
    backEdge streamSize g x (frontEdge streamSize f x buf) (p - alignedOffset x.offset) = 0 := by
  rcases @edges_eq streamSize f g x buf p hspans hdata with heq | ⟨old, -, heq⟩
  · rw [heq, edgeByte, if_neg (by omega)]
  · rw [heq, edgeByte, if_neg (by omega)]

theorem edges_old (hf : f.get? p ≠ some b) (hbuf : buf (p - alignedOffset x.offset) ≠ b) (hb : b ≠ 0) :
    backEdge streamSize f x (frontEdge streamSize f x buf) (p - alignedOffset x.offset) ≠ b := by
  have hedge : ∀ old, old ≠ b → edgeByte streamSize f p old ≠ b := by
    intro old hold
    unfold edgeByte
    split
    · cases hx : f.get? p with
      | none => exact hold
      | some y =>
        rintro rfl
        exact hf hx
    · exact hb.symm
  rcases @edges_eq streamSize f f x buf p hspans hdata with heq | ⟨old, hold, heq⟩
  · rw [heq]
    exact hedge _ hbuf
  · rw [heq]
    apply hedge
    rcases hold with rfl | rfl
    · exact hbuf
    · exact hedge _ hbuf

end

section
variable {streamSize : Nat} {f : ByteFile} {x : StreamExtent} {buf memory : Buffer} {p : Nat}
  {b : UInt8}

theorem StreamExtent.aligned_spans (h : x.aligned = true) (hspans : x.Spans p) :
    p ∈ x.streamBytes := by
  rw [aligned, Bool.and_eq_true, beq_iff_eq] at h
  obtain ⟨hfront, hback⟩ := hspans
  have hend := alignedOffset_add_alignedSize x
  have hoff := alignedOffset_le x.offset
  have hle := le_alignedEnd (x.offset + x.size)
  rw [mem_streamBytes]
  omega

theorem StreamExtent.spans_of_mem (h : p ∈ x.streamBytes) : x.Spans p := by
  rw [mem_streamBytes] at h
  exact ⟨Nat.le_trans (alignedOffset_le _) h.1, Nat.lt_of_lt_of_le h.2 (le_alignedEnd _)⟩

theorem writeAligned_data (h : p ∈ x.streamBytes) :
    (writeAligned f x buf memory).get? p = some (memory (x.buffer + (p - x.offset))) := by
  have hend := alignedOffset_add_alignedSize x
  obtain ⟨hfront, hback⟩ := spans_of_mem h
  rw [mem_streamBytes] at h
  have hoff := alignedOffset_le x.offset
  rw [writeAligned, ByteFile.pwrite_inside hfront (by omega),
    Buffer.fill_inside (by omega) (by omega)]
  congr 3
  omega

theorem writeAligned_edge (hspans : x.Spans p) (hdata : p ∉ x.streamBytes) :
    (writeAligned f x buf memory).get? p = some (buf (p - alignedOffset x.offset)) := by
  have hend := alignedOffset_add_alignedSize x
  have hoff := alignedOffset_le x.offset
  obtain ⟨hfront, hback⟩ := hspans
  rw [mem_streamBytes] at hdata
  rw [writeAligned, ByteFile.pwrite_inside hfront (by omega), Buffer.fill_outside (by omega)]

theorem writeAligned_kept (hspans : ¬ x.Spans p) (hb : f.get? p = some b) :
    (writeAligned f x buf memory).get? p = some b := by
  have hend := alignedOffset_add_alignedSize x
  rw [StreamExtent.Spans] at hspans
  exact ByteFile.pwrite_kept (by omega) hb

theorem directWrite_data (h : p ∈ x.streamBytes) :
    (directWrite streamSize f x buf memory).get? p =
      some (memory (x.buffer + (p - x.offset))) := by
  unfold directWrite
  split
  · rw [mem_streamBytes] at h
    exact ByteFile.pwrite_inside h.1 h.2
  · exact writeAligned_data h

/-- **What an extent leaves alone**: every stored byte but its data, unless it lies in one of its
blocks behind the end of the bytestream. -/
theorem directWrite_kept (hdata : p ∉ x.streamBytes)
    (hread : x.Spans p → alignedOffset p < alignedEnd streamSize) (hb : f.get? p = some b) :
    (directWrite streamSize f x buf memory).get? p = some b := by
  unfold directWrite
  split
  · rw [mem_streamBytes] at hdata
    exact ByteFile.pwrite_kept (by omega) hb
  · by_cases hspans : x.Spans p
    · rw [writeAligned_edge hspans hdata, edges_kept hspans hdata (hread hspans) hb hb]
    · exact writeAligned_kept hspans hb

theorem directWrite_erased (hdata : p ∉ x.streamBytes) (hspans : x.Spans p)
    (hzero : alignedEnd streamSize ≤ alignedOffset p) :
    (directWrite streamSize f x buf memory).get? p = some 0 := by
  unfold directWrite
  split
  · next haligned => exact absurd (aligned_spans haligned hspans) hdata
  · rw [writeAligned_edge hspans hdata, edges_zero hspans hdata hzero]

theorem directWrite_old (hdata : p ∉ x.streamBytes) (hf : f.get? p ≠ some b)
    (hbuf : ∀ i, buf i ≠ b) (hb : b ≠ 0) :
    (directWrite streamSize f x buf memory).get? p ≠ some b := by
  have hwrite : ∀ (data : Buffer) (n offset : Nat), (p < offset ∨ offset + n ≤ p) →
      (f.pwrite data n offset).get? p ≠ some b := by
    intro data n offset hout
    rcases ByteFile.pwrite_outside hout with heq | heq
    · rw [heq]
      exact hf
    · rw [heq]
      exact fun h => hb (Option.some.inj h).symm
  unfold directWrite
  split
  · rw [mem_streamBytes] at hdata
    exact hwrite _ _ _ (by omega)
  · by_cases hspans : x.Spans p
    · rw [writeAligned_edge hspans hdata]
      exact fun h => edges_old hspans hdata hf (hbuf _) hb (Option.some.inj h)
    · have hend := alignedOffset_add_alignedSize x
      rw [StreamExtent.Spans] at hspans
      exact hwrite _ _ _ (by omega)

end

/-! ## The operation -/

/-- A list write: at least one region on each side, as much memory as bytestream, and stream
regions that are pairwise disjoint. -/
structure ListWrite where
  mem : List Region
  stream : List Region
  mem_ne : mem ≠ []
  stream_ne : stream ≠ []
  total : totalSize mem = totalSize stream
  disjoint : stream.Pairwise fun r r' => List.Disjoint r.bytes r'.bytes

structure Datafile where
  file : ByteFile
  bSize : Nat

structure WriteLoop where
  file : ByteFile
  outSize : Int
  eor : Int

/-- How the service routine returns: the operation is complete, it goes on as a `DSPACE_SETATTR`
to have the new size synced, or it fails. -/
inductive MgmtOp where
  | completed
  | continued
  | failed
deriving DecidableEq, Repr

structure DirectResult where
  datafile : Datafile
  outSize : Int
  op : MgmtOp

/-- The loop over the extents, and whether it got to its end. `direct_locked_write` returns the
size of the extent in an `int`, and a negative one is taken for an error. -/
def writeExtents (streamSize : Nat) (memory : Buffer) :
    List StreamExtent → (Nat → Buffer) → WriteLoop → WriteLoop × Bool
  | [], _, s => (s, true)
  | x :: xs, fresh, s =>
    let file := directWrite streamSize s.file x (fresh 0) memory
    let ret := toInt32 x.size
    if ret < 0 then ({ s with file := file }, false)
    else
      writeExtents streamSize memory xs (fun i => fresh (i + 1))
        ⟨file, s.outSize + ret,
          if s.eor < (x.offset + x.size : Nat) then (x.offset + x.size : Nat) else s.eor⟩

def writeAndResize (memory : Buffer) (fresh : Nat → Buffer) (d : Datafile)
    (extents : List StreamExtent) : DirectResult :=
  let (s, done) := writeExtents d.bSize memory extents fresh ⟨d.file, 0, -1⟩
  if !done then ⟨⟨s.file, d.bSize⟩, s.outSize, .failed⟩
  else if d.bSize < s.eor then ⟨⟨s.file, s.eor.toNat⟩, s.outSize, .continued⟩
  else ⟨⟨s.file, d.bSize⟩, s.outSize, .completed⟩

/-- `dbpf_bstream_direct_write_op_svc`. -/
def directWriteOpSvc (w : ListWrite) (memory : Buffer) (fresh : Nat → Buffer) (d : Datafile)
    (fuel : Nat) : Option DirectResult :=
  (getExtents w.mem w.stream fuel).map (writeAndResize memory fresh d)

def attempted : List StreamExtent → List StreamExtent
  | [] => []
  | x :: xs => x :: if toInt32 x.size < 0 then [] else attempted xs

/-- The layouts that keep the extents of an operation from each other: none with data is left out
because the size of an earlier one is negative as an `int`, and none has data in a block that a
later one fills up with zeros. -/
structure Unshared (streamSize : Nat) (xs : List StreamExtent) : Prop where
  whole : ∀ x ∈ xs, x.size ≠ 0 → x ∈ attempted xs
  apart : (attempted xs).Pairwise fun earlier later =>
    ∀ p ∈ earlier.streamBytes, later.Spans p → alignedOffset p < alignedEnd streamSize

variable {x : StreamExtent}

section
variable {streamSize : Nat} {memory : Buffer} {xs : List StreamExtent} {fresh : Nat → Buffer}
  {s : WriteLoop} {p : Nat} {b : UInt8}

theorem attempted_subset : ∀ {xs : List StreamExtent} {x : StreamExtent},
    x ∈ attempted xs → x ∈ xs
  | [], _, h => h
  | y :: ys, x, h => by
    rcases mem_cons.mp h with rfl | h
    · exact mem_cons_self
    · split at h
      · exact absurd h not_mem_nil
      · exact mem_cons_of_mem _ (attempted_subset h)

theorem extent_unique (hdisjoint : xs.Pairwise fun x y => List.Disjoint x.streamBytes y.streamBytes)
    {y : StreamExtent} (hx : x ∈ xs) (hy : y ∈ xs) (hp : p ∈ x.streamBytes)
    (hp' : p ∈ y.streamBytes) : x = y := by
  by_contra hne
  have : Std.Symm fun x y : StreamExtent => List.Disjoint x.streamBytes y.streamBytes :=
    ⟨fun _ _ h _ ha hb => h hb ha⟩
  exact hdisjoint.forall hx hy hne hp hp'

theorem writeExtents_kept (hdata : ∀ x ∈ xs, p ∉ x.streamBytes)
    (hread : ∀ x ∈ attempted xs, x.Spans p → alignedOffset p < alignedEnd streamSize)
    (hb : s.file.get? p = some b) :
    (writeExtents streamSize memory xs fresh s).1.file.get? p = some b := by
  induction xs generalizing fresh s with
  | nil => exact hb
  | cons x xs ih =>
    have hx : (directWrite streamSize s.file x (fresh 0) memory).get? p = some b :=
      directWrite_kept (hdata x mem_cons_self) (hread x mem_cons_self) hb
    rw [writeExtents]
    split
    · exact hx
    · next hpos =>
      refine ih (fun y hy => hdata y (mem_cons_of_mem _ hy)) (fun y hy => ?_) hx
      apply hread y
      rw [attempted, if_neg hpos]
      exact mem_cons_of_mem _ hy

theorem writeExtents_data
    (hdisjoint : xs.Pairwise fun x y => List.Disjoint x.streamBytes y.streamBytes)
    (hapart : (attempted xs).Pairwise fun earlier later =>
      ∀ p ∈ earlier.streamBytes, later.Spans p → alignedOffset p < alignedEnd streamSize)
    (hx : x ∈ attempted xs) (hp : p ∈ x.streamBytes) :
    (writeExtents streamSize memory xs fresh s).1.file.get? p =
      some (memory (x.buffer + (p - x.offset))) := by
  induction xs generalizing fresh s with
  | nil => exact absurd hx not_mem_nil
  | cons y ys ih =>
    obtain ⟨hfirst, hrest⟩ := pairwise_cons.mp hdisjoint
    obtain ⟨hfirst', hrest'⟩ := pairwise_cons.mp hapart
    rw [writeExtents]
    rcases mem_cons.mp hx with rfl | hx
    · split
      · exact directWrite_data hp
      · next hpos =>
        rw [if_neg hpos] at hfirst'
        refine writeExtents_kept (fun z hz hmem => hfirst z hz hp hmem) (fun z hz => ?_)
          (directWrite_data hp)
        exact hfirst' z hz p hp
    · split
      · next hneg =>
        rw [if_pos hneg] at hx
        exact absurd hx not_mem_nil
      · next hpos =>
        rw [if_neg hpos] at hx hrest'
        exact ih hrest hrest' hx

theorem writeExtents_erased (hdata : ∀ x ∈ xs, p ∉ x.streamBytes)
    (hzero : alignedEnd streamSize ≤ alignedOffset p)
    (h : s.file.get? p = some 0 ∨ ∃ x ∈ attempted xs, x.Spans p) :
    (writeExtents streamSize memory xs fresh s).1.file.get? p = some 0 := by
  induction xs generalizing fresh s with
  | nil =>
    rcases h with h | ⟨x, hx, -⟩
    · exact h
    · exact absurd hx not_mem_nil
  | cons x xs ih =>
    have hnot := hdata x mem_cons_self
    have hx : s.file.get? p = some 0 ∨ x.Spans p →
        (directWrite streamSize s.file x (fresh 0) memory).get? p = some 0 := by
      intro hor
      by_cases hspans : x.Spans p
      · exact directWrite_erased hnot hspans hzero
      · exact directWrite_kept hnot (fun hs => absurd hs hspans)
          (hor.resolve_right hspans)
    rw [writeExtents]
    split
    · next hneg =>
      apply hx
      rcases h with h | ⟨y, hy, hspans⟩
      · exact .inl h
      · rw [attempted, if_pos hneg, mem_singleton] at hy
        exact .inr (hy ▸ hspans)
    · next hpos =>
      refine ih (fun y hy => hdata y (mem_cons_of_mem _ hy)) ?_
      rcases h with h | ⟨y, hy, hspans⟩
      · exact .inl (hx (.inl h))
      · rw [attempted, if_neg hpos] at hy
        rcases mem_cons.mp hy with rfl | hy
        · exact .inl (hx (.inr hspans))
        · exact .inr ⟨y, hy, hspans⟩

theorem writeExtents_old (hdata : ∀ x ∈ attempted xs, p ∉ x.streamBytes)
    (hf : s.file.get? p ≠ some b) (hfresh : ∀ k i, fresh k i ≠ b) (hb : b ≠ 0) :
    (writeExtents streamSize memory xs fresh s).1.file.get? p ≠ some b := by
  induction xs generalizing fresh s with
  | nil => exact hf
  | cons x xs ih =>
    have hx : (directWrite streamSize s.file x (fresh 0) memory).get? p ≠ some b :=
      directWrite_old (hdata x mem_cons_self) hf (hfresh 0) hb
    rw [writeExtents]
    split
    · exact hx
    · next hpos =>
      refine ih (fun y hy => ?_) hx fun k => hfresh (k + 1)
      apply hdata y
      rw [attempted, if_neg hpos]
      exact mem_cons_of_mem _ hy

theorem unshared_of_ones
    (hdisjoint : xs.Pairwise fun x y => List.Disjoint x.streamBytes y.streamBytes)
    (hone : ∀ x ∈ xs, ∀ p ∈ x.streamBytes,
      (writeExtents streamSize (fun _ => 1) xs (fun _ _ => 0)
        ⟨⟨0, fun _ => 0⟩, 0, -1⟩).1.file.get? p = some 1) :
    Unshared streamSize xs := by
  refine ⟨fun x hx hsize => ?_, ?_⟩
  · by_contra hnot
    have hp : x.offset ∈ x.streamBytes := by
      rw [mem_streamBytes]
      omega
    refine writeExtents_old (fun y hy hmem => ?_) ?_ (fun _ _ => by decide) (by decide)
      (hone x hx _ hp)
    · exact hnot (extent_unique hdisjoint (attempted_subset hy) hx hmem hp ▸ hy)
    · exact fun heq => by cases heq
  · revert hone
    generalize (⟨⟨0, fun _ => 0⟩, 0, -1⟩ : WriteLoop) = s
    generalize (fun _ _ => 0 : Nat → Buffer) = fresh
    intro hone
    induction xs generalizing s fresh with
    | nil => exact .nil
    | cons x xs ih =>
      obtain ⟨hfirst, hrest⟩ := pairwise_cons.mp hdisjoint
      rw [attempted]
      split
      · exact pairwise_singleton _ _
      · next hpos =>
        simp only [writeExtents, if_neg hpos] at hone
        refine .cons (fun y hy p hp hspans => ?_)
          (ih hrest _ _ fun z hz => hone z (mem_cons_of_mem _ hz))
        by_contra hzero
        have hlast := hone x mem_cons_self p hp
        rw [writeExtents_erased (fun z hz hmem => hfirst z hz hp hmem) (by omega)
          (.inr ⟨y, hy, hspans⟩)] at hlast
        cases hlast

end

/-! ## When neighbours are preserved -/

namespace ListWrite

variable (w : ListWrite)

def written : List (Nat × Nat) := (regionBytes w.stream).zip (regionBytes w.mem)

def extents : List StreamExtent := pieces w.mem w.stream

/-- Whatever the file, the memory and the new buffers hold, each stream byte holds its memory byte
after the operation, and every other byte below the recorded size is as before. -/
def PreservesNeighbours (bSize : Nat) : Prop :=
  ∀ (memory : Buffer) (fresh : Nat → Buffer) (f : ByteFile), ∃ r,
    Returns (directWriteOpSvc w memory fresh ⟨f, bSize⟩) r ∧
    (∀ pa ∈ w.written, r.datafile.file.get? pa.1 = some (memory pa.2)) ∧
    ∀ p b, p < bSize → p ∉ regionBytes w.stream → f.get? p = some b →
      r.datafile.file.get? p = some b

variable {w}

theorem mem_extents : p ∈ regionBytes w.stream ↔ ∃ x ∈ w.extents, p ∈ x.streamBytes := by
  rw [← (pieces_bytes w.total).1, mem_flatMap]
  rfl

theorem extents_disjoint :
    w.extents.Pairwise fun x y => List.Disjoint x.streamBytes y.streamBytes := by
  have hnodup : (regionBytes w.stream).Nodup := by
    rw [regionBytes, nodup_flatMap]
    exact ⟨fun r _ => nodup_range', w.disjoint⟩
  rw [← (pieces_bytes w.total).1, nodup_flatMap] at hnodup
  exact hnodup.2

theorem zip_extent (x : StreamExtent) :
    x.streamBytes.zip x.memBytes =
      (List.range x.size).map fun i => (x.offset + i, x.buffer + i) := by
  rw [streamBytes, memBytes, range'_eq_map_range,
    range'_eq_map_range, zip_map']

variable {pa : Nat × Nat}

theorem mem_zip_extents {xs : List StreamExtent} :
    pa ∈ (xs.flatMap streamBytes).zip (xs.flatMap memBytes) ↔
      ∃ x ∈ xs, ∃ i < x.size, pa = (x.offset + i, x.buffer + i) := by
  induction xs with
  | nil => simp
  | cons x xs ih =>
    have hlen : x.streamBytes.length = x.memBytes.length := by
      rw [streamBytes, memBytes, length_range', length_range']
    rw [flatMap_cons, flatMap_cons, zip_append hlen, mem_append, ih,
      zip_extent, exists_mem_cons_iff]
    simp only [mem_map, mem_range, eq_comm]

theorem mem_written : pa ∈ w.written ↔
    ∃ x ∈ w.extents, ∃ p ∈ x.streamBytes, pa = (p, x.buffer + (p - x.offset)) := by
  rw [written, ← (pieces_bytes w.total).1, ← (pieces_bytes w.total).2, mem_zip_extents]
  constructor
  · rintro ⟨x, hx, i, hi, rfl⟩
    refine ⟨x, hx, x.offset + i, ?_, ?_⟩
    · rw [mem_streamBytes]
      omega
    · rw [Nat.add_sub_cancel_left]
  · rintro ⟨x, hx, p, hp, rfl⟩
    rw [mem_streamBytes] at hp
    refine ⟨x, hx, p - x.offset, by omega, ?_⟩
    rw [Nat.add_sub_cancel' hp.1]

theorem svc_returns (memory : Buffer) (fresh : Nat → Buffer) (d : Datafile) :
    ∃ r, Returns (directWriteOpSvc w memory fresh d) r ∧ r.datafile.file =
      (writeExtents d.bSize memory w.extents fresh ⟨d.file, 0, -1⟩).1.file := by
  have hextents := getExtents_returns w.mem_ne w.stream_ne
  refine ⟨writeAndResize memory fresh d w.extents, hextents.map fun n hn => ?_, ?_⟩
  · rw [directWriteOpSvc, hn]
    rfl
  · unfold writeAndResize
    dsimp only
    split
    · rfl
    · split <;> rfl

variable {bSize : Nat}

theorem PreservesNeighbours.data (h : w.PreservesNeighbours bSize) (memory : Buffer)
    (fresh : Nat → Buffer) (f : ByteFile) (hx : x ∈ w.extents) (hp : p ∈ x.streamBytes) :
    (writeExtents bSize memory w.extents fresh ⟨f, 0, -1⟩).1.file.get? p =
      some (memory (x.buffer + (p - x.offset))) := by
  obtain ⟨r, hr, hdata, -⟩ := h memory fresh f
  obtain ⟨r', hr', hfile⟩ := svc_returns memory fresh ⟨f, bSize⟩
  rw [← hfile, hr'.unique hr]
  exact hdata _ (mem_written.mpr ⟨x, hx, p, hp, rfl⟩)

theorem PreservesNeighbours.unshared (h : w.PreservesNeighbours bSize) :
    Unshared bSize w.extents :=
  unshared_of_ones extents_disjoint fun _ hx _ hp => h.data _ _ _ hx hp

end ListWrite

/-- **When a direct write preserves its neighbours.**  A list write to a datafile of recorded size
`bSize` writes its data and nothing else below that size, for every content, exactly if no
extent has data in a block behind the last one of the bytestream that a later extent writes
only a part of, and none with data comes after one whose size is negative as an `int`. -/
theorem preserves_neighbours_iff (w : ListWrite) (bSize : Nat) :
    w.PreservesNeighbours bSize ↔ Unshared bSize (pieces w.mem w.stream) := by
  constructor
  · exact ListWrite.PreservesNeighbours.unshared
  · intro h memory fresh f
    obtain ⟨r, hr, hfile⟩ := ListWrite.svc_returns memory fresh ⟨f, bSize⟩
    refine ⟨r, hr, fun pa hpa => ?_, fun p b hp hnot hb => ?_⟩
    · obtain ⟨x, hx, p, hmem, rfl⟩ := ListWrite.mem_written.mp hpa
      have hsize : x.size ≠ 0 := by
        rw [mem_streamBytes] at hmem
        omega
      rw [hfile]
      exact writeExtents_data ListWrite.extents_disjoint h.apart (h.whole x hx hsize) hmem
    · rw [hfile]
      refine writeExtents_kept (fun x hx hmem => ?_) (fun x _ _ => ?_) hb
      · exact hnot (ListWrite.mem_extents.mpr ⟨x, hx, hmem⟩)
      · -- the block of a byte below the recorded size begins before the end of its last block
        exact Nat.lt_of_le_of_lt (alignedOffset_le p) (Nat.lt_of_lt_of_le hp (le_alignedEnd bSize))

/-- Ten bytes from each of two buffers, to the beginning of a new datafile. -/
def twoBuffers : ListWrite where
  mem := [⟨0, 10⟩, ⟨100, 10⟩]
  stream := [⟨0, 20⟩]
  mem_ne := cons_ne_nil _ _
  stream_ne := cons_ne_nil _ _
  total := rfl
  disjoint := pairwise_singleton _ _

/-- The second half of the write erases the first. -/
theorem two_buffers_erased : ¬ twoBuffers.PreservesNeighbours 0 := by
  intro h
  have hextents : twoBuffers.extents = [⟨0, 10, 0⟩, ⟨100, 10, 10⟩] := by
    simp [ListWrite.extents, twoBuffers, pieces]
  have hapart := h.unshared.apart
  rw [hextents] at hapart
  exact absurd ((pairwise_cons.mp hapart).1 _ mem_cons_self 0 (by decide) (by decide))
    (by decide)

end Pvfs.Trove
