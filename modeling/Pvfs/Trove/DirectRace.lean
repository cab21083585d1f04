import Pvfs.Lib.Steps
import Pvfs.Trove.DirectWrite

/-! # Two direct writes at the same time

Direct I/O operations are run by the threads of one worker pool, so two list writes to the same
datafile may be under way at once. `direct_locked_write` takes a POSIX record lock on the blocks
of an extent; such a lock belongs to the process, and a process never waits for its own locks, so
between two threads of the server it excludes nothing: the step that takes it is always enabled
and changes nothing. The update of the recorded size is under `dbpf_update_size_lock` and is one
step.

A worker goes through the control points `WritePc`; its step is `advance`, and a run is any
list of steps of the two workers. What one worker may do to the other is said once, by
`Advanced.frame`: it leaves alone every stored byte outside of the blocks of its extents. -/

namespace Pvfs.Trove

open Pvfs.Lib Pvfs.Description List ListWrite StreamExtent

/-- Where a worker is in `dbpf_bstream_direct_write_op_svc`; `size` is the recorded size that it
has looked up. -/
inductive WritePc where
  /-- before the size is looked up -/
  | start
  /-- at the head of the loop over the extents -/
  | next (size : Nat) (eor : Int) (rest : List StreamExtent)
  /-- the lock has been granted -/
  | locked (size : Nat) (eor : Int) (x : StreamExtent) (rest : List StreamExtent)
  /-- the first block is in the aligned buffer -/
  | fronted (size : Nat) (eor : Int) (x : StreamExtent) (rest : List StreamExtent) (buf : Buffer)
  /-- the last block is in the aligned buffer, too -/
  | backed (size : Nat) (eor : Int) (x : StreamExtent) (rest : List StreamExtent) (buf : Buffer)
  /-- the blocks have been written -/
  | stored (size : Nat) (eor : Int) (x : StreamExtent) (rest : List StreamExtent)
  /-- the operation is over, with or without success -/
  | ended (ok : Bool)

/-- One step of a worker whose operation has the extents `xs`. -/
def advance (memory : Buffer) (xs : List StreamExtent) (fresh : Buffer) (d : Datafile) :
    WritePc → Option (Datafile × WritePc)
  | .start => some (d, .next d.bSize (-1) xs)
  | .next size eor [] =>
    -- the size is looked up again before it is set
    some (if size < eor then ⟨d.file, if d.bSize < eor then eor.toNat else d.bSize⟩ else d,
      .ended true)
  | .next size eor (x :: rest) => some (d, .locked size eor x rest)
  | .locked size eor x rest =>
    if x.aligned then
      some (⟨d.file.pwrite (fun i => memory (x.buffer + i)) x.size x.offset, d.bSize⟩,
        .stored size eor x rest)
    else some (d, .fronted size eor x rest (frontEdge size d.file x fresh))
  | .fronted size eor x rest buf => some (d, .backed size eor x rest (backEdge size d.file x buf))
  | .backed size eor x rest buf =>
    some (⟨writeAligned d.file x buf memory, d.bSize⟩, .stored size eor x rest)
  | .stored size eor x rest =>
    some (d, if toInt32 x.size < 0 then .ended false
      else .next size (if eor < (x.offset + x.size : Nat) then (x.offset + x.size : Nat) else eor)
        rest)
  | .ended _ => none

structure RaceState where
  datafile : Datafile
  pc : Bool → WritePc

def RaceState.moved (s : RaceState) (who : Bool) (r : Datafile × WritePc) : RaceState :=
  ⟨r.1, fun who' => if who' = who then r.2 else s.pc who'⟩

/-- A step of the worker `e.1`, which gets the buffer `e.2` if it asks for one. -/
def raceStep (memory : Buffer) (w : Bool → ListWrite) (s : RaceState) (e : Bool × Buffer) :
    Option RaceState :=
  (advance memory (w e.1).extents e.2 s.datafile (s.pc e.1)).map (s.moved e.1)

def RaceState.start (d : Datafile) : RaceState := ⟨d, fun _ => .start⟩

def RaceState.Over (s : RaceState) : Prop := ∀ who, ∃ ok, s.pc who = .ended ok

/-- The bytes of both writers are in the file. -/
def RaceState.Survived (memory : Buffer) (w : Bool → ListWrite) (s : RaceState) : Prop :=
  ∀ who, (∀ pa ∈ (w who).written, s.datafile.file.get? pa.1 = some (memory pa.2)) ∧
    ∀ p ∈ regionBytes (w who).stream, p < s.datafile.bSize

def completes (xs : List StreamExtent) : Bool := xs.all fun x => decide (0 ≤ toInt32 x.size)

/-- The layouts that keep two operations from each other, for a datafile of recorded size `bSize`:
neither erases data of its own, none of the blocks that one of them writes holds data of the
other, and if one fails because the size of an extent is negative as an `int`, its data is
below the size that is recorded without it. -/
structure Compatible (bSize : Nat) (w : Bool → ListWrite) : Prop where
  unshared : ∀ who, Unshared bSize (w who).extents
  apart : ∀ who, ∀ p ∈ regionBytes (w who).stream, ∀ y ∈ attempted (w (!who)).extents, ¬ y.Spans p
  recorded : ∀ who, completes (w who).extents = false → ∀ p ∈ regionBytes (w who).stream,
    p < bSize ∨ completes (w (!who)).extents = true ∧
      ∃ y ∈ (w (!who)).extents, p < y.offset + y.size

/-! ## What a worker has done -/

def Stored (memory : Buffer) (file : ByteFile) (xs : List StreamExtent) : Prop :=
  ∀ x ∈ xs, ∀ p ∈ x.streamBytes, file.get? p = some (memory (x.buffer + (p - x.offset)))

/-- A worker in the middle of its loop: `done` is behind it and `todo` before it. -/
structure Upto (memory : Buffer) (bSize : Nat) (xs : List StreamExtent) (d : Datafile) (size : Nat)
    (eor : Int) (done todo : List StreamExtent) : Prop where
  split : xs = done ++ todo
  nonneg : ∀ x ∈ done, ¬ toInt32 x.size < 0
  sampled : bSize ≤ size
  recorded : size ≤ d.bSize
  stored : Stored memory d.file done
  reached : ∀ x ∈ done, ((x.offset + x.size : Nat) : Int) ≤ eor

/-- What holds of a worker at each control point, from a datafile of recorded size `bSize` on. -/
def WritePc.Ok (memory : Buffer) (bSize : Nat) (xs : List StreamExtent) (d : Datafile) :
    WritePc → Prop
  | .start => True
  | .next size eor rest => ∃ done, Upto memory bSize xs d size eor done rest
  | .locked size eor x rest => ∃ done, Upto memory bSize xs d size eor done (x :: rest)
  | .fronted size eor x rest buf => ∃ done, Upto memory bSize xs d size eor done (x :: rest) ∧
      ∃ f fresh, buf = frontEdge size f x fresh ∧ Stored memory f done
  | .backed size eor x rest buf => ∃ done, Upto memory bSize xs d size eor done (x :: rest) ∧
      ∀ y ∈ done, ∀ p ∈ y.streamBytes, x.Spans p →
        buf (p - alignedOffset x.offset) = memory (y.buffer + (p - y.offset))
  | .stored size eor x rest => ∃ done, Upto memory bSize xs d size eor done (x :: rest) ∧
      Stored memory d.file [x]
  | .ended ok => Stored memory d.file (attempted xs) ∧ ok = completes xs ∧
      (ok = true → ∀ x ∈ xs, x.offset + x.size ≤ d.bSize)

variable {p : Nat} {y : StreamExtent}

section
variable {memory : Buffer} {bSize size : Nat} {eor : Int} {xs done todo : List StreamExtent}
  {x : StreamExtent} {d d' : Datafile} {pc pc' : WritePc}

theorem attempted_append (h : ∀ x ∈ done, ¬ toInt32 x.size < 0) (todo : List StreamExtent) :
    attempted (done ++ todo) = done ++ attempted todo := by
  induction done with
  | nil => rfl
  | cons x done ih =>
    rw [cons_append, attempted, if_neg (h x mem_cons_self),
      ih fun y hy => h y (mem_cons_of_mem _ hy)]
    rfl

theorem mem_attempted_cons (hneg : ¬ toInt32 x.size < 0) (hy : y ∈ attempted xs) :
    y ∈ attempted (x :: xs) := by
  rw [attempted, if_neg hneg]
  exact mem_cons_of_mem _ hy

theorem completes_iff : completes xs = true ↔ ∀ x ∈ xs, ¬ toInt32 x.size < 0 := by
  simp [completes]

theorem completes_of_neg (hx : x ∈ xs) (hneg : toInt32 x.size < 0) : completes xs = false := by
  rw [← Bool.not_eq_true, completes_iff]
  exact fun hall => hall x hx hneg

theorem Stored.mono {file file' : ByteFile} (h : Stored memory file done)
    (hkept : ∀ x ∈ done, ∀ p ∈ x.streamBytes, ∀ b, file.get? p = some b → file'.get? p = some b) :
    Stored memory file' done :=
  fun x hx p hp => hkept x hx p hp _ (h x hx p hp)

/-- What else happens to the datafile does not matter to a worker, as long as the data that it has
written stays and the recorded size does not become smaller. -/
theorem Upto.mono (h : Upto memory bSize xs d size eor done todo)
    (hkept : ∀ x ∈ attempted xs, ∀ p ∈ x.streamBytes, ∀ b, d.file.get? p = some b →
      d'.file.get? p = some b)
    (hle : d.bSize ≤ d'.bSize) : Upto memory bSize xs d' size eor done todo :=
  { h with
    recorded := Nat.le_trans h.recorded hle
    stored := h.stored.mono fun x hx => hkept x (by
      rw [h.split, attempted_append h.nonneg]
      exact mem_append_left _ hx) }

theorem Upto.attempted_eq (h : Upto memory bSize xs d size eor done (x :: todo)) :
    attempted xs = done ++ x :: if toInt32 x.size < 0 then [] else attempted todo := by
  rw [h.split, attempted_append h.nonneg, attempted]

theorem Upto.current (h : Upto memory bSize xs d size eor done (x :: todo)) :
    x ∈ attempted xs := by
  rw [h.attempted_eq]
  exact mem_append_right _ mem_cons_self

theorem WritePc.Ok.mono (h : pc.Ok memory bSize xs d)
    (hkept : ∀ x ∈ attempted xs, ∀ p ∈ x.streamBytes, ∀ b, d.file.get? p = some b →
      d'.file.get? p = some b)
    (hle : d.bSize ≤ d'.bSize) : pc.Ok memory bSize xs d' := by
  cases pc with
  | start => trivial
  | next | locked =>
    obtain ⟨done, hupto⟩ := h
    exact ⟨done, hupto.mono hkept hle⟩
  | fronted | backed =>
    obtain ⟨done, hupto, hbuf⟩ := h
    exact ⟨done, hupto.mono hkept hle, hbuf⟩
  | stored size eor x rest =>
    obtain ⟨done, hupto, hx⟩ := h
    refine ⟨done, hupto.mono hkept hle, hx.mono fun y hy => hkept y ?_⟩
    obtain rfl := mem_singleton.mp hy
    exact hupto.current
  | ended ok =>
    obtain ⟨hstored, hok, hsize⟩ := h
    exact ⟨hstored.mono hkept, hok, fun htrue x hx => Nat.le_trans (hsize htrue x hx) hle⟩

theorem alignedEnd_mono {o o' : Nat} (h : o ≤ o') : alignedEnd o ≤ alignedEnd o' := by
  unfold alignedEnd blockSize
  omega

theorem Upto.read (h : Upto memory bSize xs d size eor done (x :: todo))
    (hunshared : Unshared bSize xs) (hy : y ∈ done) (hp : p ∈ y.streamBytes) (hspans : x.Spans p) :
    alignedOffset p < alignedEnd size := by
  have hapart := hunshared.apart
  rw [h.attempted_eq] at hapart
  have hlt := (pairwise_append.mp hapart).2.2 y hy x mem_cons_self p hp hspans
  exact Nat.lt_of_lt_of_le hlt (alignedEnd_mono h.sampled)

theorem Upto.fresh (h : Upto memory bSize xs d size eor done (x :: todo))
    (hdisjoint : xs.Pairwise fun x y => List.Disjoint x.streamBytes y.streamBytes) (hy : y ∈ done)
    (hp : p ∈ y.streamBytes) : p ∉ x.streamBytes := by
  rw [h.split] at hdisjoint
  exact fun hp' => (pairwise_append.mp hdisjoint).2.2 y hy x mem_cons_self hp hp'

/-- What a step of a worker leaves: its own invariant, a recorded size that is not smaller, and
every stored byte outside of its blocks. -/
structure Advanced (memory : Buffer) (bSize : Nat) (xs : List StreamExtent) (d d' : Datafile)
    (pc' : WritePc) : Prop where
  ok : pc'.Ok memory bSize xs d'
  size_le : d.bSize ≤ d'.bSize
  frame : ∀ p, (∀ y ∈ attempted xs, ¬ y.Spans p) → ∀ b, d.file.get? p = some b →
    d'.file.get? p = some b

theorem Advanced.still (h : pc'.Ok memory bSize xs d) : Advanced memory bSize xs d d pc' :=
  ⟨h, Nat.le_refl _, fun _ _ _ hb => hb⟩

theorem Upto.finish (h : Upto memory bSize xs d size eor done []) {bSize' : Nat}
    (hle : d.bSize ≤ bSize') (heor : size < eor → eor ≤ bSize') :
    Advanced memory bSize xs d ⟨d.file, bSize'⟩ (.ended true) := by
  have hall : xs = done := by rw [h.split, append_nil]
  have hattempted : attempted xs = done := by
    rw [h.split, attempted_append h.nonneg]
    exact append_nil done
  refine ⟨⟨hattempted ▸ h.stored, (completes_iff.mpr (hall ▸ h.nonneg)).symm, fun _ x hx => ?_⟩, hle,
    fun _ _ _ hb => hb⟩
  have hreached := h.reached x (hall ▸ hx)
  have hrecorded := h.recorded
  show x.offset + x.size ≤ bSize'
  by_cases hlt : (size : Int) < eor
  · omega
  · omega

theorem Upto.write (h : Upto memory bSize xs d size eor done (x :: todo)) {file : ByteFile}
    (hdata : ∀ p ∈ x.streamBytes, file.get? p = some (memory (x.buffer + (p - x.offset))))
    (hdone : ∀ y ∈ done, ∀ p ∈ y.streamBytes, ∀ b, d.file.get? p = some b →
      b = memory (y.buffer + (p - y.offset)) → file.get? p = some b)
    (hkept : ∀ p, ¬ x.Spans p → ∀ b, d.file.get? p = some b → file.get? p = some b) :
    Advanced memory bSize xs d ⟨file, d.bSize⟩ (.stored size eor x todo) := by
  refine ⟨⟨done, { h with stored := fun y hy p hp => ?_ }, fun y hy => ?_⟩, Nat.le_refl _,
    fun p hout b hb => ?_⟩
  · exact hdone y hy p hp _ (h.stored y hy p hp) rfl
  · obtain rfl := mem_singleton.mp hy
    exact hdata
  · exact hkept p (hout x h.current) b hb

theorem advance_ok (hdisjoint : xs.Pairwise fun x y => List.Disjoint x.streamBytes y.streamBytes)
    (hunshared : Unshared bSize xs) (hle : bSize ≤ d.bSize) {fresh : Buffer}
    (h : pc.Ok memory bSize xs d) (hstep : advance memory xs fresh d pc = some (d', pc')) :
    Advanced memory bSize xs d d' pc' := by
  cases pc with
  | start =>
    cases hstep
    exact .still ⟨[], rfl, by simp, hle, Nat.le_refl _, by simp [Stored], by simp⟩
  | next size eor rest =>
    obtain ⟨done, hupto⟩ := h
    cases rest with
    | cons x rest =>
      cases hstep
      exact .still ⟨done, hupto⟩
    | nil =>
      cases hstep
      split
      · next hlt =>
        refine hupto.finish ?_ fun _ => ?_
        · split <;> omega
        · split <;> omega
      · next hlt => exact hupto.finish (Nat.le_refl _) fun hlt' => absurd hlt' hlt
  | locked size eor x rest =>
    obtain ⟨done, hupto⟩ := h
    rw [advance] at hstep
    split at hstep
    · cases hstep
      have hkept : ∀ p, p ∉ x.streamBytes → ∀ b, d.file.get? p = some b →
          (d.file.pwrite (fun i => memory (x.buffer + i)) x.size x.offset).get? p = some b := by
        intro p hp b hb
        rw [mem_streamBytes] at hp
        exact ByteFile.pwrite_kept (by omega) hb
      refine hupto.write (fun p hp => ?_) (fun y hy p hp b hb _ => ?_) fun p hp => ?_
      · rw [mem_streamBytes] at hp
        exact ByteFile.pwrite_inside hp.1 hp.2
      · exact hkept p (hupto.fresh hdisjoint hy hp) b hb
      · exact hkept p fun hmem => hp (spans_of_mem hmem)
    · cases hstep
      exact .still ⟨done, hupto, d.file, fresh, rfl, hupto.stored⟩
  | fronted size eor x rest buf =>
    obtain ⟨done, hupto, f, fresh, rfl, hf⟩ := h
    cases hstep
    refine .still ⟨done, hupto, fun y hy p hp hspans => ?_⟩
    exact edges_kept hspans (hupto.fresh hdisjoint hy hp) (hupto.read hunshared hy hp hspans)
      (hf y hy p hp) (hupto.stored y hy p hp)
  | backed size eor x rest buf =>
    obtain ⟨done, hupto, hbuf⟩ := h
    cases hstep
    refine hupto.write (fun p hp => writeAligned_data hp) (fun y hy p hp b hb heq => ?_)
      fun p hspans b hb => writeAligned_kept hspans hb
    by_cases hspans : x.Spans p
    · rw [writeAligned_edge hspans (hupto.fresh hdisjoint hy hp), hbuf y hy p hp hspans, heq]
    · exact writeAligned_kept hspans hb
  | stored size eor x rest =>
    obtain ⟨done, hupto, hx⟩ := h
    have hstored : Stored memory d.file (done ++ [x]) := by
      intro y hy
      rcases mem_append.mp hy with hy | hy
      · exact hupto.stored y hy
      · exact hx y hy
    by_cases hneg : toInt32 x.size < 0
    · rw [advance, if_pos hneg] at hstep
      cases hstep
      refine .still ⟨?_, ?_, fun htrue => by cases htrue⟩
      · rw [hupto.attempted_eq, if_pos hneg]
        exact hstored
      · refine (completes_of_neg ?_ hneg).symm
        rw [hupto.split]
        exact mem_append_right _ mem_cons_self
    · rw [advance, if_neg hneg] at hstep
      cases hstep
      refine .still ⟨done ++ [x], ?_, ?_, hupto.sampled, hupto.recorded, hstored, ?_⟩
      · rw [hupto.split, append_assoc]
        rfl
      · intro y hy
        rcases mem_append.mp hy with hy | hy
        · exact hupto.nonneg y hy
        · exact mem_singleton.mp hy ▸ hneg
      · intro y hy
        rcases mem_append.mp hy with hy | hy
        · have hreached := hupto.reached y hy
          split <;> omega
        · obtain rfl := mem_singleton.mp hy
          split <;> omega
  | ended ok => cases hstep

end

/-! ## Any interleaving -/

section
variable {memory : Buffer} {bSize : Nat} {w : Bool → ListWrite} {s s' : RaceState}

@[simp] theorem RaceState.moved_self (who : Bool) (r : Datafile × WritePc) :
    (s.moved who r).pc who = r.2 := if_pos rfl

theorem RaceState.moved_ne {who who' : Bool} (h : who' ≠ who) (r : Datafile × WritePc) :
    (s.moved who r).pc who' = s.pc who' := if_neg h

/-- What has been written so far is there, and within the size. -/
structure RaceOk (memory : Buffer) (bSize : Nat) (w : Bool → ListWrite) (s : RaceState) : Prop where
  size_le : bSize ≤ s.datafile.bSize
  worker : ∀ who, (s.pc who).Ok memory bSize (w who).extents s.datafile

theorem raceOk_start (f : ByteFile) : RaceOk memory bSize w (.start ⟨f, bSize⟩) :=
  ⟨Nat.le_refl _, fun _ => trivial⟩

theorem raceStep_ok (hc : Compatible bSize w) (s : RaceState) (e : Bool × Buffer) (s' : RaceState)
    (h : RaceOk memory bSize w s) (hstep : raceStep memory w s e = some s') :
    RaceOk memory bSize w s' := by
  obtain ⟨⟨d', pc'⟩, hadvance, rfl⟩ := Option.map_eq_some_iff.mp hstep
  have hadvanced := advance_ok extents_disjoint (hc.unshared e.1) h.size_le
    (h.worker e.1) hadvance
  refine ⟨Nat.le_trans h.size_le hadvanced.size_le, (Bool.forall_bool' e.1).mpr ⟨?_, ?_⟩⟩
  · rw [RaceState.moved_self]
    exact hadvanced.ok
  · -- the other worker keeps what it has
    rw [RaceState.moved_ne (Bool.not_ne_self e.1)]
    refine (h.worker (!e.1)).mono (fun x hx p hp b hb => hadvanced.frame p (fun y hy => ?_) b hb)
      hadvanced.size_le
    refine hc.apart (!e.1) p (mem_extents.mpr ⟨x, attempted_subset hx, hp⟩) y ?_
    rwa [Bool.not_not]

theorem RaceOk.survived (hc : Compatible bSize w) (h : RaceOk memory bSize w s)
    (hover : s.Over) : s.Survived memory w := by
  have hend : ∀ who, Stored memory s.datafile.file (attempted (w who).extents) ∧
      (completes (w who).extents = true →
        ∀ x ∈ (w who).extents, x.offset + x.size ≤ s.datafile.bSize) := by
    intro who
    obtain ⟨ok, hok⟩ := hover who
    have hworker := h.worker who
    rw [hok] at hworker
    obtain ⟨hstored, rfl, hsize⟩ := hworker
    exact ⟨hstored, hsize⟩
  intro who
  obtain ⟨hstored, hsize⟩ := hend who
  constructor
  · intro pa hpa
    obtain ⟨x, hx, p, hp, rfl⟩ := mem_written.mp hpa
    have hne : x.size ≠ 0 := by
      rw [mem_streamBytes] at hp
      omega
    exact hstored x ((hc.unshared who).whole x hx hne) p hp
  · intro p hp
    cases hcompletes : completes (w who).extents with
    | true =>
      obtain ⟨x, hx, hpx⟩ := mem_extents.mp hp
      have hle := hsize hcompletes x hx
      rw [mem_streamBytes] at hpx
      omega
    | false =>
      have hstart := h.size_le
      rcases hc.recorded who hcompletes p hp with hlt | ⟨hother, y, hy, hlt⟩
      · omega
      · have hle := (hend (!who)).2 hother y hy
        omega

end

/-! ## Schedules that lose data -/

section
variable {memory : Buffer} {xs rest : List StreamExtent} {x : StreamExtent} {d d' : Datafile}
  {pc pc' : WritePc} {size : Nat} {eor : Int} {b : UInt8}

def alone (memory : Buffer) (xs : List StreamExtent) : Nat → Datafile × WritePc →
    Option (Datafile × WritePc)
  | 0, s => some s
  | n + 1, s => (advance memory xs (fun _ => 0) s.1 s.2).bind (alone memory xs n)

theorem alone_add {m n : Nat} {s s' : Datafile × WritePc} (h : alone memory xs m s = some s') :
    alone memory xs (m + n) s = alone memory xs n s' := by
  induction m generalizing s with
  | zero =>
    cases h
    rw [Nat.zero_add]
  | succ m ih =>
    obtain ⟨s1, hstep, hrest⟩ := Option.bind_eq_some_iff.mp h
    rw [Nat.succ_add, alone, hstep]
    exact ih hrest

theorem exec_alone {w : Bool → ListWrite} (who : Bool) {n : Nat} {s : RaceState}
    {r : Datafile × WritePc}
    (h : alone memory (w who).extents n (s.datafile, s.pc who) = some r) :
    exec (raceStep memory w) s (List.replicate n (who, fun _ => 0)) = some (s.moved who r) := by
  induction n generalizing s with
  | zero =>
    cases h
    have hpc : (fun who' => if who' = who then s.pc who else s.pc who') = s.pc := by
      funext who'
      split
      · next heq => rw [heq]
      · rfl
    rw [RaceState.moved, hpc]
    rfl
  | succ n ih =>
    obtain ⟨r1, hstep, hrest⟩ := Option.bind_eq_some_iff.mp h
    have hrace : raceStep memory w s (who, fun _ => 0) = some (s.moved who r1) := by
      rw [raceStep, hstep]
      rfl
    have hmoved : (s.moved who r1).moved who r = s.moved who r := by
      rw [RaceState.moved, RaceState.moved]
      congr 1
      funext who'
      split
      · rfl
      · next hne => exact if_neg hne
    rw [replicate_succ, exec, hrace, ← hmoved]
    apply ih
    rw [RaceState.moved_self]
    exact hrest

theorem alone_extent (d : Datafile) (size : Nat) (eor : Int) (x : StreamExtent)
    (rest : List StreamExtent) : ∃ n, alone memory xs n (d, .next size eor (x :: rest)) =
      some (⟨directWrite size d.file x (fun _ => 0) memory, d.bSize⟩, .stored size eor x rest) := by
  by_cases haligned : x.aligned = true
  · refine ⟨2, ?_⟩
    simp [alone, advance, directWrite, haligned]
  · refine ⟨4, ?_⟩
    simp [alone, advance, directWrite, haligned]

theorem alone_finish (d : Datafile) (size : Nat) (eor : Int) (rest : List StreamExtent) :
    ∃ n d', alone memory xs n (d, .next size eor rest) = some (d', .ended (completes rest)) ∧
      (∀ s : WriteLoop, s.file = d.file →
        d'.file = (writeExtents size memory rest (fun _ _ => 0) s).1.file) ∧
      (completes rest = false → d'.bSize = d.bSize) ∧
      ∀ q, q < d'.bSize → q < d.bSize ∨ (q : Int) < eor ∨ ∃ y ∈ rest, q < y.offset + y.size := by
  induction rest generalizing d eor with
  | nil =>
    refine ⟨1, _, rfl, fun s hs => ?_, fun hc => (by cases hc), fun q hq => ?_⟩
    · split <;> exact hs.symm
    · split at hq
      · simp only at hq
        split at hq
        · exact .inr (.inl (by omega))
        · exact .inl hq
      · exact .inl hq
  | cons x rest ih =>
    obtain ⟨m, hm⟩ := @alone_extent memory xs d size eor x rest
    by_cases hneg : toInt32 x.size < 0
    · have hfails : completes (x :: rest) = false := completes_of_neg mem_cons_self hneg
      refine ⟨m + 1, ⟨directWrite size d.file x (fun _ => 0) memory, d.bSize⟩, ?_, fun s hs => ?_,
        fun _ => rfl, fun q hq => .inl hq⟩
      · rw [alone_add hm, alone, advance, if_pos hneg, hfails]
        rfl
      · rw [writeExtents, if_pos hneg, hs]
    · obtain ⟨n, d', hn, hfile, hsize, hbound⟩ :=
        ih ⟨directWrite size d.file x (fun _ => 0) memory, d.bSize⟩
          (if eor < (x.offset + x.size : Nat) then (x.offset + x.size : Nat) else eor)
      have hcompletes : completes (x :: rest) = completes rest := by
        rw [completes, all_cons, decide_eq_true (Int.not_lt.mp hneg)]
        rfl
      refine ⟨m + (1 + n), d', ?_, fun s hs => ?_, fun hc => hsize (hcompletes ▸ hc),
        fun q hq => ?_⟩
      · rw [alone_add hm, Nat.add_comm 1 n, alone, advance, if_neg hneg, hcompletes]
        exact hn
      · rw [writeExtents, if_neg hneg, hs]
        exact hfile _ rfl
      · rcases hbound q hq with hlt | hlt | ⟨y, hy, hlt⟩
        · exact .inl hlt
        · split at hlt
          · exact .inr (.inr ⟨x, mem_cons_self, by omega⟩)
          · exact .inr (.inl hlt)
        · exact .inr (.inr ⟨y, mem_cons_of_mem _ hy, hlt⟩)

theorem alone_reach (memory : Buffer) (xs : List StreamExtent) (size : Nat) (hb : b ≠ 0)
    (d : Datafile) (eor : Int) (hy : y ∈ attempted rest)
    (hdata : ∀ x ∈ attempted rest, p ∉ x.streamBytes) (hp : d.file.get? p ≠ some b) :
    ∃ n d' eor' rest', alone memory xs n (d, .next size eor rest) =
        some (d', .next size eor' (y :: rest')) ∧ d'.file.get? p ≠ some b ∧
      ∀ x ∈ attempted (y :: rest'), p ∉ x.streamBytes := by
  induction rest generalizing d eor with
  | nil => exact absurd hy not_mem_nil
  | cons x rest ih =>
    have hx := hdata x mem_cons_self
    rcases mem_cons.mp hy with rfl | hy
    · exact ⟨0, d, eor, rest, rfl, hp, hdata⟩
    · split at hy
      · exact absurd hy not_mem_nil
      · next hneg =>
        obtain ⟨m, hm⟩ := @alone_extent memory xs d size eor x rest
        have hrest : ∀ z ∈ attempted rest, p ∉ z.streamBytes :=
          fun z hz => hdata z (mem_attempted_cons hneg hz)
        obtain ⟨n, d', eor', rest', hn, hp', hdata'⟩ :=
          ih ⟨directWrite size d.file x (fun _ => 0) memory, d.bSize⟩
            (if eor < (x.offset + x.size : Nat) then (x.offset + x.size : Nat) else eor) hy hrest
            (directWrite_old hx hp (fun _ => hb.symm) hb)
        refine ⟨m + (1 + n), d', eor', rest', ?_, hp', hdata'⟩
        rw [alone_add hm, Nat.add_comm 1 n, alone, advance, if_neg hneg]
        exact hn

theorem alone_run (memory : Buffer) (xs : List StreamExtent) (d : Datafile) :
    ∃ n d', alone memory xs n (d, .start) = some (d', .ended (completes xs)) ∧
      d'.file = (writeExtents d.bSize memory xs (fun _ _ => 0) ⟨d.file, 0, -1⟩).1.file ∧
      (completes xs = false → d'.bSize = d.bSize) ∧
      ∀ q, q < d'.bSize → q < d.bSize ∨ ∃ y ∈ xs, q < y.offset + y.size := by
  obtain ⟨n, d', hn, hfile, hsize, hbound⟩ := @alone_finish memory xs d d.bSize (-1) xs
  refine ⟨n + 1, d', hn, hfile _ rfl, hsize, fun q hq => ?_⟩
  rcases hbound q hq with hlt | hlt | hlt
  · exact .inl hlt
  · omega
  · exact .inr hlt

theorem alone_run_old (hb : b ≠ 0) (hdata : ∀ x ∈ xs, p ∉ x.streamBytes) (hp : d.file.get? p ≠ some b)
    (hfile : d'.file = (writeExtents d.bSize memory xs (fun _ _ => 0) ⟨d.file, 0, -1⟩).1.file) :
    d'.file.get? p ≠ some b := by
  rw [hfile]
  exact writeExtents_old (fun x hx => hdata x (attempted_subset hx)) hp (fun _ _ => hb.symm) hb

variable {w : Bool → ListWrite} {bSize : Nat}

theorem exec_around (who : Bool) {d1 d2 d3 : Datafile} {pc1 : WritePc} {ok2 ok3 : Bool}
    {k m n : Nat} (h1 : alone memory (w (!who)).extents k (d, .start) = some (d1, pc1))
    (h2 : alone memory (w who).extents m (d1, .start) = some (d2, .ended ok2))
    (h3 : alone memory (w (!who)).extents n (d2, pc1) = some (d3, .ended ok3)) :
    ∃ es s, exec (raceStep memory w) (.start d) es = some s ∧ s.Over ∧ s.datafile = d3 := by
  have hfirst := exec_alone (s := .start d) (!who) h1
  generalize hs1 : (RaceState.start d).moved (!who) (d1, pc1) = s1 at hfirst
  have hpc1 : s1.datafile = d1 ∧ s1.pc who = .start ∧ s1.pc (!who) = pc1 := by
    subst hs1
    exact ⟨rfl, RaceState.moved_ne (Bool.self_ne_not who) _, RaceState.moved_self _ _⟩
  have hsecond := exec_alone who (by rw [hpc1.1, hpc1.2.1]; exact h2)
  generalize hs2 : s1.moved who (d2, .ended ok2) = s2 at hsecond
  have hpc2 : s2.datafile = d2 ∧ s2.pc who = .ended ok2 ∧ s2.pc (!who) = pc1 := by
    subst hs2
    refine ⟨rfl, RaceState.moved_self _ _, ?_⟩
    rw [RaceState.moved_ne (Bool.not_ne_self who), hpc1.2.2]
  have hthird := exec_alone (w := w) (!who) (by rw [hpc2.1, hpc2.2.2]; exact h3)
  refine ⟨_, _, (exec_append hfirst).trans ((exec_append hsecond).trans hthird),
    (Bool.forall_bool' who).mpr ⟨⟨ok2, ?_⟩, ok3, RaceState.moved_self _ _⟩, rfl⟩
  rw [RaceState.moved_ne (Bool.self_ne_not who), hpc2.2.1]

theorem alone_resume (memory : Buffer) (xs : List StreamExtent) (d : Datafile) (size : Nat)
    (eor : Int) (hb : b ≠ 0) {buf : Buffer} (hdata : ∀ y ∈ attempted (x :: rest), p ∉ y.streamBytes)
    (hspans : x.Spans p) (hbuf : buf (p - alignedOffset x.offset) ≠ b) :
    ∃ n d' ok, alone memory xs n (d, .backed size eor x rest buf) = some (d', .ended ok) ∧
      d'.file.get? p ≠ some b := by
  have hwritten : (writeAligned d.file x buf memory).get? p ≠ some b := by
    rw [writeAligned_edge hspans (hdata x mem_cons_self)]
    exact fun heq => hbuf (Option.some.inj heq)
  by_cases hneg : toInt32 x.size < 0
  · refine ⟨2, ⟨writeAligned d.file x buf memory, d.bSize⟩, false, ?_, hwritten⟩
    simp [alone, advance, hneg]
  · obtain ⟨n, d', hn, hfile, -⟩ := @alone_finish memory xs
      ⟨writeAligned d.file x buf memory, d.bSize⟩ size
      (if eor < (x.offset + x.size : Nat) then (x.offset + x.size : Nat) else eor) rest
    refine ⟨n + 2, d', completes rest, ?_, ?_⟩
    · simp only [alone, advance, if_neg hneg, Option.bind_some]
      exact hn
    · rw [hfile ⟨writeAligned d.file x buf memory, 0, -1⟩ rfl]
      exact writeExtents_old (fun y hy => hdata y (mem_attempted_cons hneg hy)) hwritten
        (fun _ _ => hb.symm) hb

end

/-- Whatever the memory and the file hold, after every run of the two operations to their ends the
data of both is there. -/
def BothSurvive (w : Bool → ListWrite) (bSize : Nat) : Prop :=
  ∀ (memory : Buffer) (f : ByteFile) (es : List (Bool × Buffer)) (s : RaceState),
    exec (raceStep memory w) (.start ⟨f, bSize⟩) es = some s → s.Over → s.Survived memory w

section
variable {w : Bool → ListWrite} {bSize : Nat}

theorem BothSurvive.in_turn (h : BothSurvive w bSize) (who : Bool) (memory : Buffer)
    (f : ByteFile) : ∃ d1 d2 : Datafile,
      d1.file = (writeExtents bSize memory (w who).extents (fun _ _ => 0) ⟨f, 0, -1⟩).1.file ∧
      d2.file = (writeExtents d1.bSize memory (w (!who)).extents (fun _ _ => 0)
        ⟨d1.file, 0, -1⟩).1.file ∧
      (completes (w who).extents = false → d1.bSize = bSize) ∧
      (completes (w (!who)).extents = false → d2.bSize = d1.bSize) ∧
      (∀ q, q < d2.bSize → q < d1.bSize ∨ ∃ y ∈ (w (!who)).extents, q < y.offset + y.size) ∧
      (∀ pa ∈ (w who).written, d2.file.get? pa.1 = some (memory pa.2)) ∧
      ∀ p ∈ regionBytes (w who).stream, p < d2.bSize := by
  obtain ⟨m, d1, h1, hfile1, hsize1, -⟩ := alone_run memory (w who).extents ⟨f, bSize⟩
  obtain ⟨n, d2, h2, hfile2, hsize2, hbound2⟩ := alone_run memory (w (!who)).extents d1
  obtain ⟨es, s, hexec, hover, rfl⟩ := @exec_around memory _ w who _ _ _ _ _ _ 0 _ _ rfl h1 h2
  obtain ⟨hdata, hrecorded⟩ := h memory f es s hexec hover who
  exact ⟨d1, s.datafile, hfile1, hfile2, hsize1, hsize2, hbound2, hdata, hrecorded⟩

variable (hdisjoint : ∀ who, ∀ p ∈ regionBytes (w who).stream, p ∉ regionBytes (w (!who)).stream)
include hdisjoint

theorem not_data {who : Bool} (hp : p ∈ regionBytes (w who).stream) (hy : y ∈ (w (!who)).extents) :
    p ∉ y.streamBytes :=
  fun hmem => hdisjoint who p hp (mem_extents.mpr ⟨y, hy, hmem⟩)

theorem BothSurvive.unshared (h : BothSurvive w bSize) (who : Bool) :
    Unshared bSize (w who).extents := by
  obtain ⟨d1, d2, hfile1, hfile2, -, -, -, hdata, -⟩ :=
    h.in_turn who (fun _ => 1) ⟨0, fun _ => 0⟩
  refine unshared_of_ones extents_disjoint fun x hx p hp => ?_
  have hmem : p ∈ regionBytes (w who).stream := mem_extents.mpr ⟨x, hx, hp⟩
  have hlast := hdata _ (mem_written.mpr ⟨x, hx, p, hp, rfl⟩)
  by_contra hne
  rw [← hfile1] at hne
  exact alone_run_old (by decide) (fun y hy => not_data hdisjoint hmem hy) hne hfile2 hlast

theorem BothSurvive.apart (h : BothSurvive w bSize) (who : Bool)
    (hp : p ∈ regionBytes (w who).stream) (hy : y ∈ attempted (w (!who)).extents) :
    ¬ y.Spans p := by
  intro hspans
  have hnot : ∀ z ∈ attempted (w (!who)).extents, p ∉ z.streamBytes :=
    fun z hz => not_data hdisjoint hp (attempted_subset hz)
  have hone : (1 : UInt8) ≠ 0 := by decide
  -- the other operation gets to the extent and reads its edges
  obtain ⟨n, d1, eor, rest, hn, hp1, hnot1⟩ := alone_reach (fun _ => 1) (w (!who)).extents bSize hone
    ⟨⟨0, fun _ => 0⟩, bSize⟩ (-1) hy hnot (by
      exact fun heq => by cases heq)
  have hy1 := hnot1 y mem_cons_self
  have haligned : y.aligned = false := by
    cases ha : y.aligned with
    | false => rfl
    | true => exact absurd (aligned_spans ha hspans) hy1
  have hread : alone (fun _ => 1) (w (!who)).extents (n + 3 + 1)
      (⟨⟨0, fun _ => 0⟩, bSize⟩, .start) = some (d1, .backed bSize eor y rest
        (backEdge bSize d1.file y (frontEdge bSize d1.file y fun _ => 0))) := by
    rw [alone, advance, Option.bind_some, alone_add hn]
    simp [alone, advance, haligned]
  -- this one runs to its end
  obtain ⟨m, d2, hm, -⟩ := alone_run (fun _ => 1) (w who).extents d1
  -- and the other goes on
  have hbuf : backEdge bSize d1.file y (frontEdge bSize d1.file y fun _ => 0)
      (p - alignedOffset y.offset) ≠ 1 := edges_old hspans hy1 hp1 hone.symm hone
  obtain ⟨k, d3, ok, hk, hlost⟩ := alone_resume (fun _ => 1) (w (!who)).extents d2 bSize eor hone
    hnot1 hspans hbuf
  obtain ⟨es, s, hexec, hover, rfl⟩ := exec_around who hread hm hk
  obtain ⟨x, hx, hpx⟩ := mem_extents.mp hp
  exact hlost ((h _ _ es s hexec hover who).1 _ (mem_written.mpr ⟨x, hx, p, hpx, rfl⟩))

omit hdisjoint in
theorem BothSurvive.recorded (h : BothSurvive w bSize) (who : Bool)
    (hfails : completes (w who).extents = false) (hp : p ∈ regionBytes (w who).stream) :
    p < bSize ∨ completes (w (!who)).extents = true ∧
      ∃ y ∈ (w (!who)).extents, p < y.offset + y.size := by
  obtain ⟨d1, d2, -, -, hsize1, hsize2, hbound, -, hrecorded⟩ :=
    h.in_turn who (fun _ => 1) ⟨0, fun _ => 0⟩
  have hlt := hrecorded p hp
  cases hother : completes (w (!who)).extents with
  | false =>
    rw [hsize2 hother, hsize1 hfails] at hlt
    exact .inl hlt
  | true =>
    rcases hbound p hlt with hlt | hlt
    · rw [hsize1 hfails] at hlt
      exact .inl hlt
    · exact .inr ⟨rfl, hlt⟩

end

/-- **When two direct writes survive each other.**  Of two list writes to disjoint stream regions of
a datafile of recorded size `bSize`, the data of both is in the file and below the recorded size
after every interleaving, exactly if the layouts are compatible: no block that one of them
writes holds data of the other, and each would keep its own data. -/
theorem both_survive_iff (w : Bool → ListWrite) (bSize : Nat)
    (hdisjoint : ∀ who, ∀ p ∈ regionBytes (w who).stream, p ∉ regionBytes (w (!who)).stream) :
    BothSurvive w bSize ↔ Compatible bSize w := by
  constructor
  · intro h
    exact ⟨h.unshared hdisjoint, fun who p hp y hy => h.apart hdisjoint who hp hy,
      fun who hfails p hp => h.recorded who hfails hp⟩
  · intro hc memory f es s hexec hover
    have hinv := Throughout.of_step (@raceStep_ok memory bSize w hc) (raceOk_start f) es
    exact (hinv.last hexec).survived hc hover

def tenBytes (buffer offset : Nat) : ListWrite where
  mem := [⟨buffer, 10⟩]
  stream := [⟨offset, 10⟩]
  mem_ne := cons_ne_nil _ _
  stream_ne := cons_ne_nil _ _
  total := rfl
  disjoint := pairwise_singleton _ _

theorem tenBytes_extents (buffer offset : Nat) :
    (tenBytes buffer offset).extents = [⟨buffer, 10, offset⟩] := by
  simp [extents, tenBytes, pieces]

theorem mem_tenBytes {buffer offset : Nat} :
    p ∈ regionBytes (tenBytes buffer offset).stream ↔ offset ≤ p ∧ p < offset + 10 := by
  simp [regionBytes, tenBytes, Region.bytes]

/-- Two writes to different blocks. -/
theorem two_blocks_survive :
    BothSurvive (fun who => if who then tenBytes 0 0 else tenBytes 100 4096) 0 := by
  refine (both_survive_iff _ 0 fun who p hp hp' => ?_).mpr ⟨fun who => ?_, fun who p hp y hy => ?_,
    fun who hfails => ?_⟩
  · cases who <;> simp only [Bool.not_true, Bool.not_false, if_true, Bool.false_eq_true, if_false,
      mem_tenBytes] at hp hp' <;> omega
  · cases who <;> simp only [if_true, Bool.false_eq_true, if_false, tenBytes_extents]
    · exact ⟨fun x hx _ => hx, pairwise_singleton _ _⟩
    · exact ⟨fun x hx _ => hx, pairwise_singleton _ _⟩
  · cases who <;> simp only [Bool.not_true, Bool.not_false, if_true, Bool.false_eq_true, if_false,
      mem_tenBytes, tenBytes_extents] at hp hy <;>
    · obtain rfl := mem_singleton.mp (attempted_subset hy)
      rintro ⟨hfront, hback⟩
      simp only [alignedOffset, alignedEnd, blockSize] at hfront hback
      omega
  · exfalso
    revert hfails
    cases who <;> simp only [if_true, Bool.false_eq_true, if_false, tenBytes_extents] <;> decide

/-- Two writes to the same block. -/
theorem one_block_lost :
    ¬ BothSurvive (fun who => if who then tenBytes 0 0 else tenBytes 100 10) 0 := by
  intro h
  refine h.apart (fun who p hp hp' => ?_) true (p := 0) (mem_tenBytes.mpr (by decide))
    (y := ⟨100, 10, 10⟩) ?_ (by decide)
  · cases who <;> simp only [Bool.not_true, Bool.not_false, if_true, Bool.false_eq_true, if_false,
      mem_tenBytes] at hp hp' <;> omega
  · show _ ∈ attempted (tenBytes 100 10).extents
    rw [tenBytes_extents]
    exact mem_cons_self

end Pvfs.Trove
