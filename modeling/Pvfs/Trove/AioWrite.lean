import Pvfs.Lib.Loop
import Pvfs.Trove.Regions

/-! # List writes through asynchronous I/O (dbpf-bstream.c)

A list operation is converted into at most 64 aio requests at a time; `lio_listio` posts them and
`aio_progress_notification` is called when all requests of the round have completed. The callback
looks at the results, and either posts the next round or finishes the operation: for a write it
syncs the file if asked to, looks up the attributes of the datafile, records a larger size if
the end of the request is beyond the recorded one, and completes the operation with the value of
`ret`.

An aio error jumps to the same cleanup with its code in `ret`, where the attribute lookup
overwrites it.

What the outside world answers (the results of the aio requests, of `fdatasync` and of
the attribute database) is arbitrary: `AioEnv`. -/

namespace Pvfs.Trove

open Pvfs.Lib Matching

/-- How an individual aio request ends: with a number of bytes, or with an `errno` value. -/
inductive AioResult where
  | done (count : Int)
  | failed (errno : Nat)
deriving DecidableEq, Repr

abbrev Ret := Except Nat Unit

/-- The answers of the operating system and of the attribute database. -/
structure AioEnv where
  /-- the result of a request, by round and by place in the round -/
  aio : Nat → Nat → AioResult
  sync : Ret
  attrGet : Ret
  attrSet : Ret

/-- The fields of a `BSTREAM_READ_LIST` or `BSTREAM_WRITE_LIST` operation. -/
structure AioOp where
  isWrite : Bool
  sync : Bool
  mem : List Region
  stream : List Region
deriving DecidableEq, Repr

/-! ## Conversion into aio requests (dbpf-bstream-aio.c) -/

/-- `AIOCB_ARRAY_SZ`. -/
def aiocbArraySz : Nat := 64

/-- What a call of `dbpf_bstream_listio_convert` has produced. -/
structure Converted where
  aiocbs : List StreamExtent
  matching : Matching
  oom : Bool
  oos : Bool
deriving DecidableEq, Repr

/-- The loop of `dbpf_bstream_listio_convert`, for a number of free slots. -/
def convertLoop (mem stream : List Region) : Nat → Converted → Converted
  | 0, c => c
  | slots + 1, c =>
    let c' : Converted := ⟨c.aiocbs ++ [c.matching.extent], c.matching.step mem stream,
      c.matching.oom mem, c.matching.oos stream⟩
    if c.matching.used mem stream then c' else convertLoop mem stream slots c'

/-- `dbpf_bstream_listio_convert`: the requests, the state to go on from, and whether everything
has been converted. -/
def listioConvert (mem stream : List Region) (slots : Nat) (m : Matching) :
    List StreamExtent × Matching × Bool :=
  let c := convertLoop mem stream slots ⟨[], m, false, false⟩
  if !c.oom || !c.oos then
    (c.aiocbs,
      { c.matching with
        mct := if !c.oos then c.matching.mct else c.matching.mct + 1
        sct := if !c.oom then c.matching.sct else c.matching.sct + 1 }, false)
  else (c.aiocbs, c.matching, true)

/-! ## The callback -/

/-- An operation between two calls of the callback. `completed` collects the results of all
requests that have completed. -/
structure Posting where
  matching : Matching
  posted : List StreamExtent
  allPosted : Bool
  outSize : Int
  round : Nat
  completed : List AioResult
deriving DecidableEq, Repr

/-- A completed operation: its state, the recorded size of the datafile, whether the completion
goes through `dbpf_sync_coalesce`, and what has been transferred. -/
structure Completion where
  state : Ret
  bSize : Int
  coalesced : Bool
  outSize : Int
  completed : List AioResult

def Posting.first (op : AioOp) : Posting :=
  let c := listioConvert op.mem op.stream aiocbArraySz (start op.mem op.stream)
  ⟨c.2.1, c.1, c.2.2, 0, 0, []⟩

def Posting.next (op : AioOp) (p : Posting) : Posting :=
  let c := listioConvert op.mem op.stream aiocbArraySz p.matching
  { p with matching := c.2.1, posted := c.1, allPosted := c.2.2, round := p.round + 1 }

/-- The loop over the results of the `aiocb`s. -/
def scanResults : List AioResult → Int → Ret × Int
  | [], out => (.ok (), out)
  | .done n :: rest, out => scanResults rest (out + n)
  | .failed e :: _, out => (.error e, out)

/-- The end of the request: the largest end of a stream region, `-1` if there is none. -/
def endOfRequest (stream : List Region) : Int :=
  stream.foldl (fun eor r => if eor < ((r.offset + r.size : Nat) : Int) then
    ((r.offset + r.size : Nat) : Int) else eor) (-1)

/-- `DBPF_AIO_SYNC_IF_NECESSARY`. -/
def aioSyncIfNecessary (op : AioOp) (env : AioEnv) (ret : Ret) : Ret :=
  if op.sync then
    match env.sync with
    | .ok () => ret
    | .error e => .error e
  else ret

/-- From the label `final_threaded_aio_cleanup` on, with the value of `ret` there. -/
def finalThreadedAioCleanup (op : AioOp) (env : AioEnv) (bSize : Int) (p : Posting) (ret : Ret) :
    Completion :=
  if op.isWrite then
    let _ret := aioSyncIfNecessary op env ret
    let eor := endOfRequest op.stream
    -- `ret` is assigned anew by the attribute lookup
    match env.attrGet with
    | .error e => ⟨.error e, bSize, false, p.outSize, p.completed⟩
    | .ok () =>
      if bSize < eor then
        match env.attrSet with
        | .error e => ⟨.error e, bSize, false, p.outSize, p.completed⟩
        | .ok () => ⟨.ok (), eor, op.sync, p.outSize, p.completed⟩
      else ⟨.ok (), bSize, false, p.outSize, p.completed⟩
  else ⟨ret, bSize, false, p.outSize, p.completed⟩

/-- `aio_progress_notification`, called when the posted requests have completed. -/
def aioProgressNotification (op : AioOp) (env : AioEnv) (bSize : Int) (p : Posting) :
    Turn Posting Completion :=
  let results := (List.range p.posted.length).map (env.aio p.round)
  let scanned := scanResults results p.outSize
  let p' := { p with outSize := scanned.2, completed := p.completed ++ results }
  match scanned.1 with
  | .error e => .leave (finalThreadedAioCleanup op env bSize p' (.error e))
  | .ok () =>
    if p.allPosted then .leave (finalThreadedAioCleanup op env bSize p' (.ok ()))
    else .again (p'.next op)

/-- The operation from its posting to its completion. -/
def rwList (op : AioOp) (env : AioEnv) (bSize : Int) (fuel : Nat) : Option Completion :=
  iterate (fun p => some (aioProgressNotification op env bSize p)) fuel (Posting.first op)

/-! ## The rounds come to an end -/

section
variable {mem stream : List Region}

/-- What the conversion loop leaves: the indices have not run backwards, and a side that is not at
its last region has an index within its list. -/
structure Converted.From (mem stream : List Region) (m : Matching) (c : Converted) : Prop where
  mct_le : m.mct ≤ c.matching.mct
  sct_le : m.sct ≤ c.matching.sct
  mct_bound : c.oom = false → c.matching.mct + 1 ≤ mem.length
  sct_bound : c.oos = false → c.matching.sct + 1 ≤ stream.length
  mct_last : c.oom = true → c.matching.mct = m.mct ∨ c.matching.mct + 1 ≤ mem.length
  sct_last : c.oos = true → c.matching.sct = m.sct ∨ c.matching.sct + 1 ≤ stream.length
  progress : c.oom = false → c.oos = false →
    m.mct + m.sct < c.matching.mct + c.matching.sct

theorem converted_step (m : Matching) (aiocbs : List StreamExtent) :
    Converted.From mem stream m ⟨aiocbs, m.step mem stream, m.oom mem, m.oos stream⟩ := by
  obtain ⟨hmle, hsle⟩ := @Matching.step_le mem stream m
  obtain ⟨hmb, hsb⟩ := @Matching.step_bound mem stream m
  refine ⟨hmle, hsle, fun h => ?_, fun h => ?_, fun _ => hmb, fun _ => hsb, fun hm hs => ?_⟩
  · have hin : ¬ mem.length ≤ m.mct + 1 := fun hle => by
      rw [oom_iff.mpr hle] at h
      cases h
    show (m.step mem stream).mct + 1 ≤ mem.length
    omega
  · have hin : ¬ stream.length ≤ m.sct + 1 := fun hle => by
      rw [oos_iff.mpr hle] at h
      cases h
    show (m.step mem stream).sct + 1 ≤ stream.length
    omega
  · apply step_lt
    have hm' : m.oom mem = false := hm
    have hs' : m.oos stream = false := hs
    rw [used, hm', hs']
    rfl

theorem convertLoop_from (slots : Nat) (c : Converted) :
    Converted.From mem stream c.matching (convertLoop mem stream (slots + 1) c) := by
  induction slots generalizing c with
  | zero =>
    rw [convertLoop]
    split
    · exact converted_step c.matching _
    · exact converted_step c.matching _
  | succ slots ih =>
    rw [convertLoop]
    split
    · exact converted_step c.matching _
    · next hused =>
      obtain ⟨hmle, hsle⟩ := @Matching.step_le mem stream c.matching
      obtain ⟨hmb, hsb⟩ := @Matching.step_bound mem stream c.matching
      have hlt := step_lt (Bool.eq_false_iff.mpr hused)
      have h := ih ⟨c.aiocbs ++ [c.matching.extent], c.matching.step mem stream,
        c.matching.oom mem, c.matching.oos stream⟩
      have hm := h.mct_le
      have hs := h.sct_le
      dsimp only at hm hs
      refine ⟨by omega, by omega, h.mct_bound, h.sct_bound, fun ho => ?_, fun ho => ?_,
        fun _ _ => by omega⟩
      · have hlast := h.mct_last ho
        dsimp only at hlast
        omega
      · have hlast := h.sct_last ho
        dsimp only at hlast
        omega

def Matching.Within (mem stream : List Region) (m : Matching) : Prop :=
  m.mct ≤ mem.length ∧ m.sct ≤ stream.length

theorem listioConvert_progress {slots : Nat} {m m' : Matching} {aiocbs : List StreamExtent}
    (hm : m.Within mem stream)
    (h : listioConvert mem stream (slots + 1) m = (aiocbs, m', false)) :
    m'.Within mem stream ∧ m.mct + m.sct < m'.mct + m'.sct := by
  have hfrom := @convertLoop_from mem stream slots ⟨[], m, false, false⟩
  rw [listioConvert] at h
  generalize convertLoop mem stream (slots + 1) ⟨[], m, false, false⟩ = c at h hfrom
  obtain ⟨hmle, hsle, hmb, hsb, hml, hsl, hprog⟩ := hfrom
  dsimp only at h hmle hsle hmb hsb hml hsl hprog
  obtain ⟨hmct, hsct⟩ := hm
  cases hoom : c.oom <;> cases hoos : c.oos <;> simp only [hoom, hoos] at h hmb hsb hml hsl hprog
  · cases h
    have := hprog trivial trivial
    have := hmb trivial
    have := hsb trivial
    exact ⟨⟨by simp; omega, by simp; omega⟩, by simp; omega⟩
  · cases h
    have := hmb trivial
    have := hsl trivial
    exact ⟨⟨by simp; omega, by simp; omega⟩, by simp; omega⟩
  · cases h
    have := hsb trivial
    have := hml trivial
    exact ⟨⟨by simp; omega, by simp; omega⟩, by simp; omega⟩
  · cases h

end

/-! ## What a completed write has done -/

theorem scanResults_ok {rs : List AioResult} {out : Int} :
    (scanResults rs out).1 = .ok () ↔ ∀ e, .failed e ∉ rs := by
  induction rs generalizing out with
  | nil => simp [scanResults]
  | cons r rs ih =>
    cases r with
    | done n =>
      rw [scanResults, ih]
      simp
    | failed e =>
      constructor
      · intro h
        cases h
      · intro h
        exact absurd List.mem_cons_self (h e)

/-- Some aio request of the operation has completed with an error. -/
def Completion.AioFailed (out : Completion) : Prop := ∃ e, .failed e ∈ out.completed

theorem aioProgressNotification_cases (op : AioOp) (env : AioEnv) (bSize : Int) {p : Posting}
    (hp : ∀ e, .failed e ∉ p.completed) :
    (∃ q ret, aioProgressNotification op env bSize p =
        .leave (finalThreadedAioCleanup op env bSize q ret) ∧
      ((∃ e, .failed e ∈ q.completed) ↔ ret ≠ .ok ())) ∨
    (p.allPosted = false ∧ ∃ q : Posting, q.matching = p.matching ∧
      (∀ e, .failed e ∉ q.completed) ∧
      aioProgressNotification op env bSize p = .again (q.next op)) := by
  rw [aioProgressNotification]
  generalize (List.range p.posted.length).map (env.aio p.round) = results
  have hok := @scanResults_ok results p.outSize
  have hmem : (∀ e, AioResult.failed e ∉ p.completed ++ results) ↔ ∀ e, .failed e ∉ results := by
    constructor
    · intro h e he
      exact h e (List.mem_append_right _ he)
    · intro h e he
      rcases List.mem_append.mp he with he | he
      · exact hp e he
      · exact h e he
  generalize scanResults results p.outSize = scanned at hok
  obtain ⟨ret, out⟩ := scanned
  cases ret with
  | error e =>
    left
    refine ⟨_, _, rfl, ?_⟩
    have hnot : ¬ ∀ e, AioResult.failed e ∉ p.completed ++ results := by
      rw [hmem, ← hok]
      intro h
      cases h
    constructor
    · intro _ h
      cases h
    · intro _
      by_contra hne
      exact hnot fun e he => hne ⟨e, he⟩
  | ok u =>
    have hnone := hmem.mpr (hok.mp rfl)
    cases hall : p.allPosted with
    | true =>
      left
      refine ⟨_, _, if_pos rfl, ?_⟩
      constructor
      · rintro ⟨e, he⟩
        exact absurd he (hnone e)
      · intro h
        exact absurd rfl h
    | false =>
      right
      refine ⟨rfl, { p with outSize := out, completed := p.completed ++ results, allPosted := false },
        rfl, hnone, ?_⟩
      exact if_neg Bool.false_ne_true

/-- How many calls are left at most. -/
def Posting.toGo (op : AioOp) (p : Posting) : Nat :=
  if p.allPosted then 0
  else op.mem.length + op.stream.length + 1 - (p.matching.mct + p.matching.sct)

/-- Between two rounds no request has failed, and what is left to convert is within the lists. -/
structure Posting.Going (op : AioOp) (p : Posting) : Prop where
  none : ∀ e, .failed e ∉ p.completed
  within : p.allPosted = false → p.matching.Within op.mem op.stream

variable {op : AioOp}

theorem Posting.Going.next {p q : Posting} (hp : p.Going op)
    (hmore : p.allPosted = false) (hq : q.matching = p.matching)
    (hnone : ∀ e, .failed e ∉ q.completed) :
    (q.next op).Going op ∧ (q.next op).toGo op < p.toGo op := by
  obtain ⟨hmct, hsct⟩ := hp.within hmore
  have hprog : (q.next op).allPosted = false → (q.next op).matching.Within op.mem op.stream ∧
      p.matching.mct + p.matching.sct <
        (q.next op).matching.mct + (q.next op).matching.sct := by
    intro hnot
    have hconv : listioConvert op.mem op.stream aiocbArraySz p.matching =
        ((q.next op).posted, (q.next op).matching, false) := by
      rw [← hnot, ← hq]
      rfl
    exact listioConvert_progress ⟨hmct, hsct⟩ hconv
  refine ⟨⟨hnone, fun hnot => (hprog hnot).1⟩, ?_⟩
  have hgo : p.toGo op =
      op.mem.length + op.stream.length + 1 - (p.matching.mct + p.matching.sct) := by
    rw [toGo, hmore]
    rfl
  cases hlast : (q.next op).allPosted with
  | true =>
    rw [toGo, hlast, if_pos rfl]
    omega
  | false =>
    have hlt := (hprog hlast).2
    rw [toGo, hlast, hgo, if_neg Bool.false_ne_true]
    omega

theorem rwList_completes (op : AioOp) (env : AioEnv) (bSize : Int) :
    ∃ out, Returns (rwList op env bSize) out ∧ ∃ q ret,
      out = finalThreadedAioCleanup op env bSize q ret ∧
        ((∃ e, .failed e ∈ q.completed) ↔ ret ≠ .ok ()) := by
  obtain ⟨out, hleaves, hout⟩ := Leaves.of_descent
    (fun _ p => some (aioProgressNotification op env bSize p))
    (I := Posting.Going op)
    (Q := fun out => ∃ q ret, out = finalThreadedAioCleanup op env bSize q ret ∧
      ((∃ e, .failed e ∈ q.completed) ↔ ret ≠ .ok ()))
    Nat.lt_wfRel.wf (Posting.toGo op)
    (by
      intro p hp
      rcases aioProgressNotification_cases op env bSize hp.none with
        ⟨q, ret, hleave, hret⟩ | ⟨hmore, q, hq, hnone, hagain⟩
      · exact ⟨.leave _, Returns.always fun _ => by rw [hleave], q, ret, rfl, hret⟩
      · exact ⟨.again _, Returns.always fun _ => by rw [hagain], hp.next hmore hq hnone⟩)
    (s := Posting.first op) ⟨fun e he => (List.not_mem_nil he).elim, fun hnot => by
      have hconv : listioConvert op.mem op.stream aiocbArraySz (start op.mem op.stream) =
          ((Posting.first op).posted, (Posting.first op).matching, false) := by
        rw [← hnot]
        rfl
      exact (listioConvert_progress ⟨Nat.zero_le _, Nat.zero_le _⟩ hconv).1⟩
  exact ⟨out, hleaves.returns, hout⟩

/-- The lookup of the attributes, or the update that the operation needs, fails. -/
def AttrFails (env : AioEnv) (bSize : Int) (eor : Int) : Prop :=
  env.attrGet ≠ .ok () ∨ (bSize < eor ∧ env.attrSet ≠ .ok ())

/-- A failed write is reported and leaves the recorded size alone; a write without a failure is
successful, and the recorded size covers it. -/
def Completion.Reported (bSize eor : Int) (out : Completion) : Prop :=
  (out.AioFailed → out.state ≠ .ok () ∧ out.bSize ≤ bSize) ∧
    (¬ out.AioFailed → out.state = .ok () ∧ out.bSize = max bSize eor)

theorem finalThreadedAioCleanup_write (hw : op.isWrite = true) (env : AioEnv)
    (bSize : Int) (p : Posting) (ret : Ret) :
    let out := finalThreadedAioCleanup op env bSize p ret
    (AttrFails env bSize (endOfRequest op.stream) → out.state ≠ .ok () ∧ out.bSize = bSize) ∧
    (¬ AttrFails env bSize (endOfRequest op.stream) →
      out.state = .ok () ∧ out.bSize = max bSize (endOfRequest op.stream)) := by
  intro out
  simp only [out, finalThreadedAioCleanup, if_pos hw, AttrFails]
  cases hget : env.attrGet with
  | error e => exact ⟨fun _ => ⟨by simp, rfl⟩, fun h => absurd (.inl (by simp)) h⟩
  | ok u =>
    by_cases hlt : bSize < endOfRequest op.stream
    · simp only [if_pos hlt]
      cases hset : env.attrSet with
      | error e =>
        exact ⟨fun _ => ⟨by simp, rfl⟩, fun h => absurd (.inr ⟨hlt, by simp⟩) h⟩
      | ok u =>
        refine ⟨fun h => ?_, fun _ => ⟨rfl, (Int.max_eq_right (Int.le_of_lt hlt)).symm⟩⟩
        simp at h
    · simp only [if_neg hlt]
      refine ⟨fun h => ?_, fun _ => ⟨trivial, (Int.max_eq_left (Int.not_lt.mp hlt)).symm⟩⟩
      simp [hlt] at h

/-- Every list write completes; it is reported as it should be exactly if an aio request of it
fails just when the attribute database fails. -/
theorem write_reported_iff {op : AioOp} (hw : op.isWrite = true) (env : AioEnv) (bSize : Int) :
    ∃ out, Returns (rwList op env bSize) out ∧
      (out.Reported bSize (endOfRequest op.stream) ↔
        (out.AioFailed ↔ AttrFails env bSize (endOfRequest op.stream))) := by
  obtain ⟨out, hret, q, ret, rfl, -⟩ := rwList_completes op env bSize
  obtain ⟨hfails, hsucceeds⟩ := finalThreadedAioCleanup_write hw env bSize q ret
  refine ⟨_, hret, ?_⟩
  by_cases hattr : AttrFails env bSize (endOfRequest op.stream)
  · obtain ⟨hstate, hsize⟩ := hfails hattr
    constructor
    · intro h
      refine ⟨fun _ => hattr, fun _ => ?_⟩
      by_contra hnone
      exact hstate (h.2 hnone).1
    · intro h
      exact ⟨fun _ => ⟨hstate, Int.le_of_eq hsize⟩, fun hnone => absurd (h.mpr hattr) hnone⟩
  · obtain ⟨hstate, hsize⟩ := hsucceeds hattr
    constructor
    · intro h
      exact ⟨fun hfailed => absurd hstate (h.1 hfailed).1, fun hattr' => absurd hattr' hattr⟩
    · intro h
      exact ⟨fun hfailed => absurd (h.mp hfailed) hattr, fun _ => ⟨hstate, hsize⟩⟩

def fourBytes : AioOp := ⟨true, true, [⟨4096, 4⟩], [⟨0, 4⟩]⟩

/-- With nothing failing, the write of four bytes is reported as it should be. -/
theorem write_reported_four_bytes :
    ∃ out, Returns (rwList fourBytes ⟨fun _ _ => .done 4, .ok (), .ok (), .ok ()⟩ 0) out ∧
      out.Reported 0 4 := by
  obtain ⟨out, hret, hiff⟩ :=
    @write_reported_iff fourBytes rfl ⟨fun _ _ => .done 4, .ok (), .ok (), .ok ()⟩ 0
  refine ⟨out, hret, hiff.mpr ?_⟩
  have hout : Returns (rwList fourBytes ⟨fun _ _ => .done 4, .ok (), .ok (), .ok ()⟩ 0)
      ⟨.ok (), 4, true, 4, [.done 4]⟩ := .shift (k := 1) (.always fun _ => rfl)
  rw [hret.unique hout]
  simp [Completion.AioFailed, AttrFails]

/-- The one aio request fails with `EIO` and nothing is written: the operation succeeds and the
recorded size says that four bytes are there. -/
theorem failed_write_not_reported :
    ∃ out, Returns (rwList fourBytes ⟨fun _ _ => .failed 5, .ok (), .ok (), .ok ()⟩ 0) out ∧
      out.AioFailed ∧ out.state = .ok () ∧ out.bSize = 4 ∧ out.outSize = 0 ∧
      ¬ out.Reported 0 (endOfRequest fourBytes.stream) := by
  refine ⟨⟨.ok (), 4, true, 0, [.failed 5]⟩, .shift (k := 1) (.always fun _ => rfl), ⟨5, by simp⟩,
    rfl, rfl, rfl, fun h => ?_⟩
  exact (h.1 ⟨5, by simp⟩).1 rfl

end Pvfs.Trove
