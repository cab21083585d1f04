import Pvfs.Description.Process

/-! # The budgets of a call

Request processing adds segments to a result, and on a client it keeps a scratch entry behind the
last of them. Whatever the request, its state and the file are, it does not write an entry at or
behind `segmax`, and what it reports is within the budgets. -/

namespace Pvfs.Description

open Pvfs.Lib Function RequestResult

/-- A result that was made of `res` is within the same budgets, and no entry behind them has been
written. -/
structure RequestResult.Keeps (res res' : RequestResult) : Prop where
  segmax : res'.segmax = res.segmax
  bytemax : res'.bytemax = res.bytemax
  segs : res'.segs ≤ res.segmax
  bytes : res'.bytes ≤ res.bytemax
  offsets : ∀ i ≥ res.segmax, res'.offsetArray i = res.offsetArray i
  sizes : ∀ i ≥ res.segmax, res'.sizeArray i = res.sizeArray i

/-- There is room for one more segment. -/
structure RequestResult.Open (res res' : RequestResult) : Prop extends res.Keeps res' where
  room : res'.segs < res.segmax

variable {res res' : RequestResult} {mode : Mode} {offset size : Int} {sh : Shared}

theorem update_below {f g : Nat → Int} {k n : Nat} (hk : k < n) (h : ∀ i ≥ n, f i = g i) (v : Int) :
    ∀ i ≥ n, update f k v i = g i := fun i hi =>
  (update_of_ne (Nat.ne_of_gt (Nat.lt_of_lt_of_le hk hi)) ..).trans (h i hi)

theorem RequestResult.Open.setScratch (h : res.Open res') (offset : Int) :
    res.Open (res'.setScratch offset) :=
  { h with offsets := update_below h.room h.offsets _ }

theorem RequestResult.Open.addSegment (h : res.Open res') (hck : mode.cksize = false)
    (hbytes : res'.bytes + size ≤ res.bytemax) : res.Keeps (res'.addSegment offset size mode) := by
  have hlast : res'.segs - 1 < res.segmax := Nat.lt_of_le_of_lt (Nat.sub_le ..) h.room
  unfold RequestResult.addSegment
  rw [hck]
  split
  · rw [if_neg Bool.false_ne_true]
    split
    · exact { h with bytes := hbytes, sizes := update_below hlast h.sizes _ }
    · exact { h with
        segs := h.room
        bytes := hbytes
        offsets := update_below h.room h.offsets _
        sizes := update_below h.room h.sizes _ }
  · exact h.toKeeps

theorem Shared.open_scratch (h : res.Open sh.result) (mode : Mode) (offset : Int) :
    res.Open (sh.scratch mode offset).result := by
  unfold Shared.scratch
  split
  · exact h.setScratch offset
  · exact h

/-! ## The loop of `PINT_process_request` -/

def Processed.Keeps (res : RequestResult) : Processed → Prop
  | .fault => True
  | .ret _ _ sh => res.Keeps sh.result

def Distributed.Keeps (res : RequestResult) : Distributed → Prop
  | .fault => True
  | .ret _ sh _ => res.Keeps sh.result

/-- A call that lists segments and has room for them. -/
def ProcLoop.Open (res : RequestResult) (st : ProcLoop) : Prop :=
  st.mode.cksize = false ∧ res.Open st.sh.result

theorem ProcLoop.after_keeps (hck : mode.cksize = false) (h : res.Keeps sh.result)
    (hskip : mode.logicalSkip = true → res.Open sh.result) (req : RequestState)
    (retval contigSize : Int) (lvlFlag : Bool) :
    (ProcLoop.after ⟨req, sh, mode⟩ retval contigSize lvlFlag).Keeps (ProcLoop.Open res)
      (Processed.Keeps res) := by
  simp only [ProcLoop.after]
  generalize RequestState.returnFromLevel _ _ = req'
  split
  · split
    next hs => exact ⟨hck, hskip hs⟩
    next => exact h
  · split
    · exact h
    · split
      · exact h
      next hroom =>
        split
        · exact h
        · refine ⟨hck, h, Nat.lt_of_le_of_ne h.segs fun heq => hroom (.inr ⟨hck, ?_⟩)⟩
          exact heq.trans h.segmax.symm

variable (hpos : 0 ≤ res.bytemax)
include hpos

section
variable {dist : Nat → Int → Int → Shared → Mode → Option Distributed}
  (hdist : ∀ {fuel offset size sh mode d}, mode.cksize = false → res.Open sh.result →
    dist fuel offset size sh mode = some d → d.Keeps res)
include hdist

theorem processBody_keeps {fuel : Nat} {st : ProcLoop} {t : Turn ProcLoop Processed}
    (h : st.Open res) (ht : processBody dist fuel st = some t) :
    t.Keeps (ProcLoop.Open res) (Processed.Keeps res) := by
  obtain ⟨hck, hopen⟩ := h
  have hscr : res.Open st.scratched.result := Shared.open_scratch hopen ..
  unfold processBody at ht
  split at ht
  · cases ht
    trivial
  · cases ht
    exact hopen.toKeeps
  · cases ht
    exact ⟨hck, hopen⟩
  · dsimp only at ht
    split at ht
    · cases ht
      exact ProcLoop.after_keeps hck hscr.toKeeps (fun _ => hscr) ..
    next hskip =>
      split at ht
      · -- the bytes that are added fit the budget
        cases ht
        refine ProcLoop.after_keeps hck (hscr.addSegment hck ?_) (fun hs => absurd hs hskip) ..
        have := hscr.bytemax
        split <;> omega
      · obtain ⟨d, hd, rfl⟩ := Option.map_eq_some_iff.mp ht
        have hkeeps := hdist hck hscr hd
        cases d with
        | fault => trivial
        | ret retval sh eof =>
          dsimp only
          split
          · exact { hkeeps with segs := Nat.zero_le _, bytes := hpos }
          · exact ProcLoop.after_keeps hck hkeeps (fun hs => absurd hs hskip) ..

theorem processWith_keeps {fuel : Nat} {req : RequestState} {p : Processed}
    (hck : mode.cksize = false) (h : res.Keeps sh.result)
    (hp : processWith dist fuel req sh mode = some p) : p.Keeps res := by
  simp only [processWith] at hp
  split at hp
  · cases hp
    exact h
  · split at hp
    · cases hp
      exact h
    next hroom =>
      split at hp
      · cases hp
        trivial
      next work _ =>
        obtain ⟨p', hloop, rfl⟩ := Option.map_eq_some_iff.mp hp
        have hkeeps := iterate_keeps (fun _ _ => processBody_keeps hpos hdist)
          ⟨by dsimp only; split <;> exact hck, h, by have := h.segmax; dsimp only; omega⟩ hloop
        cases p' with
        | fault => trivial
        | ret code work sh => exact hkeeps

end

/-! ## The loop of `PINT_distribute` -/

def Emitted.Keeps (res : RequestResult) : Emitted → Prop
  | .fault => True
  | .stop sh | .added _ sh => res.Keeps sh.result

theorem emit_keeps {fuel : Nat} {diff poff sz : Int} {e : Emitted} (hck : mode.cksize = false)
    (h : res.Open sh.result) (hsz : sh.result.bytes + sz ≤ res.bytemax)
    (he : emit mode fuel sh diff poff sz = some e) : e.Keeps res := by
  unfold emit at he
  dsimp only at he
  split at he
  · obtain ⟨p, hp, rfl⟩ := Option.map_eq_some_iff.mp he
    have hkeeps : p.Keeps res :=
      processWith_keeps hpos (by rintro _ _ _ _ _ _ _ _ ⟨⟩; trivial) (by exact hck)
        (by exact h.toKeeps) hp
    cases p with
    | fault => trivial
    | ret code mem sh =>
      dsimp only
      split_ifs <;> exact hkeeps
  · cases he
    exact h.addSegment hck hsz

omit hpos in
theorem Shared.rescratch_keeps (h : res.Keeps sh.result) (mode : Mode) :
    res.Keeps (sh.rescratch mode).result := by
  unfold Shared.rescratch
  dsimp only
  split
  next hroom => exact (RequestResult.Open.setScratch ⟨h, h.segmax ▸ hroom.2⟩ _).toKeeps
  next => exact h

theorem distributeBody_keeps {fuel : Nat} {st : DistLoop} {t : Turn DistLoop (Option DistLoop)}
    (hck : mode.cksize = false) (h : res.Open st.sh.result)
    (ht : distributeBody mode fuel st = some t) :
    t.Keeps (fun st => res.Open st.sh.result) fun l => ∀ st ∈ l, res.Keeps st.sh.result := by
  have hleave : ∀ {st' : DistLoop}, res.Keeps st'.sh.result →
      ∀ st ∈ some st', res.Keeps st.sh.result := fun h _ hmem => Option.some.inj hmem ▸ h
  have hfrag : ∀ loff rest, st.sh.result.bytes + st.sh.rfdata.fragment st.sh.result loff rest ≤
      res.bytemax := by
    intro loff rest
    have := h.bytemax
    unfold RequestFileData.fragment
    dsimp only
    split_ifs <;> omega
  unfold distributeBody at ht
  dsimp only at ht
  split at ht
  · split at ht
    · cases ht
      exact hleave h.toKeeps
    · obtain ⟨e, he, rfl⟩ := Option.map_eq_some_iff.mp ht
      have hclip := hfrag st.loff (st.size - (st.loff - st.offset))
      have hkeeps : e.Keeps res := by
        refine emit_keeps hpos hck (by exact h) ?_ he
        dsimp only
        unfold clipEof
        split_ifs
        all_goals dsimp only; omega
      cases e with
      | fault => exact fun st hst => nomatch hst
      | stop sh => exact hleave hkeeps
      | added sz sh =>
        have hscr := Shared.rescratch_keeps hkeeps mode
        simp only [DistLoop.advance]
        split
        · exact hleave hscr
        · split
          · exact fun st hst => nomatch hst
          · split
            · exact hleave hscr
            next hroom => exact ⟨hscr, Nat.lt_of_not_le fun hge =>
                hroom (.inr ⟨hck, hscr.segmax ▸ hge⟩)⟩
  · cases ht
    exact hleave h.toKeeps

theorem distribute_keeps {fuel : Nat} {d : Distributed} (hck : mode.cksize = false)
    (h : res.Open sh.result) (hd : distribute fuel offset size sh mode = some d) : d.Keeps res := by
  unfold distribute at hd
  split at hd
  · cases hd
    exact h.toKeeps
  · dsimp only at hd
    split at hd
    · cases hd
      exact h.toKeeps
    · obtain ⟨l, hloop, rfl⟩ := Option.map_eq_some_iff.mp hd
      have hkeeps := iterate_keeps (fun _ _ => distributeBody_keeps hpos hck) h hloop
      cases l with
      | none => trivial
      | some st => exact hkeeps st rfl

omit hpos

/-! ## A call -/

/-- The results that a call has, from the loop variables `st` on, when a turn of one of its loops
begins: that of `PINT_process_request`; that of `PINT_distribute`, for whatever region; and that
of `PINT_process_request` for the memory type, wherever in it. -/
inductive ProcLoop.Passes (fuel : Nat) (st : ProcLoop) : RequestResult → Prop where
  | turn {st' : ProcLoop} (h : Visits (processBody distribute fuel) st st') :
      Passes fuel st st'.sh.result
  | region {st' : ProcLoop} {offset size loff : Int} {l : DistLoop}
      (h : Visits (processBody distribute fuel) st st')
      (hl : Visits (distributeBody st'.mode fuel) ⟨offset, size, loff, st'.scratched, false⟩ l) :
      Passes fuel st l.sh.result
  | memory {st' m : ProcLoop} {offset size loff : Int} {l : DistLoop} {mem : RequestState}
      {rfdata : RequestFileData} {mode : Mode} (h : Visits (processBody distribute fuel) st st')
      (hl : Visits (distributeBody st'.mode fuel) ⟨offset, size, loff, st'.scratched, false⟩ l)
      (hmode : mode.cksize = st'.mode.cksize)
      (hm : Visits (processBody (fun _ _ _ _ _ => some .fault) fuel)
        ⟨mem, ⟨none, rfdata, l.sh.result⟩, mode⟩ m) :
      Passes fuel st m.sh.result

theorem ProcLoop.Passes.keeps {fuel : Nat} {st : ProcLoop} (hpos : 0 ≤ res.bytemax)
    (hst : st.Open res) (h : st.Passes fuel res') : res.Keeps res' := by
  have hproc : ∀ {st'}, Visits (processBody distribute fuel) st st' → st'.Open res :=
    Visits.keeps (fun _ _ => processBody_keeps hpos (distribute_keeps hpos)) hst
  have hdist : ∀ {st' : ProcLoop} {offset size loff : Int} {l : DistLoop}, st'.Open res →
      Visits (distributeBody st'.mode fuel) ⟨offset, size, loff, st'.scratched, false⟩ l →
        res.Open l.sh.result := fun hopen hl =>
    Visits.keeps (fun _ _ => distributeBody_keeps hpos hopen.1)
      (Shared.open_scratch hopen.2 ..) hl
  cases h with
  | turn h => exact (hproc h).2.toKeeps
  | region h hl => exact (hdist (hproc h) hl).toKeeps
  | memory h hl hmode hm =>
    have hopen := hproc h
    refine (Visits.keeps (fun _ _ => processBody_keeps hpos ?_)
      ⟨hmode.trans hopen.1, hdist hopen hl⟩ hm).2.toKeeps
    rintro _ _ _ _ _ _ _ _ ⟨⟩
    trivial

/-- **The budgets are kept**, whatever is processed: in the result that a call returns, and, if it
begins its loop, at every turn, even of a call that fails or does not come to its end. -/
theorem processRequest_keeps {fuel : Nat} {req : RequestState} {sh : Shared} {mode : Mode}
    (hmode : mode.cksize = false) (hbytemax : 0 < sh.result.bytemax)
    (hsegs : sh.result.segs ≤ sh.result.segmax)
    (hbytes : sh.result.bytes ≤ sh.result.bytemax) :
    (∀ code req' sh', processRequest fuel req sh mode = some (.ret code req' sh') →
      sh.result.Keeps sh'.result) ∧
    (sh.result.segs < sh.result.segmax → ∀ work mode', mode'.cksize = false →
      ∀ res', ProcLoop.Passes fuel ⟨work, sh, mode'⟩ res' → sh.result.Keeps res') := by
  have hkeeps : sh.result.Keeps sh.result :=
    ⟨rfl, rfl, hsegs, hbytes, fun _ _ => rfl, fun _ _ => rfl⟩
  exact ⟨fun code req' sh' h =>
      processWith_keeps hbytemax.le (distribute_keeps hbytemax.le) hmode hkeeps h,
    fun hroom work mode' hck res' h => h.keeps hbytemax.le ⟨hck, hkeeps, hroom⟩⟩

/-- A client that is given room for one segment, and a file of one server. -/
theorem processRequest_keeps_one : ∃ req' sh', processRequest 4 (.new .pintByte)
      ⟨none, .striped 2 0 1, ⟨fun _ => 0, fun _ => 0, 1, 0, 1, 0⟩⟩ .pintClient =
        some (.ret 0 req' sh') ∧ sh'.result.segs = 1 ∧
      Keeps ⟨fun _ => 0, fun _ => 0, 1, 0, 1, 0⟩ sh'.result :=
  ⟨_, _, rfl, rfl, (@processRequest_keeps 4 (.new .pintByte)
    ⟨none, .striped 2 0 1, ⟨fun _ => 0, fun _ => 0, 1, 0, 1, 0⟩⟩ .pintClient rfl (by decide)
    (by decide) (by decide)).1 0 _ _ rfl⟩

/-- A call on a result that is over its budget already is refused, and leaves it so. -/
theorem processRequest_over : ∃ code req' sh', processRequest 4 (.new .pintByte)
      ⟨none, .striped 2 0 1, ⟨fun _ => 0, fun _ => 0, 1, 2, 1, 0⟩⟩ .pintClient =
        some (.ret code req' sh') ∧ sh'.result.segmax = 1 ∧ sh'.result.segs = 2 :=
  ⟨_, _, _, rfl, rfl, rfl⟩

end Pvfs.Description
