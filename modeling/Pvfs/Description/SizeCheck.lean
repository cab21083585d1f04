import Pvfs.Description.Process

/-! # Size checks

In `PINT_CKSIZE` mode `PINT_process_request` works on a copy of the request state and only counts.
Turn by turn it does what a server does that never runs out of segments, so both report the same
number of bytes, or neither returns. -/

namespace Pvfs.Description

open Pvfs.Lib Mode

/-- What a size check `c` and a server `v` have in common; the server has room for a segment for each
byte that is left. -/
structure Counts (c v : Shared) : Prop where
  rfdata : c.rfdata = v.rfdata
  bytes : c.result.bytes = v.result.bytes
  bytemax : c.result.bytemax = v.result.bytemax
  le : v.result.bytes ≤ v.result.bytemax
  room : (v.result.segs : Int) + (v.result.bytemax - v.result.bytes) ≤ v.result.segmax

/-- `PINT_CKSIZE`, with or without the logical skip. -/
def Mode.counting (skip : Bool) : Mode := { pintCksize with logicalSkip := skip }

/-- `PINT_SERVER`, with or without the logical skip. -/
def Mode.serving (skip : Bool) : Mode := { pintServer with logicalSkip := skip }

namespace Counts

variable {c v : Shared} {b : Bool}

theorem full_iff (h : Counts c v) : c.result.full (.counting b) ↔ v.result.full (.serving b) := by
  have hroom := h.room
  have hbytes := h.bytes
  have hmax := h.bytemax
  simp only [RequestResult.full, counting, serving, pintCksize, pintServer,
    Bool.true_eq_false, false_and, or_false, true_and]
  omega

theorem addSegment (h : Counts c v) (poff : Int) {sz : Int}
    (hsz : sz ≤ v.result.bytemax - v.result.bytes) :
    Counts { c with result := c.result.addSegment poff sz (.counting b) }
      { v with result := v.result.addSegment poff sz (.serving b) } := by
  have hroom := h.room
  have hbytes := h.bytes
  unfold RequestResult.addSegment
  by_cases hpos : sz > 0
  · simp only [hpos, if_true, counting, serving, pintCksize, pintServer,
      Bool.false_eq_true, if_false]
    split
    next =>
      refine ⟨h.rfdata, by dsimp only; rw [hbytes], h.bytemax, ?_, ?_⟩
      · dsimp only
        omega
      · dsimp only
        omega
    next =>
      refine ⟨h.rfdata, by dsimp only; rw [hbytes], h.bytemax, ?_, ?_⟩
      · dsimp only
        omega
      · push_cast
        omega
  · simp only [hpos, if_false]
    exact { h with }

end Counts

theorem fragment_le (rf : RequestFileData) (res : RequestResult) (loff rest : Int) :
    rf.fragment res loff rest ≤ res.bytemax - res.bytes := by
  have hcut : ∀ sz, (if res.bytes + sz > res.bytemax then res.bytemax - res.bytes else sz) ≤
      res.bytemax - res.bytes := by
    intro sz
    split
    next => exact Int.le_refl _
    next => omega
  exact hcut _

theorem clipEof_le (rf : RequestFileData) (poff sz : Int) : (clipEof rf poff sz).2.1 ≤ sz := by
  unfold clipEof
  split
  next =>
    split
    next => exact Int.le_refl _
    next =>
      dsimp only
      omega
  next => exact Int.le_refl _

theorem rescratch_of_not_client (mode : Mode) (hm : mode.client = false) (sh : Shared) :
    sh.rescratch mode = sh := by
  simp [Shared.rescratch, hm]

/-- What the loops of `PINT_distribute` have in common. -/
def DistLoop.Alike (s t : DistLoop) : Prop := Counts s.sh t.sh ∧ s = { t with sh := s.sh }

theorem DistLoop.Alike.advance {s t : DistLoop} (h : s.Alike t) (sz : Int) (b : Bool) :
    Turn.Rel Alike (Option.Rel Alike) (s.advance sz (.counting b)) (t.advance sz (.serving b)) := by
  obtain ⟨hc, heq⟩ := h
  rw [heq]
  unfold DistLoop.advance
  simp only [rescratch_of_not_client (.counting b) rfl, rescratch_of_not_client (.serving b) rfl]
  split
  next => exact .leave (.some ⟨hc, rfl⟩)
  next =>
    rw [hc.rfdata]
    split
    next => exact .leave .none
    next =>
      by_cases hfull : t.sh.result.full (.serving b)
      · rw [if_pos hfull, if_pos (hc.full_iff.mpr hfull)]
        exact .leave (.some ⟨hc, rfl⟩)
      · rw [if_neg hfull, if_neg fun h => hfull (hc.full_iff.mp h)]
        exact .again ⟨hc, rfl⟩

theorem distributeBody_alike (b : Bool) (fuel : Nat) (s t : DistLoop) (h : s.Alike t) :
    Option.Rel (Turn.Rel DistLoop.Alike (Option.Rel DistLoop.Alike))
      (distributeBody (.counting b) fuel s) (distributeBody (.serving b) fuel t) := by
  obtain ⟨hc, heq⟩ := h
  have hfrag : ∀ loff rest, t.sh.rfdata.fragment s.sh.result loff rest =
      t.sh.rfdata.fragment t.sh.result loff rest := by
    intro loff rest
    simp only [RequestFileData.fragment, hc.bytes, hc.bytemax]
  have hle := Int.le_trans (clipEof_le t.sh.rfdata (t.sh.rfdata.logicalToPhysicalOffset t.loff) _)
    (fragment_le t.sh.rfdata t.sh.result t.loff (t.size - (t.loff - t.offset)))
  rw [heq]
  unfold distributeBody
  dsimp only
  rw [hc.rfdata, hfrag]
  generalize clipEof t.sh.rfdata (t.sh.rfdata.logicalToPhysicalOffset t.loff)
    (t.sh.rfdata.fragment t.sh.result t.loff (t.size - (t.loff - t.offset))) = clip at hle ⊢
  obtain ⟨rf, sz, hitEof⟩ := clip
  have hclip : Counts { s.sh with rfdata := rf } { t.sh with rfdata := rf } := { hc with rfdata := rfl }
  split
  next =>
    split
    next => exact .some (.leave (.some ⟨hclip, rfl⟩))
    next =>
      refine .some (DistLoop.Alike.advance ⟨?_, rfl⟩ sz b)
      exact hclip.addSegment _ hle
  next => exact .some (.leave (.some ⟨hc, rfl⟩))

/-- How `PINT_distribute` returns to the two. -/
inductive Distributed.Alike : Distributed → Distributed → Prop where
  | fault : Alike .fault .fault
  | ret (retval : Int) {c v : Shared} (h : Counts c v) (eof : Bool) :
    Alike (.ret retval c eof) (.ret retval v eof)

variable {c v : Shared}

theorem distribute_alike (b : Bool) (fuel : Nat) (offset size : Int) (h : Counts c v) :
    Option.Rel Distributed.Alike (distribute fuel offset size c (.counting b))
      (distribute fuel offset size v (.serving b)) := by
  unfold distribute
  by_cases hnone : v.result.full (.serving b) ∨ size = 0
  · rw [if_pos hnone, if_pos (hnone.imp_left h.full_iff.mpr)]
    exact .some (.ret 0 h false)
  · rw [if_neg fun hn => hnone (hn.imp_left h.full_iff.mp), h.rfdata]
    dsimp only
    split
    next => exact .some (.ret (-1) h false)
    next =>
      have hloop := iterate_rel (distributeBody_alike b fuel) fuel
        (show DistLoop.Alike ⟨offset, size, v.rfdata.nextMappedOffset offset, c, false⟩
          ⟨offset, size, v.rfdata.nextMappedOffset offset, v, false⟩ from ⟨h, rfl⟩)
      generalize iterate (distributeBody (.counting b) fuel) fuel _ = l at hloop ⊢
      generalize iterate (distributeBody (.serving b) fuel) fuel _ = l' at hloop ⊢
      cases hloop with
      | none => exact .none
      | some hlast =>
        cases hlast with
        | none => exact .some .fault
        | some hend =>
          obtain ⟨hcounts, heq⟩ := hend
          refine .some ?_
          rw [heq]
          simp only [DistLoop.atEof, hcounts.rfdata]
          exact .ret _ hcounts _

/-- What the loops of `PINT_process_request` have in common. -/
structure ProcLoop.Alike (s t : ProcLoop) : Prop where
  req : s.req = t.req
  counts : Counts s.sh t.sh
  mode : ∃ b, s.mode = .counting b ∧ t.mode = .serving b

inductive Processed.Alike : Processed → Processed → Prop where
  | fault : Alike .fault .fault
  | ret (code : Int) (req : RequestState) {c v : Shared} (h : c.result.bytes = v.result.bytes) :
    Alike (.ret code req c) (.ret code req v)

theorem ProcLoop.after_alike (b : Bool) (req : RequestState) (h : Counts c v)
    (retval contigSize : Int) (lvlFlag : Bool) :
    Turn.Rel Alike Processed.Alike (ProcLoop.after ⟨req, c, .counting b⟩ retval contigSize lvlFlag)
      (ProcLoop.after ⟨req, v, .serving b⟩ retval contigSize lvlFlag) := by
  have hroom := h.room
  have hle := h.le
  -- the server stops for want of segments only when it stops for want of bytes
  have hstop : (c.result.bytes = c.result.bytemax ∨ ((counting b).cksize = false ∧
        c.result.segs = c.result.segmax)) ↔
      (v.result.bytes = v.result.bytemax ∨ ((serving b).cksize = false ∧
        v.result.segs = v.result.segmax)) := by
    rw [h.bytes, h.bytemax]
    simp only [counting, serving, pintCksize, pintServer, Bool.true_eq_false,
      false_and, or_false, true_and]
    omega
  refine .ite (fun _ => ?_) fun _ => .ite (fun _ => .leave (.ret 0 _ h.bytes)) fun _ => ?_
  · cases b with
    | true => exact .again ⟨rfl, h, false, rfl, rfl⟩
    | false => exact .leave (.ret 0 _ h.bytes)
  · simp only [hstop]
    exact .ite (fun _ => .leave (.ret 0 _ h.bytes)) fun _ =>
      .ite (fun _ => .leave (.ret 0 _ h.bytes)) fun _ => .again ⟨rfl, h, b, rfl, rfl⟩

theorem processBody_alike (fuel : Nat) (s t : ProcLoop) (h : s.Alike t) :
    Option.Rel (Turn.Rel ProcLoop.Alike Processed.Alike) (processBody distribute fuel s)
      (processBody distribute fuel t) := by
  obtain ⟨req, c, _⟩ := s
  obtain ⟨_, v, _⟩ := t
  obtain ⟨hreq, hc, b, hs, ht⟩ := h
  dsimp only at hreq hc hs ht
  subst hreq hs ht
  unfold processBody
  cases req.decode with
  | fault => exact .some (.leave .fault)
  | exceeded => exact .some (.leave (.ret _ _ hc.bytes))
  | descend level => exact .some (.again ⟨rfl, hc, b, rfl, rfl⟩)
  | chunk contigOffset contigSize lvlFlag =>
    cases b with
    | true =>
      simp only [ProcLoop.scratched, Shared.scratch, counting, serving, pintCksize,
        pintServer, Bool.false_eq_true, if_false, if_true, hc.rfdata]
      exact .some (ProcLoop.after_alike true _ hc _ _ _)
    | false =>
      simp only [ProcLoop.scratched, Shared.scratch, counting, serving, pintCksize,
        pintServer, Bool.false_eq_true, if_false]
      have hdist := distribute_alike false fuel contigOffset
        (if req.typeOffset + contigSize > req.finalOffset then req.finalOffset - req.typeOffset
          else contigSize) hc
      simp only [counting, serving, pintCksize, pintServer] at hdist
      generalize distribute fuel _ _ c _ = d at hdist ⊢
      generalize distribute fuel _ _ v _ = d' at hdist ⊢
      cases hdist with
      | none => exact .none
      | some hret =>
        refine .some ?_
        cases hret with
        | fault => exact .leave .fault
        | ret retval hcounts eof =>
          dsimp only
          split
          next => exact .leave (.ret 0 _ rfl)
          next => exact ProcLoop.after_alike false _ hcounts _ _ _

/-- What a size check answers, next to a server's call from the same request state `req`: the request
state is as it was, and the number of bytes is the same. -/
inductive SizeOf (req : RequestState) : Processed → Processed → Prop where
  | fault : SizeOf req .fault .fault
  | ret (code : Int) {req' : RequestState} {c v : Shared} (h : c.result.bytes = v.result.bytes) :
    SizeOf req (.ret code req c) (.ret code req' v)

/-- **A size check changes nothing and counts what a server would process** that has room for any
number of regions. -/
theorem cksize_pure (fuel : Nat) (req : RequestState) {c v : Shared} (hrf : c.rfdata = v.rfdata)
    (hbytes : c.result.bytes = v.result.bytes) (hmax : c.result.bytemax = v.result.bytemax)
    (hc : c.result.segs < c.result.segmax) (hv : v.result.segs < v.result.segmax)
    (hroom : (v.result.segs : Int) + (v.result.bytemax - v.result.bytes) ≤ v.result.segmax) :
    Option.Rel (SizeOf req) (processRequest fuel req c .pintCksize)
      (processRequest fuel req v .pintServer) := by
  have hloop : v.result.bytes < v.result.bytemax → ∀ work skip,
      Option.Rel Processed.Alike
        (iterate (processBody distribute fuel) fuel ⟨work, c, .counting skip⟩)
        (iterate (processBody distribute fuel) fuel ⟨work, v, .serving skip⟩) := fun hlt work skip =>
    iterate_rel (processBody_alike fuel) fuel
      ⟨rfl, ⟨hrf, hbytes, hmax, Int.le_of_lt hlt, hroom⟩, skip, rfl, rfl⟩
  have hprep : req.prepare c .pintCksize = req.prepare v .pintServer := by
    unfold RequestState.prepare
    cases c.mem <;> cases v.mem <;> simp [pintCksize, pintServer]
  unfold processRequest processWith
  simp only [hbytes, hmax, hprep, Nat.pos_iff_ne_zero.mp (Nat.zero_lt_of_lt hc),
    Nat.pos_iff_ne_zero.mp (Nat.zero_lt_of_lt hv), ge_iff_le, Nat.not_le_of_lt hc, Nat.not_le_of_lt hv,
    false_or]
  split
  next => exact .some (.ret _ hbytes)
  next =>
    split
    next => exact .some (.ret _ hbytes)
    next hlt =>
      cases req.prepare v .pintServer with
      | none => exact .some .fault
      | some work =>
        have hend := hloop (Int.not_le.mp hlt) work (decide (work.targetOffset > work.typeOffset))
        have hmodes : (if work.targetOffset > work.typeOffset then
              { pintCksize with logicalSkip := true } else pintCksize) =
              .counting (decide (work.targetOffset > work.typeOffset)) ∧
            (if work.targetOffset > work.typeOffset then
              { pintServer with logicalSkip := true } else pintServer) =
              .serving (decide (work.targetOffset > work.typeOffset)) := by
          by_cases hskip : work.targetOffset > work.typeOffset
          · simp [hskip, counting, serving]
          · simp [hskip, counting, serving, pintCksize, pintServer]
        dsimp only
        rw [hmodes.1, hmodes.2]
        generalize iterate (processBody distribute fuel) fuel ⟨work, c, _⟩ = p at hend ⊢
        generalize iterate (processBody distribute fuel) fuel ⟨work, v, _⟩ = q at hend ⊢
        cases hend with
        | none => exact .none
        | some halike =>
          cases halike with
          | fault => exact .some .fault
          | ret code req' hb => exact .some (.ret code hb)

/-- Five bytes of a file on two servers. -/
theorem cksize_pure_five :
    Option.Rel (SizeOf (.new .pintByte))
      (processRequest 10 (.new .pintByte) ⟨none, ⟨5, 0, 2, .simpleStripe 2, false⟩, ⟨fun _ => 0, fun _ => 0, 1, 0, 5, 0⟩⟩
        .pintCksize)
      (processRequest 10 (.new .pintByte) ⟨none, ⟨5, 0, 2, .simpleStripe 2, false⟩, ⟨fun _ => 0, fun _ => 0, 5, 0, 5, 0⟩⟩
        .pintServer) :=
  cksize_pure 10 _ rfl rfl rfl (by decide) (by decide) (by decide)

end Pvfs.Description
