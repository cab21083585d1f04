import Pvfs.Description.Stream

/-! # Calling request processing until the request is done

A caller hands `PINT_process_request` one small result after another. Between calls the
request state is *suspended*: it represents exactly the part of the byte stream that has not
been consumed. A call brings a suspended state to a later suspended state, or to the end of
the window, and the bytes visited by all the calls together are the visible bytes of the
window, in order, whatever the budgets were. -/

namespace Pvfs.Description

open Pvfs.Lib List RequestState

/-! ## Suspended states -/

/-- The state stands at its `typeOffset` in the stream of `r` and has not reached `final`. -/
structure Suspended (r : Request) (target final : Int) (req : RequestState) : Prop where
  rqbase : (req.cur 0).rqbase = r
  maxel : (req.cur 0).maxel = r.copiesFor final
  targetOffset : req.targetOffset = target
  finalOffset : req.finalOffset = final
  nonneg : 0 ≤ req.typeOffset
  lt : req.typeOffset < final
  rest : ∃ P, req.Rep P ∧ Positive P ∧
    expand P = (r.stream (r.copiesFor final)).drop req.typeOffset.toNat

/-- A new request state for a window of the request. -/
def RequestState.opened (r : Request) (target final : Int) : RequestState :=
  (new r).setWindow target final

variable {req : RequestState}

section
variable {r : Request} {target final : Int} {mode : Mode} (sh : Shared)

theorem RequestState.tile_self {n : Int} (h : (req.cur 0).maxel = n + 1) : req.tile n = req := by
  have : { req.cur 0 with maxel := n + 1 } = req.cur 0 := by rw [← h]
  rw [tile, this, Function.update_eq_self]

theorem RequestState.rep_start {n : Int} (hr : r.Wf) (hn : 0 < n) (hlvl : req.lvl = 0)
    (hbytes : req.bytes = 0) (hcur : req.cur 0 = .start r 0 n) : req.Rep (r.tiles 0 n) := by
  have htop : req.top = .start r 0 n := by rw [top, hlvl]; exact hcur
  refine ⟨by omega, ?_, ?_, ?_, ?_, ?_⟩
  · intro i hi
    rw [hlvl] at hi
    exact absurd hi (Nat.not_lt_zero i)
  · rw [htop]
    exact Reqstack.start_ok hr 0 hn
  · rw [htop, hcur, hlvl]
    exact le_refl _
  · rw [htop, Reqstack.start_work hr 0 hn, hlvl, hbytes]
    exact (append_nil _).symm.trans (trim_zero _).symm
  · intro h
    exact absurd hbytes h

theorem Suspended.prepare (h : Suspended r target final req) (hr : r.Wf) (hm : mode.memreq = false) :
    req.prepare sh mode = some req := by
  obtain ⟨P, hrep, -, -⟩ := h.rest
  have hlvl := hrep.lvl_nonneg
  have hlt := h.lt
  have h0 := h.nonneg
  have hfin : ¬ req.finalOffset = 0 := by
    rw [h.finalOffset]
    omega
  have hagg := hr.aggregateSize_pos
  have htile : req.tile (req.finalOffset.tdiv r.aggregateSize) = req :=
    RequestState.tile_self (by rw [h.maxel, h.finalOffset, Request.copiesFor])
  unfold RequestState.prepare
  simp only [if_neg (show ¬ req.lvl < 0 by omega), hm, hfin, and_false, if_false,
    Bool.false_eq_true]
  cases sh.mem <;>
  · simp only [h.rqbase]
    rw [if_neg hr.ne_null, if_neg (by omega), htile]

theorem RequestState.opened_prepare (mode : Mode) (hr : r.Wf) (hm : mode.memreq = false)
    (h0 : 0 ≤ target) (htf : target < final) :
    ∃ work, (opened r target final).prepare sh mode = some work ∧
      Suspended r target final work ∧ work.typeOffset = 0 ∧
      work.Rep (r.tiles 0 (r.copiesFor final)) := by
  have hagg := hr.aggregateSize_pos
  obtain ⟨hn, -⟩ := hr.lt_length_stream (show 0 ≤ final by omega)
  have hprep : (opened r target final).prepare sh mode = some
      ((opened r target final).tile (final.tdiv r.aggregateSize)) := by
    unfold prepare
    simp only [opened, new, setWindow, hm, if_false,
      Bool.false_eq_true]
    cases sh.mem <;>
    · simp only [show ¬ ((0 : Int) < 0) by decide, show ¬ final = 0 by omega, and_false, if_false]
      rw [if_neg hr.ne_null, if_neg (by omega)]
  have hcur : ((opened r target final).tile (final.tdiv r.aggregateSize)).cur 0 =
      .start r 0 (r.copiesFor final) := by
    rfl
  have hrep : ((opened r target final).tile (final.tdiv r.aggregateSize)).Rep
      (r.tiles 0 (r.copiesFor final)) := rep_start hr hn rfl rfl hcur
  exact ⟨_, hprep, ⟨by rw [hcur]; rfl, by rw [hcur]; rfl, rfl, rfl, le_refl _,
    show (0 : Int) < final by omega, _, hrep, hr.tiles_positive 0 hn, rfl⟩, rfl, hrep⟩

end

/-! ## One call -/

/-- Every byte of a region, taken with its position, satisfies `Byte`. -/
def ByteRegion (Byte : Int → Int → Prop) (k offset size : Int) : Prop :=
  ∀ j, 0 ≤ j → j < size → Byte (k + j) (offset + j)

theorem regions_of_bytes {Byte : Int → Int → Prop} {final : Int} (P : List (Int × Int)) :
    ∀ k, Positive P → (∀ q ∈ numbered k ((expand P).take (final - k).toNat), Byte q.1 q.2) →
      Regions (ByteRegion Byte) final k P := by
  induction P with
  | nil =>
    intro k _ _
    trivial
  | cons c rest ih =>
    intro k hpos hbytes
    have hc := hpos.head
    refine ⟨fun hk j hj0 hj => ?_, ih _ hpos.tail fun q hq => hbytes q ?_⟩
    · refine hbytes (k + j, c.1 + j) (mem_numbered.mpr ⟨j.toNat, by simp only; omega, ?_⟩)
      rw [getElem?_take_of_lt (by omega), expand_cons,
        getElem?_append_left (by rw [length_run]; omega), getElem?_run (by omega),
        Int.toNat_of_nonneg hj0]
    · by_cases hk : k + c.2 ≤ final
      · rw [show (final - k).toNat = c.2.toNat + (final - (k + c.2)).toNat by omega,
          take_expand_add, numbered_append, length_run, Int.toNat_of_nonneg (by omega)]
        exact mem_append_right _ hq
      · rw [show (final - (k + c.2)).toNat = 0 by omega] at hq
        exact absurd hq (by simp)

/-- A call that takes up the request at position `start` of its stream consumes `m` bytes. -/
structure Called (mode : Mode) (rf : RequestFileData) (r : Request) (target final : Int)
    (I : List (Int × Int) → Int → Shared → Prop) (v : List (Int × Int)) (start : Int)
    (req' : RequestState) (sh' : Shared) (m : Nat) : Prop where
  window : start + m ≤ final
  typeOffset : req'.typeOffset = start + m
  finalOffset : req'.finalOffset = final
  rest : start + m = final ∨ Suspended r target final req'
  file : rf.Same sh'.rfdata
  inv : ∃ k', I (v ++ visit rf.visible start ((r.window start final).take m)) k' sh'
  reason : start + m = final ∨ sh'.result.full mode ∨ req'.eofFlag = true
  progress : 0 < m ∨ req'.eofFlag = true
  eof : req'.eofFlag = true → visit rf.visible (start + m) ((r.window start final).drop m) = []

section
variable {r : Request} {target final limit : Int} {mode : Mode} {rf : RequestFileData}
  {Byte : Int → Int → Prop} {I : List (Int × Int) → Int → Shared → Prop}

theorem processWith_of_loop (dist : Nat → Int → Int → Shared → Mode → Option Distributed)
    {work : RequestState} {sh : Shared} {p : Processed} (hck : mode.eqCksize = false)
    (hprep : req.prepare sh mode = some work) (hseg : sh.result.segs < sh.result.segmax)
    (hb0 : 0 < sh.result.bytemax) (hb : sh.result.bytes < sh.result.bytemax)
    (h : Leaves (processBody dist) ⟨work, sh,
      if work.targetOffset > work.typeOffset then { mode with logicalSkip := true } else mode⟩ p) :
    Returns (processWith dist · req sh mode) p := by
  refine h.returns.map fun n hn => ?_
  simp only [processWith]
  rw [if_neg (by omega), if_neg (by omega), hprep]
  simp only [hn, Option.map_some, hck, Bool.false_eq_true, if_false]
  cases p <;> rfl

theorem Request.window_eq_drop {k : Int} (h0 : 0 ≤ target) (hk : target ≤ k) :
    r.window k final = (r.window target final).drop (k - target).toNat := by
  rw [window, window, drop_take, drop_drop,
    show target.toNat + (k - target).toNat = k.toNat by omega,
    show (final - target).toNat - (k - target).toNat = (final - k).toNat by omega]

section
variable {P : List (Int × Int)} {start : Int} {v : List (Int × Int)} {req' : RequestState}
  {sh' : Shared} {m : Nat} (hP : expand P = (r.stream (r.copiesFor final)).drop start.toNat)
  (h : Consumed mode rf limit final I P start v req req' sh' m)
include hP h

theorem Consumed.take_window :
    (expand P).take m = (r.window start final).take m := by
  have hwin := h.window
  rw [hP, Request.window, take_take, Nat.min_eq_left (by omega)]

section
variable (h0 : 0 ≤ target) (hst : target ≤ start)
  (hreq : (req.cur 0).rqbase = r ∧ (req.cur 0).maxel = r.copiesFor final ∧
      req.targetOffset = target ∧ req.finalOffset = final)
include h0 hst hreq

theorem Consumed.suspended : start + m = final ∨ Suspended r target final req' := by
  have hwin := h.window
  have hto := h.typeOffset
  rcases Int.lt_or_le (start + m) final with hlt | hge
  · obtain hf | ⟨P', hrep, hpos, hdrop⟩ := h.rest
    · exact .inl hf
    · refine .inr ⟨h.same.rqbase.trans hreq.1, h.same.maxel.trans hreq.2.1,
        h.same.targetOffset.trans hreq.2.2.1, h.same.finalOffset.trans hreq.2.2.2, by omega,
        by omega, P', hrep, hpos, ?_⟩
      rw [hdrop, hP, drop_drop]
      congr 1
      omega
  · exact .inl (by omega)

theorem Consumed.called
    (hord : rf.extendFlag = true ∨ (r.stream (r.copiesFor final)).Pairwise (· < ·))
    (hlim : ∀ x ∈ r.window target final, rf.Mapped x → x < limit) :
    Called mode rf r target final I v start req' sh' m := by
  have hfin : req'.finalOffset = final := h.same.finalOffset.trans hreq.2.2.2
  refine ⟨h.window, h.typeOffset, hfin, h.suspended hP h0 hst hreq, h.file,
    h.take_window hP ▸ h.inv, h.reason, h.progress, fun he => ?_⟩
  obtain ⟨hext, hno⟩ := h.eof he
  have hpair : (r.stream (r.copiesFor final)).Pairwise (· < ·) :=
    hord.resolve_left (by simp [hext])
  refine visit_none _ fun x hx => ?_
  by_contra hv
  have hm := (RequestFileData.visible_eq_true.mp (by simpa using hv)).1
  -- the bytes behind the end of the file are all bytes the stream still has
  have hmem : x ∈ (expand P).drop m := by
    rw [Request.window, drop_take, ← hP] at hx
    exact mem_of_mem_take hx
  refine hv (hno (hP ▸ hpair.drop) x hmem (hlim x ?_ hm))
  rw [Request.window_eq_drop h0 hst] at hx
  exact mem_of_mem_drop (mem_of_mem_drop hx)

end

end

section
variable (hr : r.Wf) (hs : Serves mode rf limit target (ByteRegion Byte) I)
  (hskip : mode.logicalSkip = false) (hck : mode.eqCksize = false) (h0 : 0 ≤ target)
  (htf : target < final) (hbytes : ∀ q ∈ numbered target (r.window target final), Byte q.1 q.2)
  {work : RequestState} {sh : Shared} {v : List (Int × Int)} {k' : Int}
  (hprep : req.prepare sh mode = some work) (hsus : Suspended r target final work)
  (hfile : rf.Same sh.rfdata) (hI : I v k' sh) (hv : ∀ q ∈ v, q.1 < max work.typeOffset target)
  (hseg : sh.result.segs < sh.result.segmax) (hb0 : 0 < sh.result.bytemax)
  (hb : sh.result.bytes < sh.result.bytemax)
include hr hs hskip hck h0 htf hbytes hprep hsus hfile hI hv hseg hb0 hb

/-- What one call consumes, up to a byte that the file does not have. -/
theorem call_consumed :
    ∃ P req0 req' sh' m, Returns (processRequest · req sh mode) (.ret 0 req' sh') ∧
      expand P = (r.stream (r.copiesFor final)).drop (max work.typeOffset target).toNat ∧
      ((req0.cur 0).rqbase = r ∧ (req0.cur 0).maxel = r.copiesFor final ∧
        req0.targetOffset = target ∧ req0.finalOffset = final) ∧
      Consumed mode rf limit final I P (max work.typeOffset target) v req0 req' sh' m := by
  obtain ⟨hbase, hmaxel, hta, hfi, hto0, htlt, P, hrep, hpos, hP⟩ := hsus
  have hlen := (hr.lt_length_stream (show 0 ≤ final by omega)).2
  have hfull : ¬ sh.result.full mode := by
    rintro (h | ⟨-, h⟩) <;> omega
  -- the loop, from the position where distributing starts
  have hgo : ∀ (st : ProcLoop) (k : Int) (P' : List (Int × Int)) (k' : Int), st.mode = mode →
      st.req.Rep P' → Positive P' → st.req.typeOffset = k → target ≤ k → k < final →
      expand P' = (r.stream (r.copiesFor final)).drop k.toNat →
      work.SameWindow st.req → rf.Same st.sh.rfdata → I v k' st.sh → (∀ q ∈ v, q.1 < k) →
      ¬ st.sh.result.full mode →
      ∃ req' sh' m, Leaves (processBody distribute) st (.ret 0 req' sh') ∧
        ((st.req.cur 0).rqbase = r ∧ (st.req.cur 0).maxel = r.copiesFor final ∧
          st.req.targetOffset = target ∧ st.req.finalOffset = final) ∧
        Consumed mode rf limit final I P' k v st.req req' sh' m := by
    intro st k P' k' hm hrep' hpos' hto hk hkf hP' hsame hfile' hI' hv' hfull'
    have hta' := hsame.targetOffset.trans hta
    have hfi' := hsame.finalOffset.trans hfi
    have hreg : Regions (ByteRegion Byte) final k P' := by
      refine regions_of_bytes P' k hpos' fun q hq => hbytes q ?_
      obtain ⟨j, hj, hx⟩ := mem_numbered.mp hq
      refine mem_numbered.mpr ⟨(k - target).toNat + j, by omega, ?_⟩
      have : (expand P').take (final - k).toNat = (r.window target final).drop (k - target).toNat := by
        rw [hP', ← Request.window_eq_drop h0 hk, Request.window]
      rwa [this, getElem?_drop] at hx
    obtain ⟨req', sh', m, hleave, hcons⟩ := processLoop_spec hs P' st k v k' hm hskip hrep' hpos'
      hto hta' hfi' hkf (by rw [hP', length_drop]; omega) hreg hfile' hI' hv' hfull'
    exact ⟨req', sh', m, hleave, ⟨hsame.rqbase.trans hbase, hsame.maxel.trans hmaxel, hta', hfi'⟩,
      hcons⟩
  have hcall := fun p => processWith_of_loop distribute (p := p) hck hprep hseg hb0 hb
  by_cases hlt : work.typeOffset < target
  · -- skipping only moves the scratch entry
    have hscratch : ∀ {sh : Shared} (k : Int), (rf.Same sh.rfdata ∧ ∃ k', I v k' sh) →
        ¬ sh.result.full mode →
        rf.Same (sh.scratch mode (k - target)).rfdata ∧
          ∃ k', I v k' (sh.scratch mode (k - target)) := by
      rintro sh k ⟨hf, k', hI⟩ hfull
      exact ⟨(Shared.scratch_rfdata ..).symm ▸ hf, k, hs.restart hI hfull⟩
    obtain ⟨st1, P1, hm1, hrep1, hpos1, hP1, hto1, hsame1, ⟨hfile1, k1, hI1⟩, hfull1, hthen⟩ :=
      processLoop_skip distribute (fun h => hs.budget h.2.choose_spec) hscratch P
        ⟨work, sh, { mode with logicalSkip := true }⟩ work.typeOffset
        rfl hskip hrep hpos rfl hta hfi (by omega) htf (by rw [hP, length_drop]; omega)
        ⟨hfile, k', hI⟩ hfull
    have hP1' : expand P1 = (r.stream (r.copiesFor final)).drop target.toNat := by
      rw [hP1, hP, drop_drop]
      congr 1
      omega
    rw [max_eq_right (by omega)] at hv ⊢
    obtain ⟨req', sh', m, hleave, hreq, hcons⟩ := hgo st1 target P1 k1 hm1 hrep1 hpos1 hto1
      (le_refl _) htf hP1' hsame1 hfile1 hI1 hv hfull1
    refine ⟨P1, st1.req, req', sh', m, hcall _ ?_, hP1', hreq, hcons⟩
    rw [if_pos (by omega)]
    exact hthen _ hleave
  · rw [max_eq_left (by omega)] at hv ⊢
    obtain ⟨req', sh', m, hleave, hreq, hcons⟩ := hgo ⟨work, sh, mode⟩ work.typeOffset P k' rfl hrep
      hpos rfl (by omega) htlt hP ⟨rfl, rfl, rfl, rfl⟩ hfile hI hv hfull
    refine ⟨P, work, req', sh', m, hcall _ ?_, hP, hreq, hcons⟩
    rw [if_neg (by omega)]
    exact hleave

/-- **One call of `PINT_process_request`** takes the request up where it was left, or at the
target, and consumes a prefix of what is left of the window. -/
theorem call_spec
    (hord : rf.extendFlag = true ∨ (r.stream (r.copiesFor final)).Pairwise (· < ·))
    (hlim : ∀ x ∈ r.window target final, rf.Mapped x → x < limit) :
    ∃ req' sh' m, Returns (processRequest · req sh mode) (.ret 0 req' sh') ∧
      Called mode rf r target final I v (max work.typeOffset target) req' sh' m := by
  obtain ⟨P, req0, req', sh', m, hret, hP, hreq, hcons⟩ := call_consumed hr hs hskip hck h0 htf
    hbytes hprep hsus hfile hI hv hseg hb0 hb
  exact ⟨req', sh', m, hret, hcons.called hP h0 (le_max_right _ _) hreq hord hlim⟩

end

end

/-! ## Call after call -/

/-- An invariant holds of every result that is about to be filled. -/
def Opens (I : Nat × Int → List (Int × Int) → Int → Shared → Prop) (sh : Shared) : Prop :=
  ∀ b : Nat × Int, 0 < b.1 → 0 < b.2 →
    ∃ k, I b [] k { sh with result := sh.result.reset b.1 b.2 }

/-- What the invariant of an emission with budget `b` says about the result: the byte visited as
`q` was written as the offset `out q`. -/
structure Writes (I : Nat × Int → List (Int × Int) → Int → Shared → Prop)
    (out : Int × Int → Int) : Prop where
  segments : ∀ {b v k sh}, I b v k sh →
    expand sh.result.segments = v.map out ∧ Positive sh.result.segments
  used : ∀ {b v k sh}, I b v k sh → sh.result.bytes = v.length ∧ sh.result.segs ≤ v.length
  budget : ∀ {b v k sh}, I b v k sh → sh.result.segmax = b.1 ∧ sh.result.bytemax = b.2

/-- The next call takes the request up at position `start`. -/
def RequestState.Resumes (req : RequestState) (mode : Mode) (r : Request)
    (target final start : Int) : Prop :=
  ∀ sh : Shared, ∃ work, req.prepare sh mode = some work ∧ Suspended r target final work ∧
    max work.typeOffset target = start

/-- Calls with `n` budgets, from position `start` on, wrote `segs` for `m` bytes of the window. -/
structure Transferred (rf : RequestFileData) (r : Request) (final : Int)
    (out : Int × Int → Int) (start : Int) (n : Nat) (segs : List (Int × Int))
    (req' : RequestState) (m : Nat) : Prop where
  window : start + m ≤ final
  segments : expand segs = (visit rf.visible start ((r.window start final).take m)).map out
  positive : Positive segs
  done : req'.done = true → visit rf.visible (start + m) ((r.window start final).drop m) = []
  budgets : req'.done = false → n ≤ m ∧ start + m < final

section
variable {r : Request} {target final limit : Int} {mode : Mode} {rf : RequestFileData}
  {Byte : Int → Int → Prop} {I : Nat × Int → List (Int × Int) → Int → Shared → Prop}
  {out : Int × Int → Int}

theorem Suspended.resumes (h : Suspended r target final req) (hr : r.Wf) (hm : mode.memreq = false)
    (hle : target ≤ req.typeOffset) : req.Resumes mode r target final req.typeOffset :=
  fun sh => ⟨req, h.prepare sh hr hm, h, max_eq_left hle⟩

theorem RequestState.opened_resumes (mode : Mode) (hr : r.Wf) (hm : mode.memreq = false) (h0 : 0 ≤ target)
    (htf : target < final) :
    (opened r target final).Resumes mode r target final target := by
  intro sh
  obtain ⟨work, hprep, hsus, hto, -⟩ := opened_prepare sh mode hr hm h0 htf
  exact ⟨work, hprep, hsus, by rw [hto, max_eq_right h0]⟩

theorem RequestState.opened_done (h0 : 0 ≤ target) (htf : target < final) :
    (opened r target final).done = false := by
  simp [opened, new, setWindow, done]
  omega

variable {start : Int} {req' : RequestState}

theorem Called.done {b : Nat × Int} {v : List (Int × Int)} {sh' : Shared}
    {m : Nat} (h : Called mode rf r target final (I b) v start req' sh' m) (hd : req'.done = true) :
    visit rf.visible (start + m) ((r.window start final).drop m) = [] := by
  simp only [RequestState.done, Bool.or_eq_true, decide_eq_true_eq, h.typeOffset,
    h.finalOffset] at hd
  rcases hd with hd | hd
  · rw [drop_eq_nil_of_le, visit_nil]
    rw [Request.window, length_take]
    omega
  · exact h.eof hd

theorem Transferred.cons {n m1 m2 : Nat} {segs1 segs2 : List (Int × Int)}
    (h0 : 0 ≤ start) (hm : 0 < m1) (hpos : Positive segs1)
    (hsegs : expand segs1 = (visit rf.visible start ((r.window start final).take m1)).map out)
    (h : Transferred rf r final out (start + m1) n segs2 req' m2) :
    Transferred rf r final out start (n + 1) (segs1 ++ segs2) req' (m1 + m2) := by
  obtain ⟨hwin, hseg, hpos2, hdone, hbud⟩ := h
  have hlen : m1 ≤ (r.window start final).length ∨ (r.window start final).drop m1 = [] := by
    rcases Nat.le_total m1 (r.window start final).length with h | h
    · exact .inl h
    · exact .inr (drop_eq_nil_of_le h)
  rw [Request.window_eq_drop h0 (show start ≤ start + m1 by omega),
    show (start + m1 - start).toNat = m1 by omega] at hseg hdone
  refine ⟨by push_cast; omega, ?_, ?_, fun hd => ?_, fun hd => ?_⟩
  · rw [expand_append, hsegs, hseg, ← map_append, take_add, visit_append]
    rcases hlen with h | h
    · rw [length_take, Nat.min_eq_left h]
    · rw [h]
      simp
  · intro c hc
    exact (mem_append.mp hc).elim (hpos c) (hpos2 c)
  · rw [← drop_drop, ← hdone hd]
    congr 1
    omega
  · have := hbud hd
    omega

theorem Request.Wf.visit_window {p : Int → Bool} {m : Nat} (h : r.Wf) (h0 : 0 ≤ target)
    (hle : target ≤ final) (hm : target + m ≤ final)
    (hrest : visit p (target + m) ((r.window target final).drop m) = []) :
    visit p target (r.window target final) = visit p target ((r.window target final).take m) := by
  conv_lhs => rw [← take_append_drop m (r.window target final)]
  have hlen := h.length_window h0 hle
  rw [visit_append, length_take, Nat.min_eq_left (by omega), hrest, append_nil]

section
variable (rf : RequestFileData) (hr : r.Wf) (hw : Writes I out)
  (hskip : mode.logicalSkip = false) (hck : mode.eqCksize = false) (h0 : 0 ≤ target)
  (htf : target < final)
  (hord : rf.extendFlag = true ∨ (r.stream (r.copiesFor final)).Pairwise (· < ·))
  (hlim : ∀ x ∈ r.window target final, rf.Mapped x → x < limit)
  (hbytes : ∀ q ∈ numbered target (r.window target final), Byte q.1 q.2)
include hr hw hskip hck h0 htf hord hlim hbytes

/-- **Call after call**, until the request is done or there are no more budgets. -/
theorem calls_spec (hre : ∀ {b v k sh}, I b v k sh → Opens I sh) (hm : mode.memreq = false)
    (budgets : List (Nat × Int)) :
    ∀ (req : RequestState) (sh : Shared) (start : Int),
      (∀ b ∈ budgets, (0 < b.1 ∧ 0 < b.2) ∧
        Serves mode rf limit target (ByteRegion Byte) (I b)) →
      req.Resumes mode r target final start → req.done = false → target ≤ start → start < final →
      rf.Same sh.rfdata → Opens I sh →
      ∃ segs req' sh' m, Returns (processCalls · mode budgets req sh) (segs, req', sh') ∧
        Transferred rf r final out start budgets.length segs req' m := by
  induction budgets with
  | nil =>
    intro req sh start _ _ hdone _ hlt _ _
    refine ⟨[], req, sh, 0, .always fun _ => rfl, by simpa using Int.le_of_lt hlt, by simp, ?_, ?_,
      fun _ => by simpa using hlt⟩
    · intro c hc
      exact absurd hc (by simp)
    · intro hd
      exact absurd (hd.symm.trans hdone) (by simp)
  | cons b budgets ih =>
    intro req sh start hpos hres hdone hle hlef hfile hop
    obtain ⟨⟨hb1, hb2⟩, hs⟩ := hpos b mem_cons_self
    obtain ⟨k1, hI1⟩ := hop b hb1 hb2
    obtain ⟨work, hprep, hsus, rfl⟩ := hres { sh with result := sh.result.reset b.1 b.2 }
    obtain ⟨req1, sh1, m1, hret, hcall⟩ := call_spec hr hs hskip hck h0 htf hbytes hprep
      hsus hfile hI1 (fun _ hq => absurd hq not_mem_nil) hb1 hb2 hb2 hord hlim
    obtain ⟨k2, hI2⟩ := hcall.inv
    obtain ⟨hseg, hsegpos⟩ := hw.segments hI2
    have hrest : ∃ segs req' sh' m, Returns (processCalls · mode budgets req1 sh1)
        (segs, req', sh') ∧ Transferred rf r final out (max work.typeOffset target)
          (budgets.length + 1) (sh1.result.segments ++ segs) req' m := by
      cases hd : req1.done with
      | true =>
        refine ⟨[], req1, sh1, m1, .always fun n => ?_, hcall.window, by simpa using hseg,
          by simpa using hsegpos, hcall.done, by simp [hd]⟩
        cases budgets <;> simp [processCalls, hd]
      | false =>
        obtain ⟨hto, heof⟩ : req1.typeOffset < req1.finalOffset ∧ req1.eofFlag = false := by
          simpa [done] using hd
        rw [hcall.typeOffset, hcall.finalOffset] at hto
        have hm1 : 0 < m1 := hcall.progress.resolve_right (by simp [heof])
        have hsus1 := hcall.rest.resolve_left (by omega)
        have hres1 := hsus1.resumes hr hm (by rw [hcall.typeOffset]; omega)
        rw [hcall.typeOffset] at hres1
        obtain ⟨segs, req', sh', m, hcalls, htr⟩ := ih req1 sh1 _
          (fun c hc => hpos c (mem_cons_of_mem _ hc)) hres1 hd (by omega) hto
          hcall.file (hre hI2)
        exact ⟨segs, req', sh', m1 + m, hcalls, htr.cons (by omega) hm1 hsegpos hseg⟩
    obtain ⟨segs, req', sh', m, hcalls, htr⟩ := hrest
    refine ⟨_, req', sh', m, hret.map₂ hcalls fun n h1 h2 => ?_, htr⟩
    simp [processCalls, hdone, h1, h2]

variable {sh : Shared}

theorem calls_done (hre : ∀ {b v k sh}, I b v k sh → Opens I sh) (hm : mode.memreq = false)
    {budgets : List (Nat × Int)} (hpos : ∀ b ∈ budgets, 0 < b.1 ∧ 0 < b.2)
    (hs : ∀ b ∈ budgets, Serves mode rf limit target (ByteRegion Byte) (I b))
    (hfile : rf.Same sh.rfdata) (hop : Opens I sh) :
    ∃ segs req' sh', Returns (processCalls · mode budgets (.opened r target final) sh)
        (segs, req', sh') ∧ Positive segs ∧
      (req'.done = true →
        expand segs = (visit rf.visible target (r.window target final)).map out) ∧
      (final - target ≤ budgets.length → req'.done = true) := by
  obtain ⟨segs, req', sh', m, hret, htr⟩ := calls_spec rf hr hw hskip hck h0 htf hord hlim
    hbytes hre hm budgets _ sh target (fun b hb => ⟨hpos b hb, hs b hb⟩)
    (opened_resumes mode hr hm h0 htf)
    (opened_done h0 htf) (le_refl _) htf hfile hop
  refine ⟨segs, req', sh', hret, htr.positive, fun hd => ?_, fun hn => ?_⟩
  · rw [htr.segments, hr.visit_window h0 (Int.le_of_lt htf) htr.window (htr.done hd)]
  · by_contra hd
    have := htr.budgets (by simpa using hd)
    omega

theorem call_done {segmax : Nat} {bytemax : Int}
    (hs : Serves mode rf limit target (ByteRegion Byte) (I (segmax, bytemax))) (hsm : final - target ≤ segmax) (hbm : final - target ≤ bytemax)
    (hfile : rf.Same sh.rfdata) (hop : Opens I sh) :
    ∃ req' sh', Returns (processRequest · (.opened r target final)
        { sh with result := sh.result.reset segmax bytemax } mode) (.ret 0 req' sh') ∧
      req'.done = true ∧ Positive sh'.result.segments ∧
      sh'.result.bytes = (expand sh'.result.segments).length ∧
      expand sh'.result.segments =
        (visit rf.visible target (r.window target final)).map out := by
  obtain ⟨k1, hI1⟩ := hop (segmax, bytemax) (show 0 < segmax by omega) (by simp only; omega)
  obtain ⟨work, hprep, hsus, hstart⟩ := opened_resumes mode hr hs.memreq h0
    htf { sh with result := sh.result.reset segmax bytemax }
  obtain ⟨req', sh', m, hret, hcall⟩ := call_spec hr hs hskip hck h0 htf hbytes hprep hsus
    hfile hI1 (fun _ hq => absurd hq not_mem_nil) (show 0 < segmax by omega)
    (show 0 < bytemax by omega) (show 0 < bytemax by omega) hord hlim
  rw [hstart] at hcall
  obtain ⟨k2, hI2⟩ := hcall.inv
  rw [nil_append] at hI2
  have hwin := hcall.window
  -- the budget cannot run out before the window does
  have hfull : sh'.result.full mode → target + m = final := by
    intro hf
    obtain ⟨hb, hs⟩ := hw.used hI2
    obtain ⟨hsm', hbm'⟩ := hw.budget hI2
    have hlen := length_visit_le rf.visible target ((r.window target final).take m)
    rw [length_take] at hlen
    rcases hf with hf | ⟨-, hf⟩ <;> omega
  have hd : req'.done = true := by
    simp only [done, Bool.or_eq_true, decide_eq_true_eq, hcall.typeOffset,
      hcall.finalOffset]
    rcases hcall.reason with h | h | h
    · exact .inl (by omega)
    · exact .inl (by have := hfull h; omega)
    · exact .inr h
  obtain ⟨hseg, hsegpos⟩ := hw.segments hI2
  refine ⟨req', sh', hret, hd, hsegpos, by rw [hseg, length_map, (hw.used hI2).1], ?_⟩
  rw [hseg, hr.visit_window h0 (Int.le_of_lt htf) hcall.window (hcall.done hd)]

end

end

end Pvfs.Description
