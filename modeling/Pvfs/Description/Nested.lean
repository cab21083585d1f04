import Pvfs.Description.Segments
import Pvfs.Description.Typemap

/-! # Runs over the memory type

When a client has a memory type, each fragment is turned into places in memory by a run of
`PINT_process_request` over that type, in `PINT_MEMREQ` mode. Such a run does not
distribute: it adds the contiguous chunks it decodes as they are. Its state is resumable
like that of the file request and is kept between fragments, and the run is always given
the window of type positions the fragment stands for. The state is not tiled and cannot go
back, so the specification has three cases: the window lies ahead and inside the type, ahead
of the end of the type, or behind. -/

namespace Pvfs.Description

open Pvfs.Lib List

/-- `PINT_CLIENT | PINT_MEMREQ`. -/
def Mode.pintMem : Mode := { Mode.pintClient with memreq := true }

theorem RequestState.Rep.ne_nil {req : RequestState} {P : List (Int × Int)} (h : req.Rep P) :
    P ≠ [] := by
  have hwork : req.top.work ≠ [] := by
    unfold Reqstack.work
    cases hw : req.top.rqbase.isWhole with
    | true => exact cons_ne_nil _ _
    | false =>
      have hne := h.top_ok.ereq_ne_null hw
      obtain ⟨hewf, hn, -, -⟩ := h.top_ok.wf.entry hne
      have ha := hewf.aggregateSize_pos
      have hlen := h.top_ok.wf.length_block hne req.top.base req.top.blk
      intro hnil
      rw [if_neg (by simp), append_eq_nil_iff] at hnil
      rw [hnil.1] at hlen
      simp at hlen
      omega
  rw [h.pending]
  intro hnil
  obtain ⟨c, rest, hcons⟩ := exists_cons_of_ne_nil hwork
  rw [hcons, cons_append] at hnil
  exact absurd hnil (cons_ne_nil _ _)

section
variable (dist : Nat → Int → Int → Shared → Mode → Option Distributed) {b : Nat × Int}
  {target final : Int} {c : Int × Int}

theorem processBody_mem (st : ProcLoop) {lvlFlag : Bool} (sz : Int) (hmode : st.mode = .pintMem)
    (hdec : st.req.decode = .chunk c.1 c.2 lvlFlag)
    (hsz : (if st.req.typeOffset + c.2 > st.req.finalOffset then
      st.req.finalOffset - st.req.typeOffset else c.2) = sz)
    (hb : st.sh.result.bytes + sz < st.sh.result.bytemax) :
    ∃ o, Returns (processBody dist · st) (ProcLoop.after
      { st with sh := { st.sh with
          result := (st.sh.result.setScratch o).addSegment c.1 sz .pintMem } } sz c.2 lvlFlag) := by
  refine ⟨st.req.typeOffset - st.req.targetOffset, .always fun fuel => ?_⟩
  have hskip : st.mode.logicalSkip = false := by rw [hmode]; rfl
  have hmem : st.mode.memreq = true := by rw [hmode]; rfl
  have hscr : st.scratched = { st.sh with
      result := st.sh.result.setScratch (st.req.typeOffset - st.req.targetOffset) } := by
    rw [ProcLoop.scratched, hmode]
    rfl
  have hover : ¬ (st.sh.result.setScratch (st.req.typeOffset - st.req.targetOffset)).bytes + sz ≥
      (st.sh.result.setScratch (st.req.typeOffset - st.req.targetOffset)).bytemax := by
    simp only [RequestResult.setScratch]
    omega
  simp only [processBody, hdec, hskip, hmem, Bool.false_eq_true, if_false, if_true, hsz, hscr]
  rw [if_neg hover, hmode]

variable {rest : List (Int × Int)}

theorem turn_mem {st : ProcLoop} {sz : Int} (hmode : st.mode = .pintMem)
    (hrep : st.req.Rep (c :: rest))
    (hsz : (if st.req.typeOffset + c.2 > st.req.finalOffset then
      st.req.finalOffset - st.req.typeOffset else c.2) = sz)
    (hb : st.sh.result.bytes + sz < st.sh.result.bytemax) :
    ∃ o eof, let sh := { st.sh with result := (st.sh.result.setScratch o).addSegment c.1 sz .pintMem }
      sh.result.bytes ≤ sh.result.bytemax ∧ sh.result.segs ≤ sh.result.segmax →
      ∃ req1, TurnsTo c rest sz st dist sh req1 eof := by
  obtain ⟨req, flag, hdec, hrun, hturn⟩ := turn dist hrep
  rw [← hrun.typeOffset, ← hrun.finalOffset] at hsz
  obtain ⟨o, hbody⟩ := processBody_mem dist { st with req := req } sz hmode hdec hsz hb
  exact ⟨o, req.eofFlag, hturn hbody fun _ => by rw [hmode]; rfl⟩

/-- There is room for `n` more bytes, one segment each, and one to spare. -/
def Room (b : Nat × Int) (bs : List Int) (n : Int) : Prop :=
  bs.length + n < b.1 ∧ bs.length + n < b.2

variable {bs : List Int}

theorem Room.not_full {res : RequestResult} {n : Int} (h : res.Holds b bs)
    (hr : Room b bs n) (hn : 0 ≤ n) (mode : Mode) : ¬ res.full mode := by
  obtain ⟨h1, h2⟩ := hr
  have hb := h.bytes
  have hs := h.segs
  obtain ⟨hsm, hbm⟩ := h.budget
  rintro (hf | ⟨-, hf⟩) <;> omega

theorem memLoop_spec (P : List (Int × Int)) :
    ∀ (st : ProcLoop) (k : Int) (bs : List Int), st.mode = .pintMem → st.req.Rep P →
      Positive P → st.req.typeOffset = k → st.req.finalOffset = final → k < final →
      final ≤ k + (expand P).length → st.sh.result.Holds b bs → Room b bs (final - k) →
      ∃ req' sh', Leaves (processBody dist) st (.ret 0 req' sh') ∧ req'.typeOffset = final ∧
        sh'.rfdata = st.sh.rfdata ∧
        sh'.result.Holds b (bs ++ (expand P).take (final - k).toNat) ∧
        (final < k + (expand P).length → ∃ P', req'.Rep P' ∧ Positive P' ∧
          expand P' = (expand P).drop (final - k).toNat) := by
  induction P with
  | nil =>
    intro st k bs _ _ _ _ _ hkf hlen
    simp at hlen
    omega
  | cons c rest ih =>
    intro st k bs hmode hrep hpos hto hfi hkf hlen hholds hroom
    have hc := hpos.head
    have hlen' := length_expand_cons c rest
    have hfull := hroom.not_full hholds (by omega) .pintMem
    obtain ⟨hr1, hr2⟩ := hroom
    have hbytes := hholds.bytes
    obtain ⟨hsm, hbm⟩ := hholds.budget
    obtain ⟨size, hsize⟩ : ∃ size, (if k + c.2 > final then final - k else c.2) = size := ⟨_, rfl⟩
    have hsz : 0 < size ∧ size ≤ c.2 ∧ k + size ≤ final ∧ (size = c.2 ∨ k + size = final) := by
      split at hsize <;> omega
    obtain ⟨o, eof, hturn⟩ := turn_mem dist hmode hrep
      (show _ = size by rw [hto, hfi]; exact hsize) (by omega)
    obtain ⟨hadd, -⟩ := (hholds.setScratch o).addSegment c.1
      (show Mode.pintMem.cksize = false from rfl) hsz.1 hfull
      (by simp only [RequestResult.setScratch]; omega)
    obtain ⟨req1, hsame, hto1, -, hturned⟩ := hturn hadd.within
    have hroom' : Room b (bs ++ run c.1 size.toNat) (final - (k + size)) := by
      constructor <;> rw [length_append, length_run] <;> push_cast <;> omega
    rw [hto] at hto1
    cases hturned with
    | within hne hrep1 hleave =>
      -- the window ends inside this chunk
      have hfin : final - k = size := by omega
      rw [hfin, take_expand (by omega), drop_expand (by omega), Int.toNat_of_nonneg (by omega)]
      exact ⟨req1, _, hleave, by omega, rfl, hadd, fun _ => ⟨_, hrep1, hpos.within (by omega) _, rfl⟩⟩
    | ended hwhole hend hleave =>
      subst hwhole
      have hfin : final - k = c.2 := by
        rcases hend with rfl | ⟨-, hfull' | hge⟩
        · simp at hlen'
          omega
        · exact absurd hfull' (hroom'.not_full hadd (by omega) _)
        · omega
      rw [hfin, take_expand (le_refl _), show c.2.toNat = c.2.toNat + 0 from rfl, drop_expand_add]
      refine ⟨req1, _, hleave, by omega, rfl, hadd, fun h => ⟨rest, ?_, hpos.tail, rfl⟩⟩
      rcases hend with rfl | hend
      · simp at hlen'
        omega
      · exact hend.1
    | again hwhole hrep1 _ hlt hgo =>
      subst hwhole
      obtain ⟨req', sh', hleave, hto2, hrf, hh, hrest⟩ := ih ⟨req1, { st.sh with
          result := (st.sh.result.setScratch o).addSegment c.1 c.2 .pintMem }, st.mode⟩ (k + c.2) _ hmode
        hrep1 hpos.tail hto1 (hsame.finalOffset.trans hfi) (by omega) (by omega) hadd hroom'
      have hsplit : (final - k).toNat = c.2.toNat + (final - (k + c.2)).toNat := by omega
      rw [hsplit, take_expand_add, ← append_assoc, drop_expand_add]
      exact ⟨req', sh', hgo _ hleave, hto2, hrf, hh, fun h => hrest (by omega)⟩

theorem memLoop_behind (st : ProcLoop) {k : Int}
    (hmode : st.mode = .pintMem) (hrep : st.req.Rep (c :: rest)) (hc : 0 < c.2)
    (hto : st.req.typeOffset = k) (hfi : st.req.finalOffset = final) (hle : final ≤ k)
    (hholds : st.sh.result.Holds b bs) (hroom : Room b bs 0) :
    ∃ req' sh', Leaves (processBody dist) st (.ret 0 req' sh') ∧ req'.typeOffset = final ∧
      sh'.rfdata = st.sh.rfdata ∧ sh'.result.Holds b bs := by
  have hbytes := hholds.bytes
  obtain ⟨-, hbm⟩ := hholds.budget
  obtain ⟨-, hr2⟩ := hroom
  obtain ⟨o, eof, hturn⟩ := turn_mem dist hmode hrep
    (show _ = final - k by rw [hto, hfi, if_pos (by omega)]) (by omega)
  have hnone : (st.sh.result.setScratch o).addSegment c.1 (final - k) .pintMem =
      st.sh.result.setScratch o := by
    rw [RequestResult.addSegment, if_neg (by omega)]
  simp only [hnone] at hturn
  obtain ⟨req1, -, hto1, -, hturned⟩ := hturn (hholds.setScratch o).within
  cases hturned with
  | within _ _ hleave => exact ⟨req1, _, hleave, by omega, rfl, hholds.setScratch o⟩
  | ended hwhole | again hwhole => omega

theorem memLoop_past (P : List (Int × Int)) :
    ∀ (st : ProcLoop) (k : Int) (bs : List Int),
      st.mode = { Mode.pintMem with logicalSkip := true } → st.req.Rep P → Positive P →
      st.req.typeOffset = k → st.req.targetOffset = target → st.req.finalOffset = final →
      k + (expand P).length ≤ target → target < final → st.sh.result.Holds b bs → Room b bs 0 →
      ∃ req' sh', Leaves (processBody dist) st (.ret 0 req' sh') ∧
        req'.typeOffset = k + (expand P).length ∧ sh'.rfdata = st.sh.rfdata ∧
        sh'.result.segs = st.sh.result.segs ∧ sh'.result.Holds b bs := by
  induction P with
  | nil =>
    intro st k bs _ hrep
    exact absurd rfl hrep.ne_nil
  | cons c rest ih =>
    intro st k bs hmode hrep hpos hto hta hfi hle htf hholds hroom
    have hc := hpos.head
    have hlen' := length_expand_cons c rest
    obtain ⟨req1, hsame, hto1, hor⟩ := skip_whole dist hmode hrep hto hta hfi (by omega) htf
      hholds.within (hroom.not_full hholds (le_refl _) .pintMem)
    rcases hor with ⟨rfl, hleave⟩ | ⟨hrep1, hgo⟩
    · refine ⟨req1, _, hleave, ?_, rfl, rfl, hholds.setScratch _⟩
      rw [hlen']
      simp
      omega
    · obtain ⟨req', sh', hleave, hto', hrf, hsegs, hh⟩ := ih
        ⟨req1, st.sh.scratch .pintMem (k - target), st.mode⟩ (k + c.2) bs
        hmode hrep1 hpos.tail hto1 (hsame.targetOffset.trans hta)
        (hsame.finalOffset.trans hfi) (by omega) htf (hholds.setScratch _) hroom
      exact ⟨req', sh', hgo _ hleave, by omega, hrf, hsegs, hh⟩

end

/-! ## The state between fragments -/

/-- The memory state stands at position `pos` of one copy of `m`. -/
structure MemAt (m : Request) (mem : RequestState) (pos : Int) : Prop where
  nonneg : 0 ≤ pos
  typeOffset : mem.typeOffset = pos
  rest : pos < m.aggregateSize → ∃ P, mem.Rep P ∧ Positive P ∧
    expand P = (m.stream 1).drop pos.toNat

theorem memAt_new {m : Request} (hm : m.Wf) : MemAt m (.new m) 0 :=
  ⟨le_refl _, rfl, fun _ => ⟨_, RequestState.rep_start hm Int.one_pos rfl rfl rfl,
    hm.tiles_positive 0 Int.one_pos, rfl⟩⟩

section
variable {m : Request} {mem : RequestState} {pos p n : Int} {b : Nat × Int} {res : RequestResult}
  {bs : List Int}

theorem processMem_of_loop {rf : RequestFileData} {a : Processed} {P : List (Int × Int)}
    (hrep : mem.Rep P) (hh : res.Holds b bs) (hr : Room b bs 0)
    (h : Leaves (processBody fun _ _ _ _ _ => some .fault) ⟨mem.setWindow p (p + n), ⟨none, rf, res⟩,
      if p > mem.typeOffset then { Mode.pintMem with logicalSkip := true } else .pintMem⟩ a) :
    Returns (processMem · (mem.setWindow p (p + n)) rf res .pintClient) a := by
  have hlvl := hrep.lvl_nonneg
  have hprep : (mem.setWindow p (p + n)).prepare ⟨none, rf, res⟩ .pintMem =
      some (mem.setWindow p (p + n)) := by
    unfold RequestState.prepare
    rw [if_neg (show ¬ (mem.setWindow p (p + n)).lvl < 0 by simp only [RequestState.setWindow]; omega)]
    rfl
  obtain ⟨hr1, hr2⟩ := hr
  have hb := hh.bytes
  have hs := hh.segs
  obtain ⟨hsm, hbm⟩ := hh.budget
  exact processWith_of_loop _ rfl hprep (by simp only; omega) (by simp only; omega)
    (by simp only; omega) h

/-- The nested call yields the places of the next bytes in memory. -/
theorem processMem_spec (hm : m.Wf) (hat : MemAt m mem pos) (hp : pos ≤ p) (hn : 0 < n)
    (hle : p + n ≤ m.aggregateSize) (rf : RequestFileData) (hh : res.Holds b bs)
    (hr : Room b bs n) :
    ∃ mem' sh', Returns (processMem · (mem.setWindow p (p + n)) rf res .pintClient)
        (.ret 0 mem' sh') ∧ MemAt m mem' (p + n) ∧ sh'.rfdata = rf ∧
      sh'.result.Holds b (bs ++ ((m.stream 1).drop p.toNat).take n.toNat) := by
  obtain ⟨h0, hto, hrest⟩ := hat
  obtain ⟨P, hrep, hpos, hP⟩ := hrest (by omega)
  have hlen := hm.length_stream (show (0 : Int) ≤ 1 by decide)
  have hlenP : (expand P).length = m.aggregateSize - pos := by
    rw [hP, length_drop]
    omega
  have hroom0 : Room b bs 0 := by
    obtain ⟨h1, h2⟩ := hr
    exact ⟨by omega, by omega⟩
  -- the loop, once the state stands at the start of the window
  have hgo : ∀ (st : ProcLoop) (P' : List (Int × Int)), st.mode = .pintMem → st.req.Rep P' →
      Positive P' → st.req.typeOffset = p → st.req.finalOffset = p + n →
      expand P' = (m.stream 1).drop p.toNat → st.sh.rfdata = rf → st.sh.result.Holds b bs →
      ∃ mem' sh', Leaves (processBody fun _ _ _ _ _ => some .fault) st (.ret 0 mem' sh') ∧
        MemAt m mem' (p + n) ∧ sh'.rfdata = rf ∧
        sh'.result.Holds b (bs ++ ((m.stream 1).drop p.toNat).take n.toNat) := by
    intro st P' hmode hrep' hpos' hto' hfi' hP' hrf hh'
    have hlenP' : (expand P').length = m.aggregateSize - p := by
      rw [hP', length_drop]
      omega
    have hn' : p + n - p = n := by omega
    obtain ⟨req', sh', hleave, hto1, hrf1, hh1, hrest1⟩ := memLoop_spec _ P' st p bs hmode hrep'
      hpos' hto' hfi' (by omega) (by omega) hh' (by rwa [hn'])
    rw [hn', hP'] at hh1 hrest1
    refine ⟨req', sh', hleave, ⟨by omega, hto1, fun hlt => ?_⟩, hrf1.trans hrf, hh1⟩
    obtain ⟨P1, hrep1, hpos1, hP1⟩ := hrest1 (by rw [← hP']; omega)
    refine ⟨P1, hrep1, hpos1, ?_⟩
    rw [hP1, drop_drop]
    congr 1
    omega
  rcases Int.lt_or_eq_of_le hp with hlt | rfl
  · have hscratch : ∀ {sh : Shared} (k : Int), (sh.rfdata = rf ∧ sh.result.Holds b bs) →
        ¬ sh.result.full .pintMem → (sh.scratch .pintMem (k - p)).rfdata = rf ∧
          (sh.scratch .pintMem (k - p)).result.Holds b bs :=
      fun _ ⟨hrf, hh⟩ _ => ⟨hrf, hh.setScratch _⟩
    obtain ⟨st1, P1, hm1, hrep1, hpos1, hP1, hto1, hsame1, ⟨hrf1, hh1⟩, -, hthen⟩ :=
      processLoop_skip (fun _ _ _ _ _ => some .fault) (fun ⟨_, h⟩ => h.within) hscratch P
        ⟨mem.setWindow p (p + n), ⟨none, rf, res⟩, { Mode.pintMem with logicalSkip := true }⟩ pos
        rfl rfl (hrep.congr rfl rfl rfl) hpos hto rfl rfl hp (show p < p + n by omega)
        (show p < pos + ((expand P).length : Int) by omega) ⟨rfl, hh⟩
        (hroom0.not_full hh (le_refl _) _)
    obtain ⟨mem', sh', hleave, h⟩ := hgo st1 P1 hm1 hrep1 hpos1 hto1 hsame1.finalOffset
      (by rw [hP1, hP, drop_drop]; congr 1; omega) hrf1 hh1
    refine ⟨mem', sh', processMem_of_loop hrep hh hroom0 ?_, h⟩
    rw [if_pos (by omega)]
    exact hthen _ hleave
  · obtain ⟨mem', sh', hleave, h⟩ := hgo ⟨mem.setWindow pos (pos + n), ⟨none, rf, res⟩, .pintMem⟩ P
      rfl (hrep.congr rfl rfl rfl) hpos hto rfl hP rfl hh
    refine ⟨mem', sh', processMem_of_loop hrep hh hroom0 ?_, h⟩
    rw [if_neg (by omega)]
    exact hleave

theorem processMem_behind (hat : MemAt m mem pos) (hpos : pos < m.aggregateSize) (hn : 0 ≤ n)
    (hle : p + n ≤ pos) (rf : RequestFileData) (hh : res.Holds b bs) (hr : Room b bs 0) :
    ∃ mem' sh', Returns (processMem · (mem.setWindow p (p + n)) rf res .pintClient)
        (.ret 0 mem' sh') ∧ mem'.typeOffset = p + n ∧ sh'.rfdata = rf ∧
      sh'.result.Holds b bs := by
  obtain ⟨-, hto, hrest⟩ := hat
  obtain ⟨P, hrep, hposP, -⟩ := hrest hpos
  obtain ⟨c, rest, rfl⟩ := exists_cons_of_ne_nil hrep.ne_nil
  obtain ⟨mem', sh', hleave, h⟩ := memLoop_behind (fun _ _ _ _ _ => some .fault)
    ⟨mem.setWindow p (p + n), ⟨none, rf, res⟩, .pintMem⟩ rfl (hrep.congr rfl rfl rfl)
    hposP.head hto rfl hle hh hr
  refine ⟨mem', sh', processMem_of_loop hrep hh hr ?_, h⟩
  rw [if_neg (by omega)]
  exact hleave

theorem processMem_past (hm : m.Wf) (hat : MemAt m mem pos) (hpos : pos < m.aggregateSize)
    (hn : 0 < n) (hle : m.aggregateSize ≤ p) (rf : RequestFileData) (hh : res.Holds b bs)
    (hr : Room b bs 0) :
    ∃ mem' sh', Returns (processMem · (mem.setWindow p (p + n)) rf res .pintClient)
        (.ret 0 mem' sh') ∧ mem'.typeOffset = m.aggregateSize ∧ sh'.rfdata = rf ∧
      sh'.result.segs = res.segs ∧ sh'.result.Holds b bs := by
  obtain ⟨h0, hto, hrest⟩ := hat
  obtain ⟨P, hrep, hposP, hP⟩ := hrest hpos
  have hlen := hm.length_stream (show (0 : Int) ≤ 1 by decide)
  have hlenP : (expand P).length = m.aggregateSize - pos := by
    rw [hP, length_drop]
    omega
  obtain ⟨mem', sh', hleave, hto', h⟩ := memLoop_past (fun _ _ _ _ _ => some .fault) P
    ⟨mem.setWindow p (p + n), ⟨none, rf, res⟩, { Mode.pintMem with logicalSkip := true }⟩ pos bs
    rfl (hrep.congr rfl rfl rfl) hposP hto rfl rfl
    (show pos + ((expand P).length : Int) ≤ p by omega) (show p < p + n by omega) hh hr
  refine ⟨mem', sh', processMem_of_loop hrep hh hr ?_, by omega, h⟩
  rw [if_pos (by omega)]
  exact hleave

end

end Pvfs.Description
