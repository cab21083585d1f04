import Pvfs.Description.Segments
import Pvfs.Description.Typemap

/-! # One copy of a type on one server

On the one server of a basic file that may grow, distributing a region is adding it as a
segment, and a call with room for everything adds the chunks of the request one by one.
There are two exceptions, both for the offset `-1`, which `PINT_distribute` takes for an
error of the distribution: a region that starts there makes the call forget what it has
written, and a region that ends there fails an assertion.

So the run over one copy of a type emits its typemap exactly when the decoder's contiguity
tests are right about every type they are asked about and no chunk touches `-1` from outside. -/

namespace Pvfs.Description

open Pvfs.Lib Shared

/-- A file of the basic distribution, seen from its one server, that may grow. -/
structure RequestFileData.OneServer (rf : RequestFileData) : Prop where
  dist : rf.dist = .basic
  serverCt : rf.serverCt = 1
  extendFlag : rf.extendFlag = true

namespace RequestFileData.OneServer

variable {rf : RequestFileData} (h : rf.OneServer)
include h

theorem nextMappedOffset (x : Int) : rf.nextMappedOffset x = x := by
  rw [RequestFileData.nextMappedOffset, h.dist]
  rfl

theorem logicalToPhysicalOffset (x : Int) : rf.logicalToPhysicalOffset x = x := by
  rw [RequestFileData.logicalToPhysicalOffset, h.dist]
  rfl

theorem clipEof (poff sz : Int) :
    ∃ rf', Description.clipEof rf poff sz = (rf', sz, false) ∧ rf'.OneServer := by
  unfold Description.clipEof
  split
  · rw [if_pos h.extendFlag]
    exact ⟨_, rfl, h.dist, h.serverCt, h.extendFlag⟩
  · exact ⟨rf, rfl, h⟩

theorem fragment {res : RequestResult} {loff rest : Int} (hb : res.bytes + rest ≤ res.bytemax) :
    rf.fragment res loff rest = rest := by
  unfold RequestFileData.fragment
  simp only [h.serverCt, ne_eq, not_true_eq_false, and_false, if_false]
  rw [if_neg (by omega)]

end RequestFileData.OneServer

/-- A segment is added to the result. -/
def Shared.add (sh : Shared) (rf : RequestFileData) (offset size : Int) : Shared :=
  { sh with rfdata := rf, result := sh.result.addSegment offset size .pintServer }

section
variable {sh : Shared} (offset : Int) {size : Int}
variable (h : sh.rfdata.OneServer)
include h

theorem distribute_at_error (hfull : ¬ sh.result.full .pintServer) (hsize : 0 < size)
    (ho : offset = -1) : Returns (distribute · offset size sh .pintServer) (.ret (-1) sh false) := by
  refine .always fun fuel => ?_
  unfold distribute
  rw [if_neg (by rintro (h | h); exacts [hfull h, by omega]), h.nextMappedOffset]
  simp only [if_pos ho]

section
variable (hsize : 0 < size) (hb : sh.result.bytes + size ≤ sh.result.bytemax)
include hsize hb

theorem distributeBody_oneServer :
    ∃ rf', rf'.OneServer ∧
      Returns (distributeBody .pintServer · ⟨offset, size, offset, sh, false⟩)
        (if offset + size = -1 then .leave none
          else if (sh.add rf' offset size).result.full .pintServer then
            .leave (some ⟨offset + size, 0, offset + size, sh.add rf' offset size, false⟩)
          else .again ⟨offset + size, 0, offset + size, sh.add rf' offset size, false⟩) := by
  obtain ⟨rf', hclip, hone⟩ := h.clipEof offset size
  refine ⟨rf', hone, ?_⟩
  refine .always fun fuel => ?_
  have hemit : emit .pintServer fuel { sh with rfdata := rf' } 0 offset size =
      some (.added size (sh.add rf' offset size)) := rfl
  have hscratch : (sh.add rf' offset size).rescratch .pintServer = sh.add rf' offset size := rfl
  have hnext : (sh.add rf' offset size).rfdata.nextMappedOffset (offset + size) = offset + size :=
    hone.nextMappedOffset _
  simp only [distributeBody, Int.sub_self, if_pos hsize, h.logicalToPhysicalOffset, Int.sub_zero,
    h.fragment hb, hclip, Bool.false_eq_true, false_and, if_false, Bool.or_false, hemit,
    Option.map_some]
  simp only [DistLoop.advance, hscratch, hnext, if_neg (show ¬ size < 1 by omega)]
  congr 2
  rw [show size - (offset + size - offset) = 0 by omega]

theorem distribute_to_error (hfull : ¬ sh.result.full .pintServer) (ho : offset + size = -1) :
    Returns (distribute · offset size sh .pintServer) .fault := by
  obtain ⟨rf', -, hturn⟩ := distributeBody_oneServer offset h hsize hb
  rw [if_pos ho] at hturn
  refine (Leaves.last hturn).returns.map fun n hn => ?_
  simp only [distribute]
  rw [if_neg (by rintro (h | h); exacts [hfull h, by omega]), h.nextMappedOffset,
    if_neg (by omega), hn]
  rfl

theorem distribute_oneServer (hfull : ¬ sh.result.full .pintServer) (ho : offset ≠ -1)
    (hend : offset + size ≠ -1) :
    ∃ rf', rf'.OneServer ∧ Returns (distribute · offset size sh .pintServer)
      (.ret size (sh.add rf' offset size) false) := by
  obtain ⟨rf', hone, hturn⟩ := distributeBody_oneServer offset h hsize hb
  rw [if_neg hend] at hturn
  refine ⟨rf', hone, ?_⟩
  have hleave : Leaves (distributeBody .pintServer) ⟨offset, size, offset, sh, false⟩
      (some ⟨offset + size, 0, offset + size, sh.add rf' offset size, false⟩) := by
    split at hturn
    · exact Leaves.last hturn
    · exact Leaves.turn hturn (distributeBody_end (by simp))
  have heof : DistLoop.atEof ⟨offset + size, 0, offset + size, sh.add rf' offset size, false⟩ =
      false := by
    simp [DistLoop.atEof, add, hone.extendFlag]
  refine hleave.returns.map fun n hn => ?_
  simp only [distribute]
  rw [if_neg (by rintro (h | h); exacts [hfull h, by omega]), h.nextMappedOffset, if_neg ho, hn]
  simp only [Option.map_some, heof, ge_iff_le, le_refl, if_true]

end

end

/-! ## The loop over the chunks -/

/-- A region neither starts nor ends at `-1`. -/
def Clear (_ offset size : Int) : Prop := offset ≠ -1 ∧ offset + size ≠ -1

/-- The call faults, or finds no segment. -/
def Processed.Lost (p : Processed) : Prop :=
  p = .fault ∨ ∃ req sh, p = .ret 0 req sh ∧ sh.result.segs = 0

/-- How a call with budget `b` ends that has written `bs` and still has the bytes `rest` to
write. -/
def Processed.Finished (b : Nat × Int) (bs rest : List Int) (p : Processed) : Prop :=
  ∃ req sh, p = .ret 0 req sh ∧ sh.result.Holds b (bs ++ rest)

theorem processBody_lost {c : Int × Int} (st : ProcLoop) {lvlFlag : Bool} {size : Int}
    (hmode : st.mode = .pintServer) (hdec : st.req.decode = .chunk c.1 c.2 lvlFlag)
    (hsize : (if st.req.typeOffset + c.2 > st.req.finalOffset then
      st.req.finalOffset - st.req.typeOffset else c.2) = size) (hpos : 0 < size)
    (h : st.sh.rfdata.OneServer) (hfull : ¬ st.sh.result.full .pintServer)
    (hb : st.sh.result.bytes + size ≤ st.sh.result.bytemax) (hbad : ¬ Clear 0 c.1 size) :
    ∃ p, Leaves (processBody distribute) st p ∧ p.Lost := by
  have hsh : st.scratched = st.sh := by
    rw [ProcLoop.scratched, hmode]
    rfl
  have hmem : Mode.pintServer.memreq = false := rfl
  have hskip : Mode.pintServer.logicalSkip = false := rfl
  by_cases ho : c.1 = -1
  · refine ⟨.ret 0 { st.req with typeOffset := st.req.finalOffset, eofFlag := false }
        { st.sh with result := { st.sh.result with segs := 0, bytes := 0 } },
      Leaves.last ((distribute_at_error c.1 h hfull hpos ho).map fun fuel hf => ?_),
      .inr ⟨_, _, rfl, rfl⟩⟩
    simp only [processBody, hdec, hmode, hskip, hmem, Bool.false_eq_true, if_false, hsh, hsize, hf,
      Option.map_some, if_true]
  · have hend : c.1 + size = -1 := by
      by_contra hne
      exact hbad ⟨ho, hne⟩
    refine ⟨_, Leaves.last ((distribute_to_error c.1 h hpos hb hfull hend).map fun fuel hf => ?_),
      .inl rfl⟩
    simp only [processBody, hdec, hmode, hskip, hmem, Bool.false_eq_true, if_false, hsh, hsize, hf,
      Option.map_some]

@[simp] theorem Shared.scratch_server (sh : Shared) (o : Int) : sh.scratch .pintServer o = sh := rfl

variable {final : Int}

theorem regions_past {Reg : Int → Int → Int → Prop} (P : List (Int × Int)) {k : Int}
    (hpos : Positive P) (hk : final ≤ k) : Regions Reg final k P := by
  induction P generalizing k with
  | nil => trivial
  | cons c rest ih =>
    have hc := hpos.head
    exact ⟨fun h => absurd h (by omega), ih hpos.tail (by omega)⟩

theorem oneServer_loop {b : Nat × Int} (hsm : final ≤ b.1) (hbm : final ≤ b.2) (P : List (Int × Int)) :
    ∀ (st : ProcLoop) (k : Int) (bs : List Int), st.mode = .pintServer → st.req.Rep P →
      Positive P → st.req.typeOffset = k → st.req.finalOffset = final → k < final →
      final ≤ k + (expand P).length → st.sh.rfdata.OneServer → st.sh.result.Holds b bs →
      (bs.length : Int) = k →
      ∃ p, Leaves (processBody distribute) st p ∧
        (Regions Clear final k P ∧ p.Finished b bs ((expand P).take (final - k).toNat) ∨
          ¬ Regions Clear final k P ∧ p.Lost) := by
  induction P with
  | nil =>
    intro st k bs _ _ _ _ _ hkf hlen
    simp at hlen
    omega
  | cons c rest ih =>
    intro st k bs hmode hrep hpos hto hfi hkf hlen hone hholds hk
    rw [length_expand_cons] at hlen
    have hc := hpos.head
    have hbytes := hholds.bytes
    have hsegs := hholds.segs
    obtain ⟨hbud1, hbud2⟩ := hholds.budget
    have hfull : ¬ st.sh.result.full .pintServer := by
      rintro (h | ⟨-, h⟩) <;> omega
    obtain ⟨size, hsize⟩ : ∃ size, (if k + c.2 > final then final - k else c.2) = size := ⟨_, rfl⟩
    have hsz : 0 < size ∧ size ≤ c.2 ∧ k + size ≤ final ∧ (size = c.2 ∨ k + size = final) := by
      split at hsize <;> omega
    by_cases hclear : Clear 0 c.1 size
    · obtain ⟨rf', hone', hret⟩ := distribute_oneServer c.1 hone hsz.1 (by omega) hfull hclear.1
        hclear.2
      obtain ⟨hholds', -⟩ := hholds.addSegment c.1 rfl hsz.1 hfull (by omega)
      obtain ⟨req1, hsame, hto1, -, hturned⟩ := turn_serve hrep (by rw [hmode]; rfl) (by rw [hmode]; rfl)
        (show size ≠ -1 by omega)
        (by simpa only [ProcLoop.scratched, hto, hfi, hmode, hsize, scratch_server] using hret)
        hholds'.within
      have hfirst : Regions Clear final k (c :: rest) ↔ Regions Clear final (k + c.2) rest := by
        refine ⟨fun h => h.2, fun h => ⟨fun _ => ?_, h⟩⟩
        rw [hsize]
        exact hclear
      have hlen' : ((bs ++ run c.1 size.toNat).length : Int) = k + size := by
        rw [List.length_append, length_run]
        omega
      have hlast : k + size = final → Leaves (processBody distribute) st
          (.ret 0 req1 (st.sh.add rf' c.1 size)) → ∃ p, Leaves (processBody distribute) st p ∧
          (Regions Clear final k (c :: rest) ∧ p.Finished b bs ((expand (c :: rest)).take (final - k).toNat) ∨
            ¬ Regions Clear final k (c :: rest) ∧ p.Lost) := by
        intro hfin hleave
        refine ⟨_, hleave, .inl ⟨hfirst.mpr (regions_past _ hpos.tail (by omega)), _, _, rfl, ?_⟩⟩
        rw [show (final - k).toNat = size.toNat by omega, take_expand (by omega)]
        exact hholds'
      cases hturned with
      | within hne _ hleave => exact hlast (by omega) hleave
      | ended hwhole hend hleave =>
        refine hlast ?_ hleave
        rcases hend with rfl | ⟨-, hfull' | hge⟩
        · simp at hlen
          omega
        · have hb' := hholds'.bytes
          have hs' := hholds'.segs
          obtain ⟨hbud1', hbud2'⟩ := hholds'.budget
          simp only [add] at hfull'
          rcases hfull' with h | ⟨-, h⟩ <;> omega
        · omega
      | again hwhole hrep1 _ hlt hgo =>
        subst hwhole
        obtain ⟨p, hleave, hout⟩ := ih ⟨req1, st.sh.add rf' c.1 c.2, st.mode⟩ (k + c.2) _ hmode
          hrep1 hpos.tail (by rw [hto1, hto]) (hsame.finalOffset.trans hfi) (by omega) (by omega) hone'
          hholds' hlen'
        refine ⟨p, hgo p hleave, ?_⟩
        rw [hfirst, show (final - k).toNat = c.2.toNat + (final - (k + c.2)).toNat by omega,
          take_expand_add]
        simpa only [Processed.Finished, List.append_assoc] using hout
    · obtain ⟨req, flag, hready, hrun, hgo⟩ := settle distribute _ st (Int.self_le_toNat _) hrep
      obtain ⟨p, hleave, hlost⟩ := processBody_lost { st with req := req } hmode hready.decode
        (by simp only [hrun.typeOffset, hrun.finalOffset, hto, hfi, hsize]) hsz.1 hone hfull
        (by simp only; omega) hclear
      refine ⟨p, hgo p hleave, .inr ⟨fun hreg => hclear ?_, hlost⟩⟩
      have := hreg.1 hkf
      rwa [hsize] at this

/-! ## One copy -/

theorem regions_exact (P Q : List (Int × Int)) {k : Int} (hP : Positive P) (hQ : Positive Q)
    (hk : k + (expand P).length = final) :
    Regions Clear final k (P ++ Q) ↔ ∀ c ∈ P, Clear 0 c.1 c.2 := by
  induction P generalizing k with
  | nil =>
    refine ⟨fun _ c hc => absurd hc List.not_mem_nil, fun _ => regions_past Q hQ ?_⟩
    simp at hk
    omega
  | cons c rest ih =>
    have hc := hP.head
    rw [length_expand_cons] at hk
    rw [List.cons_append, Regions, ih hP.tail (by omega), List.forall_mem_cons,
      if_neg (by omega)]
    exact and_congr_left fun _ => ⟨fun h => h (by omega), fun h _ => h⟩

/-- No chunk of one copy starts or ends at `-1`. -/
def Request.ChunksClear (r : Request) : Prop := ∀ c ∈ r.tiles 0 1, c.1 ≠ -1 ∧ c.1 + c.2 ≠ -1

instance (r : Request) : Decidable r.ChunksClear :=
  inferInstanceAs (Decidable (∀ c ∈ r.tiles 0 1, _))

theorem Request.Wf.regions_one {r : Request} (h : r.Wf) {n : Int} (hn : 0 < n) :
    Regions Clear r.aggregateSize 0 (r.tiles 0 n) ↔ r.ChunksClear := by
  have ha := h.aggregateSize_pos
  unfold ChunksClear
  by_cases hw : r.isWhole = true
  · simp only [tiles, hw, if_true, List.mem_singleton, forall_eq, Regions, and_true]
    have hle : 1 * r.aggregateSize ≤ n * r.aggregateSize :=
      Int.mul_le_mul_of_nonneg_right (by omega) (by omega)
    have hsize : (if 0 + n * r.aggregateSize > r.aggregateSize then r.aggregateSize - 0
        else n * r.aggregateSize) = 1 * r.aggregateSize := by
      split <;> omega
    rw [hsize]
    exact ⟨fun h => h ha, fun h _ => h⟩
  · have hne := ereq_ne_null_of_not_whole (by simpa using hw)
    have hpos := h.chain_positive hne (0 + 0 * r.extent)
    simp only [tiles, hw, Bool.false_eq_true, if_false]
    rw [copies_of_lt hn, copies_of_lt (show (0 : Int) < 1 by decide),
      copies_of_ge (show (1 : Int) ≤ 0 + 1 by decide), List.append_nil,
      regions_exact _ _ hpos _ (by rw [h.length_chain hne]; omega)]
    · rfl
    · intro c hc
      obtain ⟨i, hi⟩ := mem_copies hc
      exact h.chain_positive hne _ c hi

section
variable {r : Request} {sh : Shared} {b : Nat × Int}

theorem oneCopy_call (hr : r.Wf) (hone : sh.rfdata.OneServer) (hsm : r.aggregateSize ≤ b.1)
    (hbm : r.aggregateSize ≤ b.2) :
    ∃ p, Returns (processRequest · (.new r) { sh with result := sh.result.reset b.1 b.2 }
        .pintServer) p ∧
      (r.ChunksClear ∧ p.Finished b [] (r.stream 1) ∨ ¬ r.ChunksClear ∧ p.Lost) := by
  have ha := hr.aggregateSize_pos
  obtain ⟨work, hprep, hsus, hto, hrep⟩ := RequestState.opened_prepare
    { sh with result := sh.result.reset b.1 b.2 } .pintServer hr rfl (le_refl 0) ha
  obtain ⟨hn, hlen⟩ := hr.lt_length_stream (Int.le_of_lt ha)
  obtain ⟨p, hleave, hout⟩ := oneServer_loop hsm hbm (r.tiles 0 (r.copiesFor r.aggregateSize))
    ⟨work, { sh with result := sh.result.reset b.1 b.2 }, .pintServer⟩ 0 [] rfl hrep
    (hr.tiles_positive 0 hn) hto hsus.finalOffset ha (by simp only [Request.stream] at hlen; omega)
    hone (RequestResult.Holds.reset _ (by omega)) rfl
  rw [hr.regions_one hn, show (expand (r.tiles 0 (r.copiesFor r.aggregateSize))).take
    (r.aggregateSize - 0).toNat = r.stream 1 from hr.window_one] at hout
  refine ⟨p, processWith_of_loop _ rfl hprep (show 0 < b.1 by omega) (show 0 < b.2 by omega)
    (show 0 < b.2 by omega) ?_, hout⟩
  rw [if_neg (by rw [hto, hsus.targetOffset]; exact lt_irrefl 0)]
  exact hleave

/-- **Typemap correctness.**  The call over one copy of a type emits the typemap exactly when
every type the contiguity tests accept is contiguous and no chunk starts or ends at `-1`. -/
theorem oneCopy_emits_typemap_iff (hr : r.Built fun _ => True) (hone : sh.rfdata.OneServer)
    (hsm : r.aggregateSize ≤ b.1) (hbm : r.aggregateSize ≤ b.2) :
    (∃ req' sh', Returns (processRequest · (.new r)
        { sh with result := sh.result.reset b.1 b.2 } .pintServer) (.ret 0 req' sh') ∧
      expand sh'.result.segments = r.typemap 0) ↔
    r.ShortcutsSound ∧ r.ChunksClear := by
  have hwf := hr.wf
  have ha := hwf.aggregateSize_pos
  have hstream := hwf.stream_eq_iff Nat.one_pos
  rw [Request.typeStream_one] at hstream
  obtain ⟨p, hret, hout⟩ := oneCopy_call hwf hone hsm hbm
  constructor
  · rintro ⟨req', sh', hret', hmap⟩
    have hp := hret.unique hret'
    subst hp
    rcases hout with ⟨hclear, req₁, sh₁, heq, hholds⟩ | ⟨-, hlost⟩
    · obtain ⟨-, rfl, rfl⟩ := Processed.ret.inj heq
      exact ⟨hstream.mp (hholds.segments.symm.trans hmap), hclear⟩
    · -- what was lost cannot be the typemap, which is not empty
      have hlen := hwf.length_typemap 0
      obtain hf | ⟨req₁, sh₁, heq, hsegs⟩ := hlost
      · cases hf
      · obtain ⟨-, rfl, rfl⟩ := Processed.ret.inj heq
        rw [← hmap, RequestResult.segments, hsegs] at hlen
        simp at hlen
        omega
  · rintro ⟨hsound, hclear⟩
    obtain ⟨-, req', sh', rfl, hholds⟩ := hout.resolve_right fun h => h.1 hclear
    exact ⟨req', sh', hret, hholds.segments.trans (hstream.mpr hsound)⟩

end

/-- The caller's structures for one server of a file that may grow. -/
def Shared.oneServer : Shared := fresh ⟨0, 0, 1, .basic, true⟩

theorem Shared.oneServer_rfdata : oneServer.rfdata.OneServer := ⟨rfl, rfl, rfl⟩

/-- Two integers out of four, with the gap between them left out. -/
theorem oneCopy_emits_typemap_vector :
    ∃ r, Request.vector 2 1 2 .pintInt = some r ∧ r.typemap 0 = [0, 1, 2, 3, 8, 9, 10, 11] ∧
      ∃ req' sh', Returns (processRequest · (.new r)
          { oneServer with result := oneServer.result.reset 8 8 } .pintServer)
          (.ret 0 req' sh') ∧
        expand sh'.result.segments = r.typemap 0 :=
  ⟨_, rfl, by decide, (oneCopy_emits_typemap_iff (b := (8, 8))
    (@Request.Built.vector _ 2 1 2 .pintInt _ (by decide) (by decide) trivial
      (.elementary (by decide)) rfl)
    oneServer_rfdata (by decide) (by decide)).mpr ⟨by decide, by decide⟩⟩

/-- Two integers, the second of them first: size and extent agree, so the whole type passes for
contiguous, and the call reads on behind the first integer instead of going back. -/
theorem oneCopy_indexed_not_typemap :
    ∃ r, Request.indexed [(1, 1), (1, 0)] .pintInt = some r ∧
      (∃ req' sh', Returns (processRequest · (.new r)
          { oneServer with result := oneServer.result.reset 8 8 } .pintServer)
          (.ret 0 req' sh') ∧
        expand sh'.result.segments = [4, 5, 6, 7, 8, 9, 10, 11]) ∧
      r.typemap 0 = [4, 5, 6, 7, 0, 1, 2, 3] ∧
      ¬ ∃ req' sh', Returns (processRequest · (.new r)
          { oneServer with result := oneServer.result.reset 8 8 } .pintServer)
          (.ret 0 req' sh') ∧
        expand sh'.result.segments = r.typemap 0 := by
  refine ⟨_, rfl, ?_⟩
  have hb := @Request.Built.indexed (fun _ => True) [(1, 1), (1, 0)] .pintInt _ (by decide)
    (by decide) (.elementary (by decide)) rfl
  obtain ⟨p, hret, hout⟩ := oneCopy_call (b := (8, 8)) hb.wf oneServer_rfdata (by decide)
    (by decide)
  obtain ⟨-, req', sh', rfl, hholds⟩ := hout.resolve_right fun h => h.1 (by decide)
  have hsegs : expand sh'.result.segments = [4, 5, 6, 7, 8, 9, 10, 11] :=
    hholds.segments.trans (by decide)
  refine ⟨⟨req', sh', hret, hsegs⟩, by decide, ?_⟩
  rintro ⟨req₁, sh₁, hret₁, hmap⟩
  obtain ⟨-, rfl, rfl⟩ := Processed.ret.inj (hret.unique hret₁)
  rw [hsegs] at hmap
  exact absurd hmap (by decide)

end Pvfs.Description
