import Pvfs.Description.Memory

/-! # Memory types laid out in place

When does a client find the right places in memory? For one transfer it is enough that
each strip of the server, but for the last one, ends with a byte that lies in memory where it
lies in the type. A memory type gets through *every* transfer only if all its bytes do, but
for the last two: of those the second to last can only end the last strip, and the last one
cannot end a strip before another one. -/

namespace Pvfs.Description

open Pvfs.Lib List Request RequestFileData Description.Dist

theorem Request.Wf.typeWindow_contig {f : Request} (h : f.Wf) (hc : f.Contig)
    (hx : f.aggregateSize = f.extent) {target final : Int} (h0 : 0 ≤ target)
    (htf : target < final) :
    f.typeWindow target final = run (f.offset + f.disp + target) (final - target).toNat := by
  obtain ⟨hn, hlen⟩ := h.lt_length_stream (show 0 ≤ final by omega)
  have hsum := h.length_stream (show 0 ≤ f.copiesFor final by omega)
  have hstream := (elements_contig_iff h hx 0 (n := (f.copiesFor final).toNat) (by omega)).mpr hc
  have ha := h.aggregateSize_pos
  have hcast : (((f.copiesFor final).toNat * f.aggregateSize.toNat : Nat) : Int) =
      f.copiesFor final * f.aggregateSize := by
    push_cast
    rw [Int.toNat_of_nonneg (by omega), Int.toNat_of_nonneg (by omega)]
  rw [typeWindow, typeStream_eq_elements, ← hstream, drop_run, take_run]
  congr 1 <;> omega

theorem Request.Wf.stream_one_of_sound {m : Request} (hm : m.Wf) (hsound : m.ShortcutsSound) :
    m.stream 1 = m.typemap 0 := by
  rw [← typeStream_one]
  exact (hm.stream_eq_iff Nat.one_pos).mpr hsound

/-- A contiguous piece of a striped file, in reach of the distribution, that fits into one copy of
the memory type `m`, and room for all of it. -/
structure Transfer (m : Request) where
  file : Request
  strip : Int
  serverNr : Nat
  serverCt : Nat
  target : Int
  final : Int
  budget : Nat × Int
  built : file.Built fun _ => True
  contig : file.Contig ∧ file.aggregateSize = file.extent
  strip_pos : 0 < strip
  nr_lt : serverNr < serverCt
  target_nonneg : 0 ≤ target
  target_lt : target < final
  fits : final - target ≤ m.aggregateSize
  room : final - target < budget.1 ∧ final - target < budget.2
  reach : ∀ x ∈ file.typeWindow target final, 0 ≤ x ∧ x < stripeLimit strip serverCt

namespace Transfer

variable {m : Request}

/-- The file data of a transfer. -/
def rfdata (t : Transfer m) : RequestFileData := .striped t.strip t.serverNr t.serverCt

/-- The bytes of the transfer that live on the server, each with its position. -/
def visited (t : Transfer m) : List (Int × Int) :=
  visit t.rfdata.visible t.target (t.file.typeWindow t.target t.final)

/-- The client's run for the server emits, for each byte of the transfer that lives there, the
place in memory of the byte of the memory type at the same position. -/
def MapsMemory (t : Transfer m) : Prop :=
  ∃ req' sh', Returns (processRequest · (.opened t.file t.target t.final)
      (.withMemory m t.strip t.serverNr t.serverCt t.budget) .pintClient) (.ret 0 req' sh') ∧
    req'.done = true ∧
    expand sh'.result.segments = t.visited.map (memByte (m.typemap 0) t.target)

/-- A byte that ends a strip of the server, with more bytes of the server behind it, lies in
memory where it lies in the type. -/
def StripsInPlace (t : Transfer m) : Prop :=
  ∀ q ∈ t.visited, ¬ t.rfdata.Mapped (q.2 + 1) → (∃ q' ∈ t.visited, q.1 < q'.1) →
    memByte (m.typemap 0) t.target q = q.1 - t.target

variable (t : Transfer m)

theorem window_eq : t.file.window t.target t.final = t.file.typeWindow t.target t.final :=
  t.built.wf.window_eq_typeWindow (t.built.wf.shortcutsSound_of_contig t.contig.1) _
    (Int.le_of_lt (Int.lt_of_le_of_lt t.target_nonneg t.target_lt))

theorem typeWindow_eq : t.file.typeWindow t.target t.final =
    run (t.file.offset + t.file.disp + t.target) (t.final - t.target).toNat :=
  t.built.wf.typeWindow_contig t.contig.1 t.contig.2 t.target_nonneg t.target_lt

theorem mem_visited {q : Int × Int} :
    q ∈ t.visited ↔ t.target ≤ q.1 ∧ q.1 < t.final ∧ q.2 = t.file.offset + t.file.disp + q.1 ∧
      t.rfdata.Mapped q.2 := by
  rw [visited, visit, mem_filter, t.typeWindow_eq, mem_numbered_run,
    visible_eq_true]
  constructor
  · rintro ⟨⟨hge, hlt', hq⟩, hmap, -⟩
    exact ⟨hge, by omega, by omega, hmap⟩
  · rintro ⟨hge, hlt', hq, hmap⟩
    exact ⟨⟨hge, by omega, by omega⟩, hmap, .inl rfl⟩

theorem call_of_strips (hm : m.Wf)
    (h : ∀ q ∈ t.visited, ¬ t.rfdata.Mapped (q.2 + 1) → (∃ q' ∈ t.visited, q.1 < q'.1) →
      memByte (m.stream 1) t.target q = q.1 - t.target) :
    ∃ req' sh', Returns (processRequest · (.opened t.file t.target t.final)
        (.withMemory m t.strip t.serverNr t.serverCt t.budget) .pintClient) (.ret 0 req' sh') ∧
      req'.done = true ∧
      expand sh'.result.segments = t.visited.map (memByte (m.stream 1) t.target) := by
  have hbytes : ∀ q ∈ numbered t.target (t.file.window t.target t.final),
      InMemory t.rfdata (stripeLimit t.strip t.serverCt) m t.target t.final q.1 q.2 := by
    intro q hq
    rw [t.window_eq] at hq
    obtain ⟨hnn, hlim⟩ := t.reach q.2 (snd_mem_of_numbered hq)
    rw [t.typeWindow_eq] at hq
    obtain ⟨hge, hlt, hq⟩ := mem_numbered_run.mp hq
    refine ⟨hnn, fun _ => hlim, hge, by omega, fun hmap hnot ⟨j, hj, hjf, hmap'⟩ => ?_⟩
    have hvis' := (t.mem_visited (q := (q.1 + j, q.2 + j))).mpr
      ⟨by simp only; omega, by simp only; omega, by simp only; omega, hmap'⟩
    exact h q (t.mem_visited.mpr ⟨by omega, by omega, by omega, hmap⟩) hnot
      ⟨_, hvis', by simp only; omega⟩
  obtain ⟨req', sh', hret, hdone, hexp⟩ := mem_call t.built.wf hm t.strip_pos t.nr_lt
    t.target_nonneg t.target_lt t.fits t.room.1 t.room.2 hbytes
  rw [t.window_eq] at hexp
  exact ⟨req', sh', hret, hdone, hexp⟩

theorem mapsMemory_of_strips (hm : m.Wf) (hsound : m.ShortcutsSound) (h : t.StripsInPlace) :
    t.MapsMemory := by
  rw [MapsMemory, ← hm.stream_one_of_sound hsound]
  exact t.call_of_strips hm (by rwa [hm.stream_one_of_sound hsound])

end Transfer

/-! ## Where it goes wrong -/

theorem Shared.scratch_scratch (sh : Shared) (mode : Mode) (o o' : Int) :
    (sh.scratch mode o).scratch mode o' = sh.scratch mode o' := by
  unfold Shared.scratch
  split
  · simp only [RequestResult.setScratch, Function.update_idem]
  · rfl

variable {sh' : Shared} {eof : Bool}

theorem chunk_leaves (st : ProcLoop) {c : Int × Int} {rest : List (Int × Int)} {k final ret : Int}
    (hmode : st.mode = .pintClient) (hrep : st.req.Rep (c :: rest))
    (hto : st.req.typeOffset = k) (hfi : st.req.finalOffset = final) (hc : final ≤ k + c.2)
    (hd : Returns (distribute · c.1 (final - k) st.scratched .pintClient) (.ret ret sh' eof))
    (hret : 0 ≤ ret)
    (hb : sh'.result.bytes ≤ sh'.result.bytemax ∧ sh'.result.segs ≤ sh'.result.segmax) :
    ∃ req', Leaves (processBody distribute) st (.ret 0 req' sh') := by
  have hsz : (if k + c.2 > final then final - k else c.2) = final - k := by split <;> omega
  obtain ⟨req1, -, -, -, hturned⟩ := turn_serve hrep (by rw [hmode]; rfl) (by rw [hmode]; rfl)
    (show ret ≠ -1 by omega) (by rw [hto, hfi, hsz, hmode]; exact hd) hb
  cases hturned with
  | within _ _ hleave | ended _ _ hleave => exact ⟨req1, hleave⟩
  | again _ _ _ hlt => omega

theorem byte_call (sh : Shared) (target final : Int) {ret : Int} (h0 : 0 ≤ target)
    (htf : target < final) (hseg : sh.result.segs < sh.result.segmax)
    (hb0 : 0 < sh.result.bytemax) (hb : sh.result.bytes < sh.result.bytemax)
    (hd : Returns (distribute · target (final - target) (sh.scratch .pintClient 0) .pintClient)
      (.ret ret sh' eof)) (hret : 0 ≤ ret)
    (hb' : sh'.result.bytes ≤ sh'.result.bytemax ∧ sh'.result.segs ≤ sh'.result.segmax) :
    ∃ req', Returns (processRequest · (.opened .pintByte target final) sh .pintClient)
      (.ret 0 req' sh') := by
  have hwf : pintByte.Wf :=
    (@Request.Built.elementary (fun _ => True) _ (by decide)).wf
  obtain ⟨work, hprep, hsus, hto, hrep⟩ :=
    RequestState.opened_prepare sh .pintClient hwf rfl h0 htf
  have hcopies : pintByte.copiesFor final = final + 1 := by
    simp [copiesFor, pintByte, elementary]
  have htiles : pintByte.tiles 0 (pintByte.copiesFor final) =
      [(0, final + 1)] := by
    rw [hcopies]
    simp [tiles, isWhole, pintByte, elementary, disp]
    rfl
  rw [htiles] at hrep
  by_cases hlt : 0 < target
  · obtain ⟨req1, hsame, hto1, hrep1, hgo⟩ := skip_part distribute
      ⟨work, sh, { Mode.pintClient with logicalSkip := true }⟩ rfl rfl hrep hto
      hsus.targetOffset (show target < 0 + (final + 1) by omega)
    have hscr : ProcLoop.scratched ⟨req1, sh.scratch .pintClient (0 - target), .pintClient⟩ =
        sh.scratch .pintClient 0 := by
      simp only [ProcLoop.scratched, hto1, hsame.targetOffset, hsus.targetOffset, Int.sub_self,
        Shared.scratch_scratch]
    obtain ⟨req', hleave⟩ := chunk_leaves ⟨req1, sh.scratch .pintClient (0 - target), .pintClient⟩
      rfl hrep1 hto1 (hsame.finalOffset.trans hsus.finalOffset) (by simp only; omega)
      (by rw [hscr, Int.sub_zero, Int.zero_add]; exact hd) hret hb'
    refine ⟨req', processWith_of_loop distribute rfl hprep hseg hb0 hb ?_⟩
    rw [hsus.targetOffset, hto, if_pos (by omega)]
    exact hgo _ hleave
  · have htz : target = 0 := by omega
    subst htz
    have hscr : ProcLoop.scratched ⟨work, sh, .pintClient⟩ = sh.scratch .pintClient 0 := by
      simp only [ProcLoop.scratched, hto, hsus.targetOffset, Int.sub_self]
    obtain ⟨req', hleave⟩ := chunk_leaves ⟨work, sh, .pintClient⟩ rfl hrep hto
      hsus.finalOffset (by simp only; omega) (by rw [hscr]; exact hd) hret hb'
    refine ⟨req', processWith_of_loop distribute rfl hprep hseg hb0 hb ?_⟩
    rw [hsus.targetOffset, hto]
    exact hleave

/-! ### Every other byte

Two servers with strips of one byte: the first server holds the even bytes of the file. -/

section
variable {m : Request} {b : Nat × Int}

/-- The first of two servers, in strips of one byte. -/
abbrev firstOfTwo : RequestFileData := .striped 1 0 2

theorem firstOfTwo_lawful : firstOfTwo.Lawful (stripeLimit 1 2) :=
  striped_lawful Int.one_pos Nat.two_pos

theorem mapped_even {x : Int} (hx : 0 ≤ x) :
    firstOfTwo.Mapped x ↔ x % 2 = 0 := by
  have h := mapped_stripe_iff Int.one_pos Nat.two_pos (show 0 ≤ x / 2 by omega)
    (show 0 ≤ x % 2 by omega) (by push_cast; omega)
  rw [show x / 2 * (((2 : Nat) : Int) * 1) + x % 2 = x by push_cast; omega] at h
  refine h.trans ?_
  simp
  omega

theorem nextMappedOffset_odd {x : Int} (hx : 0 ≤ x) (hodd : x % 2 = 1) :
    firstOfTwo.nextMappedOffset x = x + 1 := by
  have law := firstOfTwo_lawful
  have hge : x ≤ firstOfTwo.nextMappedOffset x := law.le_next x hx
  have hle : firstOfTwo.nextMappedOffset x ≤ x + 1 :=
    law.next_le x (x + 1) hx (by omega) ((mapped_even (by omega)).mpr (by omega))
  have hmap : firstOfTwo.Mapped
      (firstOfTwo.nextMappedOffset x) := law.mapped_next x hx
  rw [mapped_even (by omega)] at hmap
  omega

/-- The last turn: the position comes out of a scratch entry that is no position, and so either
nothing is added or the byte of another position is. -/
theorem misplaced_turn (hm : m.Wf) {st : DistLoop} (stop : Int) {pos : Int} {mem : RequestState}
    {bs : List Int} (h0 : 0 ≤ st.offset) (hodd : st.offset % 2 = 1) (hstop : stop = st.offset + 2)
    (hsize : st.size = 2)
    (hloff : st.loff = firstOfTwo.nextMappedOffset st.offset)
    (heof : st.eofFlag = false) (hfile : firstOfTwo.Same st.sh.rfdata)
    (hlim : stop ≤ stripeLimit 1 2) (hmem : st.sh.mem = some mem) (hat : MemAt m mem pos)
    (hpos : pos < m.aggregateSize) (hscr : st.sh.result.offsetArray st.sh.result.segs ≠ pos)
    (hh : st.sh.result.Holds b bs) (hr : Room b bs 1) :
    ∃ st' X, Leaves (distributeBody .pintClient) st (some st') ∧ st.offset ≤ st'.offset ∧
      st'.sh.result.Holds b (bs ++ X) ∧
      (X = [] ∨ ∃ p, 0 ≤ p ∧ p < m.aggregateSize ∧ p ≠ pos + 1 ∧
        X = [(m.stream 1).getD p.toNat 0]) := by
  have law := firstOfTwo_lawful
  rw [nextMappedOffset_odd h0 hodd] at hloff
  have hmap : firstOfTwo.Mapped st.loff :=
    (mapped_even (by omega)).mpr (by omega)
  have hbytes := hh.bytes
  obtain ⟨hsm, hbm⟩ := hh.budget
  have hroom0 : Room b bs 0 := ⟨by have := hr.1; omega, by have := hr.2; omega⟩
  obtain ⟨p, hp⟩ : ∃ p, st.sh.result.offsetArray st.sh.result.segs + (st.loff - st.offset) = p :=
    ⟨_, rfl⟩
  have hpos0 := hat.nonneg
  -- one byte is left of the region
  have hfrag : st.sh.rfdata.fragment st.sh.result st.loff (st.size - (st.loff - st.offset)) = 1 := by
    obtain ⟨h1, h2, -⟩ := fragment_spec law (by omega) hmap
      (show 0 < st.size - (st.loff - st.offset) by omega)
      (show st.sh.result.bytes < st.sh.result.bytemax by have := hr.2; omega)
      (fun y _ hy _ => by omega)
    rw [hfile.fragment]
    omega
  obtain ⟨rf', hclip, hfile'⟩ := clipEof_extend hfile rfl
    (st.sh.rfdata.logicalToPhysicalOffset st.loff) 1
  have hclip' : clipEof st.sh.rfdata (st.sh.rfdata.logicalToPhysicalOffset st.loff)
      (st.sh.rfdata.fragment st.sh.result st.loff (st.size - (st.loff - st.offset))) =
        (rf', 1, false) := by
    rw [hfrag]
    exact hclip
  rcases Int.lt_or_le p pos with hlt | hge
  · -- behind what has been taken: nothing is added
    obtain ⟨sh', hem, hrf, hh'⟩ := emit_behind (st.sh.rfdata.logicalToPhysicalOffset st.loff)
      (show ({ st.sh with rfdata := rf' } : Shared).mem = some mem from hmem) hat hpos hp
      Int.one_pos (by omega) hh hroom0
    obtain ⟨st', rfl, hturn⟩ := distributeBody_added st (by omega) hclip' law.toSeeks (by omega)
      Int.one_pos Int.one_pos (hrf ▸ hfile') hem
    have hh1 : (sh'.rescratch .pintClient).result.Holds b bs := by
      unfold Shared.rescratch
      simp only
      split
      · exact hh'.setScratch _
      · exact hh'
    have hnext : st.loff + 1 ≤ firstOfTwo.nextMappedOffset (st.loff + 1) :=
      law.le_next _ (by omega)
    rw [if_neg (hroom0.not_full hh1 (le_refl _) _)] at hturn
    exact ⟨_, [], Leaves.turn hturn (distributeBody_end (by simp only; omega)),
      by simp only; omega, by rwa [append_nil], .inl rfl⟩
  · rcases Int.lt_or_le p m.aggregateSize with hin | hout
    · -- the byte of another position
      obtain ⟨st', sz, hturn, ht⟩ := mem_turn (strips_striped Int.one_pos Nat.two_pos) hm h0
        (show st.size = stop - st.offset by omega)
        (hloff.trans (nextMappedOffset_odd h0 hodd).symm) (by omega) heof hfile
        (fun x _ hx _ => by omega) hmem hat hp hge (by omega) hh
        (by rwa [show stop - st.loff = 1 by omega])
      have hoff := ht.offset
      have hle := ht.le_stop
      obtain rfl : sz = 1 := by
        have := ht.pos
        omega
      have hloff' : st'.offset ≤ st'.loff := by
        rw [ht.loff]
        exact law.le_next _ (by omega)
      refine ⟨st', _, Leaves.turn hturn (distributeBody_end ?_), by omega, ht.holds,
        .inr ⟨p, by omega, hin, by omega, ?_⟩⟩
      · rw [ht.size]
        omega
      · have hlen := hm.length_stream (show (0 : Int) ≤ 1 by decide)
        rw [take_drop_last (by omega) Int.one_pos (by omega)]
        simp
    · -- behind the end of the type: the loop stops
      obtain ⟨sh', hem, hh'⟩ := emit_past (st.sh.rfdata.logicalToPhysicalOffset st.loff) hm
        (show ({ st.sh with rfdata := rf' } : Shared).mem = some mem from hmem) hat hpos hp
        Int.one_pos hout hh hroom0
      refine ⟨_, [], distributeBody_stop st (by omega) hclip' Int.one_pos hem, le_refl _, ?_,
        .inl rfl⟩
      rwa [append_nil]

/-- **A byte out of place misleads the next fragment.**  Byte `k` is the first one that does not
lie in memory where it lies in the type; the transfer ends with byte `k + 2`. -/
theorem misplaced_call (hm : m.Wf) {k : Nat} (hk : (k : Int) + 2 < m.aggregateSize)
    (hsize : m.aggregateSize < 2 ^ 32)
    (hbefore : ∀ j : Nat, j < k → (m.stream 1).getD j 0 = (j : Int))
    (hbad : (m.stream 1).getD k 0 ≠ (k : Int)) (hb : m.aggregateSize < b.1)
    (hb' : m.aggregateSize < b.2) {t : Int} (ht : t = (k : Int) % 2) :
    ∃ req' sh' X, Returns (processRequest · (.opened .pintByte t (t + k + 3))
        (.withMemory m 1 0 2 b) .pintClient) (.ret 0 req' sh') ∧
      expand sh'.result.segments = (visit firstOfTwo.visible t
        (run t (k + 1))).map (memByte (m.stream 1) t) ++ X ∧
      (X = [] ∨ ∃ p, 0 ≤ p ∧ p < m.aggregateSize ∧ p ≠ (k : Int) + 2 ∧
        X = [(m.stream 1).getD p.toNat 0]) := by
  have law := firstOfTwo_lawful
  have hlim : t + k + 3 ≤ stripeLimit 1 2 := by
    simp only [stripeLimit]
    omega
  have hreset : ((Shared.withMemory m 1 0 2 b).scratch .pintClient 0).result.Holds b [] :=
    RequestResult.Holds.setScratch (RequestResult.Holds.reset _ (by omega)) 0
  have hI : MemInv m t b [] t ((Shared.withMemory m 1 0 2 b).scratch .pintClient 0) :=
    ⟨⟨_, 0, rfl, memAt_new hm, le_refl _, fun _ hk _ => by omega⟩, hreset⟩
  have hgood : StripsAt firstOfTwo m t t t (t + k + 1) := by
    intro x hx hx' _ _
    have := hbefore (x - t).toNat (by omega)
    rw [show t + (x - t) - t = x - t by omega]
    omega
  obtain ⟨st1, hgo, hr⟩ := mem_reach (strips_striped Int.one_pos Nat.two_pos) hm
    (show t + k + 1 ≤ t + k + 3 by omega)
    ((mapped_even (by omega)).mpr (by omega)) (.inr fun h => by
      rw [mapped_even (by omega)] at h
      omega) (k + 1)
    ⟨t, k + 3, firstOfTwo.nextMappedOffset t,
      (Shared.withMemory m 1 0 2 b).scratch .pintClient 0, false⟩ [] t
    (by simp only; omega) (by simp only; omega) (by simp only; omega) (by simp only; omega) rfl rfl
    (.refl _) (fun x _ hx _ => by omega) (le_refl _) (by simp only; omega) (by simp only; omega)
    (by simp only; omega) hgood hI (fun _ hq => absurd hq not_mem_nil) (by
      simp [Shared.scratch, Mode.pintClient, RequestResult.setScratch])
  obtain ⟨mem', hmem', hat'⟩ := hr.mem
  have hposk : t + (t + k + 1 - t) - t = (k : Int) + 1 := by omega
  have hoff := hr.offset
  have hscr := hr.scratch
  simp only [hposk, show ((k : Int) + 1 - 1).toNat = k by omega] at hat' hscr
  have hrun : (t + k + 1 - t).toNat = k + 1 := by omega
  have hholds := hr.inv.holds
  simp only [hrun] at hholds
  have hroom : Room b ((visit firstOfTwo.visible t (run t (k + 1))).map
      (memByte (m.stream 1) t)) 1 := by
    have := length_visit_le firstOfTwo.visible t (run t (k + 1))
    rw [length_run] at this
    constructor <;> rw [length_map] <;> omega
  obtain ⟨st', X, hleave, hle, hh', hX⟩ := misplaced_turn hm (t + k + 3) (by omega)
    (by omega) (by omega) (by rw [hr.size]; omega) (hoff ▸ hr.loff) hr.eof hr.file hlim hmem' hat'
    (by omega) (by rw [hscr]; omega) hholds hroom
  have hdist := distribute_of_loop law.toSeeks (show 0 ≤ t by omega) (show (0 : Int) < k + 3 by omega)
    (.refl _) (show ¬ ((Shared.withMemory m 1 0 2 b).scratch .pintClient 0).result.full .pintClient
      from Room.not_full hreset ⟨by simp; omega, by simp; omega⟩ (le_refl 0) _) (hgo _ hleave)
  obtain ⟨req', hret⟩ := byte_call (.withMemory m 1 0 2 b) t (t + k + 3)
    (by omega) (by omega) (show 0 < b.1 by omega) (show 0 < b.2 by omega) (show 0 < b.2 by omega)
    (by rw [show t + k + 3 - t = (k : Int) + 3 by omega]; exact hdist) (by split <;> omega) hh'.within
  refine ⟨req', st'.sh, X, hret, hh'.segments, ?_⟩
  rcases hX with h | ⟨p, h0, hlt, hne, hX⟩
  · exact .inl h
  · exact .inr ⟨p, h0, hlt, by omega, hX⟩

end

/-! ## Every transfer -/

section
variable {m : Request}

def Transfer.ofBytes (m : Request) (strip : Int) (nr ct : Nat) (target final : Int) (b : Nat × Int)
    (hs : 0 < strip) (hn : nr < ct) (h0 : 0 ≤ target) (htf : target < final)
    (hfit : final - target ≤ m.aggregateSize)
    (hroom : final - target < b.1 ∧ final - target < b.2)
    (hlim : final ≤ stripeLimit strip ct) : Transfer m where
  file := .pintByte
  strip := strip
  serverNr := nr
  serverCt := ct
  target := target
  final := final
  budget := b
  built := .elementary (by decide)
  contig := by decide
  strip_pos := hs
  nr_lt := hn
  target_nonneg := h0
  target_lt := htf
  fits := hfit
  room := hroom
  reach := by
    have hb : pintByte.Built fun _ => True := .elementary (by decide)
    intro x hx
    rw [hb.wf.typeWindow_contig (by decide) (by decide) h0 htf, mem_run] at hx
    have : pintByte.offset + pintByte.disp = 0 := by decide
    omega

theorem sound_of_mapsMemory (hm : m.Wf) (h : ∀ t : Transfer m, t.MapsMemory) :
    m.ShortcutsSound := by
  have ha := hm.aggregateSize_pos
  have hlen := hm.length_stream (show (0 : Int) ≤ 1 by decide)
  have hlen' := hm.length_typemap 0
  have hlim : m.aggregateSize ≤ stripeLimit m.aggregateSize 1 := by
    simp only [stripeLimit]
    omega
  have law := striped_lawful ha Nat.one_pos
  -- the whole type, from a file of bytes on one server
  let t := Transfer.ofBytes m m.aggregateSize 0 1 0 m.aggregateSize
    ((m.aggregateSize + 1).toNat, m.aggregateSize + 1) ha Nat.one_pos (le_refl _) ha (by omega)
    ⟨by simp only; omega, by simp only; omega⟩ hlim
  have hall : t.visited = numbered (0 + 0) (run 0 m.aggregateSize.toNat) := by
    have hrun : t.file.typeWindow t.target t.final = run 0 m.aggregateSize.toNat := by
      rw [t.typeWindow_eq, show t.file.offset + t.file.disp + t.target = 0 from rfl,
        show t.final - t.target = m.aggregateSize from Int.sub_zero _]
    rw [Transfer.visited, hrun]
    exact visit_all _ fun x hx => visible_eq_true.mpr
      ⟨law.mapped_alone rfl x (mem_run.mp hx).1, .inl rfl⟩
  have hmaps : ∀ bytes : List Int, (bytes.length : Int) = m.aggregateSize →
      (numbered (0 + 0) (run 0 m.aggregateSize.toNat)).map (memByte bytes t.target) = bytes := by
    intro bytes hbytes
    rw [show t.target = 0 from rfl, map_memByte bytes 0 0 0 (le_refl _) (by omega), Int.toNat_zero,
      drop_zero, take_of_length_le (by omega)]
  obtain ⟨req', sh', hret, -, hexp⟩ := h t
  obtain ⟨req1, sh1, hret1, -, hexp1⟩ := t.call_of_strips hm fun q hq hnot => by
    have hq0 : 0 ≤ q.2 := (t.reach q.2 (snd_mem_of_numbered (mem_of_mem_filter hq))).1
    exact absurd (law.mapped_alone rfl (q.2 + 1) (by omega)) hnot
  obtain ⟨-, -, rfl⟩ := Processed.ret.inj (hret.unique hret1)
  rw [hexp, hall, hmaps _ hlen', hmaps _ (by omega)] at hexp1
  exact (hm.stream_eq_iff Nat.one_pos).mp (by rw [typeStream_one]; exact hexp1.symm)

theorem visit_even (k : Nat) {t : Int} (ht : t = (k : Int) % 2) :
    visit firstOfTwo.visible t (run t (k + 3)) =
      visit firstOfTwo.visible t (run t (k + 1)) ++
        [(t + k + 2, t + k + 2)] := by
  have hvis : ∀ x : Int, 0 ≤ x →
      firstOfTwo.visible x = decide (x % 2 = 0) := by
    intro x hx
    rw [visible, show firstOfTwo.extendFlag = true from rfl, Bool.true_or,
      Bool.and_true]
    exact decide_eq_decide.mpr (mapped_even hx)
  have htail : visit firstOfTwo.visible (t + (k + 1)) (run (t + (k + 1)) 2) =
      [(t + k + 2, t + k + 2)] := by
    have hodd : firstOfTwo.visible (t + (k + 1)) = false := by
      rw [hvis _ (by omega)]
      simp
      omega
    have heven : firstOfTwo.visible (t + (k + 1) + 1) = true := by
      rw [hvis _ (by omega)]
      simp
      omega
    simp only [run, visit, numbered_cons, filter_cons, hodd, heven, if_true,
      Bool.false_eq_true, if_false]
    simp
    omega
  rw [show k + 3 = k + 1 + 2 from rfl, run_add, visit_append, length_run]
  push_cast
  rw [htail]

/-- The even bytes up to the second one behind position `k`. -/
def Transfer.even (m : Request) (k : Nat) (hk : (k : Int) + 2 < m.aggregateSize)
    (hsize : m.aggregateSize < 2 ^ 32) : Transfer m :=
  .ofBytes m 1 0 2 ((k : Int) % 2) ((k : Int) % 2 + k + 3)
    ((m.aggregateSize + 1).toNat, m.aggregateSize + 1) Int.one_pos Nat.two_pos (by omega)
    (by omega) (by omega) ⟨by simp only; omega, by simp only; omega⟩ (by
      simp only [stripeLimit]
      push_cast
      omega)

theorem Transfer.even_fails (hm : m.Wf) (hsound : m.ShortcutsSound) (hnodup : (m.typemap 0).Nodup)
    {k : Nat} (hk : (k : Int) + 2 < m.aggregateSize) (hsize : m.aggregateSize < 2 ^ 32)
    (hbefore : ∀ j : Nat, j < k → (m.typemap 0).getD j 0 = (j : Int))
    (hbad : (m.typemap 0).getD k 0 ≠ (k : Int)) : ¬ (Transfer.even m k hk hsize).MapsMemory := by
  have hlen := hm.length_typemap 0
  have hstream := hm.stream_one_of_sound hsound
  rintro ⟨req', sh', hret, -, hexp⟩
  obtain ⟨req1, sh1, X, hret1, hexp1, hX⟩ := misplaced_call hm hk hsize (hstream ▸ hbefore)
    (hstream ▸ hbad) (b := ((m.aggregateSize + 1).toNat, m.aggregateSize + 1))
    (by simp only; omega) (by simp only; omega) rfl
  obtain ⟨-, -, rfl⟩ := Processed.ret.inj (hret.unique hret1)
  have hb : pintByte.Built fun _ => True := .elementary (by decide)
  have hwin : pintByte.typeWindow ((k : Int) % 2) ((k : Int) % 2 + k + 3) =
      run ((k : Int) % 2) (k + 3) := by
    rw [hb.wf.typeWindow_contig (by decide) (by decide) (by omega) (by omega),
      show pintByte.offset + pintByte.disp = 0 by decide, Int.zero_add,
      show ((k : Int) % 2 + k + 3 - (k : Int) % 2).toNat = k + 3 by omega]
  have hexp2 : expand sh'.result.segments = (visit firstOfTwo.visible
      ((k : Int) % 2) (pintByte.typeWindow ((k : Int) % 2) ((k : Int) % 2 + k + 3))).map
        (memByte (m.typemap 0) ((k : Int) % 2)) := hexp
  rw [hwin, visit_even k rfl, map_append, hexp1, hstream] at hexp2
  have hlast := append_cancel_left hexp2
  simp only [map_cons, map_nil, memByte,
    show ((k : Int) % 2 + k + 2 - (k : Int) % 2).toNat = k + 2 by omega] at hlast
  rcases hX with rfl | ⟨p, hp0, hp, hne, rfl⟩
  · exact absurd hlast (by simp)
  · have hsame : (m.typemap 0)[p.toNat]? = (m.typemap 0)[k + 2]? := by
      rw [hstream] at hlast
      have hval := (List.cons.inj hlast).1
      rw [getD_eq_getElem?_getD, getD_eq_getElem?_getD,
        getElem?_eq_getElem (show p.toNat < (m.typemap 0).length by omega),
        getElem?_eq_getElem (show k + 2 < (m.typemap 0).length by omega)] at hval
      rw [getElem?_eq_getElem (show p.toNat < (m.typemap 0).length by omega),
        getElem?_eq_getElem (show k + 2 < (m.typemap 0).length by omega)]
      exact congrArg some hval
    have := (getElem?_inj (by omega) hnodup).mp hsame
    omega

theorem inPlace_of_mapsMemory (hm : m.Wf) (hnodup : (m.typemap 0).Nodup)
    (hsize : m.aggregateSize < 2 ^ 32) (h : ∀ t : Transfer m, t.MapsMemory) (k : Nat) :
    (k : Int) + 2 < m.aggregateSize → (m.typemap 0).getD k 0 = (k : Int) := by
  induction k using Nat.strong_induction_on with
  | _ k ih =>
    intro hk
    by_contra hbad
    exact Transfer.even_fails hm (sound_of_mapsMemory hm h) hnodup hk hsize
      (fun j hj => ih j hj (by omega)) hbad (h _)

/-- **A memory type gets through every transfer** exactly when the decoder's contiguity tests are
right about it and its bytes, but for the last two, lie in memory where they lie in the type. -/
theorem maps_memory_iff (hm : m.Built fun _ => True) :
    (m.ShortcutsSound → ∀ t : Transfer m, t.StripsInPlace → t.MapsMemory) ∧
    ((m.typemap 0).Nodup → m.aggregateSize < 2 ^ 32 →
      ((∀ t : Transfer m, t.MapsMemory) ↔ m.ShortcutsSound ∧
        ∀ k : Nat, (k : Int) + 2 < m.aggregateSize → (m.typemap 0).getD k 0 = (k : Int))) := by
  refine ⟨fun hsound t ht => t.mapsMemory_of_strips hm.wf hsound ht, fun hnodup hsize =>
    ⟨fun h => ⟨sound_of_mapsMemory hm.wf h, inPlace_of_mapsMemory hm.wf hnodup hsize h⟩, ?_⟩⟩
  rintro ⟨hsound, hplace⟩ t
  refine t.mapsMemory_of_strips hm.wf hsound ?_
  rintro q hq hnot ⟨q', hq', hlt⟩
  obtain ⟨hge, hlt₁, hx, -⟩ := t.mem_visited.mp hq
  obtain ⟨-, hlt₂, hx', hmap'⟩ := t.mem_visited.mp hq'
  -- the next byte is on another server, so the later one is two bytes behind at least
  have hgap : q.1 + 2 ≤ q'.1 := by
    by_contra hlt₃
    have : q'.2 = q.2 + 1 := by omega
    exact hnot (this ▸ hmap')
  have hfit := t.fits
  have := hplace (q.1 - t.target).toNat (by omega)
  rw [memByte]
  omega

/-- Four bytes in a row, with any layout of the file. -/
theorem maps_memory_contiguous :
    ∃ m, contiguous 4 .pintByte = some m ∧ ∀ t : Transfer m, t.MapsMemory :=
  ⟨_, rfl, ((maps_memory_iff (@Request.Built.contiguous _ 4 .pintByte _ (by decide)
    (.elementary (by decide)) rfl)).2 (by decide) (by decide)).mpr ⟨by decide, by
      intro k hk
      have hk' : (k : Int) + 2 < 4 := hk
      have : k = 0 ∨ k = 1 := by omega
      rcases this with rfl | rfl <;> decide⟩⟩

/-- Pairs of bytes with a hole of one byte behind each. Of a transfer of five bytes the first of two
servers holds the first, the third and the fifth, and these bytes of the type lie at 0, 3 and
6. The third byte is out of place, and so the run does not emit them. -/
theorem maps_memory_vector_fails :
    ∃ m, vector 3 2 3 .pintByte = some m ∧ m.typemap 0 = [0, 1, 3, 4, 6, 7] ∧
      ∃ t : Transfer m, t.visited = [(0, 0), (2, 2), (4, 4)] ∧ ¬ t.MapsMemory := by
  have hb := @Request.Built.vector (fun _ => True) 3 2 3 .pintByte _ (by decide) (by decide) trivial
    (.elementary (by decide)) rfl
  refine ⟨_, rfl, by decide, .even _ 2 (by decide) (by decide), by decide,
    Transfer.even_fails hb.wf (by decide) (by decide) _ _ (fun j hj => ?_) (by decide)⟩
  have : j = 0 ∨ j = 1 := by omega
  rcases this with rfl | rfl <;> decide

end

end Pvfs.Description
