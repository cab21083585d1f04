import Mathlib.Data.Int.LeastGreatest
import Pvfs.Description.Nested
import Pvfs.Description.Partition

/-! # Memory types

A client that moves a contiguous piece of a striped file to or from a buffer described by a memory
type has to find, for each byte a server holds, the place in memory of the byte of the type at the
same position of the transfer. `PINT_distribute` keeps the position of the next fragment in the
scratch entry behind the last segment. After a fragment it writes the end of the last segment
there, which is a place in *memory*, and takes it for the position in the type when it comes to
the next fragment.

So the next fragment goes wrong unless the last byte of a strip lies in memory where it lies in
the type. -/

namespace Pvfs.Description

open Pvfs.Lib List RequestResult RequestFileData

/-! ## Emitting a fragment into a memory type -/

/-- Where the byte visited as `q` belongs, when the bytes of the memory type lie at `bytes`. -/
def memByte (bytes : List Int) (target : Int) (q : Int × Int) : Int :=
  bytes.getD (q.1 - target).toNat 0

theorem map_memByte (bytes : List Int) (target : Int) {n : Nat} :
    ∀ (p x : Int), 0 ≤ p → p + n ≤ bytes.length →
      (numbered (target + p) (run x n)).map (memByte bytes target) =
        (bytes.drop p.toNat).take n := by
  induction n with
  | zero =>
    intro p x _ _
    rfl
  | succ n ih =>
    intro p x hp hle
    have hlt : p.toNat < bytes.length := by omega
    rw [run, numbered_cons, map_cons, Int.add_assoc, ih (p + 1) (x + 1) (by omega)
      (by push_cast at hle; omega), drop_eq_getElem_cons hlt,
      show (p + 1).toNat = p.toNat + 1 by omega]
    congr 1
    rw [memByte, show (target + p, x).1 - target = p by simp only; omega,
      getD_eq_getElem?_getD, getElem?_eq_getElem hlt, Option.getD_some]

theorem RequestResult.Holds.endsAt {res : RequestResult} {b : Nat × Int} {bs : List Int} {y : Int}
    (h : res.Holds b (bs ++ [y])) : res.EndsAt (y + 1) := by
  cases hn : res.segs with
  | zero =>
    have hseg := h.segments
    rw [segments_eq_entries, hn] at hseg
    simp [entries] at hseg
  | succ n =>
    have hpos := h.positive
    have hseg := h.segments
    rw [segments_eq_entries, hn, entries_succ] at hpos hseg
    have hz : 0 < res.sizeArray n := hpos (res.offsetArray n, res.sizeArray n) (by simp)
    rw [expand_append, expand_cons, expand_nil, append_nil,
      show (res.sizeArray n).toNat = ((res.sizeArray n).toNat - 1) + 1 by omega, run_add,
      ← append_assoc] at hseg
    have hlast := (append_inj' hseg rfl).2
    simp only [run, List.cons.injEq, and_true] at hlast
    refine ⟨by omega, ?_⟩
    rw [hn, Nat.add_sub_cancel]
    omega

theorem take_drop_last {l : List Int} {p n : Int} (hp : 0 ≤ p) (hn : 0 < n)
    (h : p + n ≤ l.length) :
    (l.drop p.toNat).take n.toNat =
      (l.drop p.toNat).take (n.toNat - 1) ++ [l.getD (p + n - 1).toNat 0] := by
  obtain ⟨k, hk⟩ : ∃ k, n.toNat = k + 1 := ⟨n.toNat - 1, by omega⟩
  rw [hk, take_add_one, getElem?_drop, Nat.add_sub_cancel, show (p + n - 1).toNat = p.toNat + k by omega,
    getD_eq_getElem?_getD, getElem?_eq_getElem (by omega)]
  rfl

section
variable {m : Request} {mem : RequestState} {sh : Shared} {pos p n diff : Int} {b : Nat × Int}
  {bs : List Int}

theorem emit_eq (poff : Int) (hmem : sh.mem = some mem)
    (hscr : sh.result.offsetArray sh.result.segs + diff = p) (fuel : Nat) :
    emit .pintClient fuel sh diff poff n =
      (processMem fuel (mem.setWindow p (p + n)) sh.rfdata sh.result .pintClient).map fun a =>
        match a with
        | .fault => .fault
        | .ret _ mem' sh' =>
          if mem'.typeOffset - p ≤ 0 ∧ sh'.result.segs = sh.result.segs then
            .stop { sh' with mem := some mem' }
          else .added (mem'.typeOffset - p) { sh' with mem := some mem' } := by
  subst hscr
  cases sh
  subst hmem
  rfl

section
variable (poff : Int) (hm : m.Wf) (hmem : sh.mem = some mem) (hat : MemAt m mem pos)
include hm hmem hat

theorem emit_mem (hscr : sh.result.offsetArray sh.result.segs + diff = p) (hp : pos ≤ p) (hn : 0 < n)
    (hle : p + n ≤ m.aggregateSize) (hh : sh.result.Holds b bs) (hr : Room b bs n) :
    ∃ mem' sh', Returns (emit .pintClient · sh diff poff n) (.added n sh') ∧
      sh'.mem = some mem' ∧ MemAt m mem' (p + n) ∧ sh'.rfdata = sh.rfdata ∧
      sh'.result.Holds b (bs ++ ((m.stream 1).drop p.toNat).take n.toNat) := by
  obtain ⟨mem', sh', hret, hat', hrf, hh'⟩ :=
    processMem_spec hm hat hp hn hle sh.rfdata hh hr
  refine ⟨mem', { sh' with mem := some mem' }, hret.map fun fuel hf => ?_, rfl, hat', hrf, hh'⟩
  have hto := hat'.typeOffset
  rw [emit_eq poff hmem hscr, hf]
  simp only [Option.map_some, hto]
  rw [if_neg (by omega), show p + n - p = n by omega]

theorem emit_past (hpos : pos < m.aggregateSize)
    (hscr : sh.result.offsetArray sh.result.segs + diff = p) (hn : 0 < n) (hle : m.aggregateSize ≤ p)
    (hh : sh.result.Holds b bs) (hr : Room b bs 0) :
    ∃ sh', Returns (emit .pintClient · sh diff poff n) (.stop sh') ∧ sh'.result.Holds b bs := by
  obtain ⟨mem', sh', hret, hto, -, hsegs, hh'⟩ :=
    processMem_past hm hat hpos hn hle sh.rfdata hh hr
  refine ⟨{ sh' with mem := some mem' }, hret.map fun fuel hf => ?_, hh'⟩
  rw [emit_eq poff hmem hscr, hf]
  simp only [Option.map_some, hto]
  rw [if_pos ⟨by omega, hsegs⟩]

end

theorem emit_behind (poff : Int) (hmem : sh.mem = some mem) (hat : MemAt m mem pos)
    (hpos : pos < m.aggregateSize)
    (hscr : sh.result.offsetArray sh.result.segs + diff = p) (hn : 0 < n)
    (hle : p + n ≤ pos) (hh : sh.result.Holds b bs) (hr : Room b bs 0) :
    ∃ sh', Returns (emit .pintClient · sh diff poff n) (.added n sh') ∧
      sh'.rfdata = sh.rfdata ∧ sh'.result.Holds b bs := by
  obtain ⟨mem', sh', hret, hto, hrf, hh'⟩ :=
    processMem_behind hat hpos (Int.le_of_lt hn) hle sh.rfdata hh hr
  refine ⟨{ sh' with mem := some mem' }, hret.map fun fuel hf => ?_, hrf, hh'⟩
  rw [emit_eq poff hmem hscr, hf]
  simp only [Option.map_some, hto]
  rw [if_neg (by omega), show p + n - p = n by omega]

end

/-! ## The fragments of a region -/

section
variable {rf : RequestFileData} {limit : Int} {m : Request} {b : Nat × Int} {stop : Int}

/-- A striped file that may grow. -/
structure Strips (rf : RequestFileData) (limit : Int) : Prop where
  law : rf.Lawful limit
  extend : rf.extendFlag = true
  fragment_end : ∀ {x}, rf.serverCt ≠ 1 → 0 ≤ x → x < limit → rf.Mapped x →
    ¬ rf.Mapped (x + rf.contiguousLength (rf.logicalToPhysicalOffset x))

theorem strips_striped {strip : Int} {nr ct : Nat} (hs : 0 < strip) (hn : nr < ct) :
    Strips (.striped strip nr ct) (Dist.stripeLimit strip ct) :=
  ⟨Dist.simpleStripe_lawful hs hn, rfl, fun hc hx hlim => Dist.fragment_end hs hn hc hx hlim⟩

theorem fragment_stop (hrf : Strips rf limit) {res : RequestResult} {x rest : Int}
    (hx : 0 ≤ x) (hlim : x < limit)
    (hm : rf.Mapped x)
    (hroom : res.bytes + rest ≤ res.bytemax) :
    rf.fragment res x rest = rest ∨
      ¬ rf.Mapped
        (x + rf.fragment res x rest) := by
  unfold fragment
  simp only
  split
  next hc =>
    rw [if_neg (by omega)]
    exact .inr (hrf.fragment_end hc.2 hx hlim hm)
  next hc =>
    rw [if_neg (by omega)]
    exact .inl rfl

/-- What a turn does that takes `sz` bytes from position `p` of the memory type. -/
structure MemTurned (rf : RequestFileData) (m : Request) (b : Nat × Int) (stop p : Int)
    (bs : List Int) (st st' : DistLoop) (sz : Int) : Prop where
  pos : 0 < sz
  offset : st'.offset = st.loff + sz
  le_stop : st'.offset ≤ stop
  size : st'.size = stop - st'.offset
  loff : st'.loff = rf.nextMappedOffset st'.offset
  eof : st'.eofFlag = false
  file : rf.Same st'.sh.rfdata
  mapped : ∀ j, 0 ≤ j → j < sz → rf.Mapped (st.loff + j)
  ends : st'.offset = stop ∨ ¬ rf.Mapped st'.offset
  mem : ∃ mem', st'.sh.mem = some mem' ∧ MemAt m mem' (p + sz)
  holds : st'.sh.result.Holds b (bs ++ ((m.stream 1).drop p.toNat).take sz.toNat)
  -- the place in memory behind the last byte, where a position is expected
  scratch : st'.sh.result.offsetArray st'.sh.result.segs =
    (m.stream 1).getD (p + sz - 1).toNat 0 + 1

theorem mem_turn (hrf : Strips rf limit) (hm : m.Wf) {st : DistLoop} {p pos : Int}
    {mem : RequestState} {bs : List Int} (h0 : 0 ≤ st.offset) (hsize : st.size = stop - st.offset)
    (hloff : st.loff = rf.nextMappedOffset st.offset)
    (hlt : st.loff < stop) (heof : st.eofFlag = false)
    (hfile : rf.Same st.sh.rfdata)
    (hlim : ∀ x, st.offset ≤ x → x < stop → rf.Mapped x →
      x < limit)
    (hmem : st.sh.mem = some mem) (hat : MemAt m mem pos)
    (hscr : st.sh.result.offsetArray st.sh.result.segs + (st.loff - st.offset) = p)
    (hp : pos ≤ p) (hfit : p + (stop - st.loff) ≤ m.aggregateSize)
    (hh : st.sh.result.Holds b bs) (hr : Room b bs (stop - st.loff)) :
    ∃ st' sz, Returns (distributeBody .pintClient · st) (.again st') ∧
      MemTurned rf m b stop p bs st st' sz := by
  have law := hrf.law
  have hge : st.offset ≤ st.loff := hloff ▸ law.le_next st.offset h0
  have hmap : rf.Mapped st.loff :=
    hloff ▸ law.mapped_next st.offset h0
  have hbytes := hh.bytes
  obtain ⟨hsm, hbm⟩ := hh.budget
  obtain ⟨hr1, hr2⟩ := hr
  obtain ⟨sz, hsz⟩ : ∃ sz, rf.fragment st.sh.result st.loff
      (st.size - (st.loff - st.offset)) = sz := ⟨_, rfl⟩
  have hrest : st.size - (st.loff - st.offset) = stop - st.loff := by omega
  obtain ⟨hsz0, hsz1, -, hin⟩ := fragment_spec law (by omega) hmap
    (show 0 < stop - st.loff by omega) (show st.sh.result.bytes < st.sh.result.bytemax by omega)
    (fun y hy hy' hmy => hlim y (by omega) (by omega) hmy)
  have hends := fragment_stop hrf (show 0 ≤ st.loff by omega) (hlim _ hge hlt hmap) hmap
    (show st.sh.result.bytes + (stop - st.loff) ≤ st.sh.result.bytemax by omega)
  rw [← hrest, hsz] at hsz0 hsz1 hends hin
  obtain ⟨rf', hclip, hfile'⟩ := clipEof_extend hfile hrf.extend
    (st.sh.rfdata.logicalToPhysicalOffset st.loff) sz
  obtain ⟨mem', sh', hem, hmem', hat', hrf', hh'⟩ :=
    emit_mem (st.sh.rfdata.logicalToPhysicalOffset st.loff) hm
      (show ({ st.sh with rfdata := rf' } : Shared).mem = some mem from hmem) hat hscr hp hsz0
      (by omega) hh ⟨by omega, by omega⟩
  have hsame : rf.Same sh'.rfdata := by
    rw [hrf']
    exact hfile'
  obtain ⟨st', hst', hturn⟩ := distributeBody_added st (by omega)
    (by rw [hfile.fragment, hsz]; exact hclip) law.toSeeks (by omega) hsz0 hsz0 hsame hem
  have hlen := hm.length_stream (show (0 : Int) ≤ 1 by decide)
  have hpos0 := hat.nonneg
  rw [take_drop_last (by omega) hsz0 (by omega), ← append_assoc] at hh'
  have hend := hh'.endsAt
  rw [append_assoc, ← take_drop_last (by omega) hsz0 (by omega)] at hh'
  have hroom : Room b (bs ++ ((m.stream 1).drop p.toNat).take sz.toNat) 0 := by
    constructor <;> rw [length_append, length_take] <;> push_cast <;>
      omega
  have hfull := hroom.not_full hh' (le_refl _) .pintClient
  have hseg : sh'.result.segs < sh'.result.segmax := by
    by_contra hge
    exact hfull (.inr ⟨rfl, by omega⟩)
  -- the scratch entry becomes the end of the last segment
  have hscratch : sh'.rescratch .pintClient = { sh' with
      result := sh'.result.setScratch ((m.stream 1).getD (p + sz - 1).toNat 0 + 1) } := by
    unfold Shared.rescratch
    rw [if_pos ⟨rfl, hseg⟩, hend.2]
  rw [hscratch, heof] at hst'
  subst hst'
  rw [if_neg (show ¬ (sh'.result.setScratch _).full .pintClient from hfull)] at hturn
  refine ⟨_, sz, hturn, hsz0, rfl, by simp only; omega, by simp only; omega, rfl, rfl, hsame,
    fun j hj0 hj => (hin j hj0 hj).1, ?_, ⟨mem', hmem', hat'⟩, hh'.setScratch _, ?_⟩
  · rcases hends with h | h
    · exact .inl (by simp only; omega)
    · exact .inr h
  · simp only [setScratch, Function.update_self]

/-- The client's result holds the places in memory of the bytes visited, and no more of the
memory type has been taken than lies before the positions that are still to come. -/
structure MemInv (m : Request) (target : Int) (b : Nat × Int) (v : List (Int × Int)) (_ : Int)
    (sh : Shared) : Prop where
  mem : ∃ mem pos, sh.mem = some mem ∧ MemAt m mem pos ∧ v.length ≤ pos ∧
    ∀ k, target ≤ k → (∀ q ∈ v, q.1 < k) → pos ≤ k - target
  holds : sh.result.Holds b (v.map (memByte (m.stream 1) target))

/-- The loop has come to `mid` and taken the last byte before it. -/
structure MemReached (rf : RequestFileData) (m : Request) (target : Int) (b : Nat × Int)
    (stop mid : Int) (v : List (Int × Int)) (k : Int) (st' : DistLoop) : Prop where
  offset : st'.offset = mid
  size : st'.size = stop - mid
  loff : st'.loff = rf.nextMappedOffset mid
  eof : st'.eofFlag = false
  file : rf.Same st'.sh.rfdata
  inv : MemInv m target b v k st'.sh
  mem : ∃ mem', st'.sh.mem = some mem' ∧ MemAt m mem' (k - target)
  scratch : st'.sh.result.offsetArray st'.sh.result.segs =
    (m.stream 1).getD (k - target - 1).toNat 0 + 1

theorem MemTurned.reached {rf : RequestFileData} {target k : Int} {v : List (Int × Int)}
    {st st' : DistLoop} {sz : Int} (hm : m.Wf) (hext : rf.extendFlag = true)
    (hgap : ∀ y, st.offset ≤ y → y < st.loff → rf.visible y = false) (hge : st.offset ≤ st.loff)
    (hk : target ≤ k) (hfit : k - target + (stop - st.offset) ≤ m.aggregateSize)
    (hI : MemInv m target b v k st.sh)
    (hv : ∀ q ∈ v, q.1 < k)
    (h : MemTurned rf m b stop (k - target + (st.loff - st.offset))
      (v.map (memByte (m.stream 1) target)) st st' sz) :
    MemReached rf m target b stop st'.offset
      (v ++ visit rf.visible k (run st.offset (st'.offset - st.offset).toNat))
      (k + (st'.offset - st.offset)) st' := by
  obtain ⟨mem, pos, -, hat, hlen, hbefore⟩ := hI.mem
  obtain ⟨mem', hmem', hat'⟩ := h.mem
  have hoff := h.offset
  have hsz := h.pos
  have hstop := h.le_stop
  have hstream := hm.length_stream (show (0 : Int) ≤ 1 by decide)
  have hpos := hbefore k hk hv
  have hpos' : k - target + (st.loff - st.offset) + sz = k + (st'.offset - st.offset) - target := by
    omega
  have hvis : ∀ j, 0 ≤ j → j < sz → rf.visible (st.loff + j) = true := fun j hj0 hj =>
    visible_eq_true.mpr ⟨h.mapped j hj0 hj, .inl hext⟩
  have hvisit := visit_gap k hge (Int.le_of_lt hsz) hgap hvis
  rw [show st.loff - st.offset + sz = st'.offset - st.offset by omega] at hvisit
  have hholds : st'.sh.result.Holds b ((v ++ visit rf.visible k
      (run st.offset (st'.offset - st.offset).toNat)).map (memByte (m.stream 1) target)) := by
    rw [hvisit, map_append, show k + (st.loff - st.offset) =
      target + (k - target + (st.loff - st.offset)) by omega,
      map_memByte _ _ _ _ (by omega) (by omega)]
    exact h.holds
  refine ⟨rfl, h.size, h.loff, h.eof, h.file, ⟨⟨mem', _, hmem', hat', ?_, ?_⟩, hholds⟩,
    ⟨mem', hmem', hpos' ▸ hat'⟩, ?_⟩
  · rw [hvisit, length_append, length_numbered, length_run]
    omega
  · intro k' _ hv'
    have hlast := hv' (k + (st.loff - st.offset) + (sz - 1), st.loff + (sz - 1)) ?_
    · omega
    · rw [hvisit, mem_append]
      refine .inr (mem_numbered.mpr ⟨(sz - 1).toNat, by simp only; omega, ?_⟩)
      rw [getElem?_run (by omega), Int.toNat_of_nonneg (by omega)]
  · rw [h.scratch, hpos']

/-- The bytes of `[offset, mid)`, the first of them at position `k`, that end a strip of this server
lie in memory where they lie in the type; what happens at the last one does not matter. -/
def StripsAt (rf : RequestFileData) (m : Request) (target k offset mid : Int) : Prop :=
  ∀ x, offset ≤ x → x + 1 < mid → rf.Mapped x → ¬ rf.Mapped (x + 1) →
    (m.stream 1).getD (k + (x - offset) - target).toNat 0 = k + (x - offset) - target

theorem mem_reach (hrf : Strips rf limit) (hm : m.Wf) {mid target : Int} (hmid : mid ≤ stop)
    (hlast : rf.Mapped (mid - 1))
    (hend : mid = stop ∨ ¬ rf.Mapped mid) (n : Nat) :
    ∀ (st : DistLoop) (v : List (Int × Int)) (k : Int),
      (mid - st.offset).toNat ≤ n → 0 ≤ st.offset → st.offset < mid →
      st.size = stop - st.offset →
      st.loff = rf.nextMappedOffset st.offset →
      st.eofFlag = false → rf.Same st.sh.rfdata →
      (∀ x, st.offset ≤ x → x < stop → rf.Mapped x →
        x < limit) →
      target ≤ k → k - target + (stop - st.offset) ≤ m.aggregateSize →
      k - target + (stop - st.offset) < b.1 → k - target + (stop - st.offset) < b.2 →
      StripsAt rf m target k st.offset mid →
      MemInv m target b v k st.sh → (∀ q ∈ v, q.1 < k) →
      st.sh.result.offsetArray st.sh.result.segs = k - target →
      ∃ st', (∀ p, Leaves (distributeBody .pintClient) st' p →
          Leaves (distributeBody .pintClient) st p) ∧
        MemReached rf m target b stop mid
          (v ++ visit rf.visible k
            (run st.offset (mid - st.offset).toNat)) (k + (mid - st.offset)) st' := by
  have law := hrf.law
  induction n with
  | zero =>
    intro st v k hle _ hlt
    omega
  | succ n ih =>
    intro st v k hle h0 hlt hsize hloff heof hfile hlim hk hfit hb hb' hgood hI hv hscr
    have hge : st.offset ≤ st.loff := hloff ▸ law.le_next st.offset h0
    have hloffmid : st.loff ≤ mid - 1 := hloff ▸ law.next_le st.offset (mid - 1) h0 (by omega) hlast
    have hgap : ∀ y, st.offset ≤ y → y < st.loff →
        rf.visible y = false := by
      exact fun y hy hyx => hidden_before law.toSeeks h0 hy (hloff ▸ hyx)
    obtain ⟨mem, pos, hmem, hat, hlen, hbefore⟩ := hI.mem
    have hpos := hbefore k hk hv
    obtain ⟨st1, sz, hturn, ht⟩ := mem_turn hrf hm h0 hsize hloff (by omega) heof hfile hlim hmem
      hat (show _ = k - target + (st.loff - st.offset) by rw [hscr]) (by omega) (by omega) hI.holds
      (by constructor <;> rw [length_map] <;> omega)
    have hr := ht.reached hm hrf.extend hgap hge hk hfit hI hv
    have hoff := ht.offset
    have hsz := ht.pos
    -- the bytes of a fragment are all on this server, so it does not reach past `mid`
    have hle1 : st1.offset ≤ mid := by
      by_contra hgt
      rcases hend with h | h
      · have := ht.le_stop
        omega
      · refine h ?_
        have := ht.mapped (mid - st.loff) (by omega) (by omega)
        rwa [show st.loff + (mid - st.loff) = mid by omega] at this
    rcases Int.lt_or_eq_of_le hle1 with hlt1 | heq
    · -- the fragment ended a strip, and more of this server follows
      have hnot : ¬ rf.Mapped st1.offset :=
        ht.ends.resolve_left (by omega)
      have hmap := ht.mapped (sz - 1) (by omega) (by omega)
      rw [show st.loff + (sz - 1) = st1.offset - 1 by omega] at hmap
      have hat1 := hgood (st1.offset - 1) (by omega) (by omega) hmap
        (by rwa [show st1.offset - 1 + 1 = st1.offset by omega])
      have hscr1 := hr.scratch
      rw [show k + (st1.offset - st.offset) - target - 1 =
        k + (st1.offset - 1 - st.offset) - target by omega] at hscr1
      have hv1 : ∀ q ∈ v ++ visit rf.visible k
          (run st.offset (st1.offset - st.offset).toNat), q.1 < k + (st1.offset - st.offset) := by
        intro q hq
        rcases mem_append.mp hq with hq | hq
        · have := hv q hq
          omega
        · have := (fst_mem_visit hq).2
          rw [length_run] at this
          omega
      have hgood1 : StripsAt rf m target (k + (st1.offset - st.offset))
          st1.offset mid := by
        intro x hx hx' hmx hnx
        have := hgood x (by omega) hx' hmx hnx
        rwa [show k + (st1.offset - st.offset) + (x - st1.offset) = k + (x - st.offset) by omega]
      obtain ⟨st', hgo, hr'⟩ := ih st1 _ (k + (st1.offset - st.offset)) (by omega) (by omega) hlt1
        ht.size ht.loff ht.eof ht.file (fun x hx => hlim x (by omega)) (by omega) (by omega)
        (by omega) (by omega) hgood1 hr.inv hv1 (by omega)
      refine ⟨st', fun p hp => Leaves.turn hturn (hgo p hp), ?_⟩
      rw [run_split (show st.offset ≤ st1.offset by omega) hle1, visit_append, length_run,
        Int.toNat_of_nonneg (by omega), ← append_assoc]
      rwa [show k + (st1.offset - st.offset) + (mid - st1.offset) = k + (mid - st.offset) by omega]
        at hr'
    · subst heq
      exact ⟨st1, fun p hp => Leaves.turn hturn hp, hr⟩

end

/-! ## A transfer -/

/-- What is known about the byte `x` at position `k` of a transfer: if it ends a strip of this
server and more bytes of the server follow, it lies in memory where it lies in the type. -/
structure InMemory (rf : RequestFileData) (limit : Int) (m : Request) (target final k x : Int) :
    Prop where
  nonneg : 0 ≤ x
  reach : rf.Mapped x → x < limit
  target_le : target ≤ k
  lt_final : k < final
  strip : rf.Mapped x → ¬ rf.Mapped (x + 1) → (∃ j, 0 < j ∧ k + j < final ∧ rf.Mapped (x + j)) →
    (m.stream 1).getD (k - target).toNat 0 = k - target

section
variable {rf : RequestFileData} {limit : Int} {m : Request} {b : Nat × Int} {target final : Int}

section
variable (hrf : Strips rf limit) (hm : m.Wf) (hfit : final - target ≤ m.aggregateSize)
  (hb : final - target < b.1) (hb' : final - target < b.2)
include hrf hm hfit hb hb'

theorem mem_distributeLoop {offset size k : Int} {sh : Shared} {v : List (Int × Int)}
    (hsize : 0 < size) (hfile : rf.Same sh.rfdata)
    (hreg : ByteRegion (InMemory rf limit m target final) k offset size)
    (hI : MemInv m target b v k sh) (hv : ∀ q ∈ v, q.1 < k)
    (hscr : sh.result.offsetArray sh.result.segs = k - target) :
    ∃ st', Leaves (distributeBody .pintClient) ⟨offset, size,
        rf.nextMappedOffset offset, sh, false⟩ (some st') ∧
      DistDone .pintClient rf limit (offset + size)
        (MemInv m target b) v k offset st' ∧ offset + size ≤ st'.loff ∧ st'.eofFlag = false := by
  have law := hrf.law
  have hfirst := hreg 0 (le_refl _) hsize
  rw [Int.add_zero, Int.add_zero] at hfirst
  have h0 := hfirst.nonneg
  have hlastpos := (hreg (size - 1) (by omega) (by omega)).lt_final
  have hbyte : ∀ x, offset ≤ x → x < offset + size → InMemory rf
      limit m target final (k + (x - offset)) x := by
    intro x hx hx'
    have := hreg (x - offset) (by omega) (by omega)
    rwa [show offset + (x - offset) = x by omega] at this
  rcases Int.lt_or_le (rf.nextMappedOffset offset)
    (offset + size) with hlt | hge
  · -- the last byte of the region on this server
    obtain ⟨y, ⟨hy, hy', hmy⟩, hmax⟩ := Int.exists_greatest_of_bdd
      (P := fun y => offset ≤ y ∧ y < offset + size ∧ rf.Mapped y)
      ⟨offset + size, fun z hz => by omega⟩
      ⟨_, law.le_next offset h0, hlt, law.mapped_next offset h0⟩
    have hgood : StripsAt rf m target k offset (y + 1) := by
      intro x hx hx' hmx hnx
      refine (hbyte x hx (by omega)).strip hmx hnx ⟨y - x, by omega, by omega, ?_⟩
      rwa [show x + (y - x) = y by omega]
    have hend : y + 1 = offset + size ∨ ¬ rf.Mapped (y + 1) := by
      by_cases h : y + 1 = offset + size
      · exact .inl h
      · refine .inr fun hmap => ?_
        have := hmax (y + 1) ⟨by omega, by omega, hmap⟩
        omega
    obtain ⟨st', hgo, hr⟩ := mem_reach hrf hm (show y + 1 ≤ offset + size by omega)
      (by rwa [Int.add_sub_cancel]) hend (y + 1 - offset).toNat
      ⟨offset, size, rf.nextMappedOffset offset, sh, false⟩ v k
      (le_refl _) h0 (by simp only; omega) (by simp only; omega) rfl rfl hfile
      (fun x hx hx' => (hbyte x hx hx').reach) hfirst.target_le (by simp only; omega)
      (by simp only; omega) (by simp only; omega) hgood hI hv hscr
    have hoff := hr.offset
    have hloff : offset + size ≤ st'.loff := by
      by_contra hlt'
      have hnext : y + 1 ≤ st'.loff := hr.loff ▸ law.le_next (y + 1) (by omega)
      have := hmax st'.loff ⟨by omega, by omega, hr.loff ▸ law.mapped_next (y + 1) (by omega)⟩
      omega
    refine ⟨st', hgo _ (distributeBody_end ?_), ⟨by omega, by omega, hoff ▸ hr.loff, hr.file, ?_,
      .inl hloff, by rw [hr.eof]; simp⟩, hloff, hr.eof⟩
    · rw [hr.size]
      omega
    · rw [hoff]
      exact hr.inv
  · exact ⟨_, distributeBody_end (by simp only; omega),
      .none ⟨offset, size, _, sh, false⟩ (by simp only; omega) rfl hfile hI hge (by simp), hge, rfl⟩

theorem mem_serves :
    Serves .pintClient rf limit target
      (ByteRegion (InMemory rf limit m target final))
      (MemInv m target b) := by
  have law := hrf.law
  refine ⟨rfl, fun h => h.holds.within, fun h _ => ⟨h.mem, h.holds.setScratch _⟩, ?_⟩
  intro v k k' offset size sh hI hv hfile hfull hsize hreg
  have hfirst := (hreg 0 (le_refl _) hsize).nonneg
  rw [Int.add_zero] at hfirst
  obtain ⟨st', hleave, hdone, hloff, heof⟩ := mem_distributeLoop hrf hm hfit hb hb' hsize
    (show rf.Same (sh.scratch .pintClient (k - target)).rfdata
      from hfile) hreg (show MemInv m target b v k (sh.scratch .pintClient (k - target)) from
      ⟨hI.mem, hI.holds.setScratch _⟩) hv (by simp [Shared.scratch, Mode.pintClient,
        setScratch])
  refine ⟨_, _, _, distribute_of_loop law.toSeeks hfirst hsize hfile hfull hleave,
    hdone.distributes law.toSeeks hfirst hsize (fun h => ?_) (.inr (.inl hloff))⟩
  have hext : st'.sh.rfdata.extendFlag = true := hdone.file.extendFlag.trans hrf.extend
  simp [DistLoop.atEof, heof, hext] at h

end

/-- A call with a memory request. -/
def Shared.withMemory (m : Request) (strip : Int) (nr ct : Nat) (b : Nat × Int) : Shared :=
  { Shared.striped strip nr ct b with mem := some (.new m) }

theorem mem_writes (m : Request) (target : Int) :
    Writes (MemInv m target) (memByte (m.stream 1) target) := by
  refine ⟨fun h => ⟨h.holds.segments, h.holds.positive⟩, fun h => ⟨?_, ?_⟩, fun h => h.holds.budget⟩
  · simpa using h.holds.bytes
  · simpa using h.holds.segs

theorem mem_opens (hm : m.Wf) (target : Int) {sh : Shared} (h : sh.mem = some (.new m)) :
    Opens (MemInv m target) sh :=
  fun _ _ hb => ⟨0, ⟨_, 0, h, memAt_new hm, le_refl _, fun _ hk _ => by omega⟩,
    RequestResult.Holds.reset _ hb⟩

theorem mem_call {strip : Int} {nr ct : Nat} {f : Request} (hf : f.Wf) (hm : m.Wf) (hs : 0 < strip) (hn : nr < ct)
    (h0 : 0 ≤ target) (htf : target < final) (hfit : final - target ≤ m.aggregateSize)
    (hb : final - target < b.1) (hb' : final - target < b.2)
    (hbytes : ∀ q ∈ numbered target (f.window target final), InMemory (.striped strip nr ct)
      (Dist.stripeLimit strip ct) m target final q.1 q.2) :
    ∃ req' sh', Returns (processRequest · (.opened f target final) (.withMemory m strip nr ct b)
        .pintClient) (.ret 0 req' sh') ∧ req'.done = true ∧
      expand sh'.result.segments =
        (visit (striped strip nr ct).visible target (f.window target final)).map
          (memByte (m.stream 1) target) := by
  have hlim : ∀ x ∈ f.window target final, (striped strip nr ct).Mapped x →
      x < Dist.stripeLimit strip ct := by
    intro x hx
    obtain ⟨j, hj⟩ := getElem?_of_mem hx
    exact (hbytes (target + j, x) (mem_numbered.mpr ⟨j, rfl, hj⟩)).reach
  obtain ⟨req', sh', hret, hdone, -, -, hexp⟩ := call_done _ hf (mem_writes m target) rfl
    rfl h0 htf (.inl rfl) hlim hbytes (mem_serves (strips_striped hs hn) hm hfit hb hb') (by omega)
    (by omega) (.refl _) (mem_opens hm target
      (show ({ Shared.fresh (.striped strip nr ct) with mem := some (.new m) } : Shared).mem =
        some (.new m) from rfl))
  exact ⟨req', sh', hret, hdone, hexp⟩

end

end Pvfs.Description
