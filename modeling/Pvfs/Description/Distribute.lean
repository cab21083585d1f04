import Pvfs.Lib.Run
import Pvfs.Description.Process

/-! # What distributing a region does

`PINT_distribute` is called with a contiguous region of the file and visits, fragment by
fragment, the bytes of the region that live on this server. The specification is one
sentence: it visits the *visible* bytes of a prefix of the region, in order, and the prefix
is the whole region unless the caller's budget is used up or the file has ended.

What visiting a fragment writes into the result depends on the mode: a server records
physical offsets, a client offsets in its buffer, and with a memory type places in memory.
The loop is the same for all three, so it is proved once, against an invariant `I v k sh`
(bytes `v` have been visited, the region stands at position `k` of the request) that
`emit` has to keep. -/

namespace Pvfs.Description

open Pvfs.Lib RequestFileData

variable {rf rf' : RequestFileData}

namespace RequestFileData

/-- Processing changes nothing about a file but its size, and that only if it may grow. -/
structure Same (rf rf' : RequestFileData) : Prop where
  serverNr : rf'.serverNr = rf.serverNr
  serverCt : rf'.serverCt = rf.serverCt
  dist : rf'.dist = rf.dist
  extendFlag : rf'.extendFlag = rf.extendFlag
  fsize : rf.extendFlag = false → rf'.fsize = rf.fsize

theorem Same.refl (rf : RequestFileData) : rf.Same rf :=
  ⟨rfl, rfl, rfl, rfl, fun _ => rfl⟩

theorem Same.fragment (h : rf.Same rf') (res : RequestResult) (x rest : Int) :
    rf'.fragment res x rest = rf.fragment res x rest := by
  obtain ⟨hn, hc, hd, -, -⟩ := h
  cases rf
  cases rf'
  subst hn hc hd
  rfl

theorem Same.nextMappedOffset (h : rf.Same rf') (x : Int) :
    rf'.nextMappedOffset x = rf.nextMappedOffset x := by
  simp only [RequestFileData.nextMappedOffset, h.serverNr, h.serverCt, h.dist]

theorem Same.logicalToPhysicalOffset (h : rf.Same rf') (x : Int) :
    rf'.logicalToPhysicalOffset x = rf.logicalToPhysicalOffset x := by
  simp only [RequestFileData.logicalToPhysicalOffset, h.serverNr, h.serverCt, h.dist]

/-- The server stores the byte. -/
def Mapped (rf : RequestFileData) (x : Int) : Prop :=
  rf.dist.Mapped rf.serverNr rf.serverCt x

instance (rf : RequestFileData) (x : Int) : Decidable (rf.Mapped x) :=
  inferInstanceAs (Decidable (rf.dist.Mapped _ _ _))

/-- The byte is on this server, and inside the file unless that may grow. -/
def visible (rf : RequestFileData) (x : Int) : Bool :=
  decide (rf.Mapped x) && (rf.extendFlag || decide (rf.logicalToPhysicalOffset x < rf.fsize))

theorem visible_eq_true {x : Int} :
    rf.visible x = true ↔
      rf.Mapped x ∧ (rf.extendFlag = true ∨ rf.logicalToPhysicalOffset x < rf.fsize) := by
  simp [visible]

def Seeks (rf : RequestFileData) : Prop := rf.dist.Seeks rf.serverNr rf.serverCt

/-- The distribution of the file is lawful for mapped bytes below `limit`. -/
def Lawful (rf : RequestFileData) (limit : Int) : Prop :=
  rf.dist.Lawful rf.serverNr rf.serverCt limit

theorem striped_lawful {strip : Int} {nr ct : Nat} (hs : 0 < strip) (hn : nr < ct) :
    (striped strip nr ct).Lawful (Dist.stripeLimit strip ct) :=
  Dist.simpleStripe_lawful hs hn

theorem hidden_before (law : rf.Seeks) {o y : Int} (h0 : 0 ≤ o) (hy : o ≤ y)
    (hlt : y < rf.nextMappedOffset o) : rf.visible y = false := by
  by_contra hvy
  have hle : rf.nextMappedOffset o ≤ y :=
    law.next_le o y h0 hy (visible_eq_true.mp (by simpa using hvy)).1
  omega

theorem behind_of_hidden {x : Int} (hm : rf.Mapped x) (hv : rf.visible x = false) :
    rf.extendFlag = false ∧ rf.fsize ≤ rf.logicalToPhysicalOffset x := by
  simpa [visible, hm] using hv

end RequestFileData

/-! ## One fragment -/

section
variable {limit x : Int}

/-- What one turn takes is mapped in one piece. -/
theorem fragment_spec (law : rf.Lawful limit) {res : RequestResult} {rest : Int} (hx : 0 ≤ x)
    (hm : rf.Mapped x) (hr : 0 < rest) (hb : res.bytes < res.bytemax)
    (hlim : ∀ y, x ≤ y → y < x + rest → rf.Mapped y → y < limit) :
    0 < rf.fragment res x rest ∧ rf.fragment res x rest ≤ rest ∧
    res.bytes + rf.fragment res x rest ≤ res.bytemax ∧
    ∀ j, 0 ≤ j → j < rf.fragment res x rest →
      rf.Mapped (x + j) ∧ x + j < limit ∧
      rf.logicalToPhysicalOffset (x + j) = rf.logicalToPhysicalOffset x + j := by
  have hxl : x < limit := hlim x (le_refl _) (by omega) hm
  have hfp := law.fragment_pos x hx hxl hm
  -- inside the fragment length, or anywhere if the server is alone, the bytes are ours
  have hin : ∀ j, 0 ≤ j → j < rest →
      (rf.serverCt = 1 ∨ j < rf.contiguousLength (rf.logicalToPhysicalOffset x)) →
      rf.Mapped (x + j) ∧ x + j < limit ∧
      rf.logicalToPhysicalOffset (x + j) = rf.logicalToPhysicalOffset x + j := by
    intro j hj0 hj hor
    have hmj : rf.Mapped (x + j) := by
      rcases hor with h1 | hlt
      · exact law.mapped_alone h1 (x + j) (by omega)
      · exact law.fragment_mapped x j hx hxl hm hj0 hlt
    have hjl : x + j < limit := hlim (x + j) (by omega) (by omega) hmj
    exact ⟨hmj, hjl, law.fragment_phys x j hx hm hj0 hjl hor⟩
  have hfp' : 0 < rf.contiguousLength (rf.logicalToPhysicalOffset x) := hfp
  unfold fragment
  by_cases hc : rest > rf.contiguousLength (rf.logicalToPhysicalOffset x) ∧ rf.serverCt ≠ 1
  · simp only [if_pos hc]
    split <;>
      exact ⟨by omega, by omega, by omega, fun j h0 hj => hin j h0 (by omega) (.inr (by omega))⟩
  · simp only [if_neg hc]
    have hor : ∀ j, j < rest →
        rf.serverCt = 1 ∨ j < rf.contiguousLength (rf.logicalToPhysicalOffset x) := by
      omega
    split <;>
      exact ⟨by omega, by omega, by omega, fun j h0 hj => hin j h0 (by omega) (hor j (by omega))⟩

theorem clipEof_hidden (hs : rf.Same rf') (hm : rf.Mapped x) (hv : rf.visible x = false) {sz : Int}
    (hsz : 0 < sz) :
    clipEof rf' (rf.logicalToPhysicalOffset x) sz =
        (rf', rf'.fsize - rf.logicalToPhysicalOffset x, true) ∧
      rf'.fsize - rf.logicalToPhysicalOffset x ≤ 0 := by
  obtain ⟨hext, hle⟩ := behind_of_hidden hm hv
  have hfs := hs.fsize hext
  unfold clipEof
  rw [if_pos (by omega), if_neg (by rw [hs.extendFlag, hext]; simp)]
  exact ⟨rfl, by omega⟩

theorem hidden_after (law : rf.Lawful limit) (hx : 0 ≤ x) (hm : rf.Mapped x)
    (hv : rf.visible x = false) :
    rf.extendFlag = false ∧ ∀ y, x ≤ y → y < limit → rf.visible y = false := by
  obtain ⟨hext, hle⟩ := behind_of_hidden hm hv
  refine ⟨hext, fun y hy hyl => ?_⟩
  rcases Int.lt_or_eq_of_le hy with hlt | rfl
  · by_contra hvy
    obtain ⟨hmy, hory⟩ := visible_eq_true.mp (by simpa using hvy)
    have hmono : rf.logicalToPhysicalOffset x < rf.logicalToPhysicalOffset y :=
      law.phys_lt x y hx hlt hyl hm hmy
    have := hory.resolve_left (by simp [hext])
    omega
  · exact hv

theorem hidden_from (law : rf.Lawful limit) (hx : 0 ≤ x) (hm : rf.Mapped (rf.nextMappedOffset x))
    (hv : rf.visible (rf.nextMappedOffset x) = false) :
    rf.extendFlag = false ∧ ∀ y, x ≤ y → y < limit → rf.visible y = false := by
  have hge : x ≤ rf.nextMappedOffset x := law.le_next x hx
  obtain ⟨hext, hhid⟩ := hidden_after law (by omega) hm hv
  refine ⟨hext, fun y hy hyl => ?_⟩
  rcases Int.lt_or_le y (rf.nextMappedOffset x) with hlt | hle
  · exact hidden_before law.toSeeks hx hy hlt
  · exact hhid y hle hyl

theorem clipEof_visible (law : rf.Lawful limit) (hs : rf.Same rf') (hx : 0 ≤ x)
    (hv : rf.visible x = true) {sz : Int} (hsz : 0 < sz)
    (hin : ∀ j, 0 ≤ j → j < sz → rf.Mapped (x + j) ∧ x + j < limit ∧
      rf.logicalToPhysicalOffset (x + j) = rf.logicalToPhysicalOffset x + j) :
    ∃ rf'' sz' hit, clipEof rf' (rf.logicalToPhysicalOffset x) sz = (rf'', sz', hit) ∧
      rf.Same rf'' ∧ 0 < sz' ∧ sz' ≤ sz ∧
      (∀ j, 0 ≤ j → j < sz' → rf.visible (x + j) = true) ∧
      (hit = true → rf.extendFlag = false ∧
        ∀ y, x + sz' ≤ y → y < limit → rf.visible y = false) := by
  obtain ⟨hm, hor⟩ := visible_eq_true.mp hv
  unfold clipEof
  by_cases hover : rf.logicalToPhysicalOffset x + sz > rf'.fsize
  · rw [if_pos hover]
    cases hext : rf.extendFlag with
    | true =>
      rw [if_pos (hs.extendFlag.trans hext)]
      refine ⟨_, _, _, rfl, ?_, hsz, le_refl _, ?_, by simp⟩
      · exact ⟨hs.serverNr, hs.serverCt, hs.dist, hs.extendFlag, fun h => absurd (hext.symm.trans h) (by simp)⟩
      · intro j h0 hj
        exact visible_eq_true.mpr ⟨(hin j h0 hj).1, .inl hext⟩
    | false =>
      have hfs := hs.fsize hext
      have hlt : rf.logicalToPhysicalOffset x < rf.fsize := hor.resolve_left (by simp [hext])
      rw [if_neg (by rw [hs.extendFlag, hext]; simp)]
      refine ⟨_, _, _, rfl, hs, by omega, by omega, ?_, ?_⟩
      · intro j h0 hj
        obtain ⟨hmj, -, hp⟩ := hin j h0 (by omega)
        exact visible_eq_true.mpr ⟨hmj, .inr (by omega)⟩
      · -- storing keeps the order, so what lies behind the last byte is behind the end
        refine fun _ => ⟨rfl, fun y hy hyl => ?_⟩
        by_contra hvy
        obtain ⟨hmy, hory⟩ := visible_eq_true.mp (by simpa using hvy)
        obtain ⟨hmx, -, hp⟩ :=
          hin (rf'.fsize - rf.logicalToPhysicalOffset x - 1) (by omega) (by omega)
        have hmono : rf.logicalToPhysicalOffset _ < rf.logicalToPhysicalOffset y :=
          law.phys_lt _ y (by omega) (by omega) hyl hmx hmy
        have := hory.resolve_left (by simp [hext])
        omega
  · rw [if_neg hover]
    refine ⟨_, _, _, rfl, hs, hsz, le_refl _, ?_, by simp⟩
    intro j h0 hj
    obtain ⟨hmj, -, hp⟩ := hin j h0 hj
    refine visible_eq_true.mpr ⟨hmj, ?_⟩
    rcases hor with h | h
    · exact .inl h
    · cases hext : rf.extendFlag
      · have hfs := hs.fsize hext
        exact .inr (by omega)
      · exact .inl rfl

theorem clipEof_extend (hs : rf.Same rf') (hext : rf.extendFlag = true) (poff sz : Int) :
    ∃ rf'', clipEof rf' poff sz = (rf'', sz, false) ∧ rf.Same rf'' := by
  unfold clipEof
  split
  · rw [if_pos (hs.extendFlag.trans hext)]
    exact ⟨_, rfl, hs.serverNr, hs.serverCt, hs.dist, hs.extendFlag,
      fun h => absurd (h.symm.trans hext) (by simp)⟩
  · exact ⟨rf', rfl, hs⟩

end

/-! ## The loop -/

/-- Visiting a fragment keeps `I`. `Byte k x` is what the caller knows about the bytes of its
regions: byte `x` of the file at position `k` of the request. -/
structure Emits (mode : Mode) (rf : RequestFileData) (Byte : Int → Int → Prop)
    (I : List (Int × Int) → Int → Shared → Prop) : Prop where
  file : ∀ {v k sh rf'}, I v k sh → rf.Same rf' → I v k { sh with rfdata := rf' }
  emit : ∀ {v k sh x sz diff}, I v k sh → rf.Same sh.rfdata → 0 ≤ diff → 0 < sz →
    sh.result.bytes + sz ≤ sh.result.bytemax → ¬ sh.result.full mode →
    (∀ j, 0 ≤ j → j < sz → rf.visible (x + j) = true ∧ Byte (k + diff + j) (x + j) ∧
      rf.logicalToPhysicalOffset (x + j) = rf.logicalToPhysicalOffset x + j) →
    ∃ sz' sh', Returns (emit mode · sh diff (rf.logicalToPhysicalOffset x) sz) (.added sz' sh') ∧
      0 < sz' ∧ sz' ≤ sz ∧
      (sz' = sz ∨ (sh'.result.full mode ∧ rf.extendFlag = true)) ∧
      rf.Same sh'.rfdata ∧
      I (v ++ numbered (k + diff) (run x sz'.toNat)) (k + diff + sz') (sh'.rescratch mode)

@[simp] theorem Shared.rescratch_rfdata (sh : Shared) (mode : Mode) :
    (sh.rescratch mode).rfdata = sh.rfdata := by
  unfold Shared.rescratch
  simp only
  split <;> rfl

theorem visit_gap {p : Int → Bool} {o x sz : Int} (k : Int) (hox : o ≤ x) (hsz : 0 ≤ sz)
    (hgap : ∀ y, o ≤ y → y < x → p y = false) (hall : ∀ j, 0 ≤ j → j < sz → p (x + j) = true) :
    visit p k (run o (x - o + sz).toNat) = numbered (k + (x - o)) (run x sz.toNat) := by
  have hsplit := run_split hox (show x ≤ x + sz by omega)
  rw [show x + sz - o = x - o + sz by omega, add_sub_cancel_left] at hsplit
  rw [hsplit, visit_append, visit_none, visit_all, List.nil_append, length_run,
    Int.toNat_of_nonneg (by omega)]
  · intro y hy
    have := mem_run.mp hy
    have hyx := hall (y - x) (by omega) (by omega)
    rwa [show x + (y - x) = y by omega] at hyx
  · intro y hy
    have := mem_run.mp hy
    exact hgap y (by omega) (by omega)

/-- How the loop of `PINT_distribute` ends, when the region ends at `stop`. -/
structure DistDone (mode : Mode) (rf : RequestFileData) (limit stop : Int)
    (I : List (Int × Int) → Int → Shared → Prop) (v : List (Int × Int)) (k offset : Int)
    (st' : DistLoop) : Prop where
  le : offset ≤ st'.offset
  le_stop : st'.offset ≤ stop
  loff : st'.loff = rf.nextMappedOffset st'.offset
  file : rf.Same st'.sh.rfdata
  inv : I (v ++ visit rf.visible k (run offset (st'.offset - offset).toNat))
    (k + (st'.offset - offset)) st'.sh
  reason : stop ≤ st'.loff ∨ st'.sh.result.full mode ∨ st'.eofFlag = true
  eof : st'.eofFlag = true → rf.extendFlag = false ∧
    ∀ y, st'.offset ≤ y → y < limit → rf.visible y = false

section
variable {mode : Mode} {limit stop offset k : Int} {Byte : Int → Int → Prop}
  {I : List (Int × Int) → Int → Shared → Prop} {v : List (Int × Int)}

theorem DistDone.after {mid : Int} {st' : DistLoop} (hlt : offset < mid)
    (h : DistDone mode rf limit stop I
      (v ++ visit rf.visible k (run offset (mid - offset).toNat)) (k + (mid - offset)) mid st') :
    DistDone mode rf limit stop I v k offset st' := by
  have hle := h.le
  refine ⟨by omega, h.le_stop, h.loff, h.file, ?_, h.reason, h.eof⟩
  have hinv := h.inv
  rw [show k + (mid - offset) + (st'.offset - mid) = k + (st'.offset - offset) by omega] at hinv
  rw [run_split (Int.le_of_lt hlt) hle, visit_append, length_run, Int.toNat_of_nonneg (by omega),
    ← List.append_assoc]
  exact hinv

theorem DistDone.none (st : DistLoop) (hle : st.offset ≤ stop)
    (hloff : st.loff = rf.nextMappedOffset st.offset) (hs : rf.Same st.sh.rfdata)
    (hI : I v k st.sh) (hend : stop ≤ st.loff) (heof : st.eofFlag = true → rf.extendFlag = false ∧
      ∀ y, st.offset ≤ y → y < limit → rf.visible y = false) :
    DistDone mode rf limit stop I v k st.offset st :=
  ⟨le_refl _, hle, hloff, hs, by simpa using hI, .inl hend, heof⟩

variable {st : DistLoop} {size : Int}

theorem distributeBody_end (h : st.size ≤ st.loff - st.offset) :
    Leaves (distributeBody mode) st (some st) := by
  refine Leaves.last (.always fun fuel => ?_)
  unfold distributeBody
  rw [if_neg (by omega)]

section
variable (st : DistLoop) {sz sz' : Int} {hit : Bool} {sh' : Shared}
  (h : st.loff - st.offset < st.size)
  (hc : clipEof st.sh.rfdata (st.sh.rfdata.logicalToPhysicalOffset st.loff)
    (st.sh.rfdata.fragment st.sh.result st.loff (st.size - (st.loff - st.offset))) = (rf', sz, hit))
include h hc

theorem distributeBody_eof (hhit : hit = true) (hsz : sz ≤ 0) :
    Leaves (distributeBody mode) st
      (some { st with sh := { st.sh with rfdata := rf' }, eofFlag := true }) := by
  refine Leaves.last (.always fun fuel => ?_)
  unfold distributeBody
  simp only [if_pos h, hc]
  rw [if_pos ⟨hhit, hsz⟩, hhit, Bool.or_true]

theorem distributeBody_added (law : rf.Seeks) (h0 : 0 ≤ st.loff) (hsz : 0 < sz) (hsz' : 0 < sz')
    (hs : rf.Same sh'.rfdata)
    (hem : Returns (emit mode · { st.sh with rfdata := rf' } (st.loff - st.offset)
      (st.sh.rfdata.logicalToPhysicalOffset st.loff) sz) (.added sz' sh')) :
    ∃ st' : DistLoop, st' = ⟨st.loff + sz', st.size - (st.loff + sz' - st.offset),
        rf.nextMappedOffset (st.loff + sz'), sh'.rescratch mode, st.eofFlag || hit⟩ ∧
      Returns (distributeBody mode · st)
        (if st'.sh.result.full mode then .leave (some st') else .again st') := by
  have hnext : st.loff + sz' ≤ rf.nextMappedOffset (st.loff + sz') := law.le_next _ (by omega)
  refine ⟨_, rfl, hem.map fun fuel hf => ?_⟩
  unfold distributeBody
  simp only [if_pos h, hc]
  rw [if_neg (by omega), hf]
  simp only [Option.map_some, DistLoop.advance, if_neg (show ¬ sz' < 1 by omega),
    Shared.rescratch_rfdata, hs.nextMappedOffset]
  rw [if_neg (by omega)]

theorem distributeBody_stop (hsz : 0 < sz)
    (hem : Returns (emit mode · { st.sh with rfdata := rf' } (st.loff - st.offset)
      (st.sh.rfdata.logicalToPhysicalOffset st.loff) sz) (.stop sh')) :
    Leaves (distributeBody mode) st
      (some { st with sh := sh', eofFlag := st.eofFlag || hit }) := by
  refine Leaves.last (hem.map fun fuel hf => ?_)
  unfold distributeBody
  simp only [if_pos h, hc]
  rw [if_neg (by omega), hf]
  rfl

end

theorem Emits.turn (he : Emits mode rf Byte I) (law : rf.Seeks) {sz : Int} {hit : Bool}
    (h0 : 0 ≤ st.offset) (hloff : st.loff = rf.nextMappedOffset st.offset)
    (hdiff : st.loff - st.offset < st.size) (hs : rf.Same st.sh.rfdata) (hI : I v k st.sh)
    (hfull : ¬ st.sh.result.full mode)
    (hc : clipEof st.sh.rfdata (st.sh.rfdata.logicalToPhysicalOffset st.loff)
      (st.sh.rfdata.fragment st.sh.result st.loff (st.size - (st.loff - st.offset))) =
        (rf', sz, hit)) (hs' : rf.Same rf') (hsz : 0 < sz)
    (hroom : st.sh.result.bytes + sz ≤ st.sh.result.bytemax)
    (hbyte : ∀ j, 0 ≤ j → j < sz → rf.visible (st.loff + j) = true ∧
      Byte (k + (st.loff + j - st.offset)) (st.loff + j) ∧
      rf.logicalToPhysicalOffset (st.loff + j) = rf.logicalToPhysicalOffset st.loff + j) :
    ∃ st' sz', 0 < sz' ∧ sz' ≤ sz ∧ (sz' = sz ∨ rf.extendFlag = true) ∧
      st'.offset = st.loff + sz' ∧ st'.size = st.size - (st'.offset - st.offset) ∧
      st'.loff = rf.nextMappedOffset st'.offset ∧ st'.eofFlag = (st.eofFlag || hit) ∧
      rf.Same st'.sh.rfdata ∧ I (v ++ visit rf.visible k (run st.offset (st'.offset - st.offset).toNat))
        (k + (st'.offset - st.offset)) st'.sh ∧
      Returns (distributeBody mode · st)
        (if st'.sh.result.full mode then .leave (some st') else .again st') := by
  have hge : st.offset ≤ st.loff := hloff ▸ law.le_next st.offset h0
  obtain ⟨sz', sh', hem, hsz0, hle, hcut, hs'', hI'⟩ := he.emit (x := st.loff) (he.file hI hs') hs'
    (show 0 ≤ st.loff - st.offset by omega) hsz hroom hfull fun j hj0 hj => by
      rw [show k + (st.loff - st.offset) + j = k + (st.loff + j - st.offset) by omega]
      exact hbyte j hj0 hj
  obtain ⟨st', rfl, hturn⟩ := distributeBody_added st hdiff hc law (by omega) hsz hsz0 hs''
    (by rw [hs.logicalToPhysicalOffset]; exact hem)
  refine ⟨_, sz', hsz0, hle, hcut.imp_right And.right, rfl, rfl, rfl, rfl, by simpa using hs'', ?_,
    hturn⟩
  rw [show st.loff + sz' - st.offset = st.loff - st.offset + sz' by omega,
    visit_gap k hge (by omega) ?_ (fun j hj0 hj => (hbyte j hj0 (by omega)).1), ← Int.add_assoc]
  · exact hI'
  · exact fun y hy hyx => hidden_before law h0 hy (hloff ▸ hyx)

/-- **The loop of `PINT_distribute`** visits the visible bytes of a prefix of its region. -/
theorem distributeLoop_spec (law : rf.Lawful limit) (he : Emits mode rf Byte I) (stop : Int)
    (n : Nat) :
    ∀ (st : DistLoop) (v : List (Int × Int)) (k : Int),
      (stop - st.offset).toNat = n → 0 ≤ st.offset → st.offset ≤ stop →
      st.size = stop - st.offset → st.loff = rf.nextMappedOffset st.offset →
      rf.Same st.sh.rfdata →
      (∀ x, st.offset ≤ x → x < stop → rf.Mapped x →
        x < limit ∧ Byte (k + (x - st.offset)) x) →
      I v k st.sh → ¬ st.sh.result.full mode →
      (st.eofFlag = true → rf.extendFlag = false ∧
        ∀ y, st.offset ≤ y → y < limit → rf.visible y = false) →
      ∃ st', Leaves (distributeBody mode) st (some st') ∧
        DistDone mode rf limit stop I v k st.offset st' ∧
        (st.offset < st'.offset ∨ stop ≤ st'.loff ∨ st'.eofFlag = true) := by
  -- every segment brings the offset closer to the end of the region
  induction n using Nat.strongRecOn with
  | ind n ih =>
    intro st v k hn h0 hle hsize hloff hs hreg hI hfull heof
    have hge : st.offset ≤ st.loff := hloff ▸ law.le_next st.offset h0
    rcases Int.lt_or_le st.loff stop with hlt | hend
    swap
    · exact ⟨st, distributeBody_end (by omega), .none st hle hloff hs hI hend heof, .inr (.inl hend)⟩
    have hdiff : st.loff - st.offset < st.size := by omega
    have hm : rf.Mapped st.loff := by
      rw [hloff]
      exact law.mapped_next st.offset h0
    have hrest : st.size - (st.loff - st.offset) = stop - st.loff := by omega
    have hbytes : st.sh.result.bytes < st.sh.result.bytemax := by
      by_contra hb
      exact hfull (.inl (by omega))
    obtain ⟨hpos, hfle, hfb, hin⟩ := fragment_spec law (by omega) hm
      (show 0 < stop - st.loff by omega) hbytes
      (fun y hy hys hmy => (hreg y (by omega) (by omega) hmy).1)
    have hclip : clipEof st.sh.rfdata (st.sh.rfdata.logicalToPhysicalOffset st.loff)
        (st.sh.rfdata.fragment st.sh.result st.loff (st.size - (st.loff - st.offset))) =
        clipEof st.sh.rfdata (rf.logicalToPhysicalOffset st.loff)
          (rf.fragment st.sh.result st.loff (stop - st.loff)) := by
      rw [hs.logicalToPhysicalOffset, hs.fragment, hrest]
    cases hv : rf.visible st.loff with
    | false =>
      obtain ⟨hc, hc0⟩ := clipEof_hidden hs hm hv hpos
      refine ⟨_, distributeBody_eof st hdiff (hclip.trans hc) rfl hc0, ⟨le_refl _, hle, hloff, hs,
        ?_, .inr (.inr rfl), fun _ => hidden_from law h0 (hloff ▸ hm) (hloff ▸ hv)⟩, .inr (.inr rfl)⟩
      simpa using hI
    | true =>
      have hxl : st.loff < limit := (hreg _ hge hlt hm).1
      have heof0 : st.eofFlag = false := by
        by_contra h
        have := (heof (by simpa using h)).2 st.loff hge hxl
        exact absurd (this.symm.trans hv) (by simp)
      obtain ⟨rf', sz, hit, hc, hs', hsz, hszle, hvis, hhit⟩ :=
        clipEof_visible law hs (by omega) hv hpos hin
      obtain ⟨st₁, sz', hsz0, hle', hcut, hoff, hsize', hloff', hflag, hs₁, hI₁, hturn⟩ :=
        he.turn law.toSeeks h0 hloff hdiff hs hI hfull (hclip.trans hc) hs' hsz (by omega)
          fun j hj0 hj => by
            obtain ⟨hmj, -, hp⟩ := hin j hj0 (by omega)
            exact ⟨hvis j hj0 hj, (hreg (st.loff + j) (by omega) (by omega) hmj).2, hp⟩
      have heof₁ : st₁.eofFlag = true → rf.extendFlag = false ∧
          ∀ y, st₁.offset ≤ y → y < limit → rf.visible y = false := by
        intro h
        rw [hflag, heof0] at h
        obtain ⟨hext, hno⟩ := hhit h
        rcases hcut with rfl | hext'
        · rw [hoff]
          exact ⟨hext, hno⟩
        · exact absurd (hext.symm.trans hext') (by simp)
      by_cases hf : st₁.sh.result.full mode
      · rw [if_pos hf] at hturn
        refine ⟨st₁, Leaves.last hturn, ⟨by omega, by omega, hloff', hs₁, hI₁, .inr (.inl hf), heof₁⟩,
          .inl (by omega)⟩
      · rw [if_neg hf] at hturn
        have hreg₁ : ∀ x, st₁.offset ≤ x → x < stop → rf.Mapped x →
            x < limit ∧ Byte (k + (st₁.offset - st.offset) + (x - st₁.offset)) x := by
          intro x hx hxs hmx
          rw [show k + (st₁.offset - st.offset) + (x - st₁.offset) = k + (x - st.offset) by omega]
          exact hreg x (by omega) hxs hmx
        obtain ⟨st', hleave, hdone, -⟩ := ih _ (by omega) st₁ _ _ rfl (by omega) (by omega)
          (by omega) hloff' hs₁ hreg₁ hI₁ hf heof₁
        have hle' := hdone.le
        exact ⟨st', Leaves.turn hturn hleave, hdone.after (by omega), .inl (by omega)⟩

theorem DistDone.atEof (law : rf.Lawful limit) (h0 : 0 ≤ offset)
    (h : DistDone mode rf limit stop I v k offset st) (he : st.atEof = true) :
    rf.extendFlag = false ∧ ∀ y, st.offset ≤ y → y < limit → rf.visible y = false := by
  obtain ⟨hle, hstop, hloff, hs, hinv, hreason, heof⟩ := h
  rcases (Bool.or_eq_true _ _).mp he with h | h
  · exact heof h
  · simp only [Bool.and_eq_true, decide_eq_true_eq, Bool.not_eq_true', hs.extendFlag,
      hs.logicalToPhysicalOffset] at h
    have hm : rf.Mapped st.loff := by
      rw [hloff]
      exact law.mapped_next st.offset (by omega)
    have hv : rf.visible st.loff = false := by
      have := hs.fsize h.2
      simp only [visible, h.2, Bool.false_or, Bool.and_eq_false_iff,
        decide_eq_false_iff_not]
      exact .inr (by omega)
    exact hidden_from law (by omega) (hloff ▸ hm) (hloff ▸ hv)

/-- The specification of `PINT_distribute` on the region of `size` bytes at `offset`, which
stands at position `k` of the request. -/
structure Distributes (mode : Mode) (rf : RequestFileData) (limit : Int)
    (I : List (Int × Int) → Int → Shared → Prop) (v : List (Int × Int)) (k offset size : Int)
    (ret : Int) (sh' : Shared) (eof : Bool) : Prop where
  nonneg : 0 ≤ ret
  le : ret ≤ size
  file : rf.Same sh'.rfdata
  inv : ∃ k', I (v ++ visit rf.visible k (run offset ret.toNat)) k' sh'
  reason : ret = size ∨ sh'.result.full mode ∨ eof = true
  progress : 0 < ret ∨ eof = true
  atEof : eof = true → rf.extendFlag = false ∧
    ∀ y, offset + ret ≤ y → y < limit → rf.visible y = false

variable {sh : Shared}

theorem distribute_of_loop (law : rf.Seeks) (h0 : 0 ≤ offset) (hsize : 0 < size)
    (hs : rf.Same sh.rfdata) (hfull : ¬ sh.result.full mode)
    (h : Leaves (distributeBody mode) ⟨offset, size, rf.nextMappedOffset offset, sh, false⟩ (some st)) :
    Returns (distribute · offset size sh mode)
      (.ret (if st.loff ≥ offset + size then size else st.offset - offset) st.sh st.atEof) := by
  have hnext : offset ≤ rf.nextMappedOffset offset := law.le_next offset h0
  refine h.returns.map fun n hn => ?_
  simp only [distribute]
  rw [if_neg (by rintro (h | h); exacts [hfull h, by omega]), hs.nextMappedOffset,
    if_neg (by omega), hn]
  rfl

theorem DistDone.distributes (law : rf.Seeks) (h0 : 0 ≤ offset) (hsize : 0 < size)
    (hdone : DistDone mode rf limit (offset + size) I v k offset st)
    (hateof : st.atEof = true → rf.extendFlag = false ∧
      ∀ y, st.offset ≤ y → y < limit → rf.visible y = false)
    (hprog : offset < st.offset ∨ offset + size ≤ st.loff ∨ st.eofFlag = true) :
    Distributes mode rf limit I v k offset size
      (if st.loff ≥ offset + size then size else st.offset - offset) st.sh st.atEof := by
  obtain ⟨hle, hstop, hloff, hs', hinv, hreason, -⟩ := hdone
  have hflag : st.eofFlag = true → st.atEof = true := fun h => by simp [DistLoop.atEof, h]
  by_cases hend : st.loff ≥ offset + size
  · -- the whole region, whose end may hold no byte of this server
    rw [if_pos hend]
    refine ⟨by omega, le_refl _, hs', ⟨k + (st.offset - offset), ?_⟩, .inl rfl, .inl hsize,
      fun h => ⟨(hateof h).1, fun y hy hyl => (hateof h).2 y (by omega) hyl⟩⟩
    have hsplit := run_split hle hstop
    rw [add_sub_cancel_left] at hsplit
    have htail : ∀ y ∈ run st.offset (offset + size - st.offset).toNat, rf.visible y = false := by
      intro y hy
      have hy' := mem_run.mp hy
      exact hidden_before law (by omega) hy'.1 (by omega)
    rw [hsplit, visit_append, visit_none _ htail, List.append_nil]
    exact hinv
  · rw [if_neg hend]
    refine ⟨by omega, by omega, hs', ⟨_, hinv⟩, ?_, ?_,
      fun h => ⟨(hateof h).1, fun y hy hyl => (hateof h).2 y (by omega) hyl⟩⟩
    · rcases hreason with h | h | h
      · omega
      · exact .inr (.inl h)
      · exact .inr (.inr (hflag h))
    · rcases hprog with h | h | h
      · exact .inl (by omega)
      · omega
      · exact .inr (hflag h)

/-- **`PINT_distribute`** visits the visible bytes of a prefix of its region, and the prefix is
the whole region unless the budget or the file has run out. -/
theorem distribute_spec (law : rf.Lawful limit) (he : Emits mode rf Byte I)
    (h0 : 0 ≤ offset) (hsize : 0 < size) (hs : rf.Same sh.rfdata)
    (hreg : ∀ x, offset ≤ x → x < offset + size → rf.Mapped x → x < limit ∧ Byte (k + (x - offset)) x)
    (hI : I v k sh) (hfull : ¬ sh.result.full mode) :
    ∃ ret sh' eof, Returns (distribute · offset size sh mode) (.ret ret sh' eof) ∧
      Distributes mode rf limit I v k offset size ret sh' eof := by
  obtain ⟨st, hleave, hdone, hprog⟩ := distributeLoop_spec law he (offset + size) size.toNat
    ⟨offset, size, rf.nextMappedOffset offset, sh, false⟩ v k
    (by rw [add_sub_cancel_left]) h0 (by simp only; omega) (by simp only; omega) rfl hs hreg hI hfull
    (by simp)
  exact ⟨_, _, _, distribute_of_loop law.toSeeks h0 hsize hs hfull hleave,
    hdone.distributes law.toSeeks h0 hsize (hdone.atEof law h0) hprog⟩

end

end Pvfs.Description
