import Mathlib.Data.Int.DivMod
import Mathlib.Tactic.Linarith
import Mathlib.Tactic.Ring
import Pvfs.Lib.Machine

/-! # File distributions

A distribution says on which server each byte of a file lives and where in that
server's datafile. `PINT_dist_methods` is a table of functions; `basic` keeps the whole
file on one server and `simpleStripe` deals it out round robin in strips. Both are
translated as the code computes them: C's `/` and `%` truncate towards zero, and
`logical_to_physical_offset` of the striped file keeps the number of full stripes in an
`int`, so it wraps at `2 ^ 31`.

`Lawful` is what request processing relies on: on the offsets below a limit, the next
mapped offset is the least mapped one, a fragment is contiguous on both sides, and
storing keeps the order. Both distributions are lawful, the striped one below
`2 ^ 31` full stripes. -/

namespace Pvfs.Description

open Lib (toInt32 toInt32_of_lt toInt32_of_ge)

/-- The methods of a distribution that request processing calls, with the parameters
already applied. `serverNr` and `serverCt` are what they read of the file data. -/
structure Dist where
  logicalToPhysicalOffset : (serverNr serverCt : Nat) → Int → Int
  physicalToLogicalOffset : (serverNr serverCt : Nat) → Int → Int
  nextMappedOffset : (serverNr serverCt : Nat) → Int → Int
  contiguousLength : (serverNr serverCt : Nat) → Int → Int

namespace Dist

/-- `CONTIGBLOCKSZ`. -/
def contigBlockSz : Int := 65536

/-- `dist-basic.c`: all data is stored on a single server. -/
def basic : Dist where
  logicalToPhysicalOffset _ _ logicalOffset := logicalOffset
  physicalToLogicalOffset _ _ physicalOffset := physicalOffset
  nextMappedOffset _ _ logicalOffset := logicalOffset
  contiguousLength _ _ _ := contigBlockSz

/-- `dist-simple-stripe.c`. -/
def simpleStripe (stripSize : Int) : Dist where
  logicalToPhysicalOffset serverNr serverCt logicalOffset :=
    -- full_stripes is an int
    let fullStripes := toInt32 (logicalOffset.tdiv (stripSize * serverCt))
    let retOffset := fullStripes * stripSize
    let leftover := logicalOffset - fullStripes * stripSize * serverCt
    if leftover ≥ serverNr * stripSize then
      if leftover < (serverNr + 1) * stripSize then
        retOffset + (leftover - serverNr * stripSize)
      else retOffset + stripSize
    else retOffset
  physicalToLogicalOffset serverNr serverCt physicalOffset :=
    let stripsDiv := physicalOffset.tdiv stripSize
    let stripsMod := physicalOffset.tmod stripSize
    stripsDiv * stripSize * serverCt + stripSize * serverNr + stripsMod
  nextMappedOffset serverNr serverCt logicalOffset :=
    let serverStartingOffset := serverNr * stripSize
    let stripeSize := serverCt * stripSize
    let diff := (logicalOffset - serverStartingOffset).tmod stripeSize
    if diff < 0 then serverStartingOffset
    else if diff ≥ stripSize then logicalOffset + (stripeSize - diff)
    else logicalOffset
  contiguousLength _ _ physicalOffset := stripSize - physicalOffset.tmod stripSize

/-- The byte at this offset is stored on the server. -/
def Mapped (d : Dist) (serverNr serverCt : Nat) (x : Int) : Prop :=
  d.nextMappedOffset serverNr serverCt x = x

instance (d : Dist) (serverNr serverCt : Nat) (x : Int) :
    Decidable (d.Mapped serverNr serverCt x) :=
  inferInstanceAs (Decidable (_ = _))

/-- The next mapped offset is the first one that is not before. -/
structure Seeks (d : Dist) (nr ct : Nat) : Prop where
  le_next : ∀ o, 0 ≤ o → o ≤ d.nextMappedOffset nr ct o
  mapped_next : ∀ o, 0 ≤ o → d.Mapped nr ct (d.nextMappedOffset nr ct o)
  next_le : ∀ o x, 0 ≤ o → o ≤ x → d.Mapped nr ct x → d.nextMappedOffset nr ct o ≤ x

/-- What request processing needs of a distribution, for mapped offsets below `limit`. -/
structure Lawful (d : Dist) (nr ct : Nat) (limit : Int) : Prop extends Seeks d nr ct where
  /-- a server that is alone stores everything -/
  mapped_alone : ct = 1 → ∀ o, 0 ≤ o → d.Mapped nr ct o
  fragment_pos : ∀ x, 0 ≤ x → x < limit → d.Mapped nr ct x →
    0 < d.contiguousLength nr ct (d.logicalToPhysicalOffset nr ct x)
  fragment_mapped : ∀ x j, 0 ≤ x → x < limit → d.Mapped nr ct x → 0 ≤ j →
    j < d.contiguousLength nr ct (d.logicalToPhysicalOffset nr ct x) → d.Mapped nr ct (x + j)
  fragment_phys : ∀ x j, 0 ≤ x → d.Mapped nr ct x → 0 ≤ j → x + j < limit →
    ct = 1 ∨ j < d.contiguousLength nr ct (d.logicalToPhysicalOffset nr ct x) →
    d.logicalToPhysicalOffset nr ct (x + j) = d.logicalToPhysicalOffset nr ct x + j
  phys_lt : ∀ x y, 0 ≤ x → x < y → y < limit → d.Mapped nr ct x → d.Mapped nr ct y →
    d.logicalToPhysicalOffset nr ct x < d.logicalToPhysicalOffset nr ct y
  logical_phys : ∀ x, 0 ≤ x → x < limit → d.Mapped nr ct x →
    d.physicalToLogicalOffset nr ct (d.logicalToPhysicalOffset nr ct x) = x

theorem basic_lawful (limit : Int) : basic.Lawful 0 1 limit where
  le_next _ _ := le_refl _
  mapped_next _ _ := rfl
  next_le _ _ _ h _ := h
  mapped_alone _ _ _ := rfl
  fragment_pos _ _ _ _ := show 0 < contigBlockSz by decide
  fragment_mapped _ _ _ _ _ _ _ := rfl
  fragment_phys _ _ _ _ _ _ _ := rfl
  phys_lt _ _ _ h _ _ _ := h
  logical_phys _ _ _ _ := rfl

/-! ## The striped file -/

/-- The first offset that lies past `2 ^ 31` full stripes. -/
def stripeLimit (stripSize : Int) (serverCt : Nat) : Int :=
  2 ^ 31 * (serverCt * stripSize)

section
variable {strip : Int} {nr ct : Nat}
variable {q r : Int}

section
variable {s q r : Int} (hq : 0 ≤ q) (h0 : 0 ≤ r) (h : r < s)
include hq h0 h

theorem tdiv_stripe : (q * s + r).tdiv s = q := by
  have hn0 : 0 ≤ q * s := Int.mul_nonneg hq (by omega)
  rw [Int.tdiv_eq_ediv_of_nonneg (by omega), Int.add_comm, Int.add_mul_ediv_right _ _ (by omega),
    Int.ediv_eq_zero_of_lt h0 h, Int.zero_add]

theorem tmod_stripe : (q * s + r).tmod s = r := by
  have hn0 : 0 ≤ q * s := Int.mul_nonneg hq (by omega)
  rw [Int.tmod_eq_emod_of_nonneg (by omega), Int.add_comm, Int.add_mul_emod_self_right,
    Int.emod_eq_of_lt h0 h]

theorem contiguousLength_stripe :
    (simpleStripe s).contiguousLength nr ct (q * s + r) = s - r := by
  simp only [simpleStripe, tmod_stripe hq h0 h]

theorem physicalToLogicalOffset_stripe :
    (simpleStripe s).physicalToLogicalOffset nr ct (q * s + r) =
      q * (ct * s) + (nr * s + r) := by
  simp only [simpleStripe, tdiv_stripe hq h0 h, tmod_stripe hq h0 h]
  ring

end

theorem stripe_le {s q q' r r' : Int} (hs : 0 ≤ s) (hr : 0 ≤ r) (hr' : r' < s)
    (h : q * s + r ≤ q' * s + r') : q ≤ q' := by
  by_contra hlt
  have hmul := Int.mul_le_mul_of_nonneg_right (show q' + 1 ≤ q by omega) hs
  have hy : (q' + 1) * s = q' * s + s := by ring
  omega

variable (hs : 0 < strip) (hn : nr < ct)
include hs hn

theorem strip_bounds : 0 ≤ (nr : Int) * strip ∧ (nr + 1 : Int) * strip = nr * strip + strip ∧
    (nr : Int) * strip + strip ≤ ct * strip := by
  have hx : (nr + 1 : Int) * strip = nr * strip + strip := by ring
  have hle : (nr + 1 : Int) * strip ≤ ct * strip :=
    Int.mul_le_mul_of_nonneg_right (by omega) (by omega)
  exact ⟨Int.mul_nonneg (by omega) (by omega), hx, by omega⟩

theorem nextMappedOffset_stripe (hq : 0 ≤ q) (hr0 : 0 ≤ r) (hr : r < ct * strip) :
    (simpleStripe strip).nextMappedOffset nr ct (q * (ct * strip) + r) =
      if r < nr * strip then q * (ct * strip) + nr * strip
      else if r < (nr + 1) * strip then q * (ct * strip) + r
      else (q + 1) * (ct * strip) + nr * strip := by
  obtain ⟨hnr, hx, hsn⟩ := strip_bounds hs hn
  simp only [simpleStripe]
  by_cases h1 : r < nr * strip
  · -- before the server's strip: C's remainder is negative in stripe 0 only
    rw [if_pos h1]
    rcases Int.lt_or_eq_of_le hq with hq1 | rfl
    · have hd : (q * (ct * strip) + r - nr * strip).tmod (ct * strip) =
          r - nr * strip + ct * strip := by
        rw [show q * (ct * strip) + r - nr * strip =
          (q - 1) * (ct * strip) + (r - nr * strip + ct * strip) by ring]
        exact tmod_stripe (by omega) (by omega) (by omega)
      rw [hd, if_neg (by omega), if_pos (by omega)]
      ring
    · have hd : (0 * (ct * strip) + r - nr * strip).tmod (ct * strip) = r - nr * strip := by
        rw [show (0 * (ct * strip) + r - nr * strip : Int) = -(nr * strip - r) by ring,
          Int.neg_tmod, Int.tmod_eq_of_lt (by omega) (by omega)]
        omega
      rw [if_pos (by omega)]
      ring
  · rw [if_neg h1]
    have hd : (q * (ct * strip) + r - nr * strip).tmod (ct * strip) = r - nr * strip := by
      rw [Int.add_sub_assoc]
      exact tmod_stripe hq (by omega) (by omega)
    rw [hd, if_neg (by omega)]
    by_cases h2 : r < (nr + 1) * strip
    · rw [if_neg (by omega), if_pos h2]
    · rw [if_pos (by omega), if_neg h2]
      ring

variable {x : Int}

theorem exists_stripe (hx : 0 ≤ x) :
    ∃ q r : Int, x = q * (ct * strip) + r ∧ 0 ≤ q ∧ 0 ≤ r ∧ r < ct * strip := by
  have hpos : (0 : Int) < ct * strip := Int.mul_pos (by omega) hs
  refine ⟨x / (ct * strip), x % (ct * strip), ?_, Int.ediv_nonneg hx (by omega),
    Int.emod_nonneg _ (by omega), Int.emod_lt_of_pos _ hpos⟩
  have := Int.emod_add_mul_ediv x (ct * strip)
  rw [Int.mul_comm]
  omega

theorem mapped_stripe_iff (hq : 0 ≤ q) (hr0 : 0 ≤ r) (hr : r < ct * strip) :
    (simpleStripe strip).Mapped nr ct (q * (ct * strip) + r) ↔
      nr * strip ≤ r ∧ r < (nr + 1) * strip := by
  obtain ⟨hnr, hx, hsn⟩ := strip_bounds hs hn
  have hy : (q + 1) * (ct * strip) = q * (ct * strip) + ct * strip := by ring
  rw [Mapped, nextMappedOffset_stripe hs hn hq hr0 hr]
  split
  · omega
  · split <;> omega

omit hn in
theorem exists_server (hc : 0 < ct) (hx : 0 ≤ x) :
    ∃ j < ct, ∀ i < ct, (simpleStripe strip).Mapped i ct x ↔ i = j := by
  obtain ⟨q, r, rfl, hq, hr0, hr⟩ := exists_stripe hs hc hx
  have hdiv : r / strip < ct := Int.ediv_lt_of_lt_mul hs hr
  have hdiv0 : 0 ≤ r / strip := Int.ediv_nonneg hr0 (by omega)
  refine ⟨(r / strip).toNat, by omega, fun i hi => ?_⟩
  rw [mapped_stripe_iff hs hi hq hr0 hr, ← Int.le_ediv_iff_mul_le hs, ← Int.ediv_lt_iff_lt_mul hs]
  omega

theorem mapped_of_alone (hct : ct = 1) (hx : 0 ≤ x) : (simpleStripe strip).Mapped nr ct x := by
  obtain ⟨q, r, rfl, hq, hr0, hr⟩ := exists_stripe hs hn hx
  have hnr : nr = 0 := by omega
  subst hct hnr
  exact (mapped_stripe_iff hs hn hq hr0 hr).mpr ⟨by simpa using hr0, by simpa using hr⟩

theorem Mapped.exists_strip (hx : 0 ≤ x) (hm : (simpleStripe strip).Mapped nr ct x) :
    ∃ q a : Int, x = q * (ct * strip) + (nr * strip + a) ∧ 0 ≤ q ∧ 0 ≤ a ∧ a < strip := by
  obtain ⟨q, r, rfl, hq, hr0, hr⟩ := exists_stripe hs hn hx
  obtain ⟨h0, h1⟩ := (mapped_stripe_iff hs hn hq hr0 hr).mp hm
  obtain ⟨-, hx, -⟩ := strip_bounds hs hn
  exact ⟨q, r - nr * strip, by ring, hq, by omega, by omega⟩

section
variable {q a : Int}

theorem mapped_strip (hq : 0 ≤ q) (h0 : 0 ≤ a) (h1 : a < strip) :
    (simpleStripe strip).Mapped nr ct (q * (ct * strip) + (nr * strip + a)) := by
  obtain ⟨hnr, hx, hsn⟩ := strip_bounds hs hn
  exact (mapped_stripe_iff hs hn hq (by omega) (by omega)).mpr ⟨by omega, by omega⟩

theorem fullStripes_strip (hq : 0 ≤ q) (h0 : 0 ≤ a) (h1 : a < strip) :
    (q * (ct * strip) + (nr * strip + a)).tdiv (strip * ct) = q := by
  obtain ⟨hnr, -, hsn⟩ := strip_bounds hs hn
  rw [Int.mul_comm strip]
  exact tdiv_stripe hq (by omega) (by omega)

theorem logicalToPhysicalOffset_strip (hq : 0 ≤ q) (hq31 : q < 2 ^ 31) (h0 : 0 ≤ a)
    (h1 : a < strip) :
    (simpleStripe strip).logicalToPhysicalOffset nr ct (q * (ct * strip) + (nr * strip + a)) =
      q * strip + a := by
  obtain ⟨-, hx, -⟩ := strip_bounds hs hn
  have hleft : q * (ct * strip) + (nr * strip + a) - q * strip * ct = nr * strip + a := by ring
  simp only [simpleStripe, fullStripes_strip hs hn hq h0 h1, toInt32_of_lt hq hq31, hleft]
  omega

theorem lt_stripeLimit_iff (h0 : 0 ≤ a) (h1 : a < strip) :
    q * (ct * strip) + (nr * strip + a) < stripeLimit strip ct ↔ q < 2 ^ 31 := by
  obtain ⟨hnr, -, hsn⟩ := strip_bounds hs hn
  unfold stripeLimit
  constructor
  · intro h
    exact Int.lt_of_mul_lt_mul_right (a := (ct * strip : Int)) (by omega) (by omega)
  · intro h
    have : (q + 1) * (ct * strip) ≤ 2 ^ 31 * (ct * strip) :=
      Int.mul_le_mul_of_nonneg_right (by omega) (by omega)
    have hy : (q + 1) * (ct * strip) = q * (ct * strip) + ct * strip := by ring
    omega

end

theorem Mapped.stored (hx : 0 ≤ x) (hlim : x < stripeLimit strip ct)
    (hm : (simpleStripe strip).Mapped nr ct x) :
    ∃ q a : Int, x = q * (ct * strip) + (nr * strip + a) ∧ 0 ≤ q ∧ q < 2 ^ 31 ∧ 0 ≤ a ∧
      a < strip ∧ (simpleStripe strip).logicalToPhysicalOffset nr ct x = q * strip + a ∧
      (simpleStripe strip).contiguousLength nr ct (q * strip + a) = strip - a := by
  obtain ⟨q, a, rfl, hq, h0, h1⟩ := hm.exists_strip hs hn hx
  have hq31 := (lt_stripeLimit_iff hs hn h0 h1).mp hlim
  exact ⟨q, a, rfl, hq, hq31, h0, h1, logicalToPhysicalOffset_strip hs hn hq hq31 h0 h1,
    contiguousLength_stripe hq h0 h1⟩

theorem logicalToPhysicalOffset_alone (hct : ct = 1) (hx : 0 ≤ x) (hlim : x < stripeLimit strip ct) :
    (simpleStripe strip).logicalToPhysicalOffset nr ct x = x := by
  obtain ⟨q, a, rfl, -, -, -, -, hphys, -⟩ := (mapped_of_alone hs hn hct hx).stored hs hn hx hlim
  have hnr : nr = 0 := by omega
  rw [hphys]
  subst hct hnr
  simp

/-- **The striped file is lawful below `2 ^ 31` full stripes.** -/
theorem simpleStripe_lawful : (simpleStripe strip).Lawful nr ct (stripeLimit strip ct) where
  le_next o ho := by
    obtain ⟨q, r, rfl, hq, hr0, hr⟩ := exists_stripe hs hn ho
    have hy : (q + 1) * (ct * strip) = q * (ct * strip) + ct * strip := by ring
    obtain ⟨hnr, -, -⟩ := strip_bounds hs hn
    rw [nextMappedOffset_stripe hs hn hq hr0 hr]
    split
    · omega
    · split <;> omega
  mapped_next o ho := by
    obtain ⟨q, r, rfl, hq, hr0, hr⟩ := exists_stripe hs hn ho
    rw [nextMappedOffset_stripe hs hn hq hr0 hr]
    have h0 : ∀ q : Int, 0 ≤ q → (simpleStripe strip).Mapped nr ct (q * (ct * strip) + nr * strip) :=
      fun q hq => by simpa using mapped_strip hs hn hq (le_refl 0) hs
    split
    · exact h0 q hq
    · split
      · exact (mapped_stripe_iff hs hn hq hr0 hr).mpr ⟨by omega, by assumption⟩
      · exact h0 (q + 1) (by omega)
  next_le o x ho hox hm := by
    obtain ⟨q', a, rfl, hq', h0, h1⟩ := hm.exists_strip hs hn (by omega)
    obtain ⟨q, r, rfl, hq, hr0, hr⟩ := exists_stripe hs hn ho
    obtain ⟨hnr, hx, hsn⟩ := strip_bounds hs hn
    have hqq : q ≤ q' := stripe_le (by omega) hr0 (by omega) hox
    rw [nextMappedOffset_stripe hs hn hq hr0 hr]
    have hmul : q * (ct * strip) ≤ q' * (ct * strip) :=
      Int.mul_le_mul_of_nonneg_right hqq (by omega)
    split
    · omega
    · split
      · omega
      · -- past the strip in its own stripe, so the byte is in a later one
        have : q + 1 ≤ q' := by
          rcases Int.lt_or_eq_of_le hqq with h | h
          · omega
          · subst h; omega
        have := Int.mul_le_mul_of_nonneg_right (c := (ct * strip : Int)) this (by omega)
        omega
  mapped_alone hct o ho := mapped_of_alone hs hn hct ho
  fragment_pos x hx hlim hm := by
    obtain ⟨q, a, -, -, -, -, h1, hphys, hlen⟩ := hm.stored hs hn hx hlim
    rw [hphys]
    omega
  fragment_mapped x j hx hlim hm hj hlt := by
    obtain ⟨q, a, rfl, hq, -, h0, -, hphys, hlen⟩ := hm.stored hs hn hx hlim
    rw [hphys, hlen] at hlt
    rw [Int.add_assoc, Int.add_assoc]
    exact mapped_strip hs hn hq (by omega) (by omega)
  fragment_phys x j hx hm hj hlim hlt := by
    rcases hlt with hct | hlt
    · rw [logicalToPhysicalOffset_alone hs hn hct (by omega) hlim,
        logicalToPhysicalOffset_alone hs hn hct hx (by omega)]
    · obtain ⟨q, a, rfl, hq, hq31, h0, -, hphys, hlen⟩ := hm.stored hs hn hx (by omega)
      rw [hphys, hlen] at hlt
      rw [hphys, Int.add_assoc, Int.add_assoc,
        logicalToPhysicalOffset_strip hs hn hq hq31 (by omega) (by omega), Int.add_assoc]
  phys_lt x y hx hxy hlim hmx hmy := by
    obtain ⟨q, a, rfl, hq, -, h0, h1, hphys, -⟩ := hmx.stored hs hn hx (by omega)
    obtain ⟨q', a', rfl, -, -, h0', h1', hphys', -⟩ := hmy.stored hs hn (by omega) hlim
    obtain ⟨hnr, -, hsn⟩ := strip_bounds hs hn
    have hqq : q ≤ q' := stripe_le (by omega) (by omega) (by omega) (Int.le_of_lt hxy)
    rcases Int.lt_or_eq_of_le hqq with h | h
    · have := Int.mul_le_mul_of_nonneg_right (c := strip) (show q + 1 ≤ q' by omega) (by omega)
      have hy : (q + 1) * strip = q * strip + strip := by ring
      omega
    · subst h; omega
  logical_phys x hx hlim hm := by
    obtain ⟨q, a, rfl, hq, -, h0, h1, hphys, -⟩ := hm.stored hs hn hx hlim
    rw [hphys, physicalToLogicalOffset_stripe hq h0 h1]

/-! ### Past `2 ^ 31` full stripes -/

theorem fragment_end (hc : ct ≠ 1) (hx : 0 ≤ x) (hlim : x < stripeLimit strip ct)
    (hm : (simpleStripe strip).Mapped nr ct x) :
    ¬ (simpleStripe strip).Mapped nr ct (x + (simpleStripe strip).contiguousLength nr ct
      ((simpleStripe strip).logicalToPhysicalOffset nr ct x)) := by
  obtain ⟨q, a, rfl, hq, -, h0, h1, hphys, hlen⟩ := hm.stored hs hn hx hlim
  obtain ⟨hnr, hr, -⟩ := strip_bounds hs hn
  rw [hphys, hlen,
    show q * (ct * strip) + (nr * strip + a) + (strip - a) = q * (ct * strip) + (nr + 1) * strip by
      rw [hr]; ring]
  rcases Nat.lt_or_ge (nr + 1) ct with hlt | hge
  · -- the next strip of the same stripe
    obtain ⟨-, -, hlt'⟩ := strip_bounds hs hlt
    push_cast at hlt'
    rw [mapped_stripe_iff hs hn hq (by omega) (by omega)]
    omega
  · -- the first strip of the next stripe
    have hct : (ct : Int) = nr + 1 := by omega
    have hpos : 0 < (nr : Int) * strip := Int.mul_pos (by omega) hs
    rw [← hct, show q * (ct * strip) + ct * strip = (q + 1) * (ct * strip) + 0 by ring,
      mapped_stripe_iff hs hn (by omega) (le_refl _) (Int.mul_pos (by omega) hs)]
    omega

/-- The stripe number has wrapped, and what is left over is more than a stripe: the byte goes to
the end of a strip in some other stripe. -/
theorem logicalToPhysicalOffset_wrapped (hx : stripeLimit strip ct ≤ x)
    (hm : (simpleStripe strip).Mapped nr ct x) :
    ∃ f : Int, (simpleStripe strip).logicalToPhysicalOffset nr ct x = (f + 1) * strip ∧
      (f + 1) * (ct * strip) + nr * strip < x := by
  obtain ⟨hnr, hx1, hsn⟩ := strip_bounds hs hn
  have hlim : 0 ≤ stripeLimit strip ct := Int.mul_nonneg (by decide) (by omega)
  obtain ⟨q, a, rfl, hq, h0, h1⟩ := hm.exists_strip hs hn (by omega)
  have hq31 : 2 ^ 31 ≤ q :=
    Int.not_lt.mp fun hlt => Int.not_lt.mpr hx ((lt_stripeLimit_iff hs hn h0 h1).mpr hlt)
  have hwrap := toInt32_of_ge hq31
  have hmul : (toInt32 q + 1 + 1) * (ct * strip) ≤ q * (ct * strip) :=
    Int.mul_le_mul_of_nonneg_right (by omega) (by omega)
  have hm1 : (toInt32 q + 1 + 1) * (ct * strip) =
      toInt32 q * strip * ct + (ct * strip + ct * strip) := by ring
  have hm2 : (toInt32 q + 1) * (ct * strip) = toInt32 q * strip * ct + ct * strip := by ring
  refine ⟨toInt32 q, ?_, by omega⟩
  simp only [simpleStripe, fullStripes_strip hs hn hq h0 h1]
  rw [if_pos (by omega), if_neg (by omega)]
  ring

omit hs hn in
theorem contiguousLength_wrapped (f : Int) :
    (simpleStripe strip).contiguousLength nr ct (f * strip) = strip := by
  simp only [simpleStripe, Int.mul_tmod_left, Int.sub_zero]

theorem logical_phys_iff (hx : 0 ≤ x) (hm : (simpleStripe strip).Mapped nr ct x) :
    (simpleStripe strip).physicalToLogicalOffset nr ct
        ((simpleStripe strip).logicalToPhysicalOffset nr ct x) = x ↔
      x < stripeLimit strip ct := by
  refine ⟨fun h => ?_, fun h => (simpleStripe_lawful hs hn).logical_phys x hx h hm⟩
  by_contra hge
  obtain ⟨f, hf, hlt⟩ := logicalToPhysicalOffset_wrapped hs hn (by omega) hm
  rw [hf] at h
  simp only [simpleStripe, Int.mul_tdiv_cancel _ (show strip ≠ 0 by omega), Int.mul_tmod_left] at h
  have : (f + 1) * (ct * strip) + nr * strip = (f + 1) * strip * ct + strip * nr + 0 := by ring
  omega

theorem contiguousLength_pos (hx : 0 ≤ x) (hm : (simpleStripe strip).Mapped nr ct x) :
    0 < (simpleStripe strip).contiguousLength nr ct
      ((simpleStripe strip).logicalToPhysicalOffset nr ct x) := by
  rcases Int.lt_or_le x (stripeLimit strip ct) with h | h
  · exact (simpleStripe_lawful hs hn).fragment_pos x hx h hm
  · obtain ⟨f, hf, -⟩ := logicalToPhysicalOffset_wrapped hs hn h hm
    rw [hf, contiguousLength_wrapped]
    exact hs

end

end Dist

end Pvfs.Description
