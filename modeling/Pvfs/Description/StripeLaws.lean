import Pvfs.Description.Distribution

/-! # The striped file in 64 bits (dist-simple-stripe.c)

`Dist.simpleStripe` computes with unbounded integers, except for the stripe number that the code
keeps in an `int`. Here every sum and product has to be a `PVFS_offset`; where one is not, the
behaviour of the code is undefined. A stripe can be too long for that even where no offset is. -/

namespace Pvfs.Description.Stripe64

open Description.Dist Lib

/-- The value, if an `int64_t` can hold it. -/
def fits (x : Int) : Option Int := if -2 ^ 63 ≤ x ∧ x < 2 ^ 63 then some x else none

def logicalToPhysicalOffset (strip : Int) (serverNr serverCt : Nat) (logicalOffset : Int) :
    Option Int := do
  let stripeSize ← fits (strip * serverCt)
  let fullStripes := toInt32 (logicalOffset.tdiv stripeSize)
  let retOffset ← fits (fullStripes * strip)
  let stripes ← fits (retOffset * serverCt)
  let leftover ← fits (logicalOffset - stripes)
  let start ← fits (serverNr * strip)
  if leftover ≥ start then
    let next ← fits ((serverNr + 1) * strip)
    if leftover < next then fits (retOffset + (leftover - start)) else fits (retOffset + strip)
  else some retOffset

def physicalToLogicalOffset (strip : Int) (serverNr serverCt : Nat) (physicalOffset : Int) :
    Option Int := do
  let strips ← fits (physicalOffset.tdiv strip * strip)
  let stripes ← fits (strips * serverCt)
  let start ← fits (strip * serverNr)
  let stripStart ← fits (stripes + start)
  fits (stripStart + physicalOffset.tmod strip)

def nextMappedOffset (strip : Int) (serverNr serverCt : Nat) (logicalOffset : Int) :
    Option Int := do
  let serverStartingOffset ← fits (serverNr * strip)
  let stripeSize ← fits (serverCt * strip)
  let distance ← fits (logicalOffset - serverStartingOffset)
  let diff := distance.tmod stripeSize
  if diff < 0 then some serverStartingOffset
  else if diff ≥ strip then fits (logicalOffset + (stripeSize - diff))
  else some logicalOffset

/-- The server stores the strip that the byte is in. -/
def Owned (strip : Int) (serverNr serverCt : Nat) (x : Int) : Prop :=
  x / strip % serverCt = serverNr

/-- What the methods promise, for an offset `p` of the datafile and an offset `o` of the file. -/
structure Laws (strip : Int) (serverNr serverCt : Nat) (p o : Int) : Prop where
  inverse : (physicalToLogicalOffset strip serverNr serverCt p).bind
    (logicalToPhysicalOffset strip serverNr serverCt) = some p
  next : ∃ x, nextMappedOffset strip serverNr serverCt o = some x ∧
    IsLeast {x | o ≤ x ∧ Owned strip serverNr serverCt x} x
  contiguous : ∃ x, physicalToLogicalOffset strip serverNr serverCt p = some x ∧
    (∀ j, 0 ≤ j → j < (simpleStripe strip).contiguousLength serverNr serverCt p →
      (simpleStripe strip).physicalToLogicalOffset serverNr serverCt (p + j) = x + j ∧
        Owned strip serverNr serverCt (x + j)) ∧
    (2 ≤ serverCt → ¬ Owned strip serverNr serverCt
      (x + (simpleStripe strip).contiguousLength serverNr serverCt p))

theorem fits_eq_some {x y : Int} : fits x = some y ↔ (-2 ^ 63 ≤ x ∧ x < 2 ^ 63) ∧ x = y := by
  simp [fits, and_assoc]

theorem fits_of {x : Int} (h0 : -2 ^ 63 ≤ x) (h : x < 2 ^ 63) : fits x = some x := if_pos ⟨h0, h⟩

theorem fits_bind {x : Int} {f : Int → Option Int} (h0 : -2 ^ 63 ≤ x) (h : x < 2 ^ 63) :
    fits x >>= f = f x := by
  rw [fits_of h0 h]
  rfl

section
variable {strip : Int} {nr ct : Nat} {x y : Int}

theorem exact_of_logicalToPhysicalOffset (h : logicalToPhysicalOffset strip nr ct x = some y) :
    (simpleStripe strip).logicalToPhysicalOffset nr ct x = y := by
  simp only [logicalToPhysicalOffset, Option.bind_eq_bind, Option.bind_eq_some_iff, fits_eq_some] at h
  obtain ⟨_, ⟨-, rfl⟩, _, ⟨-, rfl⟩, _, ⟨-, rfl⟩, _, ⟨-, rfl⟩, _, ⟨-, rfl⟩, h⟩ := h
  simp only [simpleStripe]
  split_ifs at h ⊢
  · simp_all [Option.bind_eq_some_iff, fits_eq_some]
  · simp_all [Option.bind_eq_some_iff, fits_eq_some]
  · exact Option.some.inj h

variable (hs : 0 < strip) (hn : nr < ct)
include hs hn

theorem owned_iff_mapped (hx : 0 ≤ x) :
    Owned strip nr ct x ↔ (simpleStripe strip).Mapped nr ct x := by
  obtain ⟨q, r, rfl, hq, hr0, hr⟩ := exists_stripe hs hn hx
  have hdiv : (q * (ct * strip) + r) / strip = q * ct + r / strip := by
    rw [← Int.mul_assoc, Int.add_comm, Int.add_mul_ediv_right _ _ (Int.ne_of_gt hs), Int.add_comm]
  have hct : r / strip < ct := Int.ediv_lt_of_lt_mul hs hr
  rw [mapped_stripe_iff hs hn hq hr0 hr, Owned, hdiv, Int.add_comm,
    Int.add_mul_emod_self_right, Int.emod_eq_of_lt (Int.ediv_nonneg hr0 (Int.le_of_lt hs)) hct,
    ← Int.le_ediv_iff_mul_le hs, ← Int.ediv_lt_iff_lt_mul hs]
  omega

variable {q a o : Int} (hq : 0 ≤ q) (h0 : 0 ≤ a) (h1 : a < strip)
include hq h0 h1

theorem physicalToLogicalOffset_eq (hx : q * (ct * strip) + (nr * strip + a) < 2 ^ 63) :
    physicalToLogicalOffset strip nr ct (q * strip + a) =
      some (q * (ct * strip) + (nr * strip + a)) := by
  have hstart : 0 ≤ (nr : Int) * strip := Int.mul_nonneg (by omega) (by omega)
  have hstrips : 0 ≤ q * strip := Int.mul_nonneg hq (by omega)
  have hstripes : q * strip * 1 ≤ q * strip * ct := Int.mul_le_mul_of_nonneg_left (by omega) hstrips
  have hassoc : q * strip * ct = q * (ct * strip) := by ring
  have hcomm : strip * nr = (nr : Int) * strip := Int.mul_comm _ _
  simp only [physicalToLogicalOffset, tdiv_stripe hq h0 h1, tmod_stripe hq h0 h1]
  simp (disch := omega) only [fits_bind]
  rw [fits_of (by omega) (by omega)]
  congr 1
  omega

theorem logicalToPhysicalOffset_eq (hx : q * (ct * strip) + (nr * strip + a) < 2 ^ 63)
    (hstripe : (ct : Int) * strip < 2 ^ 63) (hq31 : q < 2 ^ 31) :
    logicalToPhysicalOffset strip nr ct (q * (ct * strip) + (nr * strip + a)) =
      some (q * strip + a) := by
  obtain ⟨hnr, hnext, hsn⟩ := strip_bounds hs hn
  have hstrips : 0 ≤ q * strip := Int.mul_nonneg hq (by omega)
  have hstripes : q * strip * 1 ≤ q * strip * ct := Int.mul_le_mul_of_nonneg_left (by omega) hstrips
  have hassoc : q * strip * ct = q * (ct * strip) := by ring
  have hcomm : strip * ct = (ct : Int) * strip := Int.mul_comm _ _
  rw [logicalToPhysicalOffset, fits_bind (by omega) (by omega)]
  simp only [fullStripes_strip hs hn hq h0 h1, toInt32_of_lt hq hq31]
  simp (disch := omega) only [fits_bind]
  rw [if_pos (by omega), if_pos (by omega), fits_of (by omega) (by omega)]
  congr 1
  omega

omit hq h0 h1 in
theorem nextMappedOffset_eq (ho : 0 ≤ o) (hstripe : (ct : Int) * strip < 2 ^ 63)
    (hnext : (simpleStripe strip).nextMappedOffset nr ct o < 2 ^ 63) :
    nextMappedOffset strip nr ct o =
      some ((simpleStripe strip).nextMappedOffset nr ct o) := by
  obtain ⟨hnr, -, hsn⟩ := strip_bounds hs hn
  have hle := (simpleStripe_lawful hs hn).le_next o ho
  rw [nextMappedOffset]
  simp (disch := omega) only [fits_bind]
  simp only [simpleStripe] at hnext hle ⊢
  split_ifs at hnext hle ⊢
  · rfl
  · exact fits_of (by omega) hnext
  · rfl

end

/-- **The mapping laws of the striped file** hold for a datafile up to `2 ^ 31` strips, if a whole
stripe is an offset. -/
theorem stripe_laws_iff (strip : Int) (nr ct : Nat) (p o : Int) (hs : 0 < strip) (hn : nr < ct)
    (hp : 0 ≤ p) (ho : 0 ≤ o)
    (himage : (simpleStripe strip).physicalToLogicalOffset nr ct p < 2 ^ 63)
    (hnext : (simpleStripe strip).nextMappedOffset nr ct o < 2 ^ 63) :
    Laws strip nr ct p o ↔ (ct : Int) * strip < 2 ^ 63 ∧ p / strip < 2 ^ 31 := by
  -- the offset of the datafile as a strip and a place in it
  obtain ⟨q, a, hq, h0, h1, rfl⟩ : ∃ q a, 0 ≤ q ∧ 0 ≤ a ∧ a < strip ∧ p = q * strip + a :=
    ⟨p / strip, p % strip, Int.ediv_nonneg hp (Int.le_of_lt hs), Int.emod_nonneg _ (Int.ne_of_gt hs),
      Int.emod_lt_of_pos _ hs, (Int.ediv_mul_add_emod p strip).symm⟩
  have hdiv : (q * strip + a) / strip = q := by
    rw [← Int.tdiv_eq_ediv_of_nonneg hp, tdiv_stripe hq h0 h1]
  have hmapped := mapped_strip hs hn hq h0 h1
  have hx0 : 0 ≤ q * (ct * strip) + (nr * strip + a) := by
    have := Int.mul_nonneg hq (Int.mul_nonneg (Int.natCast_nonneg ct) (Int.le_of_lt hs))
    have := Int.mul_nonneg (Int.natCast_nonneg nr) (Int.le_of_lt hs)
    omega
  rw [physicalToLogicalOffset_stripe hq h0 h1] at himage
  have hphys := physicalToLogicalOffset_eq hs hn hq h0 h1 himage
  rw [hdiv]
  constructor
  · intro h
    obtain ⟨x, hx, -⟩ := h.next
    simp only [nextMappedOffset, Option.bind_eq_bind, Option.bind_eq_some_iff, fits_eq_some] at hx
    obtain ⟨_, -, _, ⟨⟨-, hstripe⟩, -⟩, -⟩ := hx
    have hinverse := h.inverse
    rw [hphys] at hinverse
    refine ⟨hstripe, (lt_stripeLimit_iff hs hn h0 h1).mp
      ((logical_phys_iff hs hn hx0 hmapped).mp ?_)⟩
    rw [exact_of_logicalToPhysicalOffset hinverse, physicalToLogicalOffset_stripe hq h0 h1]
  · rintro ⟨hstripe, hq31⟩
    have hlaw := simpleStripe_lawful hs hn
    refine ⟨?_, ⟨_, nextMappedOffset_eq hs hn ho hstripe hnext, ⟨hlaw.le_next o ho, ?_⟩, ?_⟩,
      _, hphys, ?_, ?_⟩
    · rw [hphys, Option.bind_some, logicalToPhysicalOffset_eq hs hn hq h0 h1 himage hstripe hq31]
    · exact (owned_iff_mapped hs hn (Int.le_trans ho (hlaw.le_next o ho))).mpr (hlaw.mapped_next o ho)
    · rintro x ⟨hox, hx⟩
      exact hlaw.next_le o x ho hox ((owned_iff_mapped hs hn (Int.le_trans ho hox)).mp hx)
    · intro j hj hlt
      rw [contiguousLength_stripe hq h0 h1] at hlt
      rw [Int.add_assoc, physicalToLogicalOffset_stripe hq (by omega) (by omega)]
      refine ⟨by omega, (owned_iff_mapped hs hn (by omega)).mpr ?_⟩
      rw [Int.add_assoc, Int.add_assoc]
      exact mapped_strip hs hn hq (by omega) (by omega)
    · intro hct
      have hend := fragment_end hs hn (by omega) hx0
        ((lt_stripeLimit_iff hs hn h0 h1).mpr hq31) hmapped
      rw [logicalToPhysicalOffset_strip hs hn hq hq31 h0 h1] at hend
      refine fun howned => hend ((owned_iff_mapped hs hn ?_).mp howned)
      rw [contiguousLength_stripe hq h0 h1]
      omega

theorem stripe_laws_first : (5 : Int) / 4 < 2 ^ 31 ∧ Laws 4 1 2 5 0 :=
  ⟨by decide, (stripe_laws_iff 4 1 2 5 0 (by decide) (by decide) (by decide) (by decide) (by decide)
    (by decide)).mpr ⟨by decide, by decide⟩⟩

/-- The byte that comes after `2 ^ 31` stripes of two servers. -/
theorem stripe_number_wraps : ¬ Laws 1 0 2 (2 ^ 31) 0 :=
  fun h => absurd h.inverse (by decide)

end Pvfs.Description.Stripe64
