import Pvfs.Description.Distribution

/-! # The two-dimensional stripe (dist-twod-stripe.c)

The servers are partitioned into groups. A file is striped over the servers of a group, for
`group_strip_factor` strips each, before the next group has its turn; the last group takes the
servers that do not divide evenly.

The methods are translated with the widths of their variables: server counts, group numbers and
the factor are `uint32_t`, and so is a product of them up to the point where an offset comes
into it. They do not agree on how the servers are grouped. All of them clip the number of groups
to the number of servers, but only `logical_to_physical_offset` does so before it divides the
servers among the groups. -/

namespace Pvfs.Description

/-- The value of a `uint32_t` that a natural number is assigned to. -/
def toUInt32 (n : Nat) : Nat := n % 2 ^ 32

/-- `PVFS_twod_stripe_params`, with what `set_param` sees to. -/
structure TwodStripeParams where
  numGroups : Nat
  stripSize : Int
  groupStripFactor : Nat
  numGroups_pos : 0 < numGroups
  stripSize_pos : 0 < stripSize
  factor_pos : 0 < groupStripFactor
  factor_lt : groupStripFactor < 2 ^ 32

/-- Where a server stands: the number of its group, how many servers that has, and which of them it
is. -/
structure ServerGroup where
  groupNr : Nat
  serversInGroup : Nat
  gserverNr : Nat
deriving DecidableEq, Repr

def ServerGroup.of (numGroups smallGroupSize serverNr serverCt : Nat) : ServerGroup :=
  let groupNr :=
    if serverNr ≥ (numGroups - 1) * smallGroupSize then numGroups - 1
    else serverNr / smallGroupSize
  { groupNr := groupNr
    serversInGroup :=
      if groupNr = numGroups - 1 then serverCt - (numGroups - 1) * smallGroupSize
      else smallGroupSize
    gserverNr := serverNr - groupNr * smallGroupSize }

namespace TwodStripeParams

variable (p : TwodStripeParams)

def logicalToPhysicalOffset (serverNr serverCt : Nat) (logicalOffset : Int) : Int :=
  if logicalOffset = 0 then 0
  else
    let numGroups := min p.numGroups serverCt
    let smallGroupSize := serverCt / numGroups
    let g := ServerGroup.of numGroups smallGroupSize serverNr serverCt
    let globalStripeSize := serverCt * p.stripSize * p.groupStripFactor
    let globalStripes := logicalOffset.tdiv globalStripeSize
    let lastStripeOffset := logicalOffset - globalStripes * globalStripeSize
    let retOffset := globalStripes * p.groupStripFactor * p.stripSize
    let groupOffset := lastStripeOffset -
      toUInt32 (g.groupNr * p.groupStripFactor) * p.stripSize * smallGroupSize
    let localOffset := groupOffset - toUInt32 (g.serversInGroup * p.groupStripFactor) * p.stripSize
    if groupOffset > 0 then
      -- the offset is in a later group, or in this one
      if localOffset > 0 then retOffset + p.groupStripFactor * p.stripSize
      else
        let groupStripes := groupOffset.tdiv (g.serversInGroup * p.stripSize)
        let groupOffset := groupOffset - groupStripes * p.stripSize * g.serversInGroup
        let groupStrips := groupOffset.tdiv p.stripSize
        let retOffset := retOffset + groupStripes * p.stripSize
        if groupStrips ≥ g.gserverNr + 1 then retOffset + p.stripSize
        else if groupStrips = g.gserverNr then retOffset + groupOffset.tmod p.stripSize
        else retOffset
    else retOffset

def physicalToLogicalOffset (serverNr serverCt : Nat) (physicalOffset : Int) : Int :=
  let strips := physicalOffset.tdiv p.stripSize
  -- the number of groups is clipped after this
  let smallGroupSize := serverCt / p.numGroups
  let g := ServerGroup.of (min p.numGroups serverCt) smallGroupSize serverNr serverCt
  let fullStripes :=
    if strips > p.groupStripFactor then
      strips.tdiv p.groupStripFactor * p.groupStripFactor * serverCt * p.stripSize
    else if strips = p.groupStripFactor then strips * serverCt * p.stripSize
    else 0
  fullStripes +
    toUInt32 (toUInt32 (g.groupNr * smallGroupSize) * p.groupStripFactor) * p.stripSize +
    strips.tmod p.groupStripFactor * g.serversInGroup * p.stripSize +
    g.gserverNr * p.stripSize +
    physicalOffset.tmod p.stripSize

def nextMappedOffset (serverNr serverCt : Nat) (logicalOffset : Int) : Int :=
  let smallGroupSize := serverCt / p.numGroups
  let globalStripeSize := toUInt32 (serverCt * p.groupStripFactor) * p.stripSize
  let globalStripes : Nat := (logicalOffset.tdiv globalStripeSize % 2 ^ 32).toNat
  let smallGroupStripe := toUInt32 (smallGroupSize * p.groupStripFactor) * p.stripSize
  let lOff := logicalOffset - globalStripeSize * globalStripes
  if logicalOffset = 0 then p.physicalToLogicalOffset serverNr serverCt 0
  else
    let totalStripes := toUInt32 (globalStripes * p.groupStripFactor)
    let g := ServerGroup.of (min p.numGroups serverCt) smallGroupSize serverNr serverCt
    let curGroupSize := toUInt32 (g.serversInGroup * p.groupStripFactor) * p.stripSize
    if lOff ≥ g.groupNr * smallGroupStripe + curGroupSize then
      p.physicalToLogicalOffset serverNr serverCt
        (toUInt32 (totalStripes + p.groupStripFactor) * p.stripSize)
    else if lOff > g.groupNr * smallGroupStripe then
      let gOff := lOff - g.groupNr * smallGroupStripe
      let gStrips : Nat := (gOff.tdiv (g.serversInGroup * p.stripSize) % 2 ^ 32).toNat
      let totalStripes := toUInt32 (totalStripes + gStrips)
      let gOff := gOff - gStrips * p.stripSize * g.serversInGroup
      if gOff < g.gserverNr * p.stripSize then
        p.physicalToLogicalOffset serverNr serverCt (totalStripes * p.stripSize)
      else if gOff ≥ (g.gserverNr + 1) * p.stripSize then
        p.physicalToLogicalOffset serverNr serverCt (toUInt32 (totalStripes + 1) * p.stripSize)
      else logicalOffset
    else p.physicalToLogicalOffset serverNr serverCt (totalStripes * p.stripSize)

def contiguousLength (physicalOffset : Int) : Int :=
  p.stripSize - physicalOffset.tmod p.stripSize

end TwodStripeParams

/-- `twod_stripe_dist`. -/
def Dist.twodStripe (p : TwodStripeParams) : Dist where
  logicalToPhysicalOffset := p.logicalToPhysicalOffset
  physicalToLogicalOffset := p.physicalToLogicalOffset
  nextMappedOffset := p.nextMappedOffset
  contiguousLength _ _ := p.contiguousLength

/-! ## The first datafile -/

namespace TwodStripeParams

variable (p : TwodStripeParams)

/-- How many servers the first group has. -/
def firstGroupSize (serverCt : Nat) : Nat :=
  if 2 ≤ p.numGroups ∧ p.numGroups ≤ serverCt then serverCt / p.numGroups else serverCt

theorem serverGroup_first (ct : Nat) :
    let g := ServerGroup.of (min p.numGroups ct) (ct / p.numGroups) 0 ct
    g.groupNr * (ct / p.numGroups) = 0 ∧ g.serversInGroup = p.firstGroupSize ct ∧
      g.gserverNr = 0 := by
  have hpos := p.numGroups_pos
  by_cases hclip : p.numGroups ≤ ct
  · have hsmall : 0 < ct / p.numGroups := Nat.div_pos hclip hpos
    rw [Nat.min_eq_left hclip]
    by_cases hone : p.numGroups = 1
    · have hfirst : p.firstGroupSize ct = ct := by
        rw [firstGroupSize, if_neg (by omega)]
      simp [ServerGroup.of, hone, hfirst]
    · have hfirst : p.firstGroupSize ct = ct / p.numGroups := by
        rw [firstGroupSize, if_pos ⟨by omega, hclip⟩]
      have hbefore : 0 < (p.numGroups - 1) * (ct / p.numGroups) :=
        Nat.mul_pos (by omega) hsmall
      have hnr : ¬ (0 = p.numGroups - 1) := by omega
      have hge : ¬ (0 ≥ (p.numGroups - 1) * (ct / p.numGroups)) := by omega
      simp only [ServerGroup.of, if_neg hge, Nat.zero_div, if_neg hnr, hfirst]
      simp
  · -- more groups than servers: the groups come out empty
    have hsmall : ct / p.numGroups = 0 := Nat.div_eq_of_lt (by omega)
    have hfirst : p.firstGroupSize ct = ct := by
      rw [firstGroupSize, if_neg (by omega)]
    simp [ServerGroup.of, hsmall, hfirst]

variable {ct : Nat}

/-- What lies at an offset of the first datafile, by the number of its strip: `q` turns of all
groups and `t` strips of the first group come before it. -/
theorem physicalToLogicalOffset_first {q t a : Int} (hq : 0 ≤ q) (ht : 0 ≤ t)
    (htF : t < p.groupStripFactor) (ha : 0 ≤ a) (haS : a < p.stripSize) :
    p.physicalToLogicalOffset 0 ct ((q * p.groupStripFactor + t) * p.stripSize + a) =
      (q * p.groupStripFactor * ct + t * p.firstGroupSize ct) * p.stripSize + a := by
  obtain ⟨hbefore, hservers, hserver⟩ := p.serverGroup_first ct
  have hF : (0 : Int) < p.groupStripFactor := by exact_mod_cast p.factor_pos
  have hstrips0 : 0 ≤ q * p.groupStripFactor + t :=
    Int.add_nonneg (Int.mul_nonneg hq (Int.le_of_lt hF)) ht
  -- the three ways the code counts the turns of all groups are one
  have hfull : (if q * p.groupStripFactor + t > p.groupStripFactor then
        (q * p.groupStripFactor + t).tdiv p.groupStripFactor * p.groupStripFactor * ct *
          p.stripSize
      else if q * p.groupStripFactor + t = p.groupStripFactor then
        (q * p.groupStripFactor + t) * ct * p.stripSize
      else 0) = q * p.groupStripFactor * ct * p.stripSize := by
    split
    · rw [Dist.tdiv_stripe hq ht htF]
    · split
      · rename_i heq
        have hq1 : q = 1 := by nlinarith
        have ht0 : t = 0 := by
          rw [hq1] at heq
          omega
        rw [ht0, Int.add_zero]
      · have hlt : q * p.groupStripFactor + t < p.groupStripFactor := by omega
        have hq0 : q = 0 := by nlinarith
        rw [hq0]
        simp
  rw [physicalToLogicalOffset]
  simp only [Dist.tdiv_stripe hstrips0 ha haS, Dist.tmod_stripe hstrips0 ha haS, Dist.tmod_stripe hq ht htF,
    hfull, hbefore, hservers, hserver]
  simp only [toUInt32, Nat.zero_mod, Nat.zero_mul, Nat.cast_zero, Int.zero_mul, Int.add_zero]
  ring

/-- Up to here the first datafile holds the file in its own order: one strip, or all those of a
turn where the first group is a single server. -/
def firstRun (serverCt : Nat) : Int :=
  if p.firstGroupSize serverCt = 1 then p.groupStripFactor * p.stripSize else p.stripSize

theorem firstGroupSize_pos (hct : 0 < ct) : 0 < p.firstGroupSize ct := by
  rw [firstGroupSize]
  split
  · rename_i h
    exact Nat.div_pos h.2 p.numGroups_pos
  · exact hct

theorem exists_strip_of_turn {x : Int} (hx : 0 ≤ x) :
    ∃ q t a : Int, 0 ≤ q ∧ 0 ≤ t ∧ t < p.groupStripFactor ∧ 0 ≤ a ∧ a < p.stripSize ∧
      x = (q * p.groupStripFactor + t) * p.stripSize + a := by
  have hS := p.stripSize_pos
  have hF : (0 : Int) < p.groupStripFactor := by exact_mod_cast p.factor_pos
  have hstrips : 0 ≤ x / p.stripSize := Int.ediv_nonneg hx (Int.le_of_lt hS)
  refine ⟨x / p.stripSize / p.groupStripFactor, x / p.stripSize % p.groupStripFactor,
    x % p.stripSize, Int.ediv_nonneg hstrips (Int.le_of_lt hF),
    Int.emod_nonneg _ (Int.ne_of_gt hF), Int.emod_lt_of_pos _ hF,
    Int.emod_nonneg _ (Int.ne_of_gt hS), Int.emod_lt_of_pos _ hS, ?_⟩
  rw [Int.ediv_mul_add_emod, Int.ediv_mul_add_emod]

section
variable {ct : Nat} {q t a : Int}

theorem strips_eq_iff (hct : 0 < ct) (hq : 0 ≤ q) (ht : 0 ≤ t) :
    q * p.groupStripFactor * ct + t * p.firstGroupSize ct = q * p.groupStripFactor + t ↔
      ct = 1 ∨ q = 0 ∧ (t = 0 ∨ p.firstGroupSize ct = 1) := by
  have hF : (0 : Int) < p.groupStripFactor := by exact_mod_cast p.factor_pos
  have hfirst := p.firstGroupSize_pos hct
  constructor
  · intro heq
    refine or_iff_not_imp_left.mpr fun hne => ?_
    have hturns : 0 ≤ q * p.groupStripFactor := Int.mul_nonneg hq (Int.le_of_lt hF)
    have hct2 : q * p.groupStripFactor * 2 ≤ q * p.groupStripFactor * ct :=
      Int.mul_le_mul_of_nonneg_left (by omega) hturns
    have ht1 : t * 1 ≤ t * p.firstGroupSize ct := Int.mul_le_mul_of_nonneg_left (by omega) ht
    have hq0 : q = 0 := by
      have hprod : q * p.groupStripFactor = 0 := by omega
      exact (Int.mul_eq_zero.mp hprod).resolve_right (Int.ne_of_gt hF)
    refine ⟨hq0, or_iff_not_imp_right.mpr fun hone => ?_⟩
    have ht2 : t * 2 ≤ t * p.firstGroupSize ct := Int.mul_le_mul_of_nonneg_left (by omega) ht
    omega
  · rintro (rfl | ⟨rfl, rfl | hone⟩)
    · have hone : p.firstGroupSize 1 = 1 := by
        rw [firstGroupSize, if_neg (by omega)]
      rw [hone]
      simp
    · simp
    · rw [hone]
      simp

theorem lt_firstRun_iff (hq : 0 ≤ q) (ht : 0 ≤ t) (htF : t < p.groupStripFactor) (ha : 0 ≤ a)
    (haS : a < p.stripSize) :
    (q * p.groupStripFactor + t) * p.stripSize + a < p.firstRun ct ↔
      q = 0 ∧ (t = 0 ∨ p.firstGroupSize ct = 1) := by
  have hS := p.stripSize_pos
  have hF : (0 : Int) < p.groupStripFactor := by exact_mod_cast p.factor_pos
  -- an offset lies in the first `n` strips just when the number of its strip is less than `n`
  have hlt : ∀ n : Int, (q * p.groupStripFactor + t) * p.stripSize + a < n * p.stripSize ↔
      q * p.groupStripFactor + t < n := by
    intro n
    constructor
    · intro h
      by_contra hge
      have := Int.mul_le_mul_of_nonneg_right (Int.not_lt.mp hge) (Int.le_of_lt hS)
      omega
    · intro h
      have := Int.mul_le_mul_of_nonneg_right (Int.add_one_le_of_lt h) (Int.le_of_lt hS)
      rw [Int.add_mul] at this
      omega
  have hzero : q * p.groupStripFactor + t < p.groupStripFactor ↔ q = 0 := by
    constructor
    · intro h
      by_contra hne
      have := Int.mul_le_mul_of_nonneg_right (show 1 ≤ q by omega) (Int.le_of_lt hF)
      omega
    · rintro rfl
      simpa using htF
  by_cases hone : p.firstGroupSize ct = 1
  · rw [firstRun, if_pos hone, hlt, hzero]
    exact ⟨fun h => ⟨h, .inr hone⟩, fun h => h.1⟩
  · have hone' := hlt 1
    rw [firstRun, if_neg hone]
    constructor
    · intro h
      have hq0 := hzero.mp (by omega)
      subst hq0
      exact ⟨rfl, .inl (by omega)⟩
    · rintro ⟨rfl, ht0⟩
      omega

end

theorem physicalToLogicalOffset_first_eq_iff (hct : 0 < ct) {x : Int} (hx : 0 ≤ x) :
    p.physicalToLogicalOffset 0 ct x = x ↔ ct = 1 ∨ x < p.firstRun ct := by
  obtain ⟨q, t, a, hq, ht, htF, ha, haS, rfl⟩ := p.exists_strip_of_turn hx
  rw [p.physicalToLogicalOffset_first hq ht htF ha haS, p.lt_firstRun_iff hq ht htF ha haS,
    ← p.strips_eq_iff hct hq ht, Int.add_left_inj]
  exact ⟨Int.eq_of_mul_eq_mul_right (Int.ne_of_gt p.stripSize_pos), congrArg (· * p.stripSize)⟩

theorem nextMappedOffset_second_zero :
    p.nextMappedOffset 1 2 0 =
      if p.numGroups = 2 then p.groupStripFactor * p.stripSize else p.stripSize := by
  have hpos := p.numGroups_pos
  have hF : (0 : Int) < p.groupStripFactor := by exact_mod_cast p.factor_pos
  have hnext : p.nextMappedOffset 1 2 0 = p.physicalToLogicalOffset 1 2 0 := by
    simp only [nextMappedOffset, if_pos]
  rw [hnext, physicalToLogicalOffset]
  by_cases htwo : p.numGroups = 2
  · have hfactor : toUInt32 p.groupStripFactor = p.groupStripFactor :=
      Nat.mod_eq_of_lt p.factor_lt
    have hturn : toUInt32 1 = 1 := rfl
    simp [htwo, ServerGroup.of, hfactor, hturn]
  · by_cases hone : p.numGroups = 1
    · simp [hone, ServerGroup.of, toUInt32]
    · have hsmall : 2 / p.numGroups = 0 := Nat.div_eq_of_lt (by omega)
      have hclip : min p.numGroups 2 = 2 := by omega
      simp [htwo, hsmall, hclip, ServerGroup.of, toUInt32]

end TwodStripeParams

end Pvfs.Description
