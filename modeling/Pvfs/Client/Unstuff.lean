import Pvfs.Client.IoMachine
import Pvfs.Description.Stream
import Pvfs.Description.TwodStripe
import Pvfs.Description.Varstrip

/-! # Writing to a stuffed file (sys-io.sm)

A new file is *stuffed*: it has its first datafile only, and is used with its distribution as if
one datafile were all it will ever have. Before a write `unstuff_needed` decides whether the
remaining datafiles have to be created first. It takes the end of the write to be the offset plus
the size of the memory request, and compares it with the first byte of the second server, which it
asks the distribution for with a count of two servers.

What has been written must lie where the distribution looks for it once the file has all of its
datafiles. Here a layout is read from the datafile's side: `physical_to_logical_offset` says
which byte of the file an offset of the first datafile holds. -/

namespace Pvfs.Client

open Pvfs.Description

/-- The distributions `PINT_dist_initialize` registers, with their parameters. -/
inductive RegisteredDist where
  | basic
  | varstrip (strips : Option StripList)
  | simpleStripe (stripSize : Int) (stripSize_pos : 0 < stripSize)
  | twodStripe (params : TwodStripeParams)

def RegisteredDist.methods : RegisteredDist → Dist
  | .basic => .basic
  | .varstrip strips => .varstrip strips
  | .simpleStripe stripSize _ => .simpleStripe stripSize
  | .twodStripe params => .twodStripe params

/-- What `unstuff_needed` answers. -/
inductive UnstuffAnswer where
  /-- 0: go on with the datafiles the file has -/
  | proceed
  /-- `IO_UNSTUFF` -/
  | unstuff
  /-- `IO_GETATTR_SERVER` -/
  | getattrServer
deriving DecidableEq, Repr

/-- `unstuff_needed`; `unstuffed` is the bit `PVFS_ATTR_META_UNSTUFFED` of the mask and
`totalBytes` the size of the memory request. -/
def unstuffNeeded (totalBytes fileReqOffset : Int) (dist : Dist) (unstuffed : Bool)
    (ioType : IoType) : UnstuffAnswer :=
  if unstuffed then .proceed
  else
    let maxOffset := fileReqOffset + totalBytes
    let firstUnstuffedOffset := dist.nextMappedOffset 1 2 0
    if maxOffset > firstUnstuffedOffset then
      match ioType with
      | .read => .getattrServer
      | .write => .unstuff
    else .proceed

/-- The first datafile has a byte of the file, and at the same offset whether it is the only one or
there are more. -/
def StaysPut (dist : Dist) (dfileCount : Nat) (x : Int) : Prop :=
  0 ≤ x ∧ ∃ p, 0 ≤ p ∧ dist.physicalToLogicalOffset 0 1 p = x ∧
    dist.physicalToLogicalOffset 0 dfileCount p = x

/-- A write that goes on while the file is stuffed writes only bytes that will stay where they are
put. -/
def StuffedWriteSound (fileReq : Request) (fileReqOffset totalBytes : Int) (dist : Dist)
    (dfileCount : Nat) : Prop :=
  unstuffNeeded totalBytes fileReqOffset dist false .write = .proceed →
    ∀ x ∈ fileReq.window fileReqOffset (fileReqOffset + totalBytes), StaysPut dist dfileCount x

variable {dist : Dist}

theorem unstuffNeeded_write_eq_proceed {totalBytes fileReqOffset : Int} :
    unstuffNeeded totalBytes fileReqOffset dist false .write = .proceed ↔
      fileReqOffset + totalBytes ≤ dist.nextMappedOffset 1 2 0 := by
  rw [unstuffNeeded, if_neg Bool.false_ne_true]
  dsimp only
  split
  · rename_i hgt
    exact ⟨fun h => (nomatch h), fun h => absurd hgt (Int.not_lt.mpr h)⟩
  · rename_i hgt
    exact ⟨fun _ => Int.not_lt.mp hgt, fun _ => rfl⟩

/-! ## Where the first datafile follows the file -/

variable {ct : Nat}

theorem staysPut_of_first {x : Int} {P : Prop}
    (halone : ∀ p, 0 ≤ p → dist.physicalToLogicalOffset 0 1 p = p)
    (hrun : 0 ≤ x → (dist.physicalToLogicalOffset 0 ct x = x ↔ P)) :
    StaysPut dist ct x ↔ 0 ≤ x ∧ P := by
  refine and_congr_right fun hx => ?_
  rw [← hrun hx]
  constructor
  · rintro ⟨p, hp, heq, h⟩
    rw [halone p hp] at heq
    rwa [heq] at h
  · exact fun h => ⟨x, hx, halone x hx, h⟩

variable {strip x : Int}

theorem simpleStripe_first_eq_iff (hs : 0 < strip) (hct : 0 < ct) (hx : 0 ≤ x) :
    (Dist.simpleStripe strip).physicalToLogicalOffset 0 ct x = x ↔ ct = 1 ∨ x < strip := by
  have hq : 0 ≤ x / strip := Int.ediv_nonneg hx (Int.le_of_lt hs)
  have has : x % strip < strip := Int.emod_lt_of_pos _ hs
  have hp2l : (Dist.simpleStripe strip).physicalToLogicalOffset 0 ct x =
      x / strip * strip * ct + x % strip := by
    simp [Dist.simpleStripe, Int.tdiv_eq_ediv_of_nonneg hx, Int.tmod_eq_emod_of_nonneg hx]
  have hx' : x / strip * strip + x % strip = x := Int.ediv_mul_add_emod x strip
  have hnn : 0 ≤ x / strip * strip := Int.mul_nonneg hq (Int.le_of_lt hs)
  rw [hp2l]
  constructor
  · intro heq
    refine or_iff_not_imp_left.mpr fun hne => ?_
    have h2 : x / strip * strip * 2 ≤ x / strip * strip * ct :=
      Int.mul_le_mul_of_nonneg_left (by omega) hnn
    omega
  · rintro (rfl | hlt)
    · simpa using hx'
    · rw [Int.ediv_eq_zero_of_lt hx hlt, Int.emod_eq_of_lt hx hlt]
      simp

theorem simpleStripe_nextMappedOffset_second (hs : 0 < strip) :
    (Dist.simpleStripe strip).nextMappedOffset 1 2 0 = strip := by
  have hneg : (0 - 1 * strip).tmod (2 * strip) = -strip := by
    rw [Int.one_mul, Int.zero_sub, Int.neg_tmod, Int.tmod_eq_of_lt (Int.le_of_lt hs) (by omega)]
  simp only [Dist.simpleStripe, Nat.cast_one, Nat.cast_ofNat]
  rw [if_pos (by omega), Int.one_mul]

/-! ## The exact condition -/

/-- The first byte of the second of two datafiles: the end up to which a write goes on. -/
def RegisteredDist.secondStart : RegisteredDist → Int
  | .basic => 0
  | .varstrip none => -1
  | .varstrip (some l) =>
    (((Varstrip.stripsFrom 0 l.items).find? fun s => s.serverNr = 1).map Strip.offset).getD (-1)
  | .simpleStripe stripSize _ => stripSize
  | .twodStripe params =>
    if params.numGroups = 2 then params.groupStripFactor * params.stripSize else params.stripSize

/-- The bytes that the first of so many datafiles has where a stuffed file has them: all that
`basic` or a single datafile has, the strips of the first datafile for `varstrip`, and the
beginning of the file up to the second server of the first group otherwise. -/
def RegisteredDist.Keeps (dfileCount : Nat) (x : Int) : RegisteredDist → Prop
  | .basic => True
  | .varstrip none => False
  | .varstrip (some l) =>
    let strips := Varstrip.stripsFrom 0 l.items
    x < 2 ^ 32 * Varstrip.stripeSize strips ∧
      Varstrip.owner (x % Varstrip.stripeSize strips) strips = some 0
  | .simpleStripe stripSize _ => dfileCount = 1 ∨ x < stripSize
  | .twodStripe params => dfileCount = 1 ∨ x < params.firstRun dfileCount

variable {d : RegisteredDist}

theorem RegisteredDist.nextMappedOffset_second (d : RegisteredDist) :
    d.methods.nextMappedOffset 1 2 0 = d.secondStart := by
  cases d with
  | basic => rfl
  | varstrip strips =>
    cases strips with
    | none => rfl
    | some l => exact Varstrip.nextMappedOffset_zero l
  | simpleStripe strip hs => exact simpleStripe_nextMappedOffset_second hs
  | twodStripe params => exact params.nextMappedOffset_second_zero

/-- The first datafile stays where it is just if the distribution keeps it. -/
theorem RegisteredDist.staysPut_iff (hct : 0 < ct) :
    StaysPut d.methods ct x ↔ 0 ≤ x ∧ d.Keeps ct x := by
  cases d with
  | basic => exact staysPut_of_first (fun _ _ => rfl) fun _ => iff_of_true rfl trivial
  | varstrip strips =>
    cases strips with
    | none =>
      refine and_congr_right fun hx => iff_of_false ?_ id
      rintro ⟨p, -, heq, -⟩
      have hneg : -1 = x := heq
      omega
    | some l =>
      -- the number of datafiles does not matter
      refine and_congr_right fun hx => ?_
      refine Iff.trans ?_ (Varstrip.mapped_iff l hx)
      exact exists_congr fun p => and_congr_right fun _ => and_self_iff
  | simpleStripe strip hs =>
    exact staysPut_of_first (fun p hp => (simpleStripe_first_eq_iff hs Nat.one_pos hp).mpr (.inl rfl))
      fun hx => simpleStripe_first_eq_iff hs hct hx
  | twodStripe params =>
    exact staysPut_of_first
      (fun p hp => (params.physicalToLogicalOffset_first_eq_iff Nat.one_pos hp).mpr (.inl rfl))
      fun hx => params.physicalToLogicalOffset_first_eq_iff hct hx

def twoGroups : TwodStripeParams :=
  ⟨2, 1, 256, by decide, by decide, by decide, by decide⟩

def distantByte : Request :=
  (Request.hindexed [(1, 65536)] Request.pintByte).getD .null

/-- The strips "0:10;2:10;1:10". -/
def threeStrips : StripList := ⟨[(0, 10), (2, 10), (1, 10)], by decide, by decide⟩

end Pvfs.Client
