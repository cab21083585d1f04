import Pvfs.Description.Distribution

/-! # The variable strip distribution (dist-varstrip.c)

The strips of a stripe are given one by one, each with its datafile and its size, in a string
that every method parses again. The methods are translated over the parsed list; where the string
does not parse they return -1. None of them looks at the number of servers.

The number of a stripe is a `uint32_t` throughout, and `contiguous_length` keeps the size of a
stripe in one as well. -/

namespace Pvfs.Description

/-- `PINT_dist_strips`. -/
structure Strip where
  serverNr : Nat
  offset : Int
  size : Int
deriving DecidableEq, Repr

/-- What `PINT_dist_strips_parse` returns: datafile numbers and sizes, at least one of them. -/
structure StripList where
  items : List (Nat × Int)
  nonempty : items ≠ []
  size_pos : ∀ i ∈ items, 0 < i.2

namespace Varstrip

/-- The strips of a parsed list, one behind the other. -/
def stripsFrom (offset : Int) : List (Nat × Int) → List Strip
  | [] => []
  | (serverNr, size) :: rest => ⟨serverNr, offset, size⟩ :: stripsFrom (offset + size) rest

/-- The end of the last strip. -/
def stripeSize (strips : List Strip) : Int :=
  match strips.getLast? with
  | some s => s.offset + s.size
  | none => 0

/-- How many bytes of a stripe the server stores. -/
def ownSize (serverNr : Nat) : List Strip → Int
  | [] => 0
  | s :: rest => (if s.serverNr = serverNr then s.size else 0) + ownSize serverNr rest

/-- The loop of `logical_to_physical_offset`; `before` is the size of the server's own strips that
it has passed. -/
def findStrip (serverNr : Nat) (inStripe before : Int) : List Strip → Option Int
  | [] => none
  | s :: rest =>
    if s.serverNr = serverNr then
      if s.offset ≤ inStripe ∧ inStripe ≤ s.offset + s.size - 1 then
        some (before + (inStripe - s.offset))
      else findStrip serverNr inStripe (before + s.size) rest
    else findStrip serverNr inStripe before rest

def logicalToPhysicalOffset (strips : List Strip) (serverNr : Nat) (logicalOffset : Int) : Int :=
  let stripeNr := logicalOffset.tdiv (stripeSize strips) % 2 ^ 32
  match findStrip serverNr (logicalOffset - stripeNr * stripeSize strips) 0 strips with
  | some p => stripeNr * ownSize serverNr strips + p
  -- offsets that do not belong to the server are left as a todo
  | none => 0

/-- The loop of `physical_to_logical_offset`; `before` is again what it has passed. -/
def findOwn (serverNr : Nat) (inStripe before : Int) : List Strip → Option Int
  | [] => none
  | s :: rest =>
    if s.serverNr = serverNr then
      if inStripe < before + s.size then some (s.offset + (inStripe - before))
      else findOwn serverNr inStripe (before + s.size) rest
    else findOwn serverNr inStripe before rest

/-- For a server without strips the code divides by zero; the answer -1 stands for that here. -/
def physicalToLogicalOffset (strips : List Strip) (serverNr : Nat) (physicalOffset : Int) : Int :=
  let own := ownSize serverNr strips
  let stripeNr := physicalOffset.tdiv own % 2 ^ 32
  match findOwn serverNr (physicalOffset - stripeNr * own) 0 strips with
  | some x => stripeNr * stripeSize strips + x
  | none => -1

def nextMappedOffset (strips : List Strip) (serverNr : Nat) (logicalOffset : Int) : Int :=
  let stripeNr := logicalOffset.tdiv (stripeSize strips) % 2 ^ 32
  let inStripe := logicalOffset - stripeNr * stripeSize strips
  let i := strips.findIdx fun s => s.offset ≤ inStripe ∧ inStripe ≤ s.offset + s.size - 1
  -- past the last strip the code reads whatever lies behind the array
  if strips[i]?.map Strip.serverNr = some serverNr then logicalOffset
  else
    match (strips.drop (i + 1)).find? fun s => s.serverNr = serverNr with
    | some s => stripeNr * stripeSize strips + s.offset
    | none =>
      match strips.find? fun s => s.serverNr = serverNr with
      | some s => (stripeNr + 1) % 2 ^ 32 * stripeSize strips + s.offset
      | none => -1

def contiguousLength (strips : List Strip) (serverNr : Nat) (physicalOffset : Int) : Int :=
  let logicalOffset := physicalToLogicalOffset strips serverNr physicalOffset
  let stripeSize := stripeSize strips % 2 ^ 32
  let stripeNr := logicalOffset.tdiv stripeSize % 2 ^ 32
  let inStripe := logicalOffset - stripeNr * stripeSize % 2 ^ 32
  match strips.find? fun s => s.offset ≤ inStripe ∧ inStripe ≤ s.offset + s.size - 1 with
  | some s => s.offset + s.size - inStripe
  | none => 0

end Varstrip

/-- `varstrip_dist`; without a list the string did not parse. -/
def Dist.varstrip : Option StripList → Dist
  | none =>
    { logicalToPhysicalOffset := fun _ _ _ => -1
      physicalToLogicalOffset := fun _ _ _ => -1
      nextMappedOffset := fun _ _ _ => -1
      contiguousLength := fun _ _ _ => -1 }
  | some l =>
    let strips := Varstrip.stripsFrom 0 l.items
    { logicalToPhysicalOffset := fun serverNr _ => Varstrip.logicalToPhysicalOffset strips serverNr
      physicalToLogicalOffset := fun serverNr _ => Varstrip.physicalToLogicalOffset strips serverNr
      nextMappedOffset := fun serverNr _ => Varstrip.nextMappedOffset strips serverNr
      contiguousLength := fun serverNr _ => Varstrip.contiguousLength strips serverNr }

namespace Varstrip

/-! ## Every byte has one place -/

/-- The datafile that has the strip in which an offset of the stripe lies. -/
def owner (inStripe : Int) (strips : List Strip) : Option Nat :=
  (strips.find? fun s => s.offset ≤ inStripe ∧ inStripe ≤ s.offset + s.size - 1).map Strip.serverNr

/-- The size of all strips together. -/
def total : List (Nat × Int) → Int
  | [] => 0
  | (_, size) :: rest => size + total rest

variable {items : List (Nat × Int)} {nr : Nat} {o before q y : Int}

theorem stripeSize_stripsFrom (hne : items ≠ []) :
    stripeSize (stripsFrom o items) = o + total items := by
  induction items generalizing o with
  | nil => exact absurd rfl hne
  | cons i rest ih =>
    cases rest with
    | nil => simp [stripsFrom, stripeSize, total]
    | cons j rest =>
      have hrest := ih (o := o + i.2) (List.cons_ne_nil _ _)
      simp only [stripeSize, stripsFrom, List.getLast?_cons_cons, total] at hrest ⊢
      rw [hrest]
      omega

variable (hpos : ∀ i ∈ items, 0 < i.2)
include hpos

theorem sizes_nonneg (nr : Nat) (o : Int) :
    0 ≤ total items ∧ 0 ≤ ownSize nr (stripsFrom o items) := by
  induction items generalizing o with
  | nil => exact ⟨Int.le_refl 0, Int.le_refl 0⟩
  | cons i rest ih =>
    obtain ⟨hi, hrest⟩ := List.forall_mem_cons.mp hpos
    have := ih hrest (o + i.2)
    simp only [total, stripsFrom, ownSize]
    split <;> omega

/-- What `physical_to_logical_offset` finds lies in a strip of the server, and there the loop of
`logical_to_physical_offset` finds the way back. -/
theorem findOwn_spec (hq : before ≤ q) (h : findOwn nr q before (stripsFrom o items) = some y) :
    o ≤ y ∧ y < o + total items ∧ findStrip nr y before (stripsFrom o items) = some q ∧
      owner y (stripsFrom o items) = some nr := by
  induction items generalizing o before with
  | nil => cases h
  | cons i rest ih =>
    obtain ⟨hi, hrest⟩ := List.forall_mem_cons.mp hpos
    have hnonneg := (sizes_nonneg hrest nr o).1
    simp only [findOwn, stripsFrom, findStrip, owner, total, List.find?_cons] at ih h ⊢
    -- an offset behind the first strip is found behind it
    have hbehind : o + i.2 ≤ y → ¬ (o ≤ y ∧ y ≤ o + i.2 - 1) := by omega
    split_ifs at h with hnr hin
    · obtain rfl := Option.some.inj h
      have hhere : o ≤ o + (q - before) ∧ o + (q - before) ≤ o + i.2 - 1 := by omega
      rw [if_pos hnr, if_pos hhere]
      exact ⟨by omega, by omega, by congr 1; omega, by simp [hhere, hnr]⟩
    · obtain ⟨hle, hlt, hback, howner⟩ := ih hrest (by omega) h
      simp only [hbehind hle, hnr, if_true, if_false, decide_false]
      exact ⟨by omega, by omega, hback, howner⟩
    · obtain ⟨hle, hlt, hback, howner⟩ := ih hrest hq h
      simp only [hbehind hle, hnr, if_false, decide_false]
      exact ⟨by omega, by omega, hback, howner⟩

theorem exists_findOwn (hy : o ≤ y) (hlt : y < o + total items) :
    ∃ nr, ∀ before, ∃ q, before ≤ q ∧ q < before + ownSize nr (stripsFrom o items) ∧
      findOwn nr q before (stripsFrom o items) = some y := by
  induction items generalizing o with
  | nil => simp [total] at hlt; omega
  | cons i rest ih =>
    obtain ⟨hi, hrest⟩ := List.forall_mem_cons.mp hpos
    simp only [findOwn, stripsFrom, total, ownSize] at hlt ⊢
    by_cases hin : y < o + i.2
    · refine ⟨i.1, fun before => ⟨before + (y - o), by omega, ?_, ?_⟩⟩
      · have := (sizes_nonneg hrest i.1 (o + i.2)).2
        rw [if_pos rfl]
        omega
      · rw [if_pos rfl, if_pos (by omega)]
        congr 1
        omega
    · obtain ⟨nr, hfind⟩ := ih hrest (o := o + i.2) (by omega) (by omega)
      refine ⟨nr, fun before => ?_⟩
      by_cases hnr : i.1 = nr
      · obtain ⟨q, hq, hown, h⟩ := hfind (before + i.2)
        exact ⟨q, by omega, by rw [if_pos hnr]; omega, by rw [if_pos hnr, if_neg (by omega), h]⟩
      · obtain ⟨q, hq, hown, h⟩ := hfind before
        exact ⟨q, hq, by rw [if_neg hnr]; omega, by rw [if_neg hnr, h]⟩

omit hpos

theorem stripeNr_mul_le {p own : Int} (hp : 0 ≤ p) (hown : 0 ≤ own) :
    p.tdiv own % 2 ^ 32 * own ≤ p := by
  have hle : p.tdiv own % 2 ^ 32 ≤ p.tdiv own := by
    have := Int.tdiv_nonneg hp hown
    omega
  have hmul := Int.mul_le_mul_of_nonneg_right hle hown
  have hrest := Int.tmod_nonneg own hp
  have hsplit := Int.tdiv_mul_add_tmod p own
  omega

variable (l : StripList) {nr : Nat} {p x : Int}

theorem stripeSize_pos : 0 < stripeSize (stripsFrom 0 l.items) := by
  rw [stripeSize_stripsFrom l.nonempty]
  obtain ⟨i, rest, hitems⟩ := List.exists_cons_of_ne_nil l.nonempty
  obtain ⟨hi, hrest⟩ := List.forall_mem_cons.mp (hitems ▸ l.size_pos)
  have := (sizes_nonneg hrest 0 0).1
  rw [hitems, total]
  omega

/-- The byte that a datafile has at an offset lies in one of its strips, and where it lies tells the
offset. -/
theorem place_of_physicalToLogicalOffset (hp : 0 ≤ p) (h0 : 0 ≤ x)
    (h : physicalToLogicalOffset (stripsFrom 0 l.items) nr p = x) :
    x < 2 ^ 32 * stripeSize (stripsFrom 0 l.items) ∧
      owner (x % stripeSize (stripsFrom 0 l.items)) (stripsFrom 0 l.items) = some nr ∧
      findStrip nr (x % stripeSize (stripsFrom 0 l.items)) 0 (stripsFrom 0 l.items) =
        some (p - x / stripeSize (stripsFrom 0 l.items) * ownSize nr (stripsFrom 0 l.items)) := by
  have hSpos := stripeSize_pos l
  have htotal := stripeSize_stripsFrom (o := 0) l.nonempty
  have hle := stripeNr_mul_le hp (sizes_nonneg l.size_pos nr 0).2
  simp only [physicalToLogicalOffset] at h
  split at h
  · next y hfind =>
    obtain ⟨hy0, hyS, hback, howner⟩ := findOwn_spec l.size_pos (by omega) hfind
    rw [Int.add_comm, Int.mul_comm] at h
    obtain ⟨hstripe, hin⟩ := (Int.ediv_emod_unique hSpos).mpr ⟨h, hy0, by omega⟩
    rw [hstripe, hin]
    refine ⟨Int.lt_mul_of_ediv_lt hSpos ?_, howner, hback⟩
    omega
  · omega

/-- Every byte of the file is in some datafile. -/
theorem exists_place (h0 : 0 ≤ x) (hx : x < 2 ^ 32 * stripeSize (stripsFrom 0 l.items)) :
    ∃ nr p, 0 ≤ p ∧ physicalToLogicalOffset (stripsFrom 0 l.items) nr p = x := by
  generalize hS : stripeSize (stripsFrom 0 l.items) = S at hx
  have htotal : S = 0 + total l.items := hS ▸ stripeSize_stripsFrom l.nonempty
  have hSpos : 0 < S := hS ▸ stripeSize_pos l
  have hk : 0 ≤ x / S := Int.ediv_nonneg h0 hSpos.le
  have hwrap : x / S % 2 ^ 32 = x / S :=
    Int.emod_eq_of_lt hk (Int.ediv_lt_of_lt_mul hSpos hx)
  have hy := Int.emod_nonneg x hSpos.ne'
  have hy' := Int.emod_lt_of_pos x hSpos
  have hsplit : x / S * S + x % S = x := Int.ediv_mul_add_emod x S
  obtain ⟨nr, hfind⟩ := exists_findOwn l.size_pos hy (htotal ▸ hy')
  obtain ⟨q, hq, hown, hfind⟩ := hfind 0
  rw [Int.zero_add] at hown
  refine ⟨nr, x / S * ownSize nr (stripsFrom 0 l.items) + q,
    Int.add_nonneg (Int.mul_nonneg hk (hq.trans hown.le)) hq, ?_⟩
  have hin (a : Int) : a + q - a = q := by omega
  simp only [physicalToLogicalOffset, Dist.tdiv_stripe hk hq hown, hwrap, hin, hfind, hS, hsplit]

/-- A datafile has the bytes that lie in its strips. -/
theorem mapped_iff (h0 : 0 ≤ x) :
    (∃ p, 0 ≤ p ∧ physicalToLogicalOffset (stripsFrom 0 l.items) nr p = x) ↔
      x < 2 ^ 32 * stripeSize (stripsFrom 0 l.items) ∧
        owner (x % stripeSize (stripsFrom 0 l.items)) (stripsFrom 0 l.items) = some nr := by
  constructor
  · rintro ⟨p, hp, h⟩
    obtain ⟨hlt, howner, -⟩ := place_of_physicalToLogicalOffset l hp h0 h
    exact ⟨hlt, howner⟩
  · rintro ⟨hlt, howner⟩
    obtain ⟨nr', p, hp, h⟩ := exists_place l h0 hlt
    obtain ⟨-, howner', -⟩ := place_of_physicalToLogicalOffset l hp h0 h
    obtain rfl := Option.some.inj (howner.symm.trans howner')
    exact ⟨p, hp, h⟩

/-- From the beginning of the file on, the next byte of a datafile is the first of its first strip. -/
theorem nextMappedOffset_zero :
    nextMappedOffset (stripsFrom 0 l.items) nr 0 =
      (((stripsFrom 0 l.items).find? fun s => s.serverNr = nr).map Strip.offset).getD (-1) := by
  obtain ⟨i, rest, hitems⟩ := List.exists_cons_of_ne_nil l.nonempty
  have hi : 0 < i.2 := l.size_pos i (hitems ▸ List.mem_cons_self)
  have hfirst : (0 : Int) ≤ 0 ∧ 0 ≤ 0 + i.2 - 1 := by omega
  simp only [nextMappedOffset, hitems, stripsFrom, Int.zero_tdiv, Int.zero_emod, Int.zero_mul,
    Int.sub_zero, List.findIdx_cons, hfirst, decide_true, cond_true, and_self]
  by_cases hnr : i.1 = nr
  · simp [hnr]
  · simp only [List.getElem?_cons_zero, Option.map_some, Option.some.injEq, hnr, if_false,
      List.drop_succ_cons, List.drop_zero, List.find?_cons, decide_false]
    cases (stripsFrom (0 + i.2) rest).find? fun s => s.serverNr = nr with
    | none => rfl
    | some s => simp

end Varstrip

open Varstrip in
/-- **Every byte of a file has one place**, on one datafile, and `logical_to_physical_offset` finds
it there. -/
theorem Dist.varstrip_one_place (l : StripList) (ct : Nat) {x : Int} (h0 : 0 ≤ x)
    (hx : x < 2 ^ 32 * stripeSize (stripsFrom 0 l.items)) :
    ∃ nr p, 0 ≤ p ∧ (varstrip l).physicalToLogicalOffset nr ct p = x ∧
      (varstrip l).logicalToPhysicalOffset nr ct x = p ∧
      ∀ nr' p', 0 ≤ p' → (varstrip l).physicalToLogicalOffset nr' ct p' = x → nr' = nr ∧ p' = p := by
  obtain ⟨nr, p, hp, hplace⟩ := exists_place l h0 hx
  obtain ⟨-, howner, hback⟩ := place_of_physicalToLogicalOffset l hp h0 hplace
  refine ⟨nr, p, hp, hplace, ?_, fun nr' p' hp' hplace' => ?_⟩
  · have hSpos := stripeSize_pos l
    have hk : 0 ≤ x / stripeSize (stripsFrom 0 l.items) := Int.ediv_nonneg h0 hSpos.le
    have hwrap := Int.emod_eq_of_lt hk (Int.ediv_lt_of_lt_mul hSpos hx)
    have hin : x - x / stripeSize (stripsFrom 0 l.items) * stripeSize (stripsFrom 0 l.items) =
        x % stripeSize (stripsFrom 0 l.items) := by
      have := Int.ediv_mul_add_emod x (stripeSize (stripsFrom 0 l.items))
      omega
    simp only [varstrip, Varstrip.logicalToPhysicalOffset, Int.tdiv_eq_ediv_of_nonneg h0, hwrap, hin,
      hback]
    omega
  · obtain ⟨-, howner', hback'⟩ := place_of_physicalToLogicalOffset l hp' h0 hplace'
    obtain rfl := Option.some.inj (howner'.symm.trans howner)
    have heq := Option.some.inj (hback'.symm.trans hback)
    exact ⟨rfl, by omega⟩

theorem Dist.varstrip_one_place_third : ∃ nr p, 0 ≤ p ∧
    (varstrip (some ⟨[(0, 2), (1, 3)], by decide, by decide⟩)).physicalToLogicalOffset nr 2 p = 3 :=
  let ⟨nr, p, hp, h, _⟩ := varstrip_one_place ⟨[(0, 2), (1, 3)], by decide, by decide⟩ 2
    (x := 3) (by decide) (by decide)
  ⟨nr, p, hp, h⟩

end Pvfs.Description
