import Mathlib.Algebra.Group.Nat.Defs
import Mathlib.Data.List.Count
import Mathlib.Order.Nat
import Pvfs.Lib.SearchTree
import Pvfs.Lib.Machine

/-! # Lists of extents

A server keeps the handles it may give to new objects as extents, in a tree ordered by
their first handles. Extents are split when a handle is taken out of the middle and
coalesced with their neighbours when one is added. The tree itself is third-party code:
`avlinsert` and `avlremove` are those of any `OrderedMap`, and only the walks down the tree
are written out, since one of them depends on where the extents lie in it.

A handle is a `uint64_t`: a number below `handleLimit`, where one less than 0 and one more
than the greatest wrap round. -/

namespace Pvfs.Trove

open Lib List Lib.Tree

def handleLimit : Nat := 2 ^ 64

/-- `struct TROVE_handle_extent`, without its place in a backing store. -/
structure Extent where
  first : Nat
  last : Nat
deriving DecidableEq, Repr

abbrev Index := Lib.Tree Extent

abbrev Avl := OrderedMap Extent Nat Extent.first

/-- `struct TROVE_handle_extentlist`, with the fields that decide anything. -/
structure Extentlist where
  numHandles : Nat
  timestamp : Timeval
  index : Index
deriving DecidableEq, Repr

/-- `extentlist_init`. -/
def extentlistInit (now : Timeval) : Extentlist := ⟨0, now, .nil⟩

/-! ## Walks down the tree -/

def avlaccess (n : Index) (key : Nat) : Option Extent := n.search fun d => compare key d.first

def avlaltaccess (n : Index) (key : Nat) : Option Extent := n.search fun d => compare key d.last

def avlgethighest (n : Index) : Option Extent := n.highest

def avltreeExtentSearch (n : Index) (handle : Nat) : Option Extent :=
  n.search fun e => if e.first > handle then .lt else if e.last < handle then .gt else .eq

/-- A handle in the range that some extent has, 0 if the walk meets none. The range may be
given the wrong way round. -/
def avltreeExtentSearchInRange : Index → Extent → Nat
  | .nil, _ => 0
  | .node left e right, req =>
    if req.first = e.first ∨ req.first = e.last then
      req.first
    else if req.last = e.first ∨ req.last = e.last then
      req.last
    else if req.first > e.first ∧ req.last < e.last then
      req.last
    else if req.first < e.first ∧ req.last > e.last then
      e.last
    else if req.first < e.first ∧ req.last < e.last ∧ req.last > e.first then
      e.first
    else if req.first > e.first ∧ req.last > e.last ∧ req.first < e.last then
      e.last
    else if left ≠ .nil ∧ req.last < e.first then
      avltreeExtentSearchInRange left req
    else if right ≠ .nil ∧ req.first > e.last then
      avltreeExtentSearchInRange right req
    else
      0

/-! ## Changing a list -/

section
variable (avl : Avl)

/-- How `extentlist_coalesce_extent` ends. -/
inductive CoalesceStatus where
  | error | none | success
deriving DecidableEq, Repr

/-- The extent that ends right before `e` is taken out of the tree and joined to `e`. -/
def mergeLesser (n : Index) (e : Extent) : Option (Bool × Extent × Index) :=
  match avlaltaccess n ((e.first + (handleLimit - 1)) % handleLimit) with
  | none => some (false, e, n)
  | some lesser =>
    (avl.remove n lesser.first).map fun n' => (true, ⟨lesser.first, e.last⟩, n')

/-- The extent that begins right after `e` is taken out of the tree and joined to `e`. -/
def mergeGreater (n : Index) (e : Extent) : Option (Bool × Extent × Index) :=
  match avlaccess n ((e.last + 1) % handleLimit) with
  | none => some (false, e, n)
  | some greater =>
    (avl.remove n greater.first).map fun n' => (true, ⟨e.first, greater.last⟩, n')

/-- `extentlist_coalesce_extent`. -/
def extentlistCoalesceExtent (n : Index) (e : Extent) : CoalesceStatus × Index :=
  match mergeLesser avl n e with
  | none => (.error, n)
  | some (lesser, e₁, n₁) =>
    match mergeGreater avl n₁ e₁ with
    | none => (.error, n₁)
    | some (greater, e₂, n₂) =>
      if lesser || greater then
        match avl.insert n₂ e₂ with
        | none => (.error, n₂)
        | some n₃ => (.success, n₃)
      else
        (.none, n₂)

/-- `extentlist_addextent`, with the time it reads. -/
def extentlistAddextent (elist : Extentlist) (first last : Nat) (now : Timeval) :
    Int × Extentlist :=
  let finish (index : Index) : Int × Extentlist :=
    (0, ⟨(elist.numHandles + (last + handleLimit - first + 1)) % handleLimit, now, index⟩)
  match extentlistCoalesceExtent avl elist.index ⟨first, last⟩ with
  | (.none, n) =>
    match avl.insert n ⟨first, last⟩ with
    | none => (-1, { elist with index := n })
    | some n' => finish n'
  | (_, n) => finish n

/-- `extentlist_get_and_dec_extent`; no handle stands for the value -1 it then returns. The
count of handles stays as it is when an extent of one handle is given out. -/
def extentlistGetAndDecExtent (elist : Extentlist) : Option Nat × Extentlist :=
  match avlgethighest elist.index with
  | none => (none, elist)
  | some ext =>
    if ext.first = ext.last then
      match avl.remove elist.index ext.first with
      | none => (none, elist)
      | some n => (some ext.last, { elist with index := n })
    else
      (some ext.last,
        { elist with
          numHandles := (elist.numHandles + (handleLimit - 1)) % handleLimit
          index := elist.index.mapHighest fun e => { e with last := e.last - 1 } })

/-- `extentlist_handle_remove`; `none` is a failed assertion. The result of `avlinsert` is not
looked at, and the counts are left alone. -/
def extentlistHandleRemove (elist : Extentlist) (handle : Nat) : Option (Int × Extentlist) :=
  match avltreeExtentSearch elist.index handle with
  | none => some (-1, elist)
  | some ⟨key, last⟩ =>
    (avl.remove elist.index key).map fun n =>
      let insert (n : Index) (e : Extent) : Index := (avl.insert n e).getD n
      if key = last then
        (0, { elist with index := n })
      else if key = handle then
        (0, { elist with index := insert n ⟨key + 1, last⟩ })
      else if last = handle then
        (0, { elist with index := insert n ⟨key, last - 1⟩ })
      else
        (0, { elist with index := insert (insert n ⟨key, handle - 1⟩) ⟨handle + 1, last⟩ })

/-- `extentlist_get_from_extent`; no handle stands for the value 0 it then returns. -/
def extentlistGetFromExtent (elist : Extentlist) (extent : Extent) :
    Option (Option Nat × Extentlist) :=
  let handle := avltreeExtentSearchInRange elist.index extent
  if handle = 0 then
    some (none, elist)
  else
    (extentlistHandleRemove avl elist handle).map fun (ret, elist') =>
      (if ret = -1 then none else some handle, elist')

/-- The loop of `extentlist_merge`: the extent on top of the tree is added to `dest` and taken
out of the tree until that is empty. `i` counts the times the clock is read; a tree that
does not shrink keeps the loop going for ever. -/
def extentlistMergeLoop (clock : Nat → Timeval) : Nat → Nat → Index → Extentlist →
    Option (Nat × Extentlist)
  | _, i, .nil, dest => some (i, dest)
  | 0, _, .node _ _ _, _ => none
  | fuel + 1, i, .node left d right, dest =>
    match avl.remove (.node left d right) d.first with
    | none => none
    | some n =>
      extentlistMergeLoop clock fuel (i + 1) n
        (extentlistAddextent avl dest d.first d.last (clock i)).2

/-- `extentlist_merge`: how often it reads the clock, and the destination. The source is
thrown away by its only caller. -/
def extentlistMerge (dest src : Extentlist) (clock : Nat → Timeval) : Option (Nat × Extentlist) :=
  extentlistMergeLoop avl clock src.index.toList.length 0 src.index dest

end

/-- `extentlist_hit_cutoff`. -/
def extentlistHitCutoff (elist : Extentlist) (cutoff : Nat) : Bool := elist.numHandles > cutoff

/-! ## Which handles a list has -/

def Extent.contains (e : Extent) (h : Nat) : Bool := e.first ≤ h && h ≤ e.last

/-- An extent of handles: at least one of them, and none is 0. -/
def Extent.Valid (e : Extent) : Prop := 1 ≤ e.first ∧ e.first ≤ e.last ∧ e.last < handleLimit

/-- How many extents a handle is in. -/
def tally (es : List Extent) (h : Nat) : Nat := es.countP fun e => e.contains h

variable (avl : Avl) {n n' : Index} {e x : Extent} {es es' : List Extent} {h : Nat}

@[simp] theorem tally_nil : tally [] h = 0 := rfl

theorem tally_singleton : tally [e] h = if e.contains h then 1 else 0 := by
  simp [tally, countP_cons]

theorem tally_append : tally (es ++ es') h = tally es h + tally es' h := countP_append

theorem tally_cons : tally (e :: es) h = tally [e] h + tally es h := by
  rw [← tally_append, singleton_append]

theorem tally_perm (hp : es.Perm es') : tally es h = tally es' h := hp.countP_eq _

theorem contains_iff : e.contains h = true ↔ e.first ≤ h ∧ h ≤ e.last := by
  simp [Extent.contains]

theorem tally_pos (he : e ∈ es) (hc : e.contains h = true) : 0 < tally es h :=
  countP_pos_iff.mpr ⟨e, he, hc⟩

theorem valid_of_tally (hvalid : ∀ e ∈ es, e.Valid) (hpos : 0 < tally es h) :
    Extent.Valid ⟨h, h⟩ := by
  obtain ⟨e, he, hc⟩ := countP_pos_iff.mp hpos
  obtain ⟨hfirst, hlast⟩ := contains_iff.mp hc
  have hv := hvalid e he
  exact ⟨hv.1.trans hfirst, Nat.le_refl _, Nat.lt_of_le_of_lt hlast hv.2.2⟩

theorem tally_join {a b c : Nat} (hab : a ≤ b) (hbc : b + 1 ≤ c) :
    tally [⟨a, c⟩] h = tally [⟨a, b⟩] h + tally [⟨b + 1, c⟩] h := by
  simp only [tally_singleton, contains_iff]
  split_ifs <;> omega

/-- Sorted extents that do not overlap. -/
structure WellFormed (n : Index) : Prop where
  sorted : n.Sorted Extent.first
  valid : ∀ e ∈ n.toList, e.Valid
  once : ∀ h, tally n.toList h ≤ 1

theorem wellFormed_nil : WellFormed .nil where
  sorted := List.Pairwise.nil
  valid e he := by cases he
  once h := Nat.zero_le 1

theorem apart_of_tally (he : e.first ≤ e.last) (hx : x.first ≤ x.last)
    (honce : ∀ h, tally [e, x] h ≤ 1) : e.last < x.first ∨ x.last < e.first := by
  by_contra hmeet
  -- otherwise both have the first handle of one of them
  have htwo := honce (max e.first x.first)
  rw [tally_cons, tally_singleton, tally_singleton, if_pos (contains_iff.mpr (by omega)),
    if_pos (contains_iff.mpr (by omega))] at htwo
  omega

theorem WellFormed.apart (hn : WellFormed n) :
    n.toList.Pairwise fun a b => a.first ≤ a.last ∧ a.last < b.first ∧ b.first ≤ b.last := by
  refine pairwise_iff_forall_sublist.mpr fun {a b} hab => ?_
  have hlt := pairwise_iff_forall_sublist.mp hn.sorted hab
  have ha := hn.valid a (hab.subset mem_cons_self)
  have hb := hn.valid b (hab.subset (mem_cons_of_mem _ mem_cons_self))
  have hside := apart_of_tally ha.2.1 hb.2.1 fun h => hab.countP_le.trans (hn.once h)
  exact ⟨ha.2.1, hside.resolve_right (hlt.trans_le hb.2.1).not_gt, hb.2.1⟩

/-! ## Putting extents into a tree -/

/-- The extent overlaps none of the index. -/
structure Fits (n : Index) (e : Extent) : Prop where
  sorted : n.Sorted Extent.first
  valid : ∀ x ∈ e :: n.toList, x.Valid
  once : ∀ h, tally (e :: n.toList) h ≤ 1

theorem Fits.wellFormed (hn : Fits n e) : WellFormed n where
  sorted := hn.sorted
  valid x hx := hn.valid x (mem_cons_of_mem _ hx)
  once h := by
    have honce := hn.once h
    rw [tally_cons] at honce
    omega

theorem Fits.apart (hn : Fits n e) (hx : x ∈ n.toList) : e.last < x.first ∨ x.last < e.first := by
  have hsub : [e, x].Sublist (e :: n.toList) := (singleton_sublist.mpr hx).cons_cons e
  exact apart_of_tally (hn.valid e mem_cons_self).2.1 (hn.wellFormed.valid x hx).2.1
    fun h => hsub.countP_le.trans (hn.once h)

theorem Fits.insert (hn : Fits n e) : ∃ n', avl.insert n e = some n' ∧ WellFormed n' ∧
    n'.toList.Perm (e :: n.toList) := by
  have hfresh : ∀ x ∈ n.toList, x.first ≠ e.first := by
    intro x hx hfirst
    have hle := (hn.valid e mem_cons_self).2.1
    have hlex := (hn.wellFormed.valid x hx).2.1
    have hside := hn.apart hx
    omega
  obtain ⟨n', hins, hsorted, hperm⟩ := avl.insert_spec n e hn.sorted hfresh
  refine ⟨n', hins, ⟨hsorted, fun x hx => hn.valid x (hperm.mem_iff.mp hx), fun h => ?_⟩, hperm⟩
  rw [tally_perm hperm]
  exact hn.once h

theorem WellFormed.remove (hn : WellFormed n) (hx : x ∈ n.toList) :
    ∃ n', avl.remove n x.first = some n' ∧ Fits n' x ∧ (x :: n'.toList).Perm n.toList := by
  obtain ⟨n', hrem, hsorted, hperm⟩ := avl.remove_spec n x hn.sorted hx
  refine ⟨n', hrem, ⟨hsorted, fun y hy => hn.valid y (hperm.mem_iff.mp hy), fun h => ?_⟩, hperm⟩
  rw [tally_perm hperm]
  exact hn.once h

theorem WellFormed.fits (hn : WellFormed n) (hx : x.Valid)
    (honce : ∀ h, tally [x] h + tally n.toList h ≤ 1) : Fits n x where
  sorted := hn.sorted
  valid y hy := by
    obtain rfl | hy := mem_cons.mp hy
    · exact hx
    · exact hn.valid y hy
  once h := by
    rw [tally_cons]
    exact honce h

theorem Fits.absorb {e' : Extent} (hn : Fits n e) (hfits : Fits n' x)
    (hperm : (x :: n'.toList).Perm n.toList) (he' : e'.Valid)
    (hjoin : ∀ h, tally [e'] h = tally [x] h + tally [e] h) :
    Fits n' e' ∧ ∀ h, tally (e' :: n'.toList) h = tally (e :: n.toList) h := by
  have htotal : ∀ h, tally (e' :: n'.toList) h = tally (e :: n.toList) h := by
    intro h
    have hp := tally_perm (h := h) hperm
    rw [tally_cons] at hp
    rw [tally_cons, tally_cons (e := e), hjoin]
    omega
  refine ⟨hfits.wellFormed.fits he' fun h => ?_, htotal⟩
  rw [← tally_cons, htotal]
  exact hn.once h

theorem avlaltaccess_of_mem (hn : WellFormed n) (hx : x ∈ n.toList) :
    avlaltaccess n x.last = some x :=
  search_of_mem hn.apart (fun y hy => Nat.compare_eq_gt.mpr (by omega))
    (fun y hy => Nat.compare_eq_lt.mpr (by omega)) (Nat.compare_eq_eq.mpr rfl) hx

theorem avlaccess_of_mem (hn : WellFormed n) (hx : x ∈ n.toList) :
    avlaccess n x.first = some x :=
  search_of_mem hn.apart (fun y hy => Nat.compare_eq_gt.mpr (by omega))
    (fun y hy => Nat.compare_eq_lt.mpr (by omega)) (Nat.compare_eq_eq.mpr rfl) hx

theorem mergeLesser_cases (hn : Fits n e) :
    (mergeLesser avl n e = some (false, e, n) ∧ ∀ x ∈ n.toList, x.last + 1 ≠ e.first) ∨
      ∃ x n', mergeLesser avl n e = some (true, ⟨x.first, e.last⟩, n') ∧ x.Valid ∧
        x.last + 1 = e.first ∧ Fits n' x ∧ (x :: n'.toList).Perm n.toList := by
  have hve := hn.valid e mem_cons_self
  -- handle 0 is in no extent, so the key does not wrap
  have hkey : (e.first + (handleLimit - 1)) % handleLimit = e.first - 1 := by
    unfold Extent.Valid handleLimit at *
    omega
  unfold mergeLesser
  rw [hkey]
  cases hfound : avlaltaccess n (e.first - 1) with
  | none =>
    refine .inl ⟨rfl, fun x hx hmeet => ?_⟩
    have hsome := avlaltaccess_of_mem hn.wellFormed hx
    rw [Nat.eq_sub_of_add_eq hmeet, hfound] at hsome
    cases hsome
  | some x =>
    obtain ⟨hmem, hlast⟩ := of_search hfound
    rw [Nat.compare_eq_eq] at hlast
    obtain ⟨n', hrem, hfits, hperm⟩ : ∃ n', avl.remove n x.first = some n' ∧ _ :=
      hn.wellFormed.remove avl hmem
    refine .inr ⟨x, n', ?_, hn.wellFormed.valid x hmem, by have := hve.1; omega, hfits, hperm⟩
    simp only [hrem, Option.map_some]

theorem mergeGreater_cases (hn : Fits n e) :
    (mergeGreater avl n e = some (false, e, n) ∧ ∀ x ∈ n.toList, e.last + 1 ≠ x.first) ∨
      ∃ x n', mergeGreater avl n e = some (true, ⟨e.first, x.last⟩, n') ∧ x.Valid ∧
        e.last + 1 = x.first ∧ Fits n' x ∧ (x :: n'.toList).Perm n.toList := by
  unfold mergeGreater
  cases hfound : avlaccess n ((e.last + 1) % handleLimit) with
  | none =>
    refine .inl ⟨rfl, fun x hx hmeet => ?_⟩
    have hvx := hn.wellFormed.valid x hx
    have hsome := avlaccess_of_mem hn.wellFormed hx
    rw [hmeet, Nat.mod_eq_of_lt (Nat.lt_of_le_of_lt hvx.2.1 hvx.2.2), hsome] at hfound
    cases hfound
  | some x =>
    obtain ⟨hmem, hfirst⟩ := of_search hfound
    have hve := hn.valid e mem_cons_self
    have hvx := hn.wellFormed.valid x hmem
    -- the key that wraps to 0 is in no extent
    have hmeet : e.last + 1 = x.first := by
      rw [Nat.compare_eq_eq] at hfirst
      unfold Extent.Valid handleLimit at *
      omega
    obtain ⟨n', hrem, hfits, hperm⟩ : ∃ n', avl.remove n x.first = some n' ∧ _ :=
      hn.wellFormed.remove avl hmem
    refine .inr ⟨x, n', ?_, hvx, hmeet, hfits, hperm⟩
    simp only [hrem, Option.map_some]

/-- What either half of `extentlist_coalesce_extent` leaves. -/
def Coalesced (n : Index) (e : Extent) (r : Option (Bool × Extent × Index)) : Prop :=
  ∃ joined e' n', r = some (joined, e', n') ∧ Fits n' e' ∧
    (∀ h, tally (e' :: n'.toList) h = tally (e :: n.toList) h) ∧
    (joined = false → e' = e ∧ n' = n)

theorem Coalesced.unchanged (hn : Fits n e) : Coalesced n e (some (false, e, n)) :=
  ⟨false, e, n, rfl, hn, fun _ => rfl, fun _ => ⟨rfl, rfl⟩⟩

theorem mergeLesser_spec (hn : Fits n e) : Coalesced n e (mergeLesser avl n e) := by
  obtain ⟨heq, -⟩ | ⟨x, n', heq, hvx, hmeet, hfits, hperm⟩ := mergeLesser_cases avl hn
  · exact heq ▸ Coalesced.unchanged hn
  · have hve := hn.valid e mem_cons_self
    have hle : x.last + 1 ≤ e.last := hmeet ▸ hve.2.1
    have hvalid : Extent.Valid ⟨x.first, e.last⟩ :=
      ⟨hvx.1, hvx.2.1.trans (Nat.le_of_succ_le hle), hve.2.2⟩
    obtain ⟨hfits', htotal⟩ := hn.absorb hfits hperm hvalid fun h => by
      have hj := tally_join (h := h) hvx.2.1 hle
      rw [hmeet] at hj
      exact hj
    exact ⟨true, _, n', heq, hfits', htotal, fun h => by cases h⟩

theorem mergeGreater_spec (hn : Fits n e) : Coalesced n e (mergeGreater avl n e) := by
  obtain ⟨heq, -⟩ | ⟨x, n', heq, hvx, hmeet, hfits, hperm⟩ := mergeGreater_cases avl hn
  · exact heq ▸ Coalesced.unchanged hn
  · have hve := hn.valid e mem_cons_self
    have hle : e.last + 1 ≤ x.last := hmeet ▸ hvx.2.1
    have hvalid : Extent.Valid ⟨e.first, x.last⟩ :=
      ⟨hve.1, hve.2.1.trans (Nat.le_of_succ_le hle), hvx.2.2⟩
    obtain ⟨hfits', htotal⟩ := hn.absorb hfits hperm hvalid fun h => by
      have hj := tally_join (h := h) hve.2.1 hle
      rw [hmeet, Nat.add_comm] at hj
      exact hj
    exact ⟨true, _, n', heq, hfits', htotal, fun h => by cases h⟩

variable {elist : Extentlist}
variable {first last handle a b : Nat} {now : Timeval}

theorem extentlistAddextent_eq
    (hn : Fits elist.index ⟨first, last⟩) : ∃ lesser e1 n1 greater e2 n2 index,
      extentlistAddextent avl elist first last now =
        (0, ⟨(elist.numHandles + (last + handleLimit - first + 1)) % handleLimit, now, index⟩) ∧
      WellFormed index ∧ (∀ h, tally index.toList h = tally (⟨first, last⟩ :: elist.index.toList) h) ∧
      mergeLesser avl elist.index ⟨first, last⟩ = some (lesser, e1, n1) ∧ Fits n1 e1 ∧
      mergeGreater avl n1 e1 = some (greater, e2, n2) ∧ Fits n2 e2 ∧
      index.toList.Perm (e2 :: n2.toList) := by
  obtain ⟨lesser, e1, n1, h1, hfits1, htotal1, hsame1⟩ : Coalesced _ _ (mergeLesser avl _ _) :=
    mergeLesser_spec avl hn
  obtain ⟨greater, e2, n2, h2, hfits2, htotal2, hsame2⟩ : Coalesced _ _ (mergeGreater avl _ _) :=
    mergeGreater_spec avl hfits1
  obtain ⟨index, hins, hwf, hperm⟩ : ∃ index, avl.insert n2 e2 = some index ∧ _ := hfits2.insert avl
  refine ⟨lesser, e1, n1, greater, e2, n2, index, ?_, hwf, fun h => ?_, h1, hfits1, h2, hfits2, hperm⟩
  · unfold extentlistAddextent extentlistCoalesceExtent
    simp only [h1, h2]
    cases hjoined : lesser || greater with
    | true => simp only [if_true, hins]
    | false =>
      obtain ⟨hl, hg⟩ := Bool.or_eq_false_iff.mp hjoined
      obtain ⟨rfl, rfl⟩ := hsame1 hl
      obtain ⟨rfl, rfl⟩ := hsame2 hg
      simp only [Bool.false_eq_true, if_false, hins]
  · rw [tally_perm hperm, htotal2, htotal1]

/-- **Adding an extent** succeeds and adds its handles to those of the list. -/
theorem extentlistAddextent_spec
    (hn : Fits elist.index ⟨first, last⟩) :
    ∃ index, extentlistAddextent avl elist first last now =
        (0, ⟨(elist.numHandles + (last + handleLimit - first + 1)) % handleLimit, now, index⟩) ∧
      WellFormed index ∧ ∀ h, tally index.toList h = tally (⟨first, last⟩ :: elist.index.toList) h := by
  obtain ⟨_, _, _, _, _, _, index, hadd, hwf, htally, -⟩ := extentlistAddextent_eq avl hn
  exact ⟨index, hadd, hwf, htally⟩

/-! ## Taking handles out -/

/-- The index has lost one handle. -/
structure Loses (n n' : Index) (handle : Nat) : Prop where
  wellFormed : WellFormed n'
  tally_eq : ∀ h, tally n.toList h = tally n'.toList h + if h = handle then 1 else 0

theorem Loses.pos (hloses : Loses n n' handle) : 0 < tally n.toList handle := by
  rw [hloses.tally_eq, if_pos rfl]
  exact Nat.succ_pos _

theorem Loses.le (hloses : Loses n n' handle) (h : Nat) :
    tally n'.toList h ≤ tally n.toList h := by
  rw [hloses.tally_eq h]
  exact Nat.le_add_right _ _

/-- An extent of the second tree ends where one of the first does, or right before the handle. -/
structure Sheds (n n' : Index) (handle : Nat) : Prop extends Loses n n' handle where
  ends : ∀ x ∈ n'.toList, x.last + 1 = handle ∨ ∃ y ∈ n.toList, x.last = y.last

theorem tally_one : tally [⟨a, a⟩] h = if h = a then 1 else 0 := by
  simp only [tally_singleton, contains_iff]
  split_ifs <;> omega

theorem tally_around (hpos : 0 < handle) (ha : a ≤ handle) (hb : handle ≤ b) :
    tally [⟨a, b⟩] h = tally [⟨a, handle - 1⟩] h + (if h = handle then 1 else 0) +
      tally [⟨handle + 1, b⟩] h := by
  simp only [tally_singleton, contains_iff]
  split_ifs <;> omega

theorem tally_of_lt (hlt : b < a) : tally [⟨a, b⟩] h = 0 := by
  rw [tally_singleton, if_neg]
  rw [contains_iff]
  dsimp only
  omega

theorem Sheds.of_pieces (ps : List Extent) (hn : WellFormed n)
    (hperm : (⟨a, b⟩ :: es).Perm n.toList) (hsorted : n'.Sorted Extent.first)
    (hperm' : n'.toList.Perm (ps ++ es))
    (hps : ∀ p ∈ ps, p.Valid ∧ (p.last + 1 = handle ∨ p.last = b))
    (hpieces : ∀ h, tally [⟨a, b⟩] h = tally ps h + if h = handle then 1 else 0) :
    Sheds n n' handle := by
  have htally : ∀ h, tally n.toList h = tally n'.toList h + if h = handle then 1 else 0 := by
    intro h
    rw [← tally_perm hperm, tally_cons, hpieces, tally_perm hperm', tally_append]
    omega
  have hmem : ∀ x ∈ n'.toList, x ∈ ps ∨ x ∈ n.toList := fun x hx =>
    (mem_append.mp (hperm'.mem_iff.mp hx)).imp_right fun hx =>
      hperm.mem_iff.mp (mem_cons_of_mem _ hx)
  refine ⟨⟨⟨hsorted, fun x hx => ?_, fun h => ?_⟩, htally⟩, fun x hx => ?_⟩
  · obtain hx | hx := hmem x hx
    · exact (hps x hx).1
    · exact hn.valid x hx
  · have honce := hn.once h
    rw [htally] at honce
    exact Nat.le_of_add_right_le honce
  · obtain hx | hx := hmem x hx
    · exact (hps x hx).2.imp_right fun hb => ⟨_, hperm.mem_iff.mp mem_cons_self, hb⟩
    · exact .inr ⟨x, hx, rfl⟩

theorem extentlistGetAndDecExtent_spec (hn : WellFormed elist.index) :
    (elist.index = .nil ∧ extentlistGetAndDecExtent avl elist = (none, elist)) ∨
      ∃ ext elist', avlgethighest elist.index = some ext ∧
        extentlistGetAndDecExtent avl elist = (some ext.last, elist') ∧
        Sheds elist.index elist'.index ext.last ∧
        elist'.numHandles = if ext.first = ext.last then elist.numHandles
          else (elist.numHandles + (handleLimit - 1)) % handleLimit := by
  unfold extentlistGetAndDecExtent
  cases hhigh : avlgethighest elist.index with
  | none => exact .inl ⟨highest_eq_none hhigh, rfl⟩
  | some ext =>
    obtain ⟨init, hlist, hmap, -⟩ := highest_spec hhigh
    have hmem : ext ∈ elist.index.toList := by simp [hlist]
    have hext := hn.valid ext hmem
    dsimp only
    split
    · rename_i hone
      obtain ⟨n', hrem, hfits, hperm⟩ : ∃ n', avl.remove elist.index ext.first = some n' ∧ _ :=
        hn.remove avl hmem
      rw [hrem]
      refine .inr ⟨ext, _, rfl, rfl, ?_, (if_pos hone).symm⟩
      refine Sheds.of_pieces [] hn hperm hfits.sorted (.refl _) (by simp) fun h => ?_
      rw [hone, tally_one, tally_nil, Nat.zero_add]
    · rename_i hmore
      have hlt : ext.first < ext.last := Nat.lt_of_le_of_ne hext.2.1 hmore
      refine .inr ⟨ext, _, rfl, rfl, ?_, (if_neg hmore).symm⟩
      have hperm : (ext :: init).Perm elist.index.toList := by
        rw [hlist]
        exact (perm_append_singleton ext init).symm
      refine Sheds.of_pieces [{ ext with last := ext.last - 1 }] hn hperm ?_ ?_ ?_ fun h => ?_
      · -- the keys are the same as before
        have hsorted := hn.sorted
        rw [Lib.Tree.Sorted, hlist] at hsorted
        rw [Lib.Tree.Sorted, hmap]
        obtain ⟨hinit, -, hlast⟩ := pairwise_append.mp hsorted
        refine pairwise_append.mpr ⟨hinit, pairwise_singleton _ _, fun a ha b hb => ?_⟩
        rw [mem_singleton.mp hb]
        exact hlast a ha ext (mem_singleton_self _)
      · rw [hmap]
        exact perm_append_singleton _ init
      · intro p hp
        rw [mem_singleton.mp hp]
        exact ⟨⟨hext.1, Nat.le_sub_one_of_lt hlt, Nat.lt_of_le_of_lt (Nat.sub_le _ _) hext.2.2⟩,
          .inl (Nat.sub_one_add_one (by omega))⟩
      · rw [tally_around (by omega) hext.2.1 le_rfl, tally_of_lt (Nat.lt_succ_self _), Nat.add_zero]

theorem avltreeExtentSearch_of_mem (hn : WellFormed n) (he : e ∈ n.toList)
    (hc : e.contains h = true) : avltreeExtentSearch n h = some e := by
  obtain ⟨hfirst, hlast⟩ := contains_iff.mp hc
  refine search_of_mem hn.apart (fun x hx => ?_) (fun x hx => ?_) ?_ he
  · rw [if_neg (by omega), if_pos (by omega)]
  · rw [if_pos (by omega)]
  · rw [if_neg (by omega), if_neg (by omega)]

theorem of_avltreeExtentSearch (hs : avltreeExtentSearch n h = some e) :
    e ∈ n.toList ∧ e.first ≤ h ∧ h ≤ e.last := by
  obtain ⟨hmem, hdir⟩ := of_search hs
  refine ⟨hmem, ?_⟩
  split_ifs at hdir
  omega

theorem WellFormed.insertPiece (hn : WellFormed n) (hx : x.Valid)
    (honce : ∀ h, tally [x] h + tally n.toList h ≤ 1) :
    WellFormed ((avl.insert n x).getD n) ∧
      ((avl.insert n x).getD n).toList.Perm (x :: n.toList) := by
  obtain ⟨n', hins, hwf, hperm⟩ : ∃ n', avl.insert n x = some n' ∧ _ := (hn.fits hx honce).insert avl
  rw [hins, Option.getD_some]
  exact ⟨hwf, hperm⟩

/-- One handle is taken out, and extents are split for it. -/
theorem extentlistHandleRemove_spec (handle : Nat) (hn : WellFormed elist.index) :
    (tally elist.index.toList handle = 0 ∧
      extentlistHandleRemove avl elist handle = some (-1, elist)) ∨
    ∃ elist', extentlistHandleRemove avl elist handle = some (0, elist') ∧
      Sheds elist.index elist'.index handle ∧ elist'.numHandles = elist.numHandles := by
  unfold extentlistHandleRemove
  cases hs : avltreeExtentSearch elist.index handle with
  | none =>
    refine .inl ⟨countP_eq_zero.mpr fun e he hc => ?_, rfl⟩
    rw [avltreeExtentSearch_of_mem hn he hc] at hs
    cases hs
  | some e =>
    obtain ⟨key, last⟩ := e
    obtain ⟨hmem, hkey, hlast⟩ := of_avltreeExtentSearch hs
    have hvalid := hn.valid _ hmem
    dsimp only [Extent.Valid] at hkey hlast hvalid
    obtain ⟨n', hrem, hfits, hperm⟩ : ∃ n', avl.remove elist.index key = some n' ∧ _ :=
      hn.remove avl hmem
    have haround : ∀ h, tally [⟨key, last⟩] h = _ := fun h => tally_around (by omega) hkey hlast
    -- what is left of the extent still fits
    have honce : ∀ h, tally [⟨key, handle - 1⟩] h + tally [⟨handle + 1, last⟩] h +
        tally n'.toList h ≤ 1 := by
      intro h
      have honce := hfits.once h
      rw [tally_cons, haround] at honce
      omega
    have hv1 : key ≠ handle → Extent.Valid ⟨key, handle - 1⟩ := fun hne =>
      ⟨hvalid.1, by dsimp only; omega, by dsimp only; omega⟩
    have hv2 : last ≠ handle → Extent.Valid ⟨handle + 1, last⟩ := fun hne =>
      ⟨Nat.succ_pos _, by dsimp only; omega, hvalid.2.2⟩
    have hbefore : handle - 1 + 1 = handle := Nat.sub_one_add_one (by omega)
    refine .inr ?_
    simp only [hrem, Option.map_some]
    split_ifs with hone hfirst hend
    · refine ⟨_, rfl, .of_pieces [] hn hperm hfits.sorted (.refl _) (by simp) fun h => ?_, rfl⟩
      rw [haround, tally_of_lt (by omega), tally_of_lt (by omega), tally_nil, Nat.add_zero]
    · obtain rfl := hfirst
      have hv := hv2 (Ne.symm hone)
      obtain ⟨hwf, hperm'⟩ := hfits.wellFormed.insertPiece avl hv fun h =>
        (Nat.add_le_add_right (Nat.le_add_left _ _) _).trans (honce h)
      refine ⟨_, rfl, .of_pieces [_] hn hperm hwf.sorted hperm' (by simp [hv]) fun h => ?_, rfl⟩
      rw [haround, tally_of_lt (by omega), Nat.zero_add, Nat.add_comm]
    · obtain rfl := hend
      have hv := hv1 hfirst
      obtain ⟨hwf, hperm'⟩ := hfits.wellFormed.insertPiece avl hv fun h =>
        (Nat.add_le_add_right (Nat.le_add_right _ _) _).trans (honce h)
      refine ⟨_, rfl, .of_pieces [_] hn hperm hwf.sorted hperm' (by simp [hv, hbefore])
        fun h => ?_, rfl⟩
      rw [haround, tally_of_lt (Nat.lt_succ_self _), Nat.add_zero]
    · have hv1 := hv1 hfirst
      have hv2 := hv2 (Ne.intro hend)
      obtain ⟨hwf1, hperm1⟩ := hfits.wellFormed.insertPiece avl hv1 fun h =>
        (Nat.add_le_add_right (Nat.le_add_right _ _) _).trans (honce h)
      obtain ⟨hwf, hperm2⟩ := hwf1.insertPiece avl hv2 fun h => by
        have honce := honce h
        have hcons : tally (⟨key, handle - 1⟩ :: n'.toList) h = _ := tally_cons
        rw [tally_perm hperm1, hcons]
        omega
      refine ⟨_, rfl, .of_pieces [⟨handle + 1, last⟩, ⟨key, handle - 1⟩] hn hperm hwf.sorted
        (hperm2.trans (hperm1.cons _)) (by simp [hv1, hv2, hbefore]) fun h => ?_, rfl⟩
      have hcons : tally [⟨handle + 1, last⟩, ⟨key, handle - 1⟩] h = _ := tally_cons
      rw [haround, hcons]
      omega

theorem avltreeExtentSearchInRange_spec {req : Extent} (hreq : req.first ≤ req.last)
    (hn : n.toList.Pairwise fun a b => a.first ≤ a.last ∧ a.last < b.first ∧ b.first ≤ b.last)
    (hvalid : ∀ e ∈ n.toList, e.first ≤ e.last) :
    (∃ e ∈ n.toList, e.contains (avltreeExtentSearchInRange n req) = true ∧
        req.contains (avltreeExtentSearchInRange n req) = true) ∨
      (avltreeExtentSearchInRange n req = 0 ∧
        ∀ e ∈ n.toList, e.last < req.first ∨ req.last < e.first) := by
  simp only [contains_iff]
  induction n with
  | nil => exact .inr ⟨rfl, by simp⟩
  | node left d right ihl ihr =>
    obtain ⟨hl, hr, hlr⟩ := pairwise_append.mp hn
    obtain ⟨hdr, hr⟩ := pairwise_cons.mp hr
    simp only [toList_node, mem_append, mem_cons] at hvalid ⊢
    have hd := hvalid d (.inr (.inl rfl))
    -- a range that has none of the handles of `d` lies on one side of it
    have hbefore : req.last < d.first → ∀ e, e = d ∨ e ∈ right.toList → req.last < e.first := by
      rintro hlt e (rfl | he)
      · exact hlt
      · have := hdr e he
        omega
    have hafter : d.last < req.first → ∀ e, e ∈ left.toList ∨ e = d → e.last < req.first := by
      rintro hlt e (he | rfl)
      · have := hlr e he d mem_cons_self
        omega
      · exact hlt
    generalize hx : avltreeExtentSearchInRange (.node left d right) req = x
    rw [avltreeExtentSearchInRange] at hx
    split_ifs at hx with h1 h2 h3 h4 h5 h6 hleft hright
    case pos | pos | pos | pos | pos | pos => exact .inl ⟨d, .inr (.inl rfl), by omega⟩
    all_goals subst hx
    · obtain ⟨e, he, hr⟩ | ⟨hzero, hnone⟩ := ihl hl fun e he => hvalid e (.inl he)
      · exact .inl ⟨e, .inl he, hr⟩
      · exact .inr ⟨hzero, fun e he => he.elim (hnone e) fun he => .inr (hbefore hleft.2 e he)⟩
    · obtain ⟨e, he, hr⟩ | ⟨hzero, hnone⟩ := ihr hr fun e he => hvalid e (.inr (.inr he))
      · exact .inl ⟨e, .inr (.inr he), hr⟩
      · exact .inr ⟨hzero, fun e he =>
          (or_assoc.mpr he).elim (fun he => .inl (hafter hright.2 e he)) (hnone e)⟩
    · refine .inr ⟨rfl, fun e he => ?_⟩
      rcases Nat.lt_or_ge req.last d.first with hlt | hge
      · obtain rfl : left = .nil := by
          by_contra hne
          exact hleft ⟨hne, hlt⟩
        exact .inr (hbefore hlt e (he.resolve_left not_mem_nil))
      · have hgt : d.last < req.first := by omega
        obtain rfl : right = .nil := by
          by_contra hne
          exact hright ⟨hne, hgt⟩
        exact .inl (hafter hgt e (he.imp_right fun he => he.resolve_right not_mem_nil))

theorem extentlistGetFromExtent_spec (extent : Extent) (hn : WellFormed elist.index) :
    (extentlistGetFromExtent avl elist extent = some (none, elist) ∧
      tally elist.index.toList (avltreeExtentSearchInRange elist.index extent) = 0) ∨
    ∃ handle elist', extentlistGetFromExtent avl elist extent = some (some handle, elist') ∧
      Sheds elist.index elist'.index handle ∧ elist'.numHandles = elist.numHandles ∧
      avltreeExtentSearchInRange elist.index extent = handle := by
  unfold extentlistGetFromExtent
  dsimp only
  split
  · rename_i hzero
    refine .inl ⟨rfl, countP_eq_zero.mpr fun e he hc => ?_⟩
    rw [hzero, contains_iff] at hc
    exact Nat.not_succ_le_zero 0 ((hn.valid e he).1.trans hc.1)
  · obtain ⟨hno, hrem⟩ | ⟨elist', hrem, hsheds, hcount⟩ := extentlistHandleRemove_spec avl _ hn
    · exact .inl ⟨by rw [hrem]; rfl, hno⟩
    · exact .inr ⟨_, elist', by rw [hrem]; rfl, hsheds, hcount, rfl⟩

theorem extentlistGetFromExtent_complete {extent : Extent} (hreq : extent.first ≤ extent.last)
    (hn : WellFormed elist.index) :
    (extentlistGetFromExtent avl elist extent = some (none, elist) ∧
        ∀ h, 0 < tally elist.index.toList h → extent.contains h = false) ∨
      ∃ handle elist', extentlistGetFromExtent avl elist extent = some (some handle, elist') ∧
        0 < tally elist.index.toList handle ∧ extent.contains handle = true := by
  unfold extentlistGetFromExtent
  dsimp only
  obtain ⟨e, he, hc, hreq⟩ | ⟨hzero, hnone⟩ :=
    avltreeExtentSearchInRange_spec hreq hn.apart fun e he => (hn.valid e he).2.1
  · generalize avltreeExtentSearchInRange elist.index extent = handle at hc hreq
    have hpos := (hn.valid e he).1.trans (contains_iff.mp hc).1
    obtain ⟨hno, -⟩ | ⟨elist', hrem, -⟩ := extentlistHandleRemove_spec avl handle hn
    · exact absurd (tally_pos he hc) (Nat.not_lt.mpr hno.le)
    · refine .inr ⟨handle, elist', ?_, tally_pos he hc, hreq⟩
      rw [if_neg (Nat.ne_of_gt hpos), hrem]
      rfl
  · refine .inl ⟨if_pos hzero, fun h hpos => ?_⟩
    obtain ⟨e, he, hc⟩ := countP_pos_iff.mp hpos
    have hside := hnone e he
    rw [contains_iff] at hc
    rw [Bool.eq_false_iff, ne_eq, contains_iff]
    omega

/-! ### Ranges that are given the wrong way round -/

/-- The extent that the search for such a range comes to: the first one on the way down with a handle
between the ends. -/
def metBackwards (n : Index) (req : Extent) : Option Extent :=
  n.search fun x => if x.first > req.first then .lt else if x.last < req.last then .gt else .eq

/-- The end of the range that it then answers with. -/
def Extent.endAt (req x : Extent) : Nat :=
  if req.first = x.first ∨ req.first = x.last then req.first else req.last

theorem avltreeExtentSearchInRange_backwards {req : Extent} (hreq : req.last < req.first)
    (hvalid : ∀ e ∈ n.toList, e.first ≤ e.last) :
    avltreeExtentSearchInRange n req = ((metBackwards n req).map req.endAt).getD 0 := by
  induction n with
  | nil => rfl
  | node left d right ihl ihr =>
    simp only [toList_node, mem_append, mem_cons] at hvalid
    have hd := hvalid d (.inr (.inl rfl))
    rw [metBackwards] at ihl ihr
    rw [avltreeExtentSearchInRange, metBackwards, search]
    rcases Nat.lt_or_ge req.first d.first with hlt | hge
    · rw [if_pos hlt, if_neg (by omega), if_neg (by omega), if_neg (by omega), if_neg (by omega),
        if_neg (by omega), if_neg (by omega)]
      dsimp only
      rw [← ihl fun e he => hvalid e (.inl he)]
      split_ifs with hleft hright
      · rfl
      · omega
      · obtain rfl : left = .nil := by
          by_contra hne
          exact hleft ⟨hne, by omega⟩
        rfl
    rw [if_neg (by omega : ¬ d.first > req.first)]
    rcases Nat.lt_or_ge d.last req.last with hlt | hge'
    · rw [if_pos hlt, if_neg (by omega), if_neg (by omega), if_neg (by omega), if_neg (by omega),
        if_neg (by omega), if_neg (by omega), if_neg (by omega)]
      dsimp only
      rw [← ihr fun e he => hvalid e (.inr (.inr he))]
      split_ifs with hright
      · rfl
      · obtain rfl : right = .nil := by
          by_contra hne
          exact hright ⟨hne, by omega⟩
        rfl
    · rw [if_neg (by omega : ¬ d.last < req.last)]
      dsimp only [Option.map_some, Option.getD_some, Extent.endAt]
      by_cases hfirst : req.first = d.first ∨ req.first = d.last
      · rw [if_pos hfirst, if_pos hfirst]
      · rw [if_neg hfirst, if_neg hfirst]
        split_ifs with hlast <;> first | rfl | omega

/-- The handles that a range may be answered with. -/
def Extent.Yields (req : Extent) (n : Index) (h : Nat) : Prop :=
  0 < tally n.toList h ∧
    if req.first ≤ req.last then req.contains h = true
    else ∃ x ∈ metBackwards n req, h = req.endAt x

theorem extentlistGetFromExtent_yields (extent : Extent) (hn : WellFormed elist.index) :
    (extentlistGetFromExtent avl elist extent = some (none, elist) ∧
        ∀ h, ¬ extent.Yields elist.index h) ∨
      ∃ handle elist', extentlistGetFromExtent avl elist extent = some (some handle, elist') ∧
        extent.Yields elist.index handle := by
  unfold Extent.Yields
  by_cases hreq : extent.first ≤ extent.last
  · simp only [if_pos hreq]
    refine (extentlistGetFromExtent_complete avl hreq hn).imp_left fun ⟨hnone, hno⟩ => ⟨hnone, ?_⟩
    rintro h ⟨hpos, hc⟩
    rw [hno h hpos] at hc
    cases hc
  · simp only [if_neg hreq]
    have hmet := avltreeExtentSearchInRange_backwards (Nat.not_le.mp hreq)
      fun e he => (hn.valid e he).2.1
    obtain ⟨hnone, hzero⟩ | ⟨handle, elist', hsome, hsheds, -, hfound⟩ :=
      extentlistGetFromExtent_spec avl extent hn
    · refine .inl ⟨hnone, ?_⟩
      rintro h ⟨hpos, x, hx, rfl⟩
      rw [hmet, Option.mem_def.mp hx] at hzero
      exact absurd hzero hpos.ne'
    · have hpos := hsheds.pos
      refine .inr ⟨handle, elist', hsome, hpos, ?_⟩
      rw [hmet] at hfound
      cases hx : metBackwards elist.index extent with
      | some x =>
        rw [hx] at hfound
        exact ⟨x, rfl, hfound.symm⟩
      | none =>
        -- no extent has the handle 0
        rw [hx] at hfound
        obtain ⟨e, he, hc⟩ := countP_pos_iff.mp hpos
        rw [contains_iff, ← hfound] at hc
        exact absurd ((hn.valid e he).1.trans hc.1) (Nat.not_succ_le_zero 0)

/-! ## Merging -/

structure FitsAll (n : Index) (m : Index) : Prop where
  wellFormed : WellFormed n
  source : WellFormed m
  once : ∀ h, tally n.toList h + tally m.toList h ≤ 1

def Adds (I : Extentlist → Prop) : Prop :=
  ∀ (elist : Extentlist) (e : Extent) (now : Timeval), Fits elist.index e → I elist →
    I (extentlistAddextent avl elist e.first e.last now).2

theorem extentlistMergeLoop_spec (clock : Nat → Timeval) {m : Index} {dest : Extentlist}
    (fuel i : Nat) (hm : FitsAll dest.index m) (hfuel : m.toList.length = fuel) :
    ∃ dest', extentlistMergeLoop avl clock fuel i m dest = some (i + fuel, dest') ∧
      WellFormed dest'.index ∧
      (∀ h, tally dest'.index.toList h = tally dest.index.toList h + tally m.toList h) ∧
      ∀ I, Adds avl I → I dest → I dest' := by
  -- by induction on the number of extents left in the source
  induction fuel generalizing i m dest with
  | zero =>
    obtain rfl := eq_nil_of_toList (length_eq_zero_iff.mp hfuel)
    exact ⟨dest, rfl, hm.wellFormed, fun h => rfl, fun I _ h => h⟩
  | succ fuel ih =>
    cases m with
    | nil => cases hfuel
    | node left d right =>
      have hmem : d ∈ (node left d right).toList := by simp
      obtain ⟨m', hrem, hfits, hperm⟩ :
          ∃ m', avl.remove (.node left d right) d.first = some m' ∧ _ := hm.source.remove avl hmem
      have htally : ∀ h, tally (node left d right).toList h = tally [d] h + tally m'.toList h :=
        fun h => by rw [← tally_perm hperm, tally_cons]
      have hadd : Fits dest.index ⟨d.first, d.last⟩ := by
        refine hm.wellFormed.fits (hm.source.valid d hmem) fun h => ?_
        have honce := hm.once h
        rw [htally] at honce
        exact (by omega : tally [d] h + tally dest.index.toList h ≤ 1)
      obtain ⟨index, hdest, hwf, hcount⟩ : ∃ index, extentlistAddextent avl dest d.first d.last
          (clock i) = (0, ⟨_, clock i, index⟩) ∧ _ := extentlistAddextent_spec avl hadd
      have hcount' : ∀ h, tally index.toList h = tally [d] h + tally dest.index.toList h :=
        fun h => by rw [hcount, tally_cons]
      have hnext : FitsAll (extentlistAddextent avl dest d.first d.last (clock i)).2.index m' := by
        rw [hdest]
        refine ⟨hwf, hfits.wellFormed, fun h => ?_⟩
        have honce := hm.once h
        rw [htally] at honce
        rw [hcount']
        omega
      have hlen : m'.toList.length = fuel := by
        have hlen := hperm.length_eq
        rw [length_cons] at hlen
        omega
      obtain ⟨dest', hloop, hwf', hcount'', hkeeps⟩ := ih (i + 1) hnext hlen
      refine ⟨dest', ?_, hwf', fun h => ?_, fun I hI h => hkeeps I hI (hI dest d _ hadd h)⟩
      · rw [extentlistMergeLoop, hrem]
        dsimp only
        rw [hloop, Nat.add_assoc, Nat.add_comm 1]
      · rw [hcount'', hdest, hcount', htally]
        omega

/-- All extents of the source are added. -/
theorem extentlistMerge_spec (clock : Nat → Timeval) {dest src : Extentlist}
    (hm : FitsAll dest.index src.index) :
    ∃ dest', extentlistMerge avl dest src clock = some (src.index.toList.length, dest') ∧
      WellFormed dest'.index ∧
      (∀ h, tally dest'.index.toList h = tally dest.index.toList h + tally src.index.toList h) ∧
      ∀ I, Adds avl I → I dest → I dest' := by
  have hloop := extentlistMergeLoop_spec avl clock _ 0 hm rfl
  rwa [Nat.zero_add] at hloop

end Pvfs.Trove
