import Mathlib.Data.List.Nodup
import Mathlib.Data.List.Perm.Subperm
import Pvfs.Description.Graph

/-! # Packing a request

`PINT_request_commit` copies all records of a request into one region, one after the other.
It follows the links; `committed` tells it where in the region a record has gone, so that a
record that is reached again is not copied again. As 0 also means that a record has not been
copied, the first record of the region would be copied once more if it were reached again,
but nothing a request consists of leads back to the request itself. -/

namespace Pvfs.Description

open Lib List Function

/-- The records in memory, the region they are copied into and its first free place. The region
holds whatever was there before. -/
structure Packing where
  mem : Nat → Record
  region : Nat → Record
  index : Nat

namespace Packing

/-- `node->committed = c`. -/
def mark (s : Packing) (a : Nat) (c : Int) : Packing :=
  { s with mem := update s.mem a { s.mem a with committed := c } }

/-- A record is copied to the next place of the region and marked with it. -/
def store (s : Packing) (a : Nat) : Packing :=
  { s.mark a s.index with
    region := update s.region s.index (s.mem a), index := s.index + 1 }

/-- `region[node->committed].ereq = e`. -/
def linkEreq (s : Packing) (a : Nat) (e : Option Nat) : Packing :=
  let i := (s.mem a).committed.toNat
  { s with region := update s.region i { s.region i with ereq := e } }

/-- `region[node->committed].sreq = e`. -/
def linkSreq (s : Packing) (a : Nat) (e : Option Nat) : Packing :=
  let i := (s.mem a).committed.toNat
  { s with region := update s.region i { s.region i with sreq := e } }

end Packing

/-- `PINT_do_clear_commit`; it is not called with `NULL`. `fuel` bounds how deep the recursion
goes. -/
def doClearCommit : Nat → Nat → Option Nat → (Nat → Record) → Option (Nat → Record)
  | _, _, none, mem => some mem
  | 0, _, some _, _ => none
  | fuel + 1, depth, some a, mem =>
    if (mem a).committed = 0 ∧ 0 < depth then some mem
    else
      let mem := update mem a { mem a with committed := 0 }
      (doClearCommit fuel (depth + 1) (mem a).ereq mem).bind fun mem =>
        doClearCommit fuel (depth + 1) (mem a).sreq mem

/-- `PINT_do_request_commit`, with the place of the record in the region. -/
def doRequestCommit : Nat → Nat → Option Nat → Packing → Option (Option Nat × Packing)
  | _, _, none, s => some (none, s)
  | 0, _, some _, _ => none
  | fuel + 1, depth, some a, s =>
    -- catches any previously packed structures
    let wasCommitted := (s.mem a).committed = -1
    let s := if wasCommitted then s.mark a 0 else s
    if (s.mem a).committed ≠ 0 then some (some (s.mem a).committed.toNat, s)
    else
      (doRequestCommit fuel (depth + 1) (s.mem a).ereq (s.store a)).bind fun (e, s) =>
        (doRequestCommit fuel (depth + 1) (s.mem a).sreq (s.linkEreq a e)).bind fun (q, s) =>
          let s := s.linkSreq a q
          if depth = 0 then
            (doClearCommit (fuel + 1) 0 (some a) s.mem).map fun mem =>
              -- the region is packed, and so is what was packed before
              let region := update s.region 0 { s.region 0 with committed := -1 }
              let s : Packing := { s with mem := mem, region := region }
              (some 0, if wasCommitted then s.mark a (-1) else s)
          else some (some (s.mem a).committed.toNat, s)

/-- `PINT_request_commit`. -/
def requestCommit (fuel : Nat) (mem region : Nat → Record) (a : Nat) : Option Packing :=
  (doRequestCommit fuel 0 (some a) ⟨mem, region, 0⟩).map Prod.snd

/-! ## What holds while a request is packed -/

/-- The records differ from what they were in their marks alone. -/
def OnlyMarks (mem₀ mem : Nat → Record) : Prop :=
  ∀ x, mem x = { mem₀ x with committed := (mem x).committed }

/-- The records in `seen` have been copied, in this order. `seen` starts with the request
itself, `root`. -/
structure Packing.Holds (mem₀ : Nat → Record) (root : Nat) (seen : List Nat) (s : Packing) :
    Prop where
  same : OnlyMarks mem₀ s.mem
  marked : ∀ x ∈ seen, (s.mem x).committed = seen.idxOf x
  fresh : ∀ x, (graph mem₀).Reach root x → x ∉ seen →
    (s.mem x).committed = 0 ∨ (s.mem x).committed = -1
  untouched : ∀ x, ¬ (graph mem₀).Reach root x → (s.mem x).committed = (mem₀ x).committed
  nodup : seen.Nodup
  index : s.index = seen.length
  copied : ∀ x ∈ seen, ∃ e q, s.region (seen.idxOf x) =
    { mem₀ x with committed := 0, ereq := e, sreq := q }

/-- The links of the copy of `x` have been set. -/
structure Packing.Complete (mem₀ : Nat → Record) (seen : List Nat) (region : Nat → Record)
    (x : Nat) : Prop where
  inside : ∀ y, (graph mem₀).Edge x y → y ∈ seen
  ereq : (region (seen.idxOf x)).ereq = (mem₀ x).ereq.map fun y => seen.idxOf y
  sreq : (region (seen.idxOf x)).sreq = (mem₀ x).sreq.map fun y => seen.idxOf y

/-- A call has copied the records `new`, all of them with their links, and has touched no other
place of the region. -/
structure Packing.Extends (mem₀ : Nat → Record) (root : Nat) (seen new : List Nat)
    (s s' : Packing) : Prop where
  holds : s'.Holds mem₀ root (seen ++ new)
  complete : ∀ x ∈ new, Complete mem₀ (seen ++ new) s'.region x
  kept : ∀ i, i < seen.length ∨ (seen ++ new).length ≤ i → s'.region i = s.region i

variable {x : Nat}

theorem OnlyMarks.mark {mem₀ mem : Nat → Record} (h : OnlyMarks mem₀ mem) (a : Nat) (c : Int) :
    OnlyMarks mem₀ (update mem a { mem a with committed := c }) := by
  intro x
  by_cases hx : x = a
  · rw [hx, update_self, h a]
  · rw [update_of_ne hx]
    exact h x

namespace Packing

variable {mem₀ : Nat → Record} {root a : Nat} {seen new : List Nat} {s s' : Packing}

theorem map_idxOf_append {o : Option Nat} (ho : ∀ y ∈ o, y ∈ seen) (new : List Nat) :
    o.map (fun y => (seen ++ new).idxOf y) = o.map fun y => seen.idxOf y := by
  cases o with
  | none => rfl
  | some y => rw [Option.map_some, Option.map_some, idxOf_append_of_mem (ho y rfl)]

theorem Complete.mono {region region' : Nat → Record} (hc : Complete mem₀ seen region x)
    (hx : x ∈ seen) (new : List Nat) (hkept : region' (seen.idxOf x) = region (seen.idxOf x)) :
    Complete mem₀ (seen ++ new) region' x where
  inside y hy := mem_append_left _ (hc.inside y hy)
  ereq := by
    have hin : ∀ y ∈ (mem₀ x).ereq, y ∈ seen := fun y hy => hc.inside y (.inl hy)
    rw [idxOf_append_of_mem hx, hkept, hc.ereq, map_idxOf_append hin]
  sreq := by
    have hin : ∀ y ∈ (mem₀ x).sreq, y ∈ seen := fun y hy => hc.inside y (.inr hy)
    rw [idxOf_append_of_mem hx, hkept, hc.sreq, map_idxOf_append hin]

theorem Holds.link (hs : s.Holds mem₀ root seen) (i : Nat) (e q : Option Nat) :
    Holds mem₀ root seen
      { s with region := update s.region i { s.region i with ereq := e, sreq := q } } :=
  { hs with
    copied := by
      intro x hx
      obtain ⟨e', q', h⟩ := hs.copied x hx
      dsimp only
      by_cases hi : seen.idxOf x = i
      · rw [hi, update_self, ← hi, h]
        exact ⟨e, q, rfl⟩
      · rw [update_of_ne hi]
        exact ⟨e', q', h⟩ }

@[simp] theorem mark_mem_self (s : Packing) (a : Nat) (c : Int) :
    (s.mark a c).mem a = { s.mem a with committed := c } := update_self ..

theorem mark_mem_of_ne (s : Packing) (c : Int) (hx : x ≠ a) :
    (s.mark a c).mem x = s.mem x := update_of_ne hx ..

theorem Holds.mark_zero (hs : s.Holds mem₀ root seen) (ha : a ∉ seen)
    (hreach : (graph mem₀).Reach root a) : (s.mark a 0).Holds mem₀ root seen where
  same := hs.same.mark a 0
  marked x hx := by
    rw [mark_mem_of_ne s 0 (ne_of_mem_of_not_mem hx ha)]
    exact hs.marked x hx
  fresh x hr hx := by
    by_cases hxa : x = a
    · rw [hxa, mark_mem_self]
      exact .inl rfl
    · rw [mark_mem_of_ne s 0 hxa]
      exact hs.fresh x hr hx
  untouched x hx := by
    have hxa : x ≠ a := by
      rintro rfl
      exact hx hreach
    rw [mark_mem_of_ne s 0 hxa]
    exact hs.untouched x hx
  nodup := hs.nodup
  index := hs.index
  copied := hs.copied

theorem idxOf_append_singleton (ha : a ∉ seen) : (seen ++ [a]).idxOf a = seen.length := by
  rw [idxOf_append_of_notMem ha, idxOf_cons_self, Nat.add_zero]

variable (hs : s.Holds mem₀ root seen)
include hs

theorem Holds.store (ha : a ∉ seen) (hreach : (graph mem₀).Reach root a)
    (hzero : (s.mem a).committed = 0) : (s.store a).Holds mem₀ root (seen ++ [a]) where
  same := hs.same.mark a s.index
  marked x hx := by
    show ((s.mark a s.index).mem x).committed = _
    rcases mem_append.mp hx with hx | hx
    · rw [mark_mem_of_ne s _ (ne_of_mem_of_not_mem hx ha), idxOf_append_of_mem hx]
      exact hs.marked x hx
    · cases mem_singleton.mp hx
      rw [mark_mem_self, idxOf_append_singleton ha, hs.index]
  fresh x hr hx := by
    show ((s.mark a s.index).mem x).committed = 0 ∨ ((s.mark a s.index).mem x).committed = -1
    have hxa : x ≠ a := fun h => hx (by simp [h])
    rw [mark_mem_of_ne s _ hxa]
    exact hs.fresh x hr fun h => hx (mem_append_left _ h)
  untouched x hx := by
    show ((s.mark a s.index).mem x).committed = _
    have hxa : x ≠ a := by
      rintro rfl
      exact hx hreach
    rw [mark_mem_of_ne s _ hxa]
    exact hs.untouched x hx
  nodup := by
    rw [nodup_append]
    refine ⟨hs.nodup, nodup_singleton a, fun x hx y hy => ?_⟩
    rw [mem_singleton.mp hy]
    exact ne_of_mem_of_not_mem hx ha
  index := by
    show s.index + 1 = _
    rw [hs.index, length_append, length_singleton]
  copied x hx := by
    show ∃ e q, update s.region s.index (s.mem a) _ = _
    rcases mem_append.mp hx with hx | hx
    · have hne : seen.idxOf x ≠ s.index := by
        rw [hs.index]
        exact Nat.ne_of_lt (idxOf_lt_length_of_mem hx)
      rw [idxOf_append_of_mem hx, update_of_ne hne]
      exact hs.copied x hx
    · cases mem_singleton.mp hx
      rw [idxOf_append_singleton ha, ← hs.index, update_self]
      exact ⟨(mem₀ a).ereq, (mem₀ a).sreq, by rw [hs.same a, hzero]⟩

/-! ## Setting the links of a copy -/

theorem Holds.toNat_committed (ha : a ∈ seen) : (s.mem a).committed.toNat = seen.idxOf a := by
  rw [hs.marked a ha, Int.toNat_natCast]

/-- A link to a record that is packed has become the place of that record. -/
def Placed (seen : List Nat) (link place : Option Nat) : Prop :=
  (∀ y ∈ link, y ∈ seen) ∧ place = link.map fun y => seen.idxOf y

theorem Extends.refl : Extends mem₀ root seen [] s s where
  holds := by rwa [append_nil]
  complete x hx := by cases hx
  kept _ _ := rfl

/-- **One record.**  It is copied, then what it points to, and its links are set in between. -/
theorem Extends.node (ha : a ∉ seen) {new1 new2 : List Nat} {s1 s2 : Packing} {e q : Option Nat}
    (he : Extends mem₀ root (seen ++ [a]) new1 (s.store a) s1)
    (hep : Placed (seen ++ [a] ++ new1) (mem₀ a).ereq e)
    (hq : Extends mem₀ root (seen ++ [a] ++ new1) new2 (s1.linkEreq a e) s2)
    (hqp : Placed (seen ++ [a] ++ new1 ++ new2) (mem₀ a).sreq q) :
    Extends mem₀ root seen (a :: (new1 ++ new2)) s (s2.linkSreq a q) := by
  obtain ⟨hholds1, hcomplete1, hkept1⟩ := he
  obtain ⟨hholds2, hcomplete2, hkept2⟩ := hq
  have hall : seen ++ a :: (new1 ++ new2) = seen ++ [a] ++ new1 ++ new2 := by simp
  generalize h1 : seen ++ [a] ++ new1 = seen1 at *
  generalize h2 : seen1 ++ new2 = seen2 at *
  have ha1 : a ∈ seen1 := by simp [← h1]
  have hi1 : seen1.idxOf a = seen.length := by
    rw [← h1, idxOf_append_of_mem (by simp), idxOf_append_singleton ha]
  have hi2 : seen2.idxOf a = seen.length := by
    rw [← h2, idxOf_append_of_mem ha1, hi1]
  have ha2 : a ∈ seen2 := by simp [← h2, ha1]
  have hlen1 : seen.length < seen1.length := by
    simp only [← h1, length_append, length_singleton]
    omega
  have hsub : ∀ y ∈ seen1, y ∈ seen2 := fun y hy => h2 ▸ mem_append_left _ hy
  have hle : seen1.length ≤ seen2.length := h2 ▸ (sublist_append_left ..).length_le
  have hregion1 : (s1.linkEreq a e).region =
      update s1.region seen.length { s1.region seen.length with ereq := e } := by
    rw [Packing.linkEreq, hholds1.toNat_committed ha1, hi1]
  have hregion2 : (s2.linkSreq a q).region =
      update s2.region seen.length { s2.region seen.length with sreq := q } := by
    rw [Packing.linkSreq, hholds2.toNat_committed ha2, hi2]
  -- the place of any other record is not the place of this one
  have hother : ∀ x ∈ seen2, x ≠ a →
      seen2.idxOf x ≠ seen.length := by
    intro x hx hne h
    rw [← hi2] at h
    exact hne (idxOf_inj hx |>.mp h)
  have hnew : ∀ x ∈ new1 ++ new2, x ≠ a := by
    have hnodup := hholds2.nodup
    rw [← hall] at hnodup
    have := (nodup_append.mp hnodup).2.1
    exact fun x hx => ne_of_mem_of_not_mem hx (nodup_cons.mp this).1
  refine ⟨?_, ?_, ?_⟩
  · rw [hall]
    exact hholds2.link _ _ q
  · rw [hall]
    intro x hx
    rcases mem_cons.mp hx with rfl | hx
    · refine ⟨?_, ?_, ?_⟩
      · rintro y (hy | hy)
        · exact hsub y (hep.1 y hy)
        · exact hqp.1 y hy
      · rw [hi2, hregion2, update_self, hkept2 _ (.inl hlen1), hregion1,
          update_self]
        exact hep.2.trans (h2 ▸ (map_idxOf_append hep.1 new2).symm)
      · rw [hi2, hregion2, update_self]
        exact hqp.2
    · have hxa := hnew x hx
      -- its links were set in one of the two calls
      have hcomplete : Complete mem₀ seen2 s2.region x := by
        rcases mem_append.mp hx with hx1 | hx2
        · have hmem : x ∈ seen1 := h1 ▸ mem_append_right _ hx1
          have hne := hother x (hsub x hmem) hxa
          rw [← h2, idxOf_append_of_mem hmem] at hne
          rw [← h2]
          refine (hcomplete1 x hx1).mono hmem new2 ?_
          rw [hkept2 _ (.inl (idxOf_lt_length_of_mem hmem)), hregion1, update_of_ne hne]
        · exact hcomplete2 x hx2
      have hmem : x ∈ seen2 := by
        rw [← hall]
        exact mem_append_right _ (mem_cons_of_mem _ hx)
      have hkept : (s2.linkSreq a q).region (seen2.idxOf x) = s2.region (seen2.idxOf x) := by
        rw [hregion2, update_of_ne (hother x hmem hxa)]
      simpa using hcomplete.mono hmem [] hkept
  · intro i hi
    rw [hall] at hi
    have hne : i ≠ seen.length := by
      omega
    rw [hregion2, update_of_ne hne]
    have hi' : i < seen1.length ∨ seen2.length ≤ i :=
      hi.imp_left fun h => Nat.lt_trans h hlen1
    rw [hkept2 i hi', hregion1, update_of_ne hne]
    have hi'' : i < (seen ++ [a]).length ∨ seen1.length ≤ i := by
      refine hi.imp (fun h => ?_) fun h => Nat.le_trans hle h
      rw [length_append]
      omega
    rw [hkept1 i hi'']
    exact update_of_ne (by rw [hs.index]; exact hne) ..

end Packing

/-! ## Packing all of a request -/

variable {seen : List Nat} {a : Nat} {s : Packing}

section
open Packing

variable {mem₀ : Nat → Record} {root : Nat}

theorem idxOf_ne_zero (hhead : seen.head? = some root) (ha : a ≠ root) : seen.idxOf a ≠ 0 := by
  cases seen with
  | nil => cases hhead
  | cons x l =>
    cases hhead
    rw [idxOf_cons_ne _ (Ne.symm ha)]
    exact Nat.succ_ne_zero _

theorem Packing.Holds.unmark (hs : s.Holds mem₀ root seen) (ha : a ∉ seen)
    (hreach : (graph mem₀).Reach root a) :
    ∃ s0, (if (s.mem a).committed = -1 then s.mark a 0 else s) = s0 ∧ s0.Holds mem₀ root seen ∧
      (s0.mem a).committed = 0 ∧ s0.region = s.region := by
  rcases hs.fresh a hreach ha with hzero | hpacked
  · exact ⟨s, if_neg (by rw [hzero]; decide), hs, hzero, rfl⟩
  · exact ⟨s.mark a 0, if_pos hpacked, hs.mark_zero ha hreach, by rw [mark_mem_self], rfl⟩

variable {s0 : Packing}

theorem doRequestCommit_node {n depth : Nat}
    (h0 : (if (s.mem a).committed = -1 then s.mark a 0 else s) = s0)
    (hzero : (s0.mem a).committed = 0) :
    doRequestCommit (n + 1) (depth + 1) (some a) s =
      (doRequestCommit n (depth + 2) (s0.mem a).ereq (s0.store a)).bind fun (e, s1) =>
        (doRequestCommit n (depth + 2) (s1.mem a).sreq (s1.linkEreq a e)).bind fun (q, s2) =>
          some (some (s2.mem a).committed.toNat, s2.linkSreq a q) := by
  rw [doRequestCommit]
  simp only [h0, hzero, ne_eq, not_true_eq_false, if_false, Nat.succ_ne_zero]
  rfl

/-- Following a link packs what it leads to. -/
def CommitsLink (mem₀ : Nat → Record) (root n depth : Nat) (seen : List Nat) (link : Option Nat)
    (s : Packing) : Prop :=
  ∃ place s' new, doRequestCommit n depth link s = some (place, s') ∧
    Extends mem₀ root seen new s s' ∧ Placed (seen ++ new) link place ∧
    ∀ x ∈ new, (graph mem₀).Reach root x

/-- Every link to what is at most `n` deep can be followed. -/
def CommitsAll (mem₀ : Nat → Record) (root n : Nat) : Prop :=
  ∀ (depth : Nat) (seen : List Nat) (s : Packing) (link : Option Nat),
    s.Holds mem₀ root seen → seen.head? = some root →
    (∀ a ∈ link, (graph mem₀).Reach root a ∧ a ≠ root ∧ (graph mem₀).Within n a) →
    CommitsLink mem₀ root n (depth + 1) seen link s

theorem CommitsAll.node {n : Nat} (hall : CommitsAll mem₀ root n) (depth : Nat)
    (hs0 : s0.Holds mem₀ root seen) (ha : a ∉ seen) (hreach : (graph mem₀).Reach root a)
    (hzero : (s0.mem a).committed = 0) (hhead : (seen ++ [a]).head? = some root)
    (hchild : ∀ b, (graph mem₀).Edge a b →
      (graph mem₀).Reach root b ∧ b ≠ root ∧ (graph mem₀).Within n b) :
    ∃ e s1 q s2 new,
      doRequestCommit n (depth + 1) (s0.mem a).ereq (s0.store a) = some (e, s1) ∧
      doRequestCommit n (depth + 1) (s1.mem a).sreq (s1.linkEreq a e) = some (q, s2) ∧
      Extends mem₀ root seen (a :: new) s0 (s2.linkSreq a q) ∧
      ∀ x ∈ new, (graph mem₀).Reach root x := by
  have hereq : ∀ s, s.Holds mem₀ root (seen ++ [a]) →
      CommitsLink mem₀ root n (depth + 1) (seen ++ [a]) (mem₀ a).ereq s := fun s hs =>
    hall depth _ s _ hs hhead fun b hb => hchild b (.inl hb)
  obtain ⟨e, s1, new1, hcall1, hext1, hplaced1, hreach1⟩ := hereq _ (hs0.store ha hreach hzero)
  have hhead1 : (seen ++ [a] ++ new1).head? = some root := by
    rw [head?_append, hhead]
    rfl
  have hsreq : ∀ s, s.Holds mem₀ root (seen ++ [a] ++ new1) →
      CommitsLink mem₀ root n (depth + 1) (seen ++ [a] ++ new1) (mem₀ a).sreq s := fun s hs =>
    hall depth _ s _ hs hhead1 fun b hb => hchild b (.inr hb)
  obtain ⟨q, s2, new2, hcall2, hext2, hplaced2, hreach2⟩ := hsreq _ (hext1.holds.link _ e _)
  refine ⟨e, s1, q, s2, new1 ++ new2, ?_, ?_, .node hs0 ha hext1 hplaced1 hext2 hplaced2, ?_⟩
  · rw [hs0.same a]
    exact hcall1
  · rw [hext1.holds.same a]
    exact hcall2
  · intro x hx
    rcases mem_append.mp hx with hx | hx
    · exact hreach1 x hx
    · exact hreach2 x hx

/-- **The recursion.**  For any record of the request but the first, however deep it is called:
the records reached from it that had not been copied are copied, and the result is the place
of the copy. -/
theorem commitsAll (hroot : ∀ x, (graph mem₀).Reach root x → ¬ (graph mem₀).Edge x root) (n : Nat) :
    CommitsAll mem₀ root n := by
  induction n with
  | zero =>
    intro depth seen s link hs _ hlink
    cases link with
    | none => exact ⟨none, s, [], by simp [doRequestCommit], .refl hs, ⟨by simp, rfl⟩, by simp⟩
    | some a => exact absurd (hlink a rfl).2.2 id
  | succ n ih =>
    intro depth seen s link hs hhead hlink
    cases link with
    | none => exact ⟨none, s, [], by simp [doRequestCommit], .refl hs, ⟨by simp, rfl⟩, by simp⟩
    | some a =>
      obtain ⟨hreach, hne, hwithin⟩ := hlink a rfl
      by_cases ha : a ∈ seen
      · -- it has been copied before, and its mark is its place
        have hmark : (s.mem a).committed = seen.idxOf a := hs.marked a ha
        have hpos : seen.idxOf a ≠ 0 := idxOf_ne_zero hhead hne
        refine ⟨some (seen.idxOf a), s, [], ?_, .refl hs, ⟨?_, ?_⟩, by simp⟩
        · have h1 : (s.mem a).committed ≠ -1 := by omega
          have h2 : (s.mem a).committed ≠ 0 := by omega
          rw [doRequestCommit, if_neg h1, if_pos h2, hs.toNat_committed ha]
        · rintro y ⟨⟩
          simpa using ha
        · rw [append_nil]
          rfl
      · obtain ⟨s0, h0, hs0, hzero, hregion⟩ := hs.unmark ha hreach
        have hhead' : (seen ++ [a]).head? = some root := by
          rw [head?_append, hhead]
          rfl
        obtain ⟨e, s1, q, s2, new, hcall1, hcall2, hext, hnew⟩ :=
          ih.node (depth + 1) hs0 ha hreach hzero hhead' fun b hb =>
            ⟨hreach.tail hb, fun h => hroot a hreach (h ▸ hb), hwithin b hb⟩
        have hplace : ((s2.linkSreq a q).mem a).committed.toNat = (seen ++ a :: new).idxOf a :=
          hext.holds.toNat_committed (by simp)
        refine ⟨some ((seen ++ a :: new).idxOf a), s2.linkSreq a q, a :: new, ?_, ?_, ⟨?_, rfl⟩, ?_⟩
        · rw [doRequestCommit_node h0 hzero, hcall1]
          dsimp only [Option.bind_some]
          rw [hcall2, ← hplace]
          rfl
        · exact ⟨hext.holds, hext.complete, fun i hi => by rw [hext.kept i hi, hregion]⟩
        · rintro y ⟨⟩
          simp
        · intro x hx
          rcases mem_cons.mp hx with rfl | hx
          · exact hreach
          · exact hnew x hx

end

/-! ## Taking the marks off again -/

section
variable {mem₀ mem mem₁ mem₂ : Nat → Record}

/-- Marks were taken off, and where one was, all that the record points to is unmarked too. -/
structure Clears (mem₀ mem mem₁ : Nat → Record) : Prop where
  same : OnlyMarks mem₀ mem₁
  kept : ∀ x, (mem₁ x).committed = (mem x).committed ∨ (mem₁ x).committed = 0
  closed : ∀ x y, (mem x).committed ≠ 0 → (mem₁ x).committed = 0 → (graph mem₀).Edge x y →
    (mem₁ y).committed = 0

theorem Clears.zero (hc : Clears mem₀ mem mem₁) (hx : (mem x).committed = 0) :
    (mem₁ x).committed = 0 := by
  rcases hc.kept x with h | h
  · rw [h, hx]
  · exact h

theorem Clears.trans (h1 : Clears mem₀ mem mem₁) (h2 : Clears mem₀ mem₁ mem₂) :
    Clears mem₀ mem mem₂ where
  same := h2.same
  kept x := by
    rcases h2.kept x with h | h
    · rw [h]
      exact h1.kept x
    · exact .inr h
  closed x y hx hx2 hedge := by
    by_cases hx1 : (mem₁ x).committed = 0
    · exact h2.zero (h1.closed x y hx hx1 hedge)
    · exact h2.closed x y hx1 hx2 hedge

/-- Following a link clears the marks that it leads to. -/
def ClearsLink (mem₀ mem : Nat → Record) (n depth : Nat) (link : Option Nat) : Prop :=
  ∃ mem₁, doClearCommit n depth link mem = some mem₁ ∧ Clears mem₀ mem mem₁ ∧
    ∀ a ∈ link, (mem₁ a).committed = 0

theorem clears_node {n : Nat} (depth : Nat) (hsame : OnlyMarks mem₀ mem)
    (hlinks : ∀ link : Option Nat, (∀ b ∈ link, (graph mem₀).Edge a b) → ∀ mem : Nat → Record,
      OnlyMarks mem₀ mem → ClearsLink mem₀ mem n (depth + 1) link)
    (hmark : ¬ ((mem a).committed = 0 ∧ 0 < depth)) :
    ∃ mem₁, doClearCommit (n + 1) depth (some a) mem = some mem₁ ∧ Clears mem₀ mem mem₁ ∧
      (mem₁ a).committed = 0 ∧ ∀ y, (graph mem₀).Edge a y → (mem₁ y).committed = 0 := by
  obtain ⟨mem', hmem'⟩ : ∃ mem', update mem a { mem a with committed := 0 } = mem' := ⟨_, rfl⟩
  have hself : (mem' a).committed = 0 := by
    rw [← hmem', update_self]
  have hother : ∀ x, x ≠ a → mem' x = mem x := fun x hx => by
    rw [← hmem', update_of_ne hx]
  have hsame' : OnlyMarks mem₀ mem' := hmem' ▸ hsame.mark a 0
  obtain ⟨mem₁, hcall1, hc1, hzero1⟩ := hlinks _ (fun _ => .inl) mem' hsame'
  obtain ⟨mem₂, hcall2, hc2, hzero2⟩ := hlinks _ (fun _ => .inr) mem₁ hc1.same
  have hc : Clears mem₀ mem' mem₂ := hc1.trans hc2
  have hchild : ∀ y, (graph mem₀).Edge a y → (mem₂ y).committed = 0 := by
    rintro y (hy | hy)
    · exact hc2.zero (hzero1 y hy)
    · exact hzero2 y hy
  refine ⟨mem₂, ?_, ⟨hc.same, fun x => ?_, fun x y hx hx2 hedge => ?_⟩, hc.zero hself, hchild⟩
  · have he : (mem' a).ereq = (graph mem₀).left a := by rw [hsame' a]; rfl
    have hq : (mem₁ a).sreq = (graph mem₀).right a := by rw [hc1.same a]; rfl
    rw [doClearCommit, if_neg hmark]
    simp only [hmem']
    rw [he, hcall1, Option.bind_some, hq, hcall2]
  · by_cases hxa : x = a
    · exact .inr (hxa ▸ hc.zero hself)
    · rw [← hother x hxa]
      exact hc.kept x
  · by_cases hxa : x = a
    · exact hchild y (hxa ▸ hedge)
    · exact hc.closed x y (by rw [hother x hxa]; exact hx) hx2 hedge

theorem doClearCommit_spec (n : Nat) : ∀ (depth : Nat) (mem : Nat → Record) (link : Option Nat),
    OnlyMarks mem₀ mem →
    (∀ a ∈ link, (graph mem₀).Within n a) → ClearsLink mem₀ mem n (depth + 1) link := by
  have hrefl : ∀ {mem : Nat → Record}, OnlyMarks mem₀ mem →
      Clears mem₀ mem mem := fun hsame => ⟨hsame, fun _ => .inl rfl, fun _ _ hx hx' => absurd hx' hx⟩
  induction n with
  | zero =>
    intro depth mem link hsame hlink
    cases link with
    | none => exact ⟨mem, by simp [doClearCommit], hrefl hsame, by simp⟩
    | some a => exact absurd (hlink a rfl) id
  | succ n ih =>
    intro depth mem link hsame hlink
    cases link with
    | none => exact ⟨mem, by simp [doClearCommit], hrefl hsame, by simp⟩
    | some a =>
      by_cases hmark : (mem a).committed = 0
      · refine ⟨mem, ?_, hrefl hsame, ?_⟩
        · rw [doClearCommit, if_pos ⟨hmark, Nat.succ_pos depth⟩]
        · rintro b ⟨⟩
          exact hmark
      · obtain ⟨mem₁, hcall, hc, hzero, -⟩ := clears_node (depth + 1) hsame
          (fun link hl mem' hsame' => ih (depth + 1) mem' link hsame' fun b hb => hlink a rfl b (hl b hb))
          fun h => hmark h.1
        refine ⟨mem₁, hcall, hc, ?_⟩
        rintro b ⟨⟩
        exact hzero

end

/-! ## The region -/

section
open Packing

variable {mem region : Nat → Record} {a n : Nat}

/-- The request at `a` has been packed: `seen` are its records in the order of their copies. -/
structure Commits (mem region : Nat → Record) (a : Nat) (seen : List Nat) (s : Packing) : Prop where
  nodup : seen.Nodup
  mem_seen : ∀ x, x ∈ seen ↔ (graph mem).Reach a x
  iso : (graph mem).Iso (graph s.region) a 0 fun x => seen.idxOf x
  index : s.index = seen.length
  kept : ∀ i, seen.length ≤ i → s.region i = region i
  packed : (s.region 0).committed = -1
  plain : ∀ x ∈ seen, x ≠ a → (s.region (seen.idxOf x)).committed = 0
  same : OnlyMarks mem s.mem
  restored : ∀ x, (s.mem x).committed = (mem x).committed ∨ (s.mem x).committed = 0
  root : (s.mem a).committed = (mem a).committed

theorem holds_nil (hmarks : ∀ x, (graph mem).Reach a x → (mem x).committed = 0 ∨ (mem x).committed = -1) :
    Packing.Holds mem a [] ⟨mem, region, 0⟩ where
  same _ := rfl
  marked x hx := by cases hx
  fresh x hr _ := hmarks x hr
  untouched _ _ := rfl
  nodup := nodup_nil
  index := rfl
  copied x hx := by cases hx

theorem reach_mem (ha : a ∈ seen) (hcomplete : ∀ x ∈ seen, Complete mem seen s.region x)
    (hx : (graph mem).Reach a x) : x ∈ seen := by
  induction hx with
  | refl => exact ha
  | tail _ hedge ih => exact (hcomplete _ ih).inside _ hedge

theorem iso_of_complete (hs : s.Holds mem a seen) (hhead : seen.head? = some a)
    (hcomplete : ∀ x ∈ seen, Complete mem seen s.region x) :
    (graph mem).Iso (graph s.region) a 0 fun x => seen.idxOf x := by
  have ha : a ∈ seen := mem_of_mem_head? hhead
  refine ⟨?_, fun x hx => ?_, fun x hx => ?_, fun x hx => ?_, fun x y hx _ he => ?_⟩
  · cases seen with
    | nil => cases hhead
    | cons x l =>
      cases hhead
      exact idxOf_cons_self
  · obtain ⟨e, q, hcopy⟩ := hs.copied x (reach_mem ha hcomplete hx)
    simp only [graph, hcopy]
  · exact (hcomplete x (reach_mem ha hcomplete hx)).ereq
  · exact (hcomplete x (reach_mem ha hcomplete hx)).sreq
  · exact (idxOf_inj (reach_mem ha hcomplete hx)).mp he

theorem graph_mark_region (region : Nat → Record) (c : Int) :
    graph (update region 0 { region 0 with committed := c }) = graph region := by
  have hload : ∀ i, update region 0 { region 0 with committed := c } i =
      { region i with committed := (update region 0 { region 0 with committed := c } i).committed } := by
    intro i
    by_cases hi : i = 0
    · rw [hi, update_self]
    · rw [update_of_ne hi]
  simp only [graph]
  congr 1 <;> funext i <;> rw [hload i]

theorem clears_reach {mem₁ mem₂ : Nat → Record} (hc : Clears mem mem₁ mem₂)
    (hmarked : ∀ x, (graph mem).Reach a x → x ≠ a → (mem₁ x).committed ≠ 0)
    (hself : (mem₂ a).committed = 0) (hchild : ∀ y, (graph mem).Edge a y → (mem₂ y).committed = 0)
    (hx : (graph mem).Reach a x) : (mem₂ x).committed = 0 := by
  induction hx with
  | refl => exact hself
  | @tail b c hb hedge ih =>
    by_cases hba : b = a
    · exact hchild c (hba ▸ hedge)
    · exact hc.closed b c (hmarked b hb hba) ih hedge

theorem commits_of_clears {s' : Packing} {mem₁ : Nat → Record} (hs : s.Holds mem a seen)
    (hhead : seen.head? = some a) (hcomplete : ∀ x ∈ seen, Complete mem seen s.region x)
    (hreach : ∀ x ∈ seen, (graph mem).Reach a x)
    (hkept : ∀ i, seen.length ≤ i → s.region i = region i) (hc : Clears mem s.mem mem₁)
    (hzero : ∀ x, (graph mem).Reach a x → (mem₁ x).committed = 0) (hindex : s'.index = s.index)
    (hregion : s'.region = update s.region 0 { s.region 0 with committed := -1 })
    (hsame : OnlyMarks mem s'.mem) (hroot : (s'.mem a).committed = (mem a).committed)
    (hrest : ∀ x, x ≠ a → s'.mem x = mem₁ x) : Commits mem region a seen s' := by
  have ha : a ∈ seen := mem_of_mem_head? hhead
  refine ⟨hs.nodup, fun x => ⟨hreach x, reach_mem ha hcomplete⟩, ?_, ?_, fun i hi => ?_, ?_,
    fun x hx hxa => ?_, hsame, fun x => ?_, hroot⟩
  · rw [hregion, graph_mark_region]
    exact iso_of_complete hs hhead hcomplete
  · rw [hindex, hs.index]
  · have hpos : 0 < seen.length := length_pos_of_mem ha
    rw [hregion, update_of_ne (by omega), hkept i hi]
  · rw [hregion, update_self]
  · obtain ⟨e, q, hcopy⟩ := hs.copied x hx
    rw [hregion, update_of_ne (idxOf_ne_zero hhead hxa), hcopy]
  · by_cases hxa : x = a
    · rw [hxa]
      exact .inl hroot
    · rw [hrest x hxa]
      by_cases hx : (graph mem).Reach a x
      · exact .inr (hzero x hx)
      · rw [← hs.untouched x hx]
        exact hc.kept x

section
variable (region) (hroot : ∀ x, (graph mem).Reach a x → ¬ (graph mem).Edge x a)
  (hwithin : (graph mem).Within n a)
  (hmarks : ∀ x, (graph mem).Reach a x → (mem x).committed = 0 ∨ (mem x).committed = -1)
include hroot hwithin hmarks

/-- **The whole request is packed.**  A request that is not part of itself, with paths shorter
than `n`, and whose marks are those of requests that are not being packed. -/
theorem requestCommit_clears :
    ∃ s seen, requestCommit n mem region a = some s ∧ Commits mem region a seen s ∧
      ∀ x, (graph mem).Reach a x → x ≠ a → (s.mem x).committed = 0 := by
  cases n with
  | zero => exact absurd hwithin id
  | succ n =>
    have hself : (graph mem).Reach a a := (graph mem).reach_refl a
    have hnil : Packing.Holds mem a [] ⟨mem, region, 0⟩ := holds_nil hmarks
    obtain ⟨s0, h0, hs0, hzero, hregion⟩ := hnil.unmark not_mem_nil hself
    obtain ⟨e, s1, q, s2, new, hcall1, hcall2, hext, hnew⟩ :=
      (commitsAll hroot n).node 0 hs0 not_mem_nil hself hzero rfl fun b hb =>
        ⟨hself.tail hb, fun h => hroot a hself (h ▸ hb), hwithin b hb⟩
    have hholds : (s2.linkSreq a q).Holds mem a (a :: new) := hext.holds
    have hcomplete : ∀ x ∈ a :: new, Complete mem (a :: new) (s2.linkSreq a q).region x :=
      hext.complete
    obtain ⟨s3, hs3⟩ : ∃ s3, s2.linkSreq a q = s3 := ⟨_, rfl⟩
    rw [hs3] at hholds hcomplete hext
    have hmarked : ∀ x, (graph mem).Reach a x → x ≠ a → (s3.mem x).committed ≠ 0 := by
      intro x hx hxa h
      rw [hholds.marked x (reach_mem mem_cons_self hcomplete hx)] at h
      exact idxOf_ne_zero rfl hxa (Int.natCast_eq_zero.mp h)
    obtain ⟨mem₁, hclear, hc, hzero1, hchild⟩ := clears_node 0 hholds.same
      (fun link hl mem' hsame' => doClearCommit_spec n 0 mem' link hsame' fun b hb => hwithin b (hl b hb))
      fun h => absurd h.2 (Nat.lt_irrefl 0)
    obtain ⟨s4, hs4⟩ : ∃ s4 : Packing, { s3 with
      mem := mem₁
      region := update s3.region 0 { s3.region 0 with committed := -1 } } = s4 := ⟨_, rfl⟩
    refine ⟨if (mem a).committed = -1 then s4.mark a (-1) else s4, a :: new, ?_, ?_⟩
    · rw [requestCommit, doRequestCommit]
      simp only [h0, hzero, ne_eq, not_true_eq_false, if_false, if_true, hcall1, hcall2, hs3, hclear,
        hs4, Option.bind_some, Option.map_some]
    · have hzero2 := fun x hx => clears_reach hc hmarked hzero1 hchild (x := x) hx
      have hreach : ∀ x ∈ a :: new, (graph mem).Reach a x := by
        intro x hx
        rcases mem_cons.mp hx with rfl | hx
        · exact hself
        · exact hnew x hx
      have hkept : ∀ i, (a :: new).length ≤ i → s3.region i = region i := by
        intro i hi
        rw [hext.kept i (.inr hi), hregion]
      have hmem4 : s4.mem = mem₁ := by rw [← hs4]
      have hrest : ∀ x, x ≠ a → (if (mem a).committed = -1 then s4.mark a (-1) else s4).mem x = mem₁ x := by
        intro x hxa
        split_ifs
        · rw [mark_mem_of_ne _ _ hxa, hmem4]
        · rw [hmem4]
      refine ⟨commits_of_clears hholds rfl hcomplete hreach hkept hc hzero2 ?_ ?_ ?_ ?_ hrest,
        fun x hx hxa => (congrArg Record.committed (hrest x hxa)).trans (hzero2 x hx)⟩
      · rw [← hs4]
        split_ifs <;> rfl
      · rw [← hs4]
        split_ifs <;> rfl
      · rw [← hmem4] at hc
        split_ifs
        · exact hc.same.mark a (-1)
        · exact hc.same
      · rcases hmarks a hself with hmark | hmark
        · rw [if_neg (by rw [hmark]; decide), hmem4, hmark]
          exact hzero1
        · rw [if_pos hmark, mark_mem_self, hmark]

/-- Every record that can be reached is packed once. -/
theorem requestCommit_spec :
    ∃ s seen, requestCommit n mem region a = some s ∧ Commits mem region a seen s := by
  obtain ⟨s, seen, hcommit, hc, -⟩ := requestCommit_clears region hroot hwithin hmarks
  exact ⟨s, seen, hcommit, hc⟩

end

/-- **Packing a request leaves its records as they were just when none of them but the request itself
was the first record of a packed request**: such a mark is taken for one of its own. -/
theorem requestCommit_restores_iff (region : Nat → Record)
    (hroot : ∀ x, (graph mem).Reach a x → ¬ (graph mem).Edge x a)
    (hwithin : (graph mem).Within n a)
    (hmarks : ∀ x, (graph mem).Reach a x → (mem x).committed = 0 ∨ (mem x).committed = -1) :
    ∃ s, requestCommit n mem region a = some s ∧
      ((∀ x, (graph mem).Reach a x → s.mem x = mem x) ↔
        ∀ x, (graph mem).Reach a x → x ≠ a → (mem x).committed ≠ -1) := by
  obtain ⟨s, seen, hcommit, hc, hcleared⟩ := requestCommit_clears region hroot hwithin hmarks
  refine ⟨s, hcommit, fun hsame x hx hxa => ?_, fun hplain x hx => ?_⟩
  · rw [← hsame x hx, hcleared x hx hxa]
    decide
  · have hmark : (s.mem x).committed = (mem x).committed := by
      by_cases hxa : x = a
      · rw [hxa]
        exact hc.root
      · rw [hcleared x hx hxa]
        exact ((hmarks x hx).resolve_right (hplain x hx hxa)).symm
    rw [hc.same x, hmark]

end

end Pvfs.Description
