import Pvfs.Description.Stream

/-! # The bytes of a tiled request, by position

A request is tiled for as long as a window needs, and each window lays out as many copies as it
takes. More copies only add to the end, so that position `k` of the stream has one byte,
`byteAt k`, whichever window it is seen through. -/

namespace Pvfs.Description

open Pvfs.Lib List

namespace Request

variable {r : Request}

/-- Where the `k`th byte of a request type lies. -/
def byteAt (r : Request) (k : Nat) : Int := (r.stream (r.copiesFor k))[k]?.getD 0

theorem stream_isPrefix (r : Request) (hagg : 0 ≤ r.aggregateSize) {n n' : Int} (h : n ≤ n') :
    r.stream n <+: r.stream n' := by
  unfold stream tiles
  split
  · simp only [expand_cons, expand_nil, append_nil]
    have hle := Int.toNat_le_toNat (Int.mul_le_mul_of_nonneg_right h hagg)
    obtain ⟨d, hd⟩ := Nat.exists_eq_add_of_le hle
    rw [hd, run_add]
    exact prefix_append _ _
  · unfold copies
    obtain ⟨d, hd⟩ := Nat.exists_eq_add_of_le
      (Int.toNat_le_toNat (show n - 0 ≤ n' - 0 by omega))
    rw [hd, range_add, flatMap_append, expand_append]
    exact prefix_append _ _

theorem Wf.getElem?_stream (h : r.Wf) {k : Nat} {n : Int} (hk : k < (r.stream n).length) :
    (r.stream n)[k]? = some (r.byteAt k) := by
  have hagg := Int.le_of_lt h.aggregateSize_pos
  have hlen := (h.lt_length_stream (show (0 : Int) ≤ k by omega)).2
  have hk' : k < (r.stream (r.copiesFor k)).length := by omega
  have hbyte : (r.stream (r.copiesFor k))[k]? = some (r.byteAt k) := by
    rw [byteAt, getElem?_eq_getElem hk', Option.getD_some]
  rcases Int.le_total n (r.copiesFor k) with hle | hle
  · obtain ⟨t, ht⟩ := r.stream_isPrefix hagg hle
    rw [← hbyte, ← ht, getElem?_append_left hk]
  · obtain ⟨t, ht⟩ := r.stream_isPrefix hagg hle
    rw [← hbyte, ← ht, getElem?_append_left hk']

theorem Wf.window_eq_map (h : r.Wf) (o m : Nat) :
    r.window o (o + m) = (List.range m).map fun i => r.byteAt (o + i) := by
  have hlen := (h.lt_length_stream (show (0 : Int) ≤ o + m by omega)).2
  apply ext_getElem?
  intro i
  by_cases hi : i < m
  · rw [window, getElem?_take_of_lt (by omega), getElem?_drop, Int.toNat_natCast,
      h.getElem?_stream (by omega), getElem?_map, getElem?_range hi, Option.map_some]
  · rw [getElem?_eq_none]
    · simpa using hi
    · rw [window, length_take]
      omega

theorem Wf.window_zero_eq_map (h : r.Wf) (m : Nat) :
    r.window 0 m = (List.range m).map r.byteAt := by
  have hwin := h.window_eq_map 0 m
  simpa using hwin

theorem Wf.mem_window (h : r.Wf) {o m : Nat} {x : Int} :
    x ∈ r.window o (o + m) ↔ ∃ i, i < m ∧ r.byteAt (o + i) = x := by
  rw [h.window_eq_map, mem_map]
  simp only [mem_range]

/-- Every byte lies behind the one before it. -/
def Ascending (r : Request) : Prop := ∀ k, r.byteAt k < r.byteAt (k + 1)

/-- The bytes lie one right behind the other. -/
def OneRun (r : Request) : Prop := ∀ k, r.byteAt (k + 1) = r.byteAt k + 1

theorem OneRun.ascending (h : r.OneRun) : r.Ascending := by
  intro k
  rw [h k]
  omega

theorem OneRun.byteAt_eq (h : r.OneRun) (k : Nat) : r.byteAt k = r.byteAt 0 + k := by
  induction k with
  | zero => simp
  | succ k ih =>
    rw [h k]
    omega

theorem Ascending.lt (h : r.Ascending) {i j : Nat} (hij : i < j) : r.byteAt i < r.byteAt j := by
  induction hij with
  | refl => exact h i
  | step _ ih => exact Int.lt_trans ih (h _)

theorem Ascending.pairwise_stream (h : r.Ascending) (hr : r.Wf) (n : Int) :
    (r.stream n).Pairwise (· < ·) := by
  rw [pairwise_iff_getElem]
  intro i j hi hj hij
  have hi' := hr.getElem?_stream hi
  have hj' := hr.getElem?_stream hj
  rw [getElem?_eq_getElem hi] at hi'
  rw [getElem?_eq_getElem hj] at hj'
  rw [Option.some.inj hi', Option.some.inj hj']
  exact h.lt hij

theorem byteAt_pintByte (k : Nat) : pintByte.byteAt k = k := by
  have hcopies : pintByte.copiesFor k = k + 1 := by
    simp [copiesFor, pintByte, elementary]
  have htiles : pintByte.tiles 0 (k + 1) = [(0, (k : Int) + 1)] := by
    simp [tiles, isWhole, pintByte, elementary, disp]
    rfl
  have hstream : pintByte.stream (k + 1) = run 0 (k + 1) := by
    rw [stream, htiles, expand_cons, expand_nil, append_nil]
    rfl
  rw [byteAt, hcopies, hstream, getElem?_run (Nat.lt_succ_self k), Option.getD_some, Int.zero_add]

theorem pintByte_oneRun : pintByte.OneRun := by
  intro k
  rw [byteAt_pintByte, byteAt_pintByte]
  rfl

end Request

end Pvfs.Description
