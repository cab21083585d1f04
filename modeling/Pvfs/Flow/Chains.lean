import Mathlib.Data.List.Nodup
import Pvfs.Flow.Multiqueue

/-! # Result chains, and the operations that are out

Two things every flow with storage keeps, whatever its direction. Of a buffer whose chain is at
work: `Chained` says for each entry whether it is still to be posted, out, or moved, and that
`result_chain_count` counts the entries that are not moved. Of the flow: `Exact` says that
`posted_id` is set for the operations that are out and for no others, which is what
`handle_io_error` relies on when it counts. -/

namespace Pvfs.Flow

open List Function

variable {α : Type}

/-- Entry `k` is marked as posted. -/
def Item.Posted (it : Item α) (k : Nat) : Prop :=
  ∃ e, it.resultChain[k]? = some e ∧ e.postedId = true

/-- The chain of piece `p`, posted up to entry `pos`. -/
structure Item.Chained (it : Item α) (p : Piece α) (pos : Nat) : Prop where
  bytes : it.resultChain.map Entry.bytes = p
  length : it.data.length = p.length
  count : it.resultChainCount = it.data.countP Option.isNone
  posted : ∀ {k e}, it.resultChain[k]? = some e → e.postedId = true →
    k < pos ∧ it.data[k]? = some none
  moved : ∀ {k e}, it.resultChain[k]? = some e → e.postedId = false → k < pos →
    it.data[k]? = some (some e.bytes)
  ahead : ∀ {k e}, it.resultChain[k]? = some e → pos ≤ k →
    e.postedId = false ∧ it.data[k]? = some none

variable {e : Entry α}

namespace Item

variable {it : Item α} {p : Piece α} {pos k j : Nat} {b : Bool}

theorem getElem?_setPosted :
    (it.setPosted k b).resultChain[j]? =
      it.resultChain[j]?.map fun e => if k = j then { e with postedId := b } else e := by
  rw [setPosted, getElem?_modify]
  rfl

theorem of_setPosted (h : (it.setPosted k b).resultChain[j]? = some e) :
    (k = j ∧ ∃ e', it.resultChain[j]? = some e' ∧ e = { e' with postedId := b }) ∨
      k ≠ j ∧ it.resultChain[j]? = some e := by
  rw [getElem?_setPosted, Option.map_eq_some_iff] at h
  obtain ⟨e', he', rfl⟩ := h
  by_cases hkj : k = j
  · exact .inl ⟨hkj, e', he', if_pos hkj⟩
  · exact .inr ⟨hkj, by rw [if_neg hkj]; exact he'⟩

theorem map_bytes_setPosted :
    (it.setPosted k b).resultChain.map Entry.bytes = it.resultChain.map Entry.bytes := by
  apply ext_getElem?
  intro j
  rw [getElem?_map, getElem?_map, getElem?_setPosted]
  cases it.resultChain[j]? with
  | none => rfl
  | some e =>
    split <;> rfl

theorem setPosted_move_setPosted (it : Item α) (k : Nat) :
    ((it.setPosted k true).move k).setPosted k false = (it.move k).setPosted k false := by
  have hbytes : (it.setPosted k true).resultChain[k]?.map Entry.bytes =
      it.resultChain[k]?.map Entry.bytes := by
    rw [← getElem?_map, map_bytes_setPosted, getElem?_map]
  have hchain : ((it.setPosted k true).setPosted k false).resultChain =
      (it.setPosted k false).resultChain := by
    apply ext_getElem?
    intro j
    rw [getElem?_setPosted, getElem?_setPosted, getElem?_setPosted]
    cases it.resultChain[j]? with
    | none => rfl
    | some e =>
      split <;> rfl
  unfold move
  rw [hbytes]
  unfold setPosted at hchain ⊢
  dsimp only at hchain ⊢
  rw [hchain]

theorem posted_setPosted_same (he : it.resultChain[k]? = some e) :
    (it.setPosted k true).Posted k := by
  refine ⟨{ e with postedId := true }, ?_, rfl⟩
  rw [getElem?_setPosted, he]
  simp

theorem not_posted_setPosted_same : ¬ (it.setPosted k false).Posted k := by
  intro h
  obtain ⟨e, he, hp⟩ := h
  obtain ⟨-, e', -, rfl⟩ | ⟨hne, -⟩ := of_setPosted he
  · cases hp
  · exact hne rfl

theorem posted_setPosted_other (h : j ≠ k) : (it.setPosted k b).Posted j ↔ it.Posted j := by
  unfold Posted
  rw [getElem?_setPosted]
  simp [Ne.symm h]

theorem not_posted_take : ¬ (it.take p).Posted k := by
  intro h
  obtain ⟨e, he, hp⟩ := h
  rw [take, getElem?_map, Option.map_eq_some_iff] at he
  obtain ⟨bytes, -, rfl⟩ := he
  cases hp

theorem not_posted_of_nil (h : it.resultChain = []) : ¬ it.Posted k := by
  intro hp
  obtain ⟨e, he, -⟩ := hp
  rw [h] at he
  cases he

theorem countP_map_none (p : Piece α) :
    (p.map fun _ => (none : Option (List α))).countP Option.isNone = p.length := by
  induction p with
  | nil => rfl
  | cons bytes p ih => rw [map_cons, countP_cons_of_pos rfl, ih, length_cons]

theorem chained_take (h : it.resultChainCount = 0) : (it.take p).Chained p 0 where
  bytes := by
    unfold take
    rw [map_map]
    exact map_id _
  length := by simp [take]
  count := by
    unfold take
    rw [countP_map_none, h, Nat.zero_add]
  posted := fun he hp => absurd ⟨_, he, hp⟩ not_posted_take
  moved := by
    intro k e _ _ hk
    omega
  ahead := by
    intro k e he _
    rw [take, getElem?_map, Option.map_eq_some_iff] at he
    obtain ⟨bytes, hb, rfl⟩ := he
    refine ⟨rfl, ?_⟩
    rw [take, getElem?_map, hb]
    rfl

namespace Chained

theorem length_chain (h : it.Chained p pos) : it.resultChain.length = p.length := by
  rw [← h.bytes, length_map]

theorem exists_entry (h : it.Chained p pos) (hk : k < p.length) :
    ∃ e, it.resultChain[k]? = some e :=
  ⟨_, getElem?_eq_getElem (by rw [h.length_chain]; exact hk)⟩

theorem post (h : it.Chained p k) : (it.setPosted k true).Chained p (k + 1) where
  bytes := by rw [map_bytes_setPosted, h.bytes]
  length := h.length
  count := h.count
  posted := by
    intro j e he hp
    obtain ⟨rfl, e', he', -⟩ | ⟨-, he'⟩ := of_setPosted he
    · exact ⟨Nat.lt_succ_self k, (h.ahead he' (Nat.le_refl k)).2⟩
    · obtain ⟨hlt, hd⟩ := h.posted he' hp
      exact ⟨Nat.lt_succ_of_lt hlt, hd⟩
  moved := by
    intro j e he hp hj
    obtain ⟨-, e', -, rfl⟩ | ⟨hkj, he'⟩ := of_setPosted he
    · cases hp
    · exact h.moved he' hp (by omega)
  ahead := by
    intro j e he hj
    obtain ⟨hkj, -⟩ | ⟨-, he'⟩ := of_setPosted he
    · omega
    · exact h.ahead he' (by omega)

variable (h : it.Chained p pos)
include h

theorem countP_move (he : it.resultChain[k]? = some e) (hp : e.postedId = true) :
    (it.move k).data.countP Option.isNone = it.resultChainCount - 1 := by
  have hd := (h.posted he hp).2
  obtain ⟨hk, hd⟩ := List.getElem?_eq_some_iff.mp hd
  unfold move
  rw [he, countP_set hk, hd, h.count]
  simp

theorem count_pos (hd : it.data[k]? = some none) : 0 < it.resultChainCount := by
  rw [h.count, countP_pos_iff]
  exact ⟨none, mem_of_getElem? hd, rfl⟩

section
variable (he : it.resultChain[k]? = some e) (hp : e.postedId = true)
include he hp

theorem finish :
    Chained { (it.move k).setPosted k false with resultChainCount := it.resultChainCount - 1 }
      p pos where
  bytes := by
    have hb : ((it.move k).setPosted k false).resultChain.map Entry.bytes = p := by
      rw [map_bytes_setPosted]
      exact h.bytes
    exact hb
  length := by
    have hl : (it.move k).data.length = p.length := by
      unfold move
      rw [length_set]
      exact h.length
    exact hl
  count := (h.countP_move he hp).symm
  posted := by
    intro j e' he' hp'
    obtain ⟨-, e0, -, rfl⟩ | ⟨hj, he0⟩ := of_setPosted he'
    · cases hp'
    · obtain ⟨hlt, hd⟩ := h.posted he0 hp'
      refine ⟨hlt, ?_⟩
      change (it.move k).data[j]? = _
      rw [move, getElem?_set, if_neg hj]
      exact hd
  moved := by
    intro j e' he' hp' hj
    change (it.move k).data[j]? = _
    obtain ⟨rfl, e0, he0, rfl⟩ | ⟨hkj, he0⟩ := of_setPosted he'
    · obtain ⟨hlt, -⟩ := List.getElem?_eq_some_iff.mp (h.posted he hp).2
      have hsame : e = e0 := Option.some.inj (he.symm.trans he0)
      rw [move, List.getElem?_set, if_pos rfl, if_pos hlt, he, hsame]
      rfl
    · rw [move, getElem?_set, if_neg hkj]
      exact h.moved he0 hp' hj
  ahead := by
    intro j e' he' hj
    change _ ∧ (it.move k).data[j]? = _
    have hlt := (h.posted he hp).1
    obtain ⟨hkj, -⟩ | ⟨hkj, he0⟩ := of_setPosted he'
    · omega
    · rw [move, getElem?_set, if_neg hkj]
      exact h.ahead he0 hj

theorem one_lt_count (hjk : j ≠ k) (hd : it.data[j]? = some none) : 1 < it.resultChainCount := by
  have hd' : (it.move k).data[j]? = some none := by
    rw [move, getElem?_set, if_neg (Ne.symm hjk)]
    exact hd
  have hpos := (h.finish he hp).count_pos hd'
  dsimp only at hpos
  omega

theorem not_posted_last (hcount : it.resultChainCount ≤ 1) : ¬ (it.setPosted k false).Posted j := by
  intro hposted
  by_cases hjk : j = k
  · rw [hjk] at hposted
    exact not_posted_setPosted_same hposted
  · obtain ⟨e', he', hp'⟩ := (posted_setPosted_other hjk).mp hposted
    have hlt := h.one_lt_count he hp hjk (h.posted he' hp').2
    omega

theorem finish_last (hcount : it.resultChainCount ≤ 1) : (it.move k).data = p.map some := by
  have hf := h.finish he hp
  have hzero : (it.move k).data.countP Option.isNone = 0 := by
    rw [h.countP_move he hp]
    omega
  apply ext_getElem?
  intro j
  rw [getElem?_map, ← hf.bytes, getElem?_map]
  cases hj : ((it.move k).setPosted k false).resultChain[j]? with
  | none =>
    have hlen : (it.move k).data.length ≤ j := by
      have hn := getElem?_eq_none_iff.mp hj
      have hl := hf.length_chain
      have hd := hf.length
      change (it.move k).data.length = _ at hd
      change ((it.move k).setPosted k false).resultChain.length = _ at hl
      omega
    rw [getElem?_eq_none hlen]
    rfl
  | some e' =>
    -- an entry that is not moved would be counted
    have hnot : (it.move k).data[j]? ≠ some none := by
      intro hnone
      exact countP_eq_zero.mp hzero none (mem_of_getElem? hnone) rfl
    have hpos : j < pos := by
      by_contra hge
      exact hnot (hf.ahead hj (by omega)).2
    have hunposted : e'.postedId = false := by
      by_contra hposted
      exact hnot (hf.posted hj (by simpa using hposted)).2
    have hm := hf.moved hj hunposted hpos
    change (it.move k).data[j]? = _ at hm
    rw [hm]
    rfl

end

end Chained

end Item

/-- `posted_id` is set for the operations that are out, and only for these. -/
structure Exact (ops : List Op) (items : Nat → Item α) : Prop where
  nodup : ops.Nodup
  bmi : ∀ i, .bmi i ∈ ops ↔ (items i).postedId = true
  trove : ∀ i k, .trove i k ∈ ops ↔ (items i).Posted k

namespace Exact

variable {ops : List Op} {items : Nat → Item α} {it : Item α} {i k : Nat}

variable (h : Exact ops items)
include h

theorem change {ops' : List Op} (hnodup : ops'.Nodup)
    (hother : ∀ j ≠ i, (.bmi j ∈ ops' ↔ .bmi j ∈ ops) ∧ ∀ k, .trove j k ∈ ops' ↔ .trove j k ∈ ops)
    (hbmi : .bmi i ∈ ops' ↔ it.postedId = true) (htrove : ∀ k, .trove i k ∈ ops' ↔ it.Posted k) :
    Exact ops' (update items i it) where
  nodup := hnodup
  bmi := by
    intro j
    rw [update_apply]
    split
    next hj => rw [hj, hbmi]
    next hj => rw [(hother j hj).1, h.bmi]
  trove := by
    intro j k
    rw [update_apply]
    split
    next hj => rw [hj, htrove]
    next hj => rw [(hother j hj).2, h.trove]

theorem update (hbmi : it.postedId = (items i).postedId)
    (htrove : ∀ k, it.Posted k ↔ (items i).Posted k) : Exact ops (update items i it) := by
  refine h.change h.nodup (fun _ _ => ⟨.rfl, fun _ => .rfl⟩) ?_ fun k => ?_
  · rw [h.bmi, hbmi]
  · rw [h.trove, htrove]

theorem postBmi (hi : (items i).postedId = false) (hbmi : it.postedId = true)
    (htrove : ∀ k, it.Posted k ↔ (items i).Posted k) :
    Exact (ops ++ [.bmi i]) (Function.update items i it) := by
  refine h.change (nodup_append_comm.mpr (h.nodup.cons ?_)) (fun j hj => ?_) ?_ fun k => ?_
  · simp [h.bmi, hi]
  · simp [hj]
  · simp [hbmi]
  · simp [h.trove, htrove]

theorem postTrove (he : (items i).resultChain[k]? = some e) (hp : e.postedId = false) :
    Exact (ops ++ [.trove i k]) (Function.update items i ((items i).setPosted k true)) := by
  refine h.change (nodup_append_comm.mpr (h.nodup.cons ?_)) (fun j hj => ?_) ?_ fun k' => ?_
  · rw [h.trove]
    intro hposted
    obtain ⟨e', he', hp'⟩ := hposted
    rw [he] at he'
    cases he'
    rw [hp] at hp'
    cases hp'
  · simp [hj]
  · simp [h.bmi, Item.setPosted]
  · by_cases hk : k' = k
    · simp [hk, Item.posted_setPosted_same he]
    · simp [hk, h.trove, Item.posted_setPosted_other hk]

theorem unpostBmi (hbmi : it.postedId = false) (htrove : ∀ k, it.Posted k ↔ (items i).Posted k) :
    Exact (ops.erase (.bmi i)) (Function.update items i it) := by
  refine h.change (h.nodup.erase _) (fun j hj => ?_) ?_ fun k => ?_
  · simp [h.nodup.mem_erase_iff, hj]
  · simp [h.nodup.mem_erase_iff, hbmi]
  · simp [h.nodup.mem_erase_iff, h.trove, htrove]

theorem unpostTrove (hbmi : it.postedId = (items i).postedId)
    (htrove : ∀ k', it.Posted k' ↔ ((items i).setPosted k false).Posted k') :
    Exact (ops.erase (.trove i k)) (Function.update items i it) := by
  refine h.change (h.nodup.erase _) (fun j hj => ?_) ?_ fun k' => ?_
  · simp [h.nodup.mem_erase_iff, hj]
  · simp [h.nodup.mem_erase_iff, h.bmi, hbmi]
  · rw [h.nodup.mem_erase_iff, htrove]
    by_cases hk : k' = k
    · simp [hk, Item.not_posted_setPosted_same]
    · simp [hk, h.trove, Item.posted_setPosted_other hk]

end Exact

namespace FlowData

section
variable {f : FlowData α} {i j k : Nat} {g : Item α → Item α}

@[simp] theorem postBmi_items :
    (f.postBmi i).items j = if j = i then { f.items i with postedId := true } else f.items j :=
  update_apply f.items i { f.items i with postedId := true } j

@[simp] theorem postTrove_items :
    (f.postTrove i k).items j = if j = i then (f.items i).setPosted k true else f.items j :=
  update_apply f.items i ((f.items i).setPosted k true) j

@[simp] theorem unpostBmi_items :
    (f.unpostBmi i).items j = if j = i then { f.items i with postedId := false } else f.items j :=
  update_apply f.items i { f.items i with postedId := false } j

end

end FlowData

end Pvfs.Flow
