import Pvfs.Description.Simulation

/-! # The byte stream of a request

A request is tiled: the stream that a window `[target, final)` selects from is that of
`final / aggregate_size + 1` copies. This file says how long the stream is, that its chunks
are not empty, that it starts at non-negative offsets when the request was built from
non-negative ones, and that the constructors only build well-formed records. -/

namespace Pvfs.Description

open Pvfs.Lib List

namespace Request

/-- The bytes of `n` copies of a request, in the order the decoder produces them. -/
def stream (r : Request) (n : Int) : List Int := expand (r.tiles 0 n)

/-- How many copies `PINT_process_request` lays out for a window that ends at `final`. -/
def copiesFor (r : Request) (final : Int) : Int := final.tdiv r.aggregateSize + 1

/-- The places of the bytes from `target` to `final` of a request. -/
def window (r : Request) (target final : Int) : List Int :=
  ((r.stream (r.copiesFor final)).drop target.toNat).take (final - target).toNat

variable {r : Request}

theorem ereq_ne_null_of_not_whole (h : r.isWhole = false) : r.ereq ≠ .null := by
  intro hn
  simp [isWhole, hn] at h

variable {base final oldext x co target : Int}

theorem block_cases {rq : Request} {b : Nat} (Q : List (Int × Int) → Prop)
    (hcontig : rq.ereq.isContig = true →
      Q [(base + rq.offset + rq.stride * b + rq.disp, rq.ereq.aggregateSize * rq.numEreqs)])
    (hwhole : rq.ereq.isWhole = true →
      Q [(rq.ereq.offset + (base + rq.offset + rq.stride * b) + rq.ereq.disp,
        rq.numEreqs * rq.ereq.aggregateSize)])
    (hcopies : rq.ereq.isWhole = false →
      Q (rq.ereq.copies (base + rq.offset + rq.stride * b) 0 rq.numEreqs)) :
    Q (rq.block base b) := by
  unfold block tiles
  split
  · exact hcontig ‹_›
  · split
    · exact hwhole ‹_›
    · exact hcopies (by simpa using ‹¬ rq.ereq.isWhole = true›)

variable {n : Int} {c : Int × Int}

theorem mem_copies {co el : Int} (h : c ∈ r.copies co el n) :
    ∃ i : Nat, c ∈ r.chain (co + (el + i) * r.extent) := by
  obtain ⟨i, -, hi⟩ := mem_flatMap.mp h
  exact ⟨i, hi⟩

theorem mem_chain (hr : r ≠ .null) (h : c ∈ r.chain base) :
    (∃ b, c ∈ r.block base b) ∨ c ∈ r.sreq.chain base := by
  rw [chain_eq base hr, mem_append] at h
  refine h.imp (fun hb => ?_) id
  obtain ⟨b, -, hb⟩ := mem_flatMap.mp hb
  exact ⟨b, hb⟩

/-! ## Sizes -/

theorem Wf.chain_positive (h : r.Wf) : r.ereq ≠ .null → ∀ base, Positive (r.chain base) := by
  refine h.entryInduction (fun r => ∀ base, Positive (r.chain base)) ?_
  intro r hwf hne ihe ihs base c hc
  obtain ⟨hewf, hn, -, -⟩ := hwf.entry hne
  have ha := hewf.aggregateSize_pos
  rcases mem_chain hwf.ne_null hc with ⟨b, hb⟩ | hs
  · have hpos : Positive (r.block base b) := by
      refine block_cases Positive (fun _ c hc => ?_) (fun _ c hc => ?_) fun hw c hc => ?_
      · rw [mem_singleton.mp hc]
        exact Int.mul_pos ha (by omega)
      · rw [mem_singleton.mp hc]
        exact Int.mul_pos (by omega) ha
      · obtain ⟨i, hi⟩ := mem_copies hc
        exact ihe (ereq_ne_null_of_not_whole hw) _ c hi
    exact hpos c hb
  · refine ihs (fun hnull => ?_) base c hs
    rw [hnull] at hs
    simp [chain] at hs

theorem Wf.tiles_positive (h : r.Wf) (co : Int) (hn : 0 < n) : Positive (r.tiles co n) := by
  unfold tiles
  split
  · intro c hc
    rw [mem_singleton.mp hc]
    exact Int.mul_pos hn h.aggregateSize_pos
  · intro c hc
    obtain ⟨i, hi⟩ := mem_copies hc
    exact h.chain_positive (ereq_ne_null_of_not_whole (by simpa using ‹¬ r.isWhole = true›)) _ c hi

theorem length_copies {size : Int} (h : ∀ base, ((expand (r.chain base)).length : Int) = size)
    (co : Int) (hn : 0 ≤ n) : ((expand (r.copies co 0 n)).length : Int) = n * size := by
  unfold copies
  rw [expand_flatMap, length_flatMap_const fun i _ => h _, length_range]
  congr 1
  omega

theorem length_single {o s : Int} (h : 0 ≤ s) : ((expand [(o, s)]).length : Int) = s := by
  rw [expand_cons, expand_nil, append_nil, length_run]
  omega

theorem Wf.length_block_of (h : r.Wf) (hne : r.ereq ≠ .null) (ih : r.ereq.ereq ≠ .null → ∀ base,
      ((expand (r.ereq.chain base)).length : Int) = r.ereq.aggregateSize) (base : Int) (b : Nat) :
    ((expand (r.block base b)).length : Int) = r.ereq.aggregateSize * r.numEreqs := by
  obtain ⟨hewf, -, -, -⟩ := h.entry hne
  have ha := hewf.aggregateSize_pos
  have hnn : 0 ≤ r.ereq.aggregateSize * r.numEreqs := Int.mul_nonneg (by omega) (by omega)
  refine block_cases (fun P => ((expand P).length : Int) = r.ereq.aggregateSize * r.numEreqs)
    (fun _ => length_single hnn) (fun _ => ?_) fun hw => ?_
  · rw [Int.mul_comm] at hnn
    rw [length_single hnn, Int.mul_comm]
  · rw [length_copies (ih (ereq_ne_null_of_not_whole hw)) _ (by omega), Int.mul_comm]

theorem Wf.length_chain (h : r.Wf) :
    r.ereq ≠ .null → ∀ base, ((expand (r.chain base)).length : Int) = r.aggregateSize := by
  refine h.entryInduction
    (fun r => ∀ base, ((expand (r.chain base)).length : Int) = r.aggregateSize) ?_
  intro r hwf hne ihe ihs base
  have hblocks : ((expand (r.blocks base 0)).length : Int) =
      r.ereq.aggregateSize * r.numBlocks * r.numEreqs := by
    unfold blocks
    rw [expand_flatMap, length_flatMap_const fun b _ => hwf.length_block_of hne ihe base b,
      length_range', Nat.sub_zero]
    ring
  have hrest : ((expand (r.sreq.chain base)).length : Int) = r.sreq.aggregateSize := by
    by_cases hs : r.sreq = .null
    · rw [hs]
      rfl
    · exact ihs hs base
  rw [chain_eq base hwf.ne_null, expand_append, length_append, hwf.aggregateSize_eq hne]
  push_cast
  rw [hblocks, hrest]

theorem Wf.length_block (h : r.Wf) (hne : r.ereq ≠ .null) (base : Int) (b : Nat) :
    ((expand (r.block base b)).length : Int) = r.ereq.aggregateSize * r.numEreqs :=
  h.length_block_of hne (h.entry hne).1.length_chain base b

theorem Wf.length_stream (h : r.Wf) (hn : 0 ≤ n) :
    ((r.stream n).length : Int) = n * r.aggregateSize := by
  unfold stream tiles
  split
  · exact length_single (Int.mul_nonneg hn (Int.le_of_lt h.aggregateSize_pos))
  · exact length_copies
      (h.length_chain (ereq_ne_null_of_not_whole (by simpa using ‹¬ r.isWhole = true›))) _ hn

theorem Wf.lt_length_stream (h : r.Wf) (hf : 0 ≤ final) :
    0 < r.copiesFor final ∧ final < (r.stream (r.copiesFor final)).length := by
  have ha := h.aggregateSize_pos
  have hq : 0 ≤ final / r.aggregateSize := Int.ediv_nonneg hf (by omega)
  have hc : r.copiesFor final = final / r.aggregateSize + 1 := by
    rw [copiesFor, Int.tdiv_eq_ediv_of_nonneg hf]
  refine ⟨by omega, ?_⟩
  rw [h.length_stream (by omega), hc, Int.add_mul]
  have := Int.emod_add_mul_ediv final r.aggregateSize
  have := Int.emod_lt_of_pos final ha
  have := Int.mul_comm (final / r.aggregateSize) r.aggregateSize
  omega

/-! ## The constructors build well-formed records -/

variable {offset stride : Int} {count : Nat} {old : Request} {bsize : Nat}

theorem subreq_wf_last (ho : old.Wf) (hb : 0 < bsize) (hc : 0 < count) :
    (subreq offset bsize stride count old oldext .null).Wf :=
  .last ho hb hc rfl (le_refl _)

theorem withBounds_wf (h : r.Wf) (hne : r.ereq ≠ .null) (lb ub : Int) :
    (r.withBounds lb ub).Wf := by
  cases h with
  | packed => exact absurd rfl hne
  | last he hn hb ha hd => exact .last he hn hb ha hd
  | more he hs hse hn hb ha hd hds => exact .more he hs hse hn hb ha hd hds

theorem hvector_wf {blocklength : Nat} (hc : 0 < count) (hb : 0 < blocklength) (ho : old.Wf)
    (h : hvector count blocklength stride old = some r) : r.Wf := by
  rw [hvector, if_neg ho.ne_null] at h
  obtain rfl := Option.some.inj h
  split
  · exact withBounds_wf (subreq_wf_last ho hb hc) ho.ne_null _ _
  · exact subreq_wf_last ho hb hc

variable {dt : Request}

theorem reqstats_wf (ho : old.Wf) (hb : 0 < bsize) (hc : 0 < count)
    (hdt : dt = .null ∨ (dt.Wf ∧ dt.ereq ≠ .null)) :
    (reqstats (subreq offset bsize stride count old oldext dt)).Wf := by
  rcases hdt with rfl | ⟨hwf, hne⟩
  · exact subreq_wf_last ho hb hc
  · cases dt with
    | null => exact absurd rfl hwf.ne_null
    | node g e s =>
      refine .more ho hwf hne hb hc rfl ?_ ?_
      · simp only
        split <;> omega
      · simp only [depth_node]
        split <;> omega

theorem sequence_cons {e : Nat × Int × Request} {es : List (Nat × Int × Request)}
    (he : e.2.2 ≠ .null) (h : sequence (e :: es) = some r) :
    ∃ dt, sequence es = some dt ∧
      r = reqstats (subreq e.2.1 e.1 0 1 e.2.2 e.2.2.extent dt) := by
  obtain ⟨dt, hdt, h⟩ := Option.bind_eq_some_iff.mp h
  rw [if_neg he] at h
  exact ⟨dt, hdt, (Option.some.inj h).symm⟩

theorem reqstats_ereq (r : Request) : (reqstats r).ereq = r.ereq := by
  rcases r with _ | ⟨f, e, _ | ⟨g, e', s'⟩⟩ <;> rfl

variable {entries : List (Nat × Int × Request)}

theorem sequence_wf (hb : ∀ e ∈ entries, 0 < e.1)
    (ho : ∀ e ∈ entries, e.2.2.Wf) (h : sequence entries = some r) :
    r = .null ∨ (r.Wf ∧ r.ereq ≠ .null) := by
  induction entries generalizing r with
  | nil => exact .inl (Option.some.inj h).symm
  | cons e es ih =>
    have hwf := ho e mem_cons_self
    obtain ⟨dt, hdt, rfl⟩ := sequence_cons hwf.ne_null h
    have hrest := ih (fun e he => hb e (mem_cons_of_mem _ he))
      (fun e he => ho e (mem_cons_of_mem _ he)) hdt
    refine .inr ⟨reqstats_wf hwf (hb e mem_cons_self) Nat.one_pos hrest, ?_⟩
    rw [reqstats_ereq]
    exact hwf.ne_null

theorem sequence_ne_null (hne : entries ≠ [])
    (ho : ∀ e ∈ entries, e.2.2.Wf) (h : sequence entries = some r) : r.ereq ≠ .null := by
  cases entries with
  | nil => exact absurd rfl hne
  | cons e es =>
    have hwf := ho e mem_cons_self
    obtain ⟨dt, -, rfl⟩ := sequence_cons hwf.ne_null h
    rw [reqstats_ereq]
    exact hwf.ne_null

theorem resized_inner {lb extent : Int} (ho : old.Wf) (h : resized old lb extent = some r) :
    ∃ inner, inner.Wf ∧ (inner = old ∨ inner = old.ereq) ∧
      r = withBounds lb (lb + extent) (subreq 0 1 0 1 inner inner.extent .null) := by
  rw [resized, if_neg ho.ne_null] at h
  simp only at h
  split at h
  · rename_i hc
    have hwf := (ho.entry hc.1).1
    rw [hvector, if_neg hwf.ne_null] at h
    exact ⟨old.ereq, hwf, .inr rfl, (Option.some.inj h).symm⟩
  · rw [hvector, if_neg ho.ne_null] at h
    exact ⟨old, ho, .inl rfl, (Option.some.inj h).symm⟩

theorem elementary_wf (h : r ∈ elementaryTypes) : ∃ size, 0 < size ∧ r = elementary size := by
  simp only [elementaryTypes, mem_cons, not_mem_nil, or_false] at h
  rcases h with h | h | h | h | h | h | h | h | h | h | h | h | h <;>
    exact ⟨_, by decide, h⟩

/-- A byte distance that comes from an argument of a constructor: the argument itself, or in
extents of the old request. -/
def Distance (ok : Int → Prop) (old : Request) (x : Int) : Prop :=
  x = 0 ∨ ok x ∨ ∃ s, ok s ∧ x = s * old.extent

variable {ok : Int → Prop}

/-- Induction over the construction of a request. All constructors come down to a vector, a
sequence or a resize record. -/
theorem Built.coreInduction (Q : Request → Prop)
    (helem : ∀ size, 0 < size → Q (Request.elementary size))
    (hvec : ∀ {count blocklength stride old r}, 0 < count → 0 < blocklength →
      Distance ok old stride → old.Wf → Q old →
      Request.hvector count blocklength stride old = some r → Q r)
    (hseq : ∀ {entries r}, entries ≠ [] →
      (∀ e ∈ entries, 0 < e.1 ∧ Distance ok e.2.2 e.2.1 ∧ e.2.2.Wf ∧ Q e.2.2) →
      sequence entries = some r → Q r) (hres : ∀ {lb extent old r}, ok extent → old.Wf → Q old →
      Request.resized old lb extent = some r → Q r) (h : Built ok r) : r.Wf ∧ Q r := by
  have hseqWf : ∀ {entries r}, entries ≠ [] →
      (∀ e ∈ entries, 0 < e.1 ∧ Distance ok e.2.2 e.2.1 ∧ e.2.2.Wf ∧ Q e.2.2) →
      sequence entries = some r → r.Wf ∧ Q r := by
    intro entries r hne hall h
    refine ⟨?_, hseq hne hall h⟩
    rcases sequence_wf (fun e he => (hall e he).1) (fun e he => (hall e he).2.2.1) h with rfl | hr
    · exact absurd rfl (sequence_ne_null hne (fun e he => (hall e he).2.2.1) h)
    · exact hr.1
  induction h with
  | elementary h =>
    obtain ⟨size, hpos, rfl⟩ := elementary_wf h
    exact ⟨.packed rfl hpos Nat.one_pos (Int.sub_zero size), helem size hpos⟩
  | contiguous hc _ h ih =>
    exact ⟨hvector_wf Nat.one_pos hc ih.1 h, hvec Nat.one_pos hc (.inl rfl) ih.1 ih.2 h⟩
  | vector hc hb hs _ h ih =>
    rw [Request.vector, if_neg ih.1.ne_null] at h
    exact ⟨hvector_wf hc hb ih.1 h, hvec hc hb (.inr (.inr ⟨_, hs, rfl⟩)) ih.1 ih.2 h⟩
  | hvector hc hb hs _ h ih =>
    exact ⟨hvector_wf hc hb ih.1 h, hvec hc hb (.inr (.inl hs)) ih.1 ih.2 h⟩
  | indexed hne hb _ h ih =>
    rw [Request.indexed, if_neg ih.1.ne_null] at h
    refine hseqWf (by simpa using hne) (fun e he => ?_) h
    obtain ⟨b, hbm, rfl⟩ := mem_map.mp he
    exact ⟨(hb b hbm).1, .inr (.inr ⟨_, (hb b hbm).2, rfl⟩), ih⟩
  | hindexed hne hb _ h ih =>
    rw [Request.hindexed, if_neg ih.1.ne_null] at h
    refine hseqWf (by simpa using hne) (fun e he => ?_) h
    obtain ⟨b, hbm, rfl⟩ := mem_map.mp he
    exact ⟨(hb b hbm).1, .inr (.inl (hb b hbm).2), ih⟩
  | struct hne hb _ h ih =>
    exact hseqWf hne (fun e he => ⟨(hb e he).1, .inr (.inl (hb e he).2), ih e he⟩) h
  | resized he _ h ih =>
    refine ⟨?_, hres he ih.1 ih.2 h⟩
    obtain ⟨inner, hwf, -, rfl⟩ := resized_inner ih.1 h
    exact withBounds_wf (subreq_wf_last hwf Nat.one_pos Nat.one_pos) hwf.ne_null _ _

/-- **Every request the constructors build is well formed.** -/
theorem Built.wf (h : Built ok r) : r.Wf :=
  (h.coreInduction (fun _ => True) (fun _ _ => trivial) (fun _ _ _ _ _ _ => trivial)
    (fun _ _ _ => trivial) fun _ _ _ _ => trivial).1

theorem Wf.length_window (h : r.Wf) (h0 : 0 ≤ target) (hle : target ≤ final) :
    (r.window target final).length = (final - target).toNat := by
  have hlen := (h.lt_length_stream (show 0 ≤ final by omega)).2
  rw [window, length_take, length_drop]
  omega

end Request

end Pvfs.Description
