import Pvfs.Description.Stream

/-! # The typemap of a request

The typemap is what a request means: every block, every element of a block and every entry
of a sequence at its displacement, in order. The decoder does not expand a request that
far. Where a test on sizes, extents and chunk counts calls a type contiguous it produces
one chunk for it, so the decoder's byte stream is the typemap exactly when every type the
tests call contiguous is. -/

namespace Pvfs.Description

open Pvfs.Lib List

namespace Request

/-- The bytes of one copy of a request placed at `base`. -/
def typemap : Request → Int → List Int
  | .null, _ => []
  | .node f e s, base =>
    -- no element type: packed bytes
    if e = .null then run (base + f.offset) f.aggregateSize.toNat
    else
      ((List.range f.numBlocks).flatMap fun b : Nat =>
        (List.range f.numEreqs).flatMap fun i : Nat =>
          e.typemap (base + f.offset + f.stride * b + i * e.extent)) ++
      s.typemap base

/-- The bytes of `n` copies, one extent apart. -/
def typeStream (r : Request) (n : Nat) : List Int :=
  (List.range n).flatMap fun i : Nat => r.typemap (i * r.extent)

/-- The elements of one block, the first of them at `p`. -/
def elements (e : Request) (p : Int) (n : Nat) : List Int :=
  (List.range n).flatMap fun i : Nat => e.typemap (p + i * e.extent)

theorem typeStream_eq_elements (r : Request) (n : Nat) : r.typeStream n = r.elements 0 n := by
  unfold typeStream elements
  simp only [Int.zero_add]

variable {r : Request} {n : Nat} {e : Request}

theorem typemap_eq (base : Int) (h : r.ereq ≠ .null) :
    r.typemap base = ((List.range r.numBlocks).flatMap fun b : Nat =>
        r.ereq.elements (base + r.offset + r.stride * b) r.numEreqs) ++ r.sreq.typemap base := by
  cases r with
  | null => exact absurd rfl h
  | node f e s =>
    rw [typemap, if_neg (show ¬ e = .null from h)]
    rfl

theorem typemap_shift (r : Request) (base d : Int) :
    r.typemap (base + d) = (r.typemap base).map (· + d) := by
  induction r generalizing base with
  | null => rfl
  | node f e s ihe ihs =>
    unfold typemap
    split
    · rw [map_run]
      intro j _
      omega
    · rw [map_append, ihs, map_flatMap]
      congr 2
      funext b
      rw [map_flatMap]
      congr 1
      funext i
      rw [← ihe]
      congr 1
      omega

theorem length_elements {size : Int} (h : ∀ base, ((e.typemap base).length : Int) = size) (p : Int)
    (n : Nat) : ((e.elements p n).length : Int) = size * n := by
  rw [elements, length_flatMap_const fun i _ => h _, length_range, Int.mul_comm]

theorem Wf.length_typemap (h : r.Wf) :
    ∀ base, ((r.typemap base).length : Int) = r.aggregateSize := by
  -- an entry, whatever follows it
  have hentry : ∀ {f : RequestFields} {e s : Request}, e ≠ .null →
      (∀ base, ((e.typemap base).length : Int) = e.aggregateSize) → ∀ base,
      (((node f e s).typemap base).length : Int) =
        e.aggregateSize * f.numBlocks * f.numEreqs + (s.typemap base).length := by
    intro f e s hne he base
    rw [typemap_eq (r := node f e s) base hne, length_append]
    push_cast
    simp only [ereq_node, numBlocks_node, numEreqs_node, sreq_node]
    rw [length_flatMap_const fun b _ => length_elements he _ _, length_range]
    ring
  induction h with
  | packed _ ha _ _ =>
    intro base
    rw [typemap, if_pos rfl, length_run, aggregateSize_node]
    omega
  | last he _ _ ha _ ih =>
    intro base
    rw [hentry he.ne_null ih, aggregateSize_node, ha]
    exact Int.add_zero _
  | more he _ _ _ _ ha _ _ ih ihs =>
    intro base
    rw [hentry he.ne_null ih, aggregateSize_node, ha, ihs]

/-! ## Contiguous types -/

/-- The bytes of one copy are one run. -/
def Contig (r : Request) : Prop :=
  r.typemap 0 = run (r.offset + r.disp) r.aggregateSize.toNat

instance (r : Request) : Decidable r.Contig := inferInstanceAs (Decidable (_ = _))

theorem contig_iff (r : Request) (base : Int) :
    run (base + r.offset + r.disp) r.aggregateSize.toNat = r.typemap base ↔ r.Contig := by
  have hrun : run (base + r.offset + r.disp) r.aggregateSize.toNat =
      (run (r.offset + r.disp) r.aggregateSize.toNat).map (· + base) :=
    (map_run fun j _ => by omega).symm
  have hmap : r.typemap base = (r.typemap 0).map (· + base) := by
    rw [← typemap_shift, Int.zero_add]
  rw [hrun, hmap, eq_comm]
  exact map_inj_right fun x y h => by simpa using h

theorem elements_contig_iff (h : e.Wf) (hx : e.aggregateSize = e.extent) (p : Int) (hn : 0 < n) :
    run (p + e.offset + e.disp) (n * e.aggregateSize.toNat) = e.elements p n ↔ e.Contig := by
  have ha := h.aggregateSize_pos
  have hcast : ((e.aggregateSize.toNat : Nat) : Int) = e.extent := by omega
  rw [run_mul, elements, flatMap_eq_flatMap_iff]
  · constructor
    · intro hall
      have h0 := hall 0 (mem_range.mpr hn)
      simp only [Nat.cast_zero, Int.zero_mul, Int.add_zero] at h0
      exact (contig_iff e p).mp h0
    · intro hc i _
      rw [hcast, ← (contig_iff e (p + i * e.extent)).mpr hc]
      congr 1
      omega
  · intro i _
    have := h.length_typemap (p + i * e.extent)
    rw [length_run]
    omega

/-- Every type the tests call contiguous is, on the way down from the entries of `r`. -/
def EntriesSound : Request → Prop
  | .null => True
  | .node _ e s =>
    (if e.isContig ∨ e.isWhole then e.Contig else e.EntriesSound) ∧ s.EntriesSound

instance decidableEntriesSound : (r : Request) → Decidable r.EntriesSound
  | .null => isTrue trivial
  | .node _ e s =>
    have := decidableEntriesSound e
    have := decidableEntriesSound s
    inferInstanceAs (Decidable ((if e.isContig ∨ e.isWhole then e.Contig else e.EntriesSound) ∧
      s.EntriesSound))

/-- Every type that the contiguity tests let the decoder take in one piece is contiguous. -/
def ShortcutsSound (r : Request) : Prop :=
  if r.isWhole then r.Contig else r.EntriesSound

instance (r : Request) : Decidable r.ShortcutsSound :=
  inferInstanceAs (Decidable (if r.isWhole then r.Contig else r.EntriesSound))

theorem entriesSound_iff (h : r ≠ .null) : r.EntriesSound ↔
    (if r.ereq.isContig ∨ r.ereq.isWhole then r.ereq.Contig else r.ereq.EntriesSound) ∧
      r.sreq.EntriesSound := by
  cases r with
  | null => exact absurd rfl h
  | node f e s => rfl

theorem Wf.extent_of_whole (h : r.Wf) (hw : r.isWhole = true) : r.aggregateSize = r.extent := by
  simp only [isWhole, decide_eq_true_eq] at hw
  rcases hw with hnull | ⟨hx, -⟩
  · cases h with
    | packed _ _ _ hx => exact hx.symm
    | last he _ _ _ _ | more he _ _ _ _ _ _ _ => exact absurd hnull he.ne_null
  · exact hx

theorem extent_of_contig (h : r.isContig = true) : r.aggregateSize = r.extent := by
  simp only [isContig, decide_eq_true_eq] at h
  exact h.1

theorem copies_eq_elements_iff (h : e.Wf) (hne : e.ereq ≠ .null)
    (ih : ∀ base, expand (e.chain base) = e.typemap base ↔ e.EntriesSound) (p : Int) (hn : 0 < n) :
    expand (e.copies p 0 n) = e.elements p n ↔ e.EntriesSound := by
  have hcopies : expand (e.copies p 0 n) =
      (List.range n).flatMap fun i : Nat => expand (e.chain (p + i * e.extent)) := by
    rw [copies, expand_flatMap]
    simp
  rw [hcopies, elements, flatMap_eq_flatMap_iff]
  · constructor
    · intro hall
      exact (ih _).mp (hall 0 (mem_range.mpr hn))
    · intro hs i _
      exact (ih _).mpr hs
  · intro i _
    have h1 := h.length_chain hne (p + i * e.extent)
    have h2 := h.length_typemap (p + i * e.extent)
    omega

theorem disp_eq (r : Request) : r.disp = r.ereq.offset + r.ereq.disp := by
  cases r <;> rfl

theorem block_eq_elements_iff (h : r.Wf) (hne : r.ereq ≠ .null) (ih : r.ereq.ereq ≠ .null → ∀ base,
      expand (r.ereq.chain base) = r.ereq.typemap base ↔ r.ereq.EntriesSound) (base : Int) (b : Nat) :
    expand (r.block base b) =
        r.ereq.elements (base + r.offset + r.stride * b) r.numEreqs ↔
      if r.ereq.isContig ∨ r.ereq.isWhole then r.ereq.Contig else r.ereq.EntriesSound := by
  obtain ⟨hewf, hn, -, -⟩ := h.entry hne
  have ha := hewf.aggregateSize_pos
  -- the chunk that stands for a block of a contiguous type
  have hone : r.ereq.aggregateSize = r.ereq.extent → ∀ o s, s = r.numEreqs * r.ereq.aggregateSize →
      o = base + r.offset + r.stride * b + r.ereq.offset + r.ereq.disp →
      (expand [(o, s)] = r.ereq.elements (base + r.offset + r.stride * b) r.numEreqs ↔
        r.ereq.Contig) := by
    rintro hx o s rfl rfl
    rw [← elements_contig_iff hewf hx _ hn, expand_cons, expand_nil, append_nil]
    rw [Int.toNat_mul (by omega) (by omega), Int.toNat_natCast]
  unfold block
  by_cases hc : r.ereq.isContig = true
  · rw [if_pos hc, if_pos (.inl hc)]
    refine hone (extent_of_contig hc) _ _ (Int.mul_comm _ _) ?_
    rw [disp_eq r]
    omega
  · rw [if_neg hc]
    unfold tiles
    by_cases hw : r.ereq.isWhole = true
    · rw [if_pos hw, if_pos (.inr hw)]
      exact hone (hewf.extent_of_whole hw) _ _ rfl (by omega)
    · rw [if_neg hw, if_neg (by simp [hc, hw])]
      have hene := ereq_ne_null_of_not_whole (by simpa using hw)
      exact copies_eq_elements_iff hewf hene (ih hene) _ hn

/-- **The chunks of an entry and its typemap** are the same bytes exactly when the shortcuts are
sound. -/
theorem Wf.chain_eq_typemap_iff (h : r.Wf) :
    r.ereq ≠ .null → ∀ base, expand (r.chain base) = r.typemap base ↔ r.EntriesSound := by
  refine h.entryInduction
    (fun r => ∀ base, expand (r.chain base) = r.typemap base ↔ r.EntriesSound) ?_
  intro r hwf hne ihe ihs base
  obtain ⟨hewf, hn, hb, -⟩ := hwf.entry hne
  have hrest : expand (r.sreq.chain base) = r.sreq.typemap base ↔ r.sreq.EntriesSound := by
    by_cases hs : r.sreq = .null
    · rw [hs]
      exact ⟨fun _ => trivial, fun _ => rfl⟩
    · exact ihs hs base
  have hlen : ∀ b ∈ List.range r.numBlocks, (expand (r.block base b)).length =
      (r.ereq.elements (base + r.offset + r.stride * b) r.numEreqs).length := by
    intro b _
    have h1 := hwf.length_block hne base b
    have h2 := length_elements hewf.length_typemap (base + r.offset + r.stride * b) r.numEreqs
    omega
  have hblocks : (expand (r.blocks base 0) = (List.range r.numBlocks).flatMap fun b : Nat =>
      r.ereq.elements (base + r.offset + r.stride * b) r.numEreqs) ↔
      if r.ereq.isContig ∨ r.ereq.isWhole then r.ereq.Contig else r.ereq.EntriesSound := by
    rw [blocks, expand_flatMap, Nat.sub_zero, ← range_eq_range', flatMap_eq_flatMap_iff hlen]
    constructor
    · intro hall
      exact (block_eq_elements_iff hwf hne ihe base 0).mp (hall 0 (mem_range.mpr hb))
    · intro hs b _
      exact (block_eq_elements_iff hwf hne ihe base b).mpr hs
  have hsize : (expand (r.blocks base 0)).length =
      ((List.range r.numBlocks).flatMap fun b : Nat =>
        r.ereq.elements (base + r.offset + r.stride * b) r.numEreqs).length := by
    rw [blocks, expand_flatMap, Nat.sub_zero, ← range_eq_range', length_flatMap,
      length_flatMap, map_congr_left hlen]
  rw [chain_eq base hwf.ne_null, typemap_eq base hne, expand_append,
    append_eq_append_iff_of_size_eq_left hsize, hblocks, hrest, entriesSound_iff hwf.ne_null]

/-! ## Streams -/

/-- **The decoder's stream is the typemap** exactly when the shortcuts are sound. -/
theorem Wf.stream_eq_iff (h : r.Wf) (hn : 0 < n) :
    r.stream n = r.typeStream n ↔ r.ShortcutsSound := by
  have ha := h.aggregateSize_pos
  rw [typeStream_eq_elements]
  unfold stream tiles ShortcutsSound
  by_cases hw : r.isWhole = true
  · rw [if_pos hw, if_pos hw, ← elements_contig_iff h (h.extent_of_whole hw) 0 hn, expand_cons,
      expand_nil, append_nil]
    rw [Int.toNat_mul (by omega) (by omega), Int.toNat_natCast, Int.add_zero, Int.zero_add]
  · rw [if_neg hw, if_neg hw]
    have hne := ereq_ne_null_of_not_whole (by simpa using hw)
    exact copies_eq_elements_iff h hne (h.chain_eq_typemap_iff hne) 0 hn

theorem Wf.stream_first (h : r.Wf) {n : Int} (hn : 0 < n) :
    ∃ tail, r.stream n = r.stream 1 ++ tail := by
  have ha := h.aggregateSize_pos
  unfold stream tiles
  split
  · refine ⟨run (r.offset + 0 + r.disp + r.aggregateSize.toNat)
      ((n - 1) * r.aggregateSize).toNat, ?_⟩
    have hsplit : n * r.aggregateSize = 1 * r.aggregateSize + (n - 1) * r.aggregateSize := by ring
    simp only [expand_cons, expand_nil, append_nil]
    rw [hsplit, Int.toNat_add (by omega) (Int.mul_nonneg (by omega) (by omega)), run_add,
      Int.one_mul]
  · rw [copies_of_lt hn, copies_of_lt (show (0 : Int) < 1 by decide),
      copies_of_ge (show (1 : Int) ≤ 0 + 1 by decide), append_nil]
    exact ⟨_, expand_append _ _⟩

theorem typeStream_one (r : Request) : r.typeStream 1 = r.typemap 0 := by
  simp [typeStream]

theorem typeStream_first (r : Request) (hn : 0 < n) :
    ∃ tail, r.typeStream n = r.typemap 0 ++ tail := by
  obtain ⟨m, rfl⟩ : ∃ m, n = m + 1 := ⟨n - 1, by omega⟩
  rw [typeStream, range_succ_eq_map, flatMap_cons, Nat.cast_zero, Int.zero_mul]
  exact ⟨_, rfl⟩

/-! ### Contiguous types -/

theorem typemap_first (base : Int) (hne : r.ereq ≠ .null) (hb : 0 < r.numBlocks)
    (hn : 0 < r.numEreqs) : ∃ rest, r.typemap base = r.ereq.typemap (base + r.offset) ++ rest := by
  obtain ⟨nb, hnb⟩ : ∃ m, r.numBlocks = m + 1 := ⟨r.numBlocks - 1, by omega⟩
  obtain ⟨ne, hne'⟩ : ∃ m, r.numEreqs = m + 1 := ⟨r.numEreqs - 1, by omega⟩
  rw [typemap_eq base hne, hnb, range_succ_eq_map, flatMap_cons, Nat.cast_zero,
    Int.mul_zero, Int.add_zero, elements, hne', range_succ_eq_map, flatMap_cons,
    Nat.cast_zero, Int.zero_mul, Int.add_zero, append_assoc, append_assoc]
  exact ⟨_, rfl⟩

theorem Wf.head_typemap (h : r.Wf) :
    ∀ base, ∃ tail, r.typemap base = (base + r.offset + r.disp) :: tail := by
  have hentry : ∀ {r : Request}, r.Wf → r.ereq ≠ .null →
      (∀ base, ∃ tail, r.ereq.typemap base = (base + r.ereq.offset + r.ereq.disp) :: tail) →
      ∀ base, ∃ tail, r.typemap base = (base + r.offset + r.disp) :: tail := by
    intro r hwf hne ih base
    obtain ⟨-, hn, hb, -⟩ := hwf.entry hne
    obtain ⟨tail, ht⟩ := ih (base + r.offset)
    obtain ⟨rest, hrest⟩ := typemap_first base hne hb hn
    refine ⟨tail ++ rest, ?_⟩
    rw [hrest, ht, disp_eq r, cons_append]
    congr 1
    omega
  induction h with
  | @packed f ho ha _ _ =>
    intro base
    rw [typemap, show f.aggregateSize.toNat = f.aggregateSize.toNat - 1 + 1 by omega]
    exact ⟨_, congrArg (· :: _) (Int.add_zero _).symm⟩
  | last he hn hb ha hd ih => exact hentry (.last he hn hb ha hd) he.ne_null ih
  | more he hs hse hn hb ha hd hds ih _ =>
    exact hentry (.more he hs hse hn hb ha hd hds) he.ne_null ih

theorem Wf.entriesSound_of_run (h : r.Wf) :
    r.ereq ≠ .null → ∀ base a n, r.typemap base = run a n → r.EntriesSound := by
  refine h.entryInduction (fun r => ∀ base a n, r.typemap base = run a n → r.EntriesSound) ?_
  intro r hwf hne ihe ihs base a n hrun
  obtain ⟨hewf, hn, hb, -⟩ := hwf.entry hne
  obtain ⟨tail, ht⟩ := hewf.head_typemap (base + r.offset)
  obtain ⟨rest, hrest⟩ := typemap_first base hne hb hn
  obtain ⟨hfirst, -⟩ := append_eq_run (hrest ▸ hrun)
  obtain ⟨-, hlast⟩ := append_eq_run ((typemap_eq base hne) ▸ hrun)
  rw [entriesSound_iff hwf.ne_null]
  constructor
  · split
    · -- the first element starts where its first byte lies
      rw [← contig_iff r.ereq (base + r.offset)]
      have hlen := hewf.length_typemap (base + r.offset)
      have hstart : a = base + r.offset + r.ereq.offset + r.ereq.disp := by
        rw [ht] at hfirst
        exact ((List.cons.inj hfirst).1).symm
      rw [← hstart, show r.ereq.aggregateSize.toNat =
        (r.ereq.typemap (base + r.offset)).length by omega]
      exact hfirst.symm
    · next hnot =>
      refine ihe (fun hnull => hnot (.inr ?_)) _ _ _ hfirst
      simp [isWhole, hnull]
  · by_cases hs : r.sreq = .null
    · rw [hs]
      trivial
    · exact ihs hs _ _ _ hlast

theorem Wf.shortcutsSound_of_contig (h : r.Wf) (hc : r.Contig) : r.ShortcutsSound := by
  unfold ShortcutsSound
  split
  · exact hc
  · next hw =>
    refine h.entriesSound_of_run (fun hnull => hw ?_) 0 _ _ hc
    simp [isWhole, hnull]

theorem Wf.window_one (h : r.Wf) : r.window 0 r.aggregateSize = r.stream 1 := by
  have ha := h.aggregateSize_pos
  obtain ⟨hn, -⟩ := h.lt_length_stream (Int.le_of_lt ha)
  obtain ⟨tail, ht⟩ := h.stream_first hn
  have hlen := h.length_stream (show (0 : Int) ≤ 1 by decide)
  rw [window, ht, Int.toNat_zero, drop_zero,
    take_append_of_le_length (by omega), take_of_length_le (by omega)]

end Request

end Pvfs.Description
