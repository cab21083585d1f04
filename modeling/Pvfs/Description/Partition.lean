import Mathlib.Algebra.BigOperators.Ring.Finset
import Pvfs.Description.Segments
import Pvfs.Description.Typemap

/-! # The servers of a striped file share a request out

Every server of a striped file processes the same request and picks the bytes it stores.
Mapped back to logical offsets, what all of them pick is a rearrangement of the window: no
byte is left to nobody and none is taken twice.

That is a statement about the bytes the decoder produces, so for the bytes the request
*describes* it needs the decoder's contiguity tests to be right. It also needs offsets that
are not negative: the remainder of a negative offset is negative, and then the server that
should hold the byte skips to offset zero. -/

namespace Pvfs.Description

open Pvfs.Lib List RequestFileData Description.Dist

/-! ## The window, as the request describes it -/

namespace Request

/-- The bytes a window selects from the tiled typemap. -/
def typeWindow (r : Request) (target final : Int) : List Int :=
  ((r.typeStream (r.copiesFor final).toNat).drop target.toNat).take (final - target).toNat

/-- However often the request is tiled, its bytes are disjoint and in increasing order. -/
def Increasing (r : Request) : Prop := ∀ n, (r.typeStream n).Pairwise (· < ·)

variable {r : Request}

theorem increasing_of (h : (r.typemap 0).Pairwise (· < ·))
    (hx : ∀ x ∈ r.typemap 0, ∀ y ∈ r.typemap 0, x < y + r.extent) (hext : 0 ≤ r.extent) :
    r.Increasing := by
  have hmem : ∀ {i : Nat} {x}, x ∈ r.typemap (i * r.extent) →
      ∃ y ∈ r.typemap 0, x = y + i * r.extent := by
    intro i x hx
    rw [← Int.zero_add (i * r.extent), typemap_shift] at hx
    obtain ⟨y, hy, rfl⟩ := mem_map.mp hx
    exact ⟨y, hy, rfl⟩
  intro n
  rw [typeStream, pairwise_flatMap]
  refine ⟨fun i _ => ?_, ?_⟩
  · rw [← Int.zero_add (i * r.extent), typemap_shift, pairwise_map]
    exact h.imp fun hxy => by omega
  · refine (pairwise_lt_range).imp fun {i j} hij x hxi y hyj => ?_
    obtain ⟨a, ha, rfl⟩ := hmem hxi
    obtain ⟨b, hb, rfl⟩ := hmem hyj
    have hab := hx a ha b hb
    have hmul : ((i + 1 : Nat) : Int) * r.extent ≤ j * r.extent :=
      Int.mul_le_mul_of_nonneg_right (by omega) hext
    push_cast at hmul
    rw [Int.add_mul] at hmul
    omega

theorem Increasing.extent_pos (h : r.Increasing) (hr : r.Wf) : 0 < r.extent := by
  have hlen := hr.length_typemap 0
  have ha := hr.aggregateSize_pos
  obtain ⟨x, xs, hx⟩ : ∃ x xs, r.typemap 0 = x :: xs := by
    cases hm : r.typemap 0 with
    | nil =>
      rw [hm] at hlen
      simp at hlen
      omega
    | cons x xs => exact ⟨x, xs, rfl⟩
  have h2 := h 2
  have htwo : r.typeStream 2 = r.typemap 0 ++ r.typemap (0 + r.extent) := by
    simp [typeStream, range_succ]
  rw [htwo, typemap_shift, hx, pairwise_append] at h2
  have := h2.2.2 x (by simp) (x + r.extent) (by simp)
  omega

theorem Increasing.typeStream_nonneg (h : r.Increasing) (hr : r.Wf)
    (h0 : ∀ x ∈ r.typemap 0, 0 ≤ x) (n : Nat) : ∀ x ∈ r.typeStream n, 0 ≤ x := by
  intro x hx
  obtain ⟨i, -, hi⟩ := mem_flatMap.mp hx
  rw [← Int.zero_add (i * r.extent), typemap_shift] at hi
  obtain ⟨y, hy, rfl⟩ := mem_map.mp hi
  have := h0 y hy
  have : 0 ≤ (i : Int) * r.extent := Int.mul_nonneg (by omega) (Int.le_of_lt (h.extent_pos hr))
  omega

theorem Wf.window_eq_typeWindow (h : r.Wf) (hs : r.ShortcutsSound) (target : Int)
    {final : Int} (hf : 0 ≤ final) : r.window target final = r.typeWindow target final := by
  obtain ⟨hn, -⟩ := h.lt_length_stream hf
  have heq := (h.stream_eq_iff (n := (r.copiesFor final).toNat) (by omega)).mpr hs
  rw [Int.toNat_of_nonneg (by omega)] at heq
  rw [window, typeWindow, heq]

end Request

/-! ## All servers of a file -/

/-- What server `nr` of `ct` starts with: its file, and a budget. -/
def Shared.striped (strip : Int) (nr ct : Nat) (b : Nat × Int) : Shared :=
  let sh := Shared.fresh (.striped strip nr ct)
  { sh with result := sh.result.reset b.1 b.2 }

/-- The bytes server `nr` has written, mapped back to the file. -/
def logicalBytes (strip : Int) (nr ct : Nat) (sh : Shared) : List Int :=
  (expand sh.result.segments).map ((simpleStripe strip).physicalToLogicalOffset nr ct)

/-- Every server processes the window to its end, every byte the request describes there is
picked by exactly one server, once, nothing else is picked, and the totals add up. -/
def Partitions (r : Request) (strip : Int) (ct : Nat) (target final : Int) (b : Nat × Int) : Prop :=
  ∃ outs : Nat → Shared,
    (∀ nr < ct, ∃ req', Returns (processRequest · (.opened r target final)
        (.striped strip nr ct b) .pintServer) (.ret 0 req' (outs nr)) ∧ req'.done = true) ∧
    (∀ x, ((range ct).flatMap fun nr => logicalBytes strip nr ct (outs nr)).count x =
      if x ∈ r.typeWindow target final then 1 else 0) ∧
    ((range ct).map fun nr => (outs nr).result.bytes).sum = final - target

section
variable {r : Request} {strip target final : Int} {nr ct : Nat} {b : Nat × Int}
variable (hr : r.Wf) (hs : 0 < strip) (h0 : 0 ≤ target) (htf : target < final)
  (hsm : final - target ≤ b.1) (hbm : final - target ≤ b.2)
  (hx : ∀ x ∈ r.window target final, 0 ≤ x ∧ x < stripeLimit strip ct)
include hr hs h0 htf hsm hbm hx

theorem striped_call (hn : nr < ct) :
    ∃ req' sh', Returns (processRequest · (.opened r target final) (.striped strip nr ct b)
        .pintServer) (.ret 0 req' sh') ∧ req'.done = true ∧
      sh'.result.bytes = (logicalBytes strip nr ct sh').length ∧
      logicalBytes strip nr ct sh' = (r.window target final).filter
        fun x => decide ((simpleStripe strip).Mapped nr ct x) := by
  have law := striped_lawful hs hn
  have hbytes : ∀ q ∈ numbered target (r.window target final),
      Reachable (.striped strip nr ct) (stripeLimit strip ct) q.1 q.2 := by
    intro q hq
    have := hx q.2 (snd_mem_of_numbered hq)
    exact ⟨this.1, fun _ => this.2⟩
  obtain ⟨req', sh', hret, hdone, -, hlen, hexp⟩ := call_done _ hr (server_writes _) rfl rfl h0 htf
    (.inl rfl) (fun x hxw _ => (hx x hxw).2) hbytes (server_serves law target b) hsm hbm (.refl _)
    (server_opens _ (Shared.fresh (.striped strip nr ct)))
  have hvis : (striped strip nr ct).visible =
      fun x => decide ((simpleStripe strip).Mapped nr ct x) := by
    funext x
    simp only [visible, striped, Bool.true_or, Bool.and_true]
    rfl
  refine ⟨req', sh', hret, hdone, by rw [hlen, logicalBytes, length_map], ?_⟩
  -- a stored byte maps back to itself
  rw [logicalBytes, hexp, map_map, hvis, ← map_snd_visit _ target]
  refine map_congr_left fun q hq => ?_
  obtain ⟨hq, hm⟩ := mem_filter.mp hq
  obtain ⟨h0q, hlt⟩ := hbytes q hq
  have hm : (simpleStripe strip).Mapped nr ct q.2 := by simpa using hm
  exact law.logical_phys q.2 h0q (hlt hm) hm

/-- **The servers share the window out**, when all its bytes are in reach. -/
theorem striped_partition (hc : 0 < ct) :
    ∃ outs : Nat → Shared,
      (∀ nr < ct, ∃ req', Returns (processRequest · (.opened r target final)
          (.striped strip nr ct b) .pintServer) (.ret 0 req' (outs nr)) ∧ req'.done = true) ∧
      ((range ct).flatMap fun nr => logicalBytes strip nr ct (outs nr)).Perm
        (r.window target final) ∧
      ((range ct).map fun nr => (outs nr).result.bytes).sum = final - target := by
  have : Nonempty RequestState := ⟨.opened r target final⟩
  have : Nonempty Shared := ⟨.striped strip 0 ct b⟩
  choose! req' outs houts using fun nr (hn : nr < ct) => striped_call hr hs h0 htf hsm hbm hx hn
  have hperm : ((range ct).flatMap fun nr => logicalBytes strip nr ct (outs nr)).Perm
      (r.window target final) := by
    have heq : ((range ct).flatMap fun nr => logicalBytes strip nr ct (outs nr)) =
        (range ct).flatMap fun nr => (r.window target final).filter
          fun x => decide ((simpleStripe strip).Mapped nr ct x) := by
      refine flatMap_congr fun nr hnr => ?_
      exact (houts nr (mem_range.mp hnr)).2.2.2
    rw [heq]
    refine perm_flatMap_filter fun x hxw => ?_
    simpa using exists_server hs hc (hx x hxw).1
  refine ⟨outs, fun nr hn => ⟨req' nr, (houts nr hn).1, (houts nr hn).2.1⟩, hperm, ?_⟩
  · have hsum : ((range ct).map fun nr => (outs nr).result.bytes).sum =
        (((range ct).flatMap fun nr => logicalBytes strip nr ct (outs nr)).length : Int) := by
      rw [length_flatMap, Nat.cast_list_sum, map_map]
      congr 1
      refine map_congr_left fun nr hnr => ?_
      exact (houts nr (mem_range.mp hnr)).2.2.1
    rw [hsum, hperm.length_eq, hr.length_window h0 (Int.le_of_lt htf)]
    omega

theorem Partitions.count_window (hc : 0 < ct) (h : Partitions r strip ct target final b) (x : Int) :
    (r.window target final).count x = if x ∈ r.typeWindow target final then 1 else 0 := by
  obtain ⟨outs, hruns, hcount, -⟩ := h
  obtain ⟨outs', hruns', hperm, -⟩ := striped_partition hr hs h0 htf hsm hbm hx hc
  rw [← hcount x, ← hperm.count_eq]
  congr 1
  refine flatMap_congr fun nr hnr => ?_
  obtain ⟨req1, hret1, -⟩ := hruns nr (mem_range.mp hnr)
  obtain ⟨req2, hret2, -⟩ := hruns' nr (mem_range.mp hnr)
  obtain ⟨-, -, heq⟩ := Processed.ret.inj (hret1.unique hret2)
  rw [heq]

end

/-! ## Negative offsets -/

section
variable {strip : Int}

/-- The remainder of a negative offset is negative, so the server takes it for one before its
first strip. -/
theorem nextMappedOffset_neg {x : Int} (hx : x < 0) (hs : -strip < x) :
    (simpleStripe strip).nextMappedOffset 0 1 x = 0 := by
  have hmod : x.tmod strip = x := by
    have := Int.neg_tmod (-x) strip
    rw [Int.neg_neg, Int.tmod_eq_of_lt (a := -x) (by omega) (by omega)] at this
    omega
  simp only [simpleStripe, Nat.cast_zero, Nat.cast_one, Int.zero_mul, Int.one_mul, Int.sub_zero,
    hmod, if_pos hx]

theorem visible_neg {x : Int} (hx : x < 0) (hs : -strip < x) :
    (striped strip 0 1).visible x = false := by
  have hm : ¬ (striped strip 0 1).Mapped x := by
    intro h
    have := nextMappedOffset_neg hx hs
    exact absurd (h.symm.trans this) (by omega)
  rw [visible, decide_eq_false hm, Bool.false_and]

theorem server_serves_neg (target limit : Int) (b : Nat × Int) :
    Serves .pintServer (.striped strip 0 1) limit target
      (ByteRegion fun _ x => -strip < x ∧ x < 0)
      (ServerInv (.striped strip 0 1) b) := by
  refine ⟨rfl, fun h => h.within, fun h _ => h, ?_⟩
  intro v k k' offset size sh hI _ hfile hfull hsize hreg
  have hfirst := hreg 0 (le_refl 0) hsize
  have hlast := hreg (size - 1) (by omega) (by omega)
  have hnext : sh.rfdata.nextMappedOffset offset = 0 := by
    rw [hfile.nextMappedOffset]
    exact nextMappedOffset_neg (by omega) (by omega)
  have hleave : Leaves (distributeBody .pintServer) ⟨offset, size, 0, sh, false⟩
      (some ⟨offset, size, 0, sh, false⟩) := distributeBody_end (by simp only; omega)
  refine ⟨size, sh, false, hleave.returns.map fun n hn => ?_, by omega, le_refl _, hfile,
    ⟨k', ?_⟩, .inl rfl, .inl hsize, fun h => by cases h⟩
  · have heof : DistLoop.atEof ⟨offset, size, 0, sh, false⟩ = false := by
      simp [DistLoop.atEof, hfile.extendFlag, striped]
    simp only [distribute, show sh.scratch .pintServer (k - target) = sh from rfl]
    rw [if_neg (by rintro (h | h); exacts [hfull h, by omega]), hnext, if_neg (by decide), hn]
    simp only [Option.map_some, heof, ge_iff_le, if_pos (show offset + size ≤ 0 by omega)]
  · rw [visit_none, append_nil]
    · exact hI
    · intro x hx
      have hx' := mem_run.mp hx
      exact visible_neg (by omega) (by omega)

theorem striped_call_neg (strip : Int) {r : Request} {target final : Int} {b : Nat × Int} (hr : r.Wf)
    (h0 : 0 ≤ target) (htf : target < final) (hsm : final - target ≤ b.1)
    (hbm : final - target ≤ b.2) (hx : ∀ x ∈ r.window target final, -strip < x ∧ x < 0) :
    ∃ req' sh', Returns (processRequest · (.opened r target final) (.striped strip 0 1 b)
        .pintServer) (.ret 0 req' sh') ∧ logicalBytes strip 0 1 sh' = [] := by
  have hbytes : ∀ q ∈ numbered target (r.window target final), -strip < q.2 ∧ q.2 < 0 :=
    fun q hq => hx q.2 (snd_mem_of_numbered hq)
  obtain ⟨req', sh', hret, -, -, -, hexp⟩ := call_done _ hr (server_writes _) rfl rfl h0 htf
    (.inl rfl) (fun x hxw _ => (hx x hxw).2) hbytes (server_serves_neg target 0 b) hsm hbm (.refl _)
    (server_opens _ (Shared.fresh (.striped strip 0 1)))
  refine ⟨req', sh', hret, ?_⟩
  rw [logicalBytes, hexp, visit_none]
  · rfl
  · intro x hxw
    exact visible_neg (hx x hxw).2 (hx x hxw).1

end

/-! ## When the servers share a request out -/

section
variable {r : Request}

/-- Striping shares the request out: on every layout and for every window in its range. -/
def Request.SharedOut (r : Request) : Prop :=
  ∀ (strip : Int) (ct : Nat) (target final : Int) (b : Nat × Int), 0 < strip → 0 < ct →
    0 ≤ target → target < final → final - target ≤ b.1 → final - target ≤ b.2 →
    (∀ x ∈ r.typeWindow target final, x < stripeLimit strip ct) →
    Partitions r strip ct target final b

theorem Request.Wf.window_byte (hr : r.Wf) {t : Nat} (ht : (t : Int) < r.aggregateSize) :
    r.window t (t + 1) = ((r.stream 1)[t]?).toList ∧
      r.typeWindow t (t + 1) = ((r.typemap 0)[t]?).toList := by
  obtain ⟨hn, -⟩ := hr.lt_length_stream (show (0 : Int) ≤ t + 1 by omega)
  obtain ⟨tail, htail⟩ := hr.stream_first hn
  obtain ⟨tail', htail'⟩ := r.typeStream_first (n := (r.copiesFor (t + 1)).toNat) (by omega)
  have hlen := hr.length_stream (show (0 : Int) ≤ 1 by decide)
  have hlen' := hr.length_typemap 0
  rw [window, typeWindow, htail, htail',
    show ((t : Int) + 1 - t).toNat = 1 by omega, take_one, take_one, head?_drop,
    head?_drop, getElem?_append_left (by omega), getElem?_append_left (by omega)]
  exact ⟨rfl, rfl⟩

theorem Request.SharedOut.byte (h : r.SharedOut) (hr : r.Wf) {t : Nat} {d e : Int}
    (hd : (r.stream 1)[t]? = some d) (he : (r.typemap 0)[t]? = some e) : d = e ∧ 0 ≤ d := by
  have hlen := hr.length_typemap 0
  have ht : t < (r.typemap 0).length := (List.getElem?_eq_some_iff.mp he).1
  obtain ⟨hw, htw⟩ := hr.window_byte (t := t) (by omega)
  rw [hd] at hw
  rw [he, Option.toList_some] at htw
  -- one server, and a strip that is longer than both offsets
  obtain ⟨strip, hs, hsd, hse⟩ : ∃ strip : Int, 0 < strip ∧ -strip < d ∧ d < strip ∧ e < strip :=
    ⟨d.natAbs + e.natAbs + 1, by omega, by omega, by omega, by omega⟩
  have hlim : strip ≤ stripeLimit strip 1 := by
    unfold stripeLimit
    omega
  obtain ⟨outs, hruns, hcount, -⟩ := h strip 1 t (t + 1) (1, 1) hs Nat.one_pos (by omega)
    (by omega) (by simp) (by simp) (by rw [htw]; simp; omega)
  obtain ⟨req', hret, -⟩ := hruns 0 Nat.one_pos
  have hone := hcount e
  rw [htw] at hone
  simp only [range_one, flatMap_singleton, mem_singleton, if_true] at hone
  rcases Int.lt_or_le d 0 with hneg | hpos
  · -- a negative byte is nobody's
    obtain ⟨req1, sh1, hret1, hnil⟩ := striped_call_neg strip (b := (1, 1)) hr
      (show (0 : Int) ≤ t by omega) (show (t : Int) < t + 1 by omega) (by simp) (by simp)
      (by rw [hw]; simp; omega)
    obtain ⟨-, -, rfl⟩ := Processed.ret.inj (hret.unique hret1)
    rw [hnil] at hone
    simp at hone
  · obtain ⟨req1, sh1, hret1, -, -, hbytes⟩ := striped_call (b := (1, 1)) hr hs
      (show (0 : Int) ≤ t by omega) (show (t : Int) < t + 1 by omega) (by simp) (by simp)
      (by rw [hw]; simp; omega) Nat.one_pos
    obtain ⟨-, -, rfl⟩ := Processed.ret.inj (hret.unique hret1)
    have hmem : e ∈ logicalBytes strip 0 1 (outs 0) := count_pos_iff.mp (by omega)
    rw [hbytes, hw] at hmem
    have hed := mem_singleton.mp (mem_of_mem_filter hmem)
    exact ⟨hed.symm, hpos⟩

/-- **Striping partitions a request** on every layout and for every window exactly when the
decoder's contiguity tests are right about it and none of its bytes is negative. -/
theorem striping_partitions_iff (hr : r.Built fun _ => True) (hinc : r.Increasing) :
    r.SharedOut ↔ r.ShortcutsSound ∧ ∀ x ∈ r.typemap 0, 0 ≤ x := by
  have hwf := hr.wf
  have hlen := hwf.length_typemap 0
  have hlen' := hwf.length_stream (show (0 : Int) ≤ 1 by decide)
  constructor
  · intro h
    have heq : r.stream 1 = r.typemap 0 := by
      refine ext_getElem? fun t => ?_
      cases hd : (r.stream 1)[t]? with
      | none =>
        have := getElem?_eq_none_iff.mp hd
        exact (getElem?_eq_none_iff.mpr (by omega)).symm
      | some d =>
        have := (List.getElem?_eq_some_iff.mp hd).1
        have he := List.getElem?_eq_getElem (l := r.typemap 0) (i := t) (by omega)
        rw [he, (h.byte hwf hd he).1]
    refine ⟨(hwf.stream_eq_iff Nat.one_pos).mp (by rw [Request.typeStream_one]; exact heq), ?_⟩
    intro x hx
    obtain ⟨t, ht⟩ := getElem?_of_mem hx
    exact (h.byte hwf (heq ▸ ht) ht).2
  · rintro ⟨hsound, hnn⟩ strip ct target final b hs hc h0 htf hsm hbm hlim
    have hwin := hwf.window_eq_typeWindow hsound target (show 0 ≤ final by omega)
    have hmem : ∀ x ∈ r.typeWindow target final, 0 ≤ x := fun x hx =>
      hinc.typeStream_nonneg hwf hnn _ x (mem_of_mem_drop (mem_of_mem_take hx))
    obtain ⟨outs, hruns, hperm, hsum⟩ := striped_partition hwf hs h0 htf hsm hbm
      (by rw [hwin]; exact fun x hx => ⟨hmem x hx, hlim x hx⟩) hc
    refine ⟨outs, hruns, fun x => ?_, hsum⟩
    rw [hperm.count_eq, hwin]
    have hnodup : (r.typeWindow target final).Nodup :=
      (((hinc _).imp fun h => Int.ne_of_lt h).drop).take
    exact hnodup.count

/-- The first and the third byte of every three, over any number of servers. -/
theorem striping_partitions_vector :
    ∃ r, Request.vector 2 1 2 .pintByte = some r ∧ r.SharedOut :=
  ⟨_, rfl, (striping_partitions_iff
    (@Request.Built.vector _ 2 1 2 .pintByte _ (by decide) (by decide) trivial
      (.elementary (by decide)) rfl)
    (Request.increasing_of (by decide) (by decide) (by decide))).mpr ⟨by decide, by decide⟩⟩

/-- Two integers with a gap of two bytes between them, in a record as long as both with the gap.
Each integer sits in an element type resized to half its length, so that the pair has as many
bytes as its extent and passes for contiguous: over two servers with strips of four bytes,
the window of the first copy gets the gap and loses the last two bytes. -/
theorem striping_misses_gap :
    ∃ int pair r, Request.resized .pintInt 0 2 = some int ∧
      Request.hvector 2 1 6 int = some pair ∧ Request.resized pair 0 10 = some r ∧
      (r.Built fun _ => True) ∧ r.Increasing ∧
      r.typeWindow 0 8 = [0, 1, 2, 3, 6, 7, 8, 9] ∧ r.window 0 8 = [0, 1, 2, 3, 4, 5, 6, 7] ∧
      ¬ Partitions r 4 2 0 8 (8, 8) := by
  refine ⟨_, _, _, rfl, rfl, rfl, ?_⟩
  have hb := @Request.Built.resized (fun _ => True) 0 10 _ _ trivial
    (@Request.Built.hvector _ 2 1 6 _ _ (by decide) (by decide) trivial
      (@Request.Built.resized _ 0 2 .pintInt _ trivial (.elementary (by decide)) rfl) rfl) rfl
  refine ⟨hb, Request.increasing_of (by decide) (by decide) (by decide), by decide, by decide, ?_⟩
  intro h
  have hnine := h.count_window hb.wf (by decide) (by decide) (by decide) (by decide) (by decide)
    (by decide) (by decide) 9
  exact absurd hnine (by decide)

end

end Pvfs.Description
