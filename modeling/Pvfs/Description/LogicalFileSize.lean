import Pvfs.Description.Distribution

/-! # The logical size of a striped file (dist-simple-stripe.c)

The end of a file is the largest of the ends its datafiles suggest, each for its own size. The
array of sizes is read by server number, whatever the caller has put there. -/

namespace Pvfs.Description

/-- `physical_to_logical_size`. -/
def physicalToLogicalSize (strip : Int) (serverNr serverCt : Nat) (physicalSize : Int) : Int :=
  let physicalSizeN1 := if physicalSize ≠ 0 then physicalSize - 1 else 0
  let stripsDiv := physicalSizeN1.tdiv strip
  let stripsMod := physicalSizeN1.tmod strip + 1
  stripsDiv * strip * serverCt + strip * serverNr + stripsMod

/-- One turn of the loop of `logical_file_size`. -/
def largerSize (strip : Int) (serverCt : Nat) (max : Int) (p : Int × Nat) : Int :=
  if p.1 ≠ 0 then
    let tmpMax := physicalToLogicalSize strip p.2 serverCt p.1
    if tmpMax > max then tmpMax else max
  else max

/-- `logical_file_size`. -/
def logicalFileSize (strip : Int) (psizes : List Int) : Int :=
  psizes.zipIdx.foldl (largerSize strip psizes.length) 0

variable {strip x : Int}

theorem lt_foldl_largerSize_iff {ct : Nat} (ps : List (Int × Nat)) :
    ∀ {max : Int}, x < ps.foldl (largerSize strip ct) max ↔
      x < max ∨ ∃ p ∈ ps, p.1 ≠ 0 ∧ x < physicalToLogicalSize strip p.2 ct p.1 := by
  induction ps with
  | nil =>
    intro max
    simp
  | cons p ps ih =>
    intro max
    rw [List.foldl_cons, ih, largerSize]
    simp only [List.mem_cons, exists_eq_or_imp, ← or_assoc]
    apply or_congr_left
    split
    · rename_i hne
      split
      · rename_i hgt
        constructor
        · intro hlt
          exact .inr ⟨hne, hlt⟩
        · rintro (hlt | ⟨-, hlt⟩)
          · exact Int.lt_trans hlt hgt
          · exact hlt
      · rename_i hle
        constructor
        · exact .inl
        · rintro (hlt | ⟨-, hlt⟩)
          · exact hlt
          · exact Int.lt_of_lt_of_le hlt (Int.not_lt.mp hle)
    · rename_i hz
      exact ⟨.inl, fun h => h.resolve_right fun hc => hz hc.1⟩

/-- The file ends behind the last byte that some datafile holds. -/
theorem lt_logicalFileSize_iff {psizes : List Int} (hx : 0 ≤ x) :
    x < logicalFileSize strip psizes ↔
      ∃ nr size, psizes[nr]? = some size ∧ size ≠ 0 ∧
        x < physicalToLogicalSize strip nr psizes.length size := by
  rw [logicalFileSize, lt_foldl_largerSize_iff]
  constructor
  · rintro (hlt | ⟨p, hp, hne, hlt⟩)
    · omega
    · exact ⟨p.2, p.1, List.mem_zipIdx_iff_getElem?.mp hp, hne, hlt⟩
  · rintro ⟨nr, size, hsize, hne, hlt⟩
    exact .inr ⟨(size, nr), List.mem_zipIdx_iff_getElem?.mpr hsize, hne, hlt⟩

theorem logicalFileSize_nonneg (strip : Int) (psizes : List Int) :
    0 ≤ logicalFileSize strip psizes := by
  have hlt : (-1 : Int) < logicalFileSize strip psizes := by
    rw [logicalFileSize, lt_foldl_largerSize_iff]
    exact .inl (by decide)
  omega

theorem physicalToLogicalSize_mono (hs : 0 < strip) {nr nr' : Nat} (h : nr ≤ nr')
    (ct : Nat) (size : Int) :
    physicalToLogicalSize strip nr ct size ≤ physicalToLogicalSize strip nr' ct size := by
  unfold physicalToLogicalSize
  dsimp only
  have : strip * nr ≤ strip * nr' :=
    Int.mul_le_mul_of_nonneg_left (by omega) (Int.le_of_lt hs)
  omega

theorem lt_logicalFileSize_of_stored (hs : 0 < strip) {sizes : List Int} {nr : Nat}
    {size x : Int} (hsize : sizes[nr]? = some size) (hx : 0 ≤ x)
    (hlim : x < Dist.stripeLimit strip sizes.length)
    (hmapped : (Dist.simpleStripe strip).Mapped nr sizes.length x)
    (hstored : (Dist.simpleStripe strip).logicalToPhysicalOffset nr sizes.length x < size) :
    x < logicalFileSize strip sizes := by
  have hnr : nr < sizes.length := (List.getElem?_eq_some_iff.mp hsize).1
  obtain ⟨q, a, rfl, hq, ha, has⟩ := hmapped.exists_strip hs hnr hx
  rw [Dist.logicalToPhysicalOffset_strip hs hnr hq ((Dist.lt_stripeLimit_iff hs hnr ha has).mp hlim)
    ha has] at hstored
  have hqs : 0 ≤ q * strip := Int.mul_nonneg hq (Int.le_of_lt hs)
  refine (lt_logicalFileSize_iff hx).mpr ⟨nr, size, hsize, by omega, ?_⟩
  rw [physicalToLogicalSize, if_pos (by omega)]
  rw [Int.tdiv_eq_ediv_of_nonneg (by omega), Int.tmod_eq_emod_of_nonneg (by omega)]
  have hdiv : q ≤ (size - 1) / strip := by
    refine (Int.le_ediv_iff_mul_le hs).mpr ?_
    omega
  have hsplit := Int.ediv_mul_add_emod (size - 1) strip
  have hmod := Int.emod_nonneg (size - 1) (Int.ne_of_gt hs)
  have hcomm : strip * (nr : Int) = nr * strip := Int.mul_comm _ _
  have hassoc : q * (sizes.length * strip) = q * strip * sizes.length := by ring
  rcases Int.lt_or_eq_of_le hdiv with hlt | heq
  · -- a later strip: its whole stripe comes after
    have hct : (1 : Int) ≤ sizes.length := by omega
    have hnext : (q + 1) * strip * sizes.length ≤ (size - 1) / strip * strip * sizes.length :=
      Int.mul_le_mul_of_nonneg_right
        (Int.mul_le_mul_of_nonneg_right (by omega) (Int.le_of_lt hs)) (by omega)
    have hstripe : strip * 1 ≤ strip * sizes.length :=
      Int.mul_le_mul_of_nonneg_left hct (Int.le_of_lt hs)
    have hexpand : (q + 1) * strip * sizes.length =
        q * strip * sizes.length + strip * sizes.length := by ring
    omega
  · rw [← heq] at hsplit ⊢
    omega

end Pvfs.Description
