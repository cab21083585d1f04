import Pvfs.Description.ByteAt
import Pvfs.Description.Segments

/-! # Looking through a file request (sys-io.sm)

After a read `io_find_offset` and `io_find_total_size` go through the file request once more, as
if the file were one datafile, and look at the segments that come out. Both have the same loop
around `PINT_process_request`, which asks for at most fifty segments at a time and stops when the
request is done or nothing comes back; they differ in what they do with a segment.

The memory request they pass along is not looked at in `PINT_SERVER` mode. -/

namespace Pvfs.Client

open Pvfs.Description List Dist
open Pvfs.Lib

/-- `IO_MAX_SEGMENT_NUM`. -/
def ioMaxSegmentNum : Nat := 50

/-- The variables of the loop; `acc` is what has been made of the segments. -/
structure ScanLoop (α : Type) where
  req : RequestState
  sh : Shared
  acc : α

/-- One turn. Leaving with `none` is an error or a fault of `PINT_process_request`. -/
def scanBody {α : Type} (scan : α → List (Int × Int) → α) (bytemax : Int) (fuel : Nat)
    (st : ScanLoop α) : Option (Turn (ScanLoop α) (Option α)) :=
  match processRequest fuel st.req
      { st.sh with result := st.sh.result.reset ioMaxSegmentNum bytemax } .pintServer with
  | none => none
  | some .fault => some (.leave none)
  | some (.ret code req sh) =>
    if code < 0 then some (.leave none)
    else
      let acc := scan st.acc sh.result.segments
      if req.done = false ∧ sh.result.segs ≠ 0 then some (.again ⟨req, sh, acc⟩)
      else some (.leave (some acc))

/-- The whole loop, over the first `final` bytes of the request. -/
def scanRequest {α : Type} (scan : α → List (Int × Int) → α) (init : α) (fileReq : Request)
    (final : Int) (rfdata : RequestFileData) (fuel : Nat) : Option (Option α) :=
  iterate (scanBody scan final fuel) fuel ⟨.opened fileReq 0 final, .fresh rfdata, init⟩

section
variable {r : Request} {final limit : Int} {rf : RequestFileData}

/-- The request is given in the order of the file, or the file has all of it. -/
def InOrder (r : Request) (final : Int) (rf : RequestFileData) : Prop :=
  rf.extendFlag = true ∨ (r.stream (r.copiesFor final)).Pairwise (· < ·)

/-- What the loop hands over, call by call, from position `start` of the request on: the segments of
the visible bytes among the next `seen`. In order, that leaves out nothing. -/
structure Scanned (r : Request) (final : Int) (rf : RequestFileData) (start : Int)
    (calls : List (List (Int × Int))) (seen : Nat) : Prop where
  positive : ∀ segs ∈ calls, Positive segs
  within : start + seen ≤ final
  bytes : expand calls.flatten =
    (visit rf.visible start ((r.window start final).take seen)).map (physicalByte rf)
  rest : InOrder r final rf →
    visit rf.visible (start + seen) ((r.window start final).drop seen) = []

variable {calls : List (List (Int × Int))}

theorem Scanned.cons {start : Int} {segs : List (Int × Int)}
    {m seen : Nat} (h0 : 0 ≤ start) (hr : r.Wf) (hwin : start + m ≤ final) (hpos : Positive segs)
    (hseg : expand segs =
      (visit rf.visible start ((r.window start final).take m)).map (physicalByte rf))
    (h : Scanned r final rf (start + m) calls seen) :
    Scanned r final rf start (segs :: calls) (m + seen) := by
  have hlen := hr.length_window h0 (show start ≤ final by omega)
  have hrest : r.window (start + m) final = (r.window start final).drop m := by
    rw [Request.window_eq_drop h0 (show start ≤ start + m by omega),
      show (start + m - start).toNat = m by omega]
  have hin := h.within
  refine ⟨?_, by push_cast; omega, ?_, fun hord => ?_⟩
  · intro segs' hmem
    rcases mem_cons.mp hmem with rfl | hmem
    · exact hpos
    · exact h.positive segs' hmem
  · rw [flatten_cons, expand_append, h.bytes, hseg, ← map_append, take_add,
      visit_append, length_take, Nat.min_eq_left (by omega), hrest]
  · rw [← drop_drop, ← hrest, show start + ((m + seen : Nat) : Int) = start + m + seen by
      push_cast; omega]
    exact h.rest hord

section
variable (hr : r.Wf) (law : rf.Lawful limit) (hf : 0 < final)
  (hreach : ∀ x ∈ r.window 0 final, 0 ≤ x ∧ x < limit)
include hr law hf hreach

/-- The calls from a position on, which do not depend on what is made of the segments. -/
theorem scan_from (n : Nat) :
    ∀ (req : RequestState) (sh : Shared) (start : Int), (final - start).toNat ≤ n → 0 ≤ start →
      start < final → req.Resumes .pintServer r 0 final start → rf.Same sh.rfdata →
      ∃ (calls : List (List (Int × Int))) (seen : Nat), Scanned r final rf start calls seen ∧
        ∀ {α : Type} (scan : α → List (Int × Int) → α) (acc : α),
          Leaves (scanBody scan final) ⟨req, sh, acc⟩ (some (calls.foldl scan acc)) := by
  have hlim : ∀ x ∈ r.window 0 final, rf.Mapped x → x < limit := fun x hx _ => (hreach x hx).2
  have hbytes : ∀ q ∈ numbered 0 (r.window 0 final), Reachable rf limit q.1 q.2 := by
    intro q hq
    obtain ⟨j, -, hj⟩ := mem_numbered.mp hq
    have hx := hreach q.2 (mem_of_getElem? hj)
    exact ⟨hx.1, fun _ => hx.2⟩
  induction n with
  | zero =>
    intro req sh start hn _ hlt
    omega
  | succ n ih =>
    intro req sh start hn h0 hlt hres hfile
    obtain ⟨work, hprep, hsus, hstart⟩ := hres
      { sh with result := sh.result.reset ioMaxSegmentNum final }
    have hmax : 0 < ioMaxSegmentNum := by decide
    obtain ⟨k1, hI1⟩ := server_opens rf sh (ioMaxSegmentNum, final) hmax hf
    obtain ⟨P, req0, req', sh', m, hret, hP, hreq, hcons⟩ := call_consumed hr
      (server_serves law 0 (ioMaxSegmentNum, final)) rfl rfl (Int.le_refl 0) hf hbytes
      hprep hsus hfile hI1 (fun _ hq => absurd hq not_mem_nil) hmax hf hf
    rw [hstart] at hP hcons
    obtain ⟨k, hI⟩ := hcons.inv
    rw [hcons.take_window hP] at hI
    obtain ⟨hseg, hpos⟩ := (server_writes rf).segments hI
    have hwin := hcons.window
    have hto := hcons.typeOffset
    have hfin : req'.finalOffset = final := hcons.same.finalOffset.trans hreq.2.2.2
    cases hd : req'.done with
    | true =>
      refine ⟨[sh'.result.segments], m, ⟨?_, hwin, ?_, ?_⟩, fun scan acc => .last (hret.map ?_)⟩
      · intro segs hmem
        rw [mem_singleton.mp hmem]
        exact hpos
      · simpa using hseg
      · intro hord
        exact (hcons.called hP (Int.le_refl 0) h0 hreq hord hlim).done hd
      · intro f hcalled
        rw [scanBody, hcalled]
        simp [hd]
    | false =>
      obtain ⟨hlt', heof⟩ : req'.typeOffset < req'.finalOffset ∧ req'.eofFlag = false := by
        simpa [RequestState.done] using hd
      rw [hto, hfin] at hlt'
      have hm : 0 < m := hcons.progress.resolve_right (by simp [heof])
      -- what ended the call was its budget, so it had something to show
      have hsegs : sh'.result.segs ≠ 0 := by
        intro hzero
        have hempty : sh'.result.segments = [] := by
          rw [RequestResult.segments, hzero]
          rfl
        have hused := ((server_writes rf).used hI).1
        rw [hempty] at hseg
        rw [← length_map (physicalByte rf), ← hseg] at hused
        rcases hcons.reason with h | h | h
        · omega
        · obtain ⟨hsm, hbm⟩ := (server_writes rf).budget hI
          rcases h with h | ⟨-, h⟩
          · rw [hbm, hused] at h
            simp at h
            omega
          · rw [hsm, hzero] at h
            simp [ioMaxSegmentNum] at h
        · rw [heof] at h
          cases h
      have hsus' := (hcons.suspended hP (Int.le_refl 0) h0 hreq).resolve_left (by omega)
      have hres' : req'.Resumes .pintServer r 0 final req'.typeOffset :=
        hsus'.resumes hr rfl (by rw [hto]; omega)
      rw [hto] at hres'
      obtain ⟨calls, seen, hscan, hleave⟩ := ih req' sh' (start + m) (by omega) (by omega) hlt'
        hres' hcons.file
      refine ⟨sh'.result.segments :: calls, m + seen, hscan.cons h0 hr hwin hpos hseg, ?_⟩
      intro α scan acc
      refine .turn (hret.map fun f hcalled => ?_) (hleave scan (scan acc sh'.result.segments))
      rw [scanBody, hcalled]
      simp [hd, hsegs]

/-- **The loop as a whole.**  It ends, and its calls do not depend on what is made of them. -/
theorem scanRequest_spec :
    ∃ (calls : List (List (Int × Int))) (seen : Nat), Scanned r final rf 0 calls seen ∧
      ∀ {α : Type} (scan : α → List (Int × Int) → α) (init : α),
        Returns (scanRequest scan init r final rf) (some (calls.foldl scan init)) := by
  obtain ⟨calls, seen, hscan, hleave⟩ := scan_from hr law hf hreach final.toNat
    (.opened r 0 final) (.fresh rf) 0 (by omega) (Int.le_refl 0) hf
    (RequestState.opened_resumes .pintServer hr rfl (Int.le_refl 0) hf) (.refl _)
  exact ⟨calls, seen, hscan, fun scan init => (hleave scan init).returns⟩

end

theorem Scanned.all {seen : Nat} (hr : r.Wf)
    (hf : 0 ≤ final) (h : Scanned r final rf 0 calls seen) (hord : InOrder r final rf) :
    expand calls.flatten = (visit rf.visible 0 (r.window 0 final)).map (physicalByte rf) := by
  rw [h.bytes, hr.visit_window (Int.le_refl 0) hf h.within (h.rest hord)]

end

/-! ## A file of one datafile -/

/-- A file that is stored on one server. -/
def oneDatafile (strip fsize : Int) (extendFlag : Bool) : RequestFileData :=
  ⟨fsize, 0, 1, .simpleStripe strip, extendFlag⟩

section
variable {strip fsize : Int} {extendFlag : Bool}

theorem oneDatafile_lawful (hs : 0 < strip) :
    (oneDatafile strip fsize extendFlag).Lawful (stripeLimit strip 1) :=
  simpleStripe_lawful hs Nat.one_pos

theorem oneDatafile_physical (hs : 0 < strip) {x : Int} (h0 : 0 ≤ x)
    (hx : x < stripeLimit strip 1) :
    (oneDatafile strip fsize extendFlag).logicalToPhysicalOffset x = x := by
  have law := simpleStripe_lawful hs Nat.one_pos
  have hphys := law.fragment_phys 0 x (Int.le_refl 0) (law.mapped_alone rfl 0 (Int.le_refl 0)) h0
    (by omega) (.inl rfl)
  have hzero : (simpleStripe strip).logicalToPhysicalOffset 0 1 0 = 0 := by
    simp [simpleStripe, toInt32, hs]
  rw [hzero, Int.zero_add] at hphys
  exact hphys

theorem oneDatafile_visit (hs : 0 < strip) {xs : List Int}
    (hxs : ∀ x ∈ xs, 0 ≤ x ∧ x < stripeLimit strip 1) :
    (visit (oneDatafile strip fsize extendFlag).visible 0 xs).map
        (physicalByte (oneDatafile strip fsize extendFlag)) =
      xs.filter fun x => extendFlag || decide (x < fsize) := by
  have hbyte : physicalByte (oneDatafile strip fsize extendFlag) =
      (oneDatafile strip fsize extendFlag).logicalToPhysicalOffset ∘ Prod.snd := rfl
  rw [hbyte, ← map_map, map_snd_visit]
  have hvisible : xs.filter (oneDatafile strip fsize extendFlag).visible =
      xs.filter fun x => extendFlag || decide (x < fsize) := by
    refine filter_congr fun x hx => ?_
    obtain ⟨h0, hlim⟩ := hxs x hx
    have hmapped : (oneDatafile strip fsize extendFlag).Mapped x :=
      (oneDatafile_lawful hs).mapped_alone rfl x h0
    rw [RequestFileData.visible, decide_eq_true hmapped,
      oneDatafile_physical hs h0 hlim]
    rfl
  rw [hvisible]
  have hid : ∀ x ∈ xs.filter fun x => extendFlag || decide (x < fsize),
      (oneDatafile strip fsize extendFlag).logicalToPhysicalOffset x = x := by
    intro x hx
    obtain ⟨h0, hlim⟩ := hxs x (mem_of_mem_filter hx)
    exact oneDatafile_physical hs h0 hlim
  rw [map_congr_left hid, map_id']

theorem scan_oneDatafile {r : Request} (hr : r.Wf) (hs : 0 < strip) {e : Nat} (he : 0 < e)
    (hreach : ∀ k < e, 0 ≤ r.byteAt k ∧ r.byteAt k < stripeLimit strip 1) :
    ∃ calls : List (List (Int × Int)), (∀ segs ∈ calls, Positive segs) ∧
      (extendFlag = true ∨ r.Ascending → expand calls.flatten =
        ((List.range e).map r.byteAt).filter fun x => extendFlag || decide (x < fsize)) ∧
      ∀ {α : Type} (scan : α → List (Int × Int) → α) (init : α),
        Returns (scanRequest scan init r e (oneDatafile strip fsize extendFlag))
          (some (calls.foldl scan init)) := by
  have hwin := hr.window_zero_eq_map e
  have hreach' : ∀ x ∈ r.window 0 e, 0 ≤ x ∧ x < stripeLimit strip 1 := by
    intro x hx
    rw [hwin] at hx
    obtain ⟨k, hk, rfl⟩ := mem_map.mp hx
    exact hreach k (mem_range.mp hk)
  obtain ⟨calls, seen, hscan, hret⟩ := scanRequest_spec hr
    (@oneDatafile_lawful strip fsize extendFlag hs) (show (0 : Int) < e by omega) hreach'
  refine ⟨calls, hscan.positive, fun hord => ?_, hret⟩
  rw [hscan.all hr (Int.natCast_nonneg e) (hord.imp id fun h => h.pairwise_stream hr _),
    oneDatafile_visit hs hreach', hwin]

end

/-! ## `io_find_offset` -/

/-- What is done with the segments of one call: the offset behind the last one and the bytes so
far, up to `contigSize` of them. -/
def findOffsetSegs (contigSize : Int) : Int × Int → List (Int × Int) → Int × Int
  | acc, [] => acc
  | (_, totalSize), (offset, size) :: segs =>
    if contigSize ≤ totalSize + size then (offset + (contigSize - totalSize), totalSize)
    else findOffsetSegs contigSize (offset + size, totalSize + size) segs

/-- `io_find_offset`; an inner `none` is the error of `PINT_process_request`. -/
def ioFindOffset (fuel : Nat) (fileReq : Request) (strip contigSize : Int) :
    Option (Option Int) :=
  (scanRequest (findOffsetSegs contigSize) (0, 0) fileReq contigSize (oneDatafile strip 0 true)
    fuel).map (Option.map Prod.fst)

/-- The offset is the one behind the last of the bytes `bs`, and they have been counted, unless
they are all there are. -/
def OffsetAfter (contigSize : Int) (bs : List Int) (acc : Int × Int) : Prop :=
  (∀ x, bs.getLast? = some x → acc.1 = x + 1) ∧ (bs.length < contigSize → acc.2 = bs.length)

theorem getLast?_append_run (bs : List Int) (o : Int) {n : Nat} (hn : 0 < n) :
    (bs ++ run o n).getLast? = some (o + n - 1) := by
  obtain ⟨n, rfl⟩ : ∃ k, n = k + 1 := ⟨n - 1, by omega⟩
  rw [run_add, ← append_assoc, run_succ, run_zero, getLast?_concat]
  congr 1
  omega

variable {contigSize strip : Int}

theorem OffsetAfter.segs (segs : List (Int × Int)) :
    ∀ {bs : List Int} {acc : Int × Int}, OffsetAfter contigSize bs acc → Positive segs →
      (bs ++ expand segs).length ≤ contigSize →
      OffsetAfter contigSize (bs ++ expand segs) (findOffsetSegs contigSize acc segs) := by
  induction segs with
  | nil =>
    intro bs acc h _ _
    simpa [findOffsetSegs] using h
  | cons seg segs ih =>
    intro bs acc h hpos hle
    obtain ⟨totalOffset, totalSize⟩ := acc
    obtain ⟨offset, size⟩ := seg
    have hsize : 0 < size := hpos (offset, size) mem_cons_self
    rw [expand_cons, ← append_assoc] at hle ⊢
    rw [length_append, length_append, length_run] at hle
    have htotal : totalSize = bs.length := h.2 (by simp only at hle; omega)
    have hlast := getLast?_append_run bs offset (show 0 < size.toNat by omega)
    rw [findOffsetSegs]
    split
    · -- the last bytes of all: nothing comes after this segment
      have hrest : expand segs = [] := by
        apply eq_nil_of_length_eq_zero
        omega
      rw [hrest, append_nil]
      refine ⟨fun x hx => ?_, fun hlt => ?_⟩
      · rw [hlast] at hx
        cases hx
        omega
      · rw [length_append, length_run] at hlt
        omega
    · refine ih ⟨fun x hx => ?_, fun _ => ?_⟩ hpos.tail ?_
      · rw [hlast] at hx
        cases hx
        omega
      · rw [length_append, length_run]
        omega
      · rw [length_append, length_append, length_run]
        exact hle

theorem OffsetAfter.calls (calls : List (List (Int × Int))) :
    ∀ {bs : List Int} {acc : Int × Int}, OffsetAfter contigSize bs acc →
      (∀ segs ∈ calls, Positive segs) → (bs ++ expand calls.flatten).length ≤ contigSize →
      OffsetAfter contigSize (bs ++ expand calls.flatten)
        (calls.foldl (findOffsetSegs contigSize) acc) := by
  induction calls with
  | nil =>
    intro bs acc h _ _
    simpa using h
  | cons segs calls ih =>
    intro bs acc h hpos hle
    rw [flatten_cons, expand_append, ← append_assoc] at hle ⊢
    refine ih (h.segs segs (hpos segs mem_cons_self) ?_)
      (fun segs' hmem => hpos segs' (mem_cons_of_mem _ hmem)) hle
    rw [length_append] at hle
    omega

variable {r : Request}

/-- **`io_find_offset`** returns the offset behind the byte at the last position. -/
theorem ioFindOffset_returns (hr : r.Wf) (hs : 0 < strip) {m : Nat}
    (hm : 0 < m) (hreach : ∀ k < m, 0 ≤ r.byteAt k ∧ r.byteAt k < stripeLimit strip 1) :
    Returns (ioFindOffset · r strip m) (some (r.byteAt (m - 1) + 1)) := by
  obtain ⟨calls, hpos, hcalls, hret⟩ :=
    @scan_oneDatafile strip 0 true r hr hs m hm hreach
  have hbytes : expand calls.flatten = (List.range m).map r.byteAt := by
    simpa using hcalls (.inl rfl)
  have hstart : OffsetAfter m [] (0, 0) := ⟨fun x hx => (by cases hx), fun _ => rfl⟩
  have hend := hstart.calls calls hpos
    (by rw [nil_append, hbytes, length_map, length_range])
  rw [hbytes] at hend
  have hlast : ((List.range m).map r.byteAt).getLast? = some (r.byteAt (m - 1)) := by
    obtain ⟨n, rfl⟩ : ∃ n, m = n + 1 := ⟨m - 1, by omega⟩
    rw [range_succ, map_append, map_singleton, getLast?_concat,
      Nat.add_sub_cancel]
  refine (hret (findOffsetSegs m) (0, 0)).map fun n hn => ?_
  rw [ioFindOffset, hn, Option.map_some, Option.map_some, hend.1 _ hlast]

/-! ## `io_find_total_size` -/

/-- What is done with the segments of one call: the bytes that lie before `finalOffset` when the
request is moved by its offset. -/
def totalSizeSegs (fileReqOffset finalOffset : Int) : Int → List (Int × Int) → Int
  | totalSize, [] => totalSize
  | totalSize, (offset, size) :: segs =>
    let currentOffset := fileReqOffset + offset
    if finalOffset ≥ currentOffset ∧ finalOffset ≤ currentOffset + size then
      totalSize + (finalOffset - currentOffset)
    else if finalOffset < currentOffset then totalSize
    else totalSizeSegs fileReqOffset finalOffset (totalSize + size) segs

/-- `io_find_total_size`. -/
def ioFindTotalSize (fuel : Nat) (fileReq : Request) (strip fileReqOffset finalOffset : Int) :
    Option (Option Int) :=
  if finalOffset = 0 then some (some 0)
  else
    scanRequest (totalSizeSegs fileReqOffset finalOffset) 0 fileReq finalOffset
      (oneDatafile strip finalOffset false) fuel

theorem countP_run_lt (o e : Int) (n : Nat) :
    ((run o n).countP fun x => decide (x < e)) = min n (e - o).toNat := by
  induction n generalizing o with
  | zero => simp
  | succ n ih =>
    rw [run_succ, countP_cons, ih]
    by_cases h : o < e
    · simp only [h, decide_true, if_true]
      omega
    · simp only [h, decide_false, Bool.false_eq_true, if_false]
      omega

variable {fileReqOffset finalOffset : Int}

theorem totalSizeSegs_eq (segs : List (Int × Int)) :
    ∀ {total : Int}, Positive segs → (expand segs).Pairwise (· < ·) →
      totalSizeSegs fileReqOffset finalOffset total segs =
        total + (expand segs).countP fun x => decide (x < finalOffset - fileReqOffset) := by
  induction segs with
  | nil =>
    intro total _ _
    simp [totalSizeSegs]
  | cons seg segs ih =>
    intro total hpos hasc
    obtain ⟨offset, size⟩ := seg
    have hsize : 0 < size := hpos (offset, size) mem_cons_self
    rw [expand_cons] at hasc ⊢
    obtain ⟨-, hasc', hbefore⟩ := pairwise_append.mp hasc
    have hlast : offset + size - 1 ∈ run offset size.toNat := mem_run.mpr ⟨by omega, by omega⟩
    rw [countP_append, countP_run_lt, totalSizeSegs]
    -- behind a segment that reaches the end there is nothing to count
    have hnone : finalOffset ≤ fileReqOffset + offset + size →
        ((expand segs).countP fun x => decide (x < finalOffset - fileReqOffset)) = 0 := by
      intro hle
      rw [countP_eq_zero]
      intro x hx
      have := hbefore _ hlast x hx
      simp only [decide_eq_true_eq]
      omega
    split
    · rename_i hin
      omega
    · split
      · rename_i hlt
        omega
      · rw [ih hpos.tail hasc']
        omega

theorem foldl_totalSizeSegs_eq (calls : List (List (Int × Int))) :
    ∀ {total : Int}, (∀ segs ∈ calls, Positive segs) →
      (expand calls.flatten).Pairwise (· < ·) →
      calls.foldl (totalSizeSegs fileReqOffset finalOffset) total =
        total + (expand calls.flatten).countP fun x => decide (x < finalOffset - fileReqOffset) := by
  induction calls with
  | nil =>
    intro total _ _
    simp
  | cons segs calls ih =>
    intro total hpos hasc
    rw [flatten_cons, expand_append] at hasc ⊢
    obtain ⟨hfirst, hrest, -⟩ := pairwise_append.mp hasc
    rw [foldl_cons, totalSizeSegs_eq segs (hpos segs mem_cons_self) hfirst,
      ih (fun segs' hmem => hpos segs' (mem_cons_of_mem _ hmem)) hrest, countP_append]
    omega

/-- **`io_find_total_size`** counts, of the first `finalOffset` bytes of an ascending request, those
that are before `finalOffset` after the request has been moved by its offset. -/
theorem ioFindTotalSize_returns (hr : r.Wf) (hasc : r.Ascending)
    (hs : 0 < strip) (o e : Nat)
    (hreach : ∀ k < e, 0 ≤ r.byteAt k ∧ r.byteAt k < stripeLimit strip 1) :
    Returns (ioFindTotalSize · r strip o e)
      (some ((List.range e).countP fun k => decide (r.byteAt k < (e : Int) - o))) := by
  by_cases he : e = 0
  · subst he
    exact .always fun n => by simp [ioFindTotalSize]
  obtain ⟨calls, hpos, hcalls, hret⟩ :=
    @scan_oneDatafile strip e false r hr hs e (by omega) hreach
  have hbytes := hcalls (.inr hasc)
  have hsorted : (expand calls.flatten).Pairwise (· < ·) := by
    rw [hbytes]
    refine Pairwise.filter _ (pairwise_map.mpr ?_)
    exact pairwise_lt_range.imp hasc.lt
  refine (hret (totalSizeSegs o e) 0).map fun n hn => ?_
  rw [ioFindTotalSize, if_neg (by omega), hn, foldl_totalSizeSegs_eq calls hpos hsorted, hbytes,
    Int.zero_add, countP_filter, countP_map]
  congr 3
  apply countP_congr
  intro k _
  simp only [Function.comp_apply, Bool.false_or, Bool.and_eq_true, decide_eq_true_eq]
  omega

end Pvfs.Client
