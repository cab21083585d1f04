import Pvfs.Description.Calls

/-! # What a server and a client write

A server writes the physical offset of every byte it visits; a client without a memory type
writes the byte's position in its buffer, which it computes from the scratch entry behind
the last segment. Both keep the invariant the loops of request processing ask for, so both
transfer the visible bytes of the window, under their own name for each byte. -/

namespace Pvfs.Description

open Pvfs.Lib List Function

/-! ## Results -/

variable {b : Nat × Int}

namespace RequestResult

/-- The segments written so far stand for the bytes `bs` and are within the budget `b`. -/
structure Holds (res : RequestResult) (b : Nat × Int) (bs : List Int) : Prop where
  segments : expand res.segments = bs
  positive : Positive res.segments
  bytes : res.bytes = bs.length
  segs : res.segs ≤ bs.length
  budget : res.segmax = b.1 ∧ res.bytemax = b.2
  within : res.bytes ≤ res.bytemax ∧ res.segs ≤ res.segmax

/-- The first `n` entries of an array of offsets and an array of sizes. -/
def entries (o z : Nat → Int) (n : Nat) : List (Int × Int) :=
  (List.range n).map fun i => (o i, z i)

theorem segments_eq_entries (res : RequestResult) :
    res.segments = entries res.offsetArray res.sizeArray res.segs := rfl

theorem entries_succ (o z : Nat → Int) (n : Nat) :
    entries o z (n + 1) = entries o z n ++ [(o n, z n)] := by
  rw [entries, range_succ, map_append]
  rfl

@[simp] theorem entries_update_left (o z : Nat → Int) (n : Nat) (x : Int) :
    entries (update o n x) z n = entries o z n := by
  refine map_congr_left fun i hi => ?_
  rw [update_of_ne (Nat.ne_of_lt (mem_range.mp hi))]

@[simp] theorem entries_update_right (o z : Nat → Int) (n : Nat) (x : Int) :
    entries o (update z n x) n = entries o z n := by
  refine map_congr_left fun i hi => ?_
  rw [update_of_ne (Nat.ne_of_lt (mem_range.mp hi))]

@[simp] theorem segments_setScratch (res : RequestResult) (offset : Int) :
    (res.setScratch offset).segments = res.segments :=
  entries_update_left _ _ _ _

variable {res : RequestResult} {bs : List Int}

theorem Holds.setScratch (h : res.Holds b bs) (offset : Int) :
    (res.setScratch offset).Holds b bs :=
  ⟨(segments_setScratch res offset).symm ▸ h.segments,
    (segments_setScratch res offset).symm ▸ h.positive, h.bytes, h.segs, h.budget, h.within⟩

theorem Holds.reset (res : RequestResult) (hb : 0 < b.2) : (res.reset b.1 b.2).Holds b [] :=
  ⟨rfl, fun _ hc => absurd hc not_mem_nil, rfl, le_refl _, ⟨rfl, rfl⟩, Int.le_of_lt hb,
    Nat.zero_le _⟩

/-- The last segment ends at `stop`. -/
def EndsAt (res : RequestResult) (stop : Int) : Prop :=
  0 < res.segs ∧ res.offsetArray (res.segs - 1) + res.sizeArray (res.segs - 1) = stop

variable {size : Int}
variable {mode : Mode}

theorem addSegment_segments (res : RequestResult) (offset : Int)
    (hck : mode.cksize = false) (hsize : 0 < size) (hpos : Positive res.segments) :
    expand (res.addSegment offset size mode).segments =
        expand res.segments ++ run offset size.toNat ∧
      Positive (res.addSegment offset size mode).segments ∧
      (res.addSegment offset size mode).EndsAt (offset + size) := by
  unfold addSegment
  simp only [if_pos hsize, hck, Bool.false_eq_true, if_false]
  split
  next hglue =>
    obtain ⟨n, hn⟩ : ∃ n, res.segs = n + 1 := ⟨res.segs - 1, by omega⟩
    simp only [segments_eq_entries, EndsAt, hn, Nat.add_sub_cancel, entries_succ] at hglue hpos ⊢
    have hz : 0 < res.sizeArray n := hpos _ (mem_append_right _ (mem_singleton_self _))
    simp only [entries_update_right, update_self]
    refine ⟨?_, ?_, by omega, by omega⟩
    · rw [expand_append, expand_append, append_assoc]
      congr 1
      simp only [expand_cons, expand_nil, append_nil]
      rw [Int.toNat_add (by omega) (by omega), run_add, Int.toNat_of_nonneg (by omega), hglue.2]
    · intro c hc
      rcases mem_append.mp hc with hc | hc
      · exact hpos c (mem_append_left _ hc)
      · rw [mem_singleton.mp hc]
        omega
  next hglue =>
    simp only [segments_eq_entries, EndsAt, Nat.add_sub_cancel, entries_succ] at hpos ⊢
    simp only [entries_update_left, entries_update_right, update_self]
    refine ⟨by rw [expand_append]; simp [expand_cons], ?_, by omega, trivial⟩
    intro c hc
    rcases mem_append.mp hc with hc | hc
    · exact hpos c hc
    · rw [mem_singleton.mp hc]
      exact hsize

theorem addSegment_counts (res : RequestResult) (mode : Mode) (offset : Int) (hsize : 0 < size) :
    (res.addSegment offset size mode).bytes = res.bytes + size ∧
      (res.addSegment offset size mode).bytemax = res.bytemax ∧
      (res.addSegment offset size mode).segmax = res.segmax ∧
      (res.addSegment offset size mode).segs ≤ res.segs + 1 := by
  unfold addSegment
  rw [if_pos hsize]
  split
  · exact ⟨rfl, rfl, rfl, le_refl _⟩
  · split
    · exact ⟨rfl, rfl, rfl, Nat.le_succ _⟩
    · exact ⟨rfl, rfl, rfl, le_refl _⟩

theorem Holds.addSegment (h : res.Holds b bs)
    (offset : Int) (hck : mode.cksize = false) (hsize : 0 < size) (hfull : ¬ res.full mode)
    (hb : res.bytes + size ≤ res.bytemax) :
    (res.addSegment offset size mode).Holds b (bs ++ run offset size.toNat) ∧
      (res.addSegment offset size mode).EndsAt (offset + size) := by
  obtain ⟨hexp, hpos, hend⟩ := addSegment_segments res offset hck hsize h.positive
  obtain ⟨hbytes, hbytemax, hsegmax, hsegs⟩ := addSegment_counts res mode offset hsize
  have hlt : res.segs < res.segmax := by
    by_contra hge
    exact hfull (.inr ⟨hck, by omega⟩)
  have hb0 := h.bytes
  have hs0 := h.segs
  refine ⟨⟨by rw [hexp, h.segments], hpos, ?_, ?_, ⟨hsegmax.trans h.budget.1,
    hbytemax.trans h.budget.2⟩, by omega, by omega⟩, hend⟩
  · rw [hbytes, length_append, length_run]
    omega
  · rw [length_append, length_run]
    omega

end RequestResult

/-! ## Emissions -/

section
variable {mode : Mode} {rf : RequestFileData} {limit target : Int} {Byte : Int → Int → Prop}
  {I : List (Int × Int) → Int → Shared → Prop}

theorem Emits.serves (law : rf.Lawful limit) (he : Emits mode rf Byte I)
    (hm : mode.memreq = false)
    (hbudget : ∀ {v k sh}, I v k sh →
      sh.result.bytes ≤ sh.result.bytemax ∧ sh.result.segs ≤ sh.result.segmax)
    (hrestart : ∀ {v k k' sh}, I v k sh → ¬ sh.result.full mode →
      I v k' (sh.scratch mode (k' - target)))
    (hbyte : ∀ {k x}, Byte k x → 0 ≤ x ∧ (rf.Mapped x → x < limit)) :
    Serves mode rf limit target (ByteRegion Byte) I := by
  refine ⟨hm, hbudget, hrestart, ?_⟩
  intro v k k' offset size sh hI _ hfile hfull hsize hreg
  have h0 : 0 ≤ offset := by simpa using (hbyte (hreg 0 (le_refl _) hsize)).1
  refine distribute_spec law he h0 hsize (by rwa [Shared.scratch_rfdata]) ?_ (hrestart hI hfull)
    (by rwa [Shared.scratch_full])
  intro x hx hxs hmx
  have hb := hreg (x - offset) (by omega) (by omega)
  rw [show offset + (x - offset) = x by omega] at hb
  exact ⟨(hbyte hb).2 hmx, hb⟩

end

/-- A byte that request processing can handle: no negative offset, and if it lives on this server
one below the limit of the distribution's arithmetic. -/
def Reachable (rf : RequestFileData) (limit : Int) (_ x : Int) : Prop :=
  0 ≤ x ∧ (rf.Mapped x → x < limit)

/-! ### The server -/

/-- Where the server stores a byte. -/
def physicalByte (rf : RequestFileData) (q : Int × Int) : Int := rf.logicalToPhysicalOffset q.2

/-- A server's result holds the places of the bytes visited. -/
def ServerInv (rf : RequestFileData) (b : Nat × Int) (v : List (Int × Int)) (_ : Int)
    (sh : Shared) : Prop :=
  sh.result.Holds b (v.map (physicalByte rf))

theorem server_opens (rf : RequestFileData) (sh : Shared) : Opens (ServerInv rf) sh :=
  fun _ _ hb => ⟨0, RequestResult.Holds.reset _ hb⟩

theorem server_writes (rf : RequestFileData) : Writes (ServerInv rf) (physicalByte rf) := by
  refine ⟨fun h => ⟨h.segments, h.positive⟩, fun h => ⟨?_, ?_⟩, fun h => h.budget⟩
  · simpa using h.bytes
  · simpa using h.segs

theorem server_emits (rf : RequestFileData) (Byte : Int → Int → Prop) (b : Nat × Int) :
    Emits .pintServer rf Byte (ServerInv rf b) := by
  refine ⟨fun h _ => h, ?_⟩
  intro v k sh x sz diff hI hfile _ hsz hb hfull hin
  obtain ⟨hholds, -⟩ := hI.addSegment (rf.logicalToPhysicalOffset x) rfl hsz hfull hb
  refine ⟨sz, { sh with result := sh.result.addSegment (rf.logicalToPhysicalOffset x) sz _ },
    .always fun _ => rfl, hsz, le_refl _, .inl rfl, hfile, ?_⟩
  have hmap : (numbered (k + diff) (run x sz.toNat)).map (physicalByte rf) =
      run (rf.logicalToPhysicalOffset x) sz.toNat := by
    have : physicalByte rf = rf.logicalToPhysicalOffset ∘ Prod.snd := rfl
    rw [this, ← map_map, map_snd_numbered]
    exact map_run fun j hj => (hin j (by omega) (by omega)).2.2
  rw [ServerInv, map_append, hmap]
  exact hholds

variable {rf : RequestFileData} {limit target k : Int}

theorem server_serves (law : rf.Lawful limit) (target : Int)
    (b : Nat × Int) :
    Serves .pintServer rf limit target (ByteRegion (Reachable rf limit)) (ServerInv rf b) :=
  (server_emits rf _ b).serves law rfl (fun h => h.within) (fun h _ => h) id

/-! ### The client -/

/-- Where a byte lies in the client's buffer. -/
def bufferByte (target : Int) (q : Int × Int) : Int := q.1 - target

/-- The client's result holds the positions of the bytes visited, and the scratch entry is the
position the next region starts from. -/
structure ClientInv (target : Int) (b : Nat × Int) (v : List (Int × Int)) (k : Int)
    (sh : Shared) : Prop where
  mem : sh.mem = none
  holds : sh.result.Holds b (v.map (bufferByte target))
  scratch : sh.result.segs < sh.result.segmax → sh.result.offsetArray sh.result.segs = k - target

theorem client_opens (target : Int) (sh : Shared) (hm : sh.mem = none) :
    Opens (ClientInv target) sh := by
  intro b _ hb
  refine ⟨sh.result.offsetArray 0 + target, hm, RequestResult.Holds.reset _ hb, fun _ => ?_⟩
  simp only [RequestResult.reset]
  omega

theorem client_writes (target : Int) : Writes (ClientInv target) (bufferByte target) := by
  refine ⟨fun h => ⟨h.holds.segments, h.holds.positive⟩, fun h => ⟨?_, ?_⟩,
    fun h => h.holds.budget⟩
  · simpa using h.holds.bytes
  · simpa using h.holds.segs

variable {v : List (Int × Int)} {sh : Shared}

theorem ClientInv.rescratch {target k stop : Int}
    (hmem : sh.mem = none) (hholds : sh.result.Holds b (v.map (bufferByte target)))
    (hend : sh.result.EndsAt stop) (hk : stop = k - target) :
    ClientInv target b v k (sh.rescratch .pintClient) := by
  unfold Shared.rescratch
  simp only
  split
  · refine ⟨hmem, hholds.setScratch _, fun _ => ?_⟩
    simp only [RequestResult.setScratch, update_self]
    rw [hend.2, hk]
  next h =>
    exact ⟨hmem, hholds, fun hlt => absurd ⟨rfl, hlt⟩ h⟩

theorem client_emits (rf : RequestFileData) (Byte : Int → Int → Prop) (target : Int)
    (b : Nat × Int) : Emits .pintClient rf Byte (ClientInv target b) := by
  refine ⟨fun h _ => ⟨h.mem, h.holds, h.scratch⟩, ?_⟩
  intro v k sh x sz diff hI hfile _ hsz hb hfull hin
  have hlt : sh.result.segs < sh.result.segmax := by
    by_contra hge
    exact hfull (.inr ⟨rfl, by omega⟩)
  obtain ⟨hholds, hend⟩ := hI.holds.addSegment (k - target + diff) rfl hsz hfull hb
  have hemit : ∀ fuel, emit .pintClient fuel sh diff (rf.logicalToPhysicalOffset x) sz =
      some (.added sz { sh with
        result := sh.result.addSegment (k - target + diff) sz .pintClient }) := by
    intro fuel
    simp [emit, Mode.pintClient, hI.mem, hI.scratch hlt]
  refine ⟨sz, _, .always hemit, hsz, le_refl _, .inl rfl, hfile, ?_⟩
  refine ClientInv.rescratch hI.mem ?_ hend (by omega)
  have hmap : (numbered (k + diff) (run x sz.toNat)).map (bufferByte target) =
      run (k - target + diff) sz.toNat := by
    have : bufferByte target = (· - target) ∘ Prod.fst := rfl
    rw [this, ← map_map, map_fst_numbered, length_run]
    exact map_run fun j _ => by omega
  rw [map_append, hmap]
  exact hholds

theorem ClientInv.scratched
    (h : ClientInv target b v k sh) (k' : Int) :
    ClientInv target b v k' (sh.scratch .pintClient (k' - target)) := by
  refine ⟨h.mem, h.holds.setScratch _, fun _ => ?_⟩
  simp [Shared.scratch, Mode.pintClient, RequestResult.setScratch]

theorem client_serves (law : rf.Lawful limit) (target : Int)
    (b : Nat × Int) :
    Serves .pintClient rf limit target (ByteRegion (Reachable rf limit)) (ClientInv target b) :=
  (client_emits rf _ target b).serves law rfl (fun h => h.holds.within)
    (fun h _ => h.scratched _) id

end Pvfs.Description
