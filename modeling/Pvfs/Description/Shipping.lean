import Pvfs.Description.Commit
import Pvfs.Lib.Bytes
import Pvfs.Lib.Steps

/-! # A request on its way to a server

`PVFS_Request_commit` packs a request into a region of its own. For a message it is packed
once more, into a buffer with room for `num_nested_req + 1` records, the pointers become
places in the buffer, and the records follow each other on the wire. The server reads as
many records as it is told, and makes pointers of the places again.

`num_nested_req` is only a bound: the last records of the buffer may be anything, and they
are sent too. So what arrives is the request in the records that can be reached from the
first one. -/

namespace Pvfs.Description

open Lib List

/-! ## The client -/

/-- `PVFS_REQ_LIMIT_PINT_REQUEST_NUM`. -/
def reqLimitPintRequestNum : Nat := 100

/-- How `PVFS_Request_commit` ends: with an error, with a null pointer in place of the request
or with the region. -/
inductive CommitResult where
  | errReq
  | null
  | region (s : Packing)

/-- `PVFS_Request_commit`; `region` is what the memory for the region held before. -/
def pvfsRequestCommit (fuel : Nat) (mem region : Nat → Record) (a : Nat) : Option CommitResult :=
  if (mem a).committed < 0 then some .errReq
  else if 0 < (mem a).numNestedReq then (requestCommit fuel mem region a).map .region
  else some .null

/-- A pointer into the region as `PINT_request_encode` leaves it, in the 32 bits that are sent:
`NULL` is -1. -/
def linkIndex : Option Nat → Nat
  | some i => i
  | none => 2 ^ 32 - 1

/-- `linearize_PVFS_Request`; `none` inside is `-PVFS_EINVAL`, for a request with too many
records or for a region that is not packed. -/
def linearizePvfsRequest (fuel : Nat) (mem region : Nat → Record) (a : Nat) :
    Option (Option (Nat → Record)) :=
  if (mem a).numNestedReq > reqLimitPintRequestNum then some none
  else (requestCommit fuel mem region a).map fun s =>
    if (s.region 0).committed < 0 then some s.region else none

/-- `encode_PVFS_Request_fields`. -/
def encodeRequestFields (r : Record) : Patch :=
  flatten [
    setBytes (leInt 8 r.fields.offset),
    setBytes (leInt 4 r.fields.numEreqs),
    setBytes (leInt 4 r.fields.numBlocks),
    setBytes (leInt 8 r.fields.stride),
    setBytes (leInt 8 r.fields.ub),
    setBytes (leInt 8 r.fields.lb),
    setBytes (leInt 8 r.fields.aggregateSize),
    setBytes (leInt 4 r.fields.numContigChunks),
    setBytes (leInt 4 r.fields.depth),
    setBytes (leInt 4 r.numNestedReq),
    setBytes (leInt 4 r.committed),
    setBytes (leInt 4 r.refcount),
    stepOver 4,
    setBytes (leBytes 4 (linkIndex r.ereq)),
    setBytes (leBytes 4 (linkIndex r.sreq))]

/-- `encode_PINT_Request`: what it writes, or nothing if it fails. -/
def encodePintRequest (fuel : Nat) (mem region : Nat → Record) (a : Nat) : Option (Option Patch) :=
  (linearizePvfsRequest fuel mem region a).map fun linreq => linreq.map fun linreq =>
    setBytes (leInt 4 (mem a).numNestedReq) ++ (stepOver 4 ++
      (range ((linreq 0).numNestedReq + 1)).flatMap fun i => encodeRequestFields (linreq i))

/-! ## The server -/

/-- The fields of a record that describe the request. -/
structure WireFields where
  offset : Int
  numEreqs : Int
  numBlocks : Int
  stride : Int
  ub : Int
  lb : Int
  aggregateSize : Int
  numContigChunks : Int
  depth : Int
  numNestedReq : Int
deriving DecidableEq, Repr

/-- A record as it comes from the wire, with numbers for its pointers. -/
structure WireRecord where
  fields : WireFields
  committed : Int
  refcount : Int
  ereq : Nat
  sreq : Nat
deriving DecidableEq, Repr

/-- One turn of the loop in `decode_PINT_Request`. -/
def decodeRequestFields : Decoder WireRecord := do
  let offset ← .int 8
  let numEreqs ← .int 4
  let numBlocks ← .int 4
  let stride ← .int 8
  let ub ← .int 8
  let lb ← .int 8
  let aggregateSize ← .int 8
  let numContigChunks ← .int 4
  let depth ← .int 4
  let numNestedReq ← .int 4
  let committed ← .int 4
  let refcount ← .int 4
  .skip 4
  let ereq ← .uint 4
  let sreq ← .uint 4
  pure ⟨⟨offset, numEreqs, numBlocks, stride, ub, lb, aggregateSize, numContigChunks, depth,
    numNestedReq⟩, committed, refcount, ereq, sreq⟩

/-- The loop of `decode_PINT_Request`, for that many records. -/
def decodeRecords : Nat → Decoder (List WireRecord)
  | 0 => pure []
  | n + 1 => do
    let r ← decodeRequestFields
    let rs ← decodeRecords n
    pure (r :: rs)

/-- `decode_PINT_Request`: no array if none could be allocated. -/
def decodePintRequest : Decoder (Option (List WireRecord)) := do
  let numreq ← .int 4
  .skip 4
  if numreq + 1 ≤ 0 then pure none
  else
    let rs ← decodeRecords (numreq + 1).toNat
    pure (some rs)

/-- A pointer of a record on the server: into the array, or the number that was sent if nobody
has made a pointer of it. -/
inductive Pointer where
  | null
  | entry (i : Nat)
  | raw (n : Nat)
deriving DecidableEq, Repr

/-- A record after decoding, with links instead of indices. -/
structure ServerRecord where
  fields : WireFields
  committed : Int
  refcount : Int
  ereq : Pointer
  sreq : Pointer
deriving DecidableEq, Repr

/-- The pointer `PINT_request_decode` makes of a number. -/
def Pointer.ofIndex (n : Nat) : Pointer := if n = 2 ^ 32 - 1 then .null else .entry n

/-- `PINT_request_decode`: it goes through as many records as the first one says, and does
nothing if that is not marked as packed. `none` if it goes on beyond the array. -/
def requestDecode (rs : List WireRecord) : Option (List ServerRecord) :=
  let head := rs.head?
  let last : Int := match head with
    | some r => if r.committed < 0 then r.fields.numNestedReq else -1
    | none => -1
  if last < rs.length then
    some (rs.zipIdx.map fun (r, i) =>
      if (i : Int) ≤ last then
        ⟨r.fields, r.committed, r.refcount, .ofIndex r.ereq, .ofIndex r.sreq⟩
      else ⟨r.fields, r.committed, r.refcount, .raw r.ereq, .raw r.sreq⟩)
  else none

/-! ## What arrives -/

/-- The record as the server reads it: what is left of each field in its number of bytes. -/
def Record.onWire (r : Record) : WireRecord where
  fields :=
    { offset := Int.bmod r.fields.offset (256 ^ 8)
      numEreqs := Int.bmod r.fields.numEreqs (256 ^ 4)
      numBlocks := Int.bmod r.fields.numBlocks (256 ^ 4)
      stride := Int.bmod r.fields.stride (256 ^ 8)
      ub := Int.bmod r.fields.ub (256 ^ 8)
      lb := Int.bmod r.fields.lb (256 ^ 8)
      aggregateSize := Int.bmod r.fields.aggregateSize (256 ^ 8)
      numContigChunks := Int.bmod r.fields.numContigChunks (256 ^ 4)
      depth := Int.bmod r.fields.depth (256 ^ 4)
      numNestedReq := Int.bmod r.numNestedReq (256 ^ 4) }
  committed := Int.bmod r.committed (256 ^ 4)
  refcount := Int.bmod r.refcount (256 ^ 4)
  ereq := linkIndex r.ereq % 256 ^ 4
  sreq := linkIndex r.sreq % 256 ^ 4

theorem codes_requestFields (r : Record) :
    Codes (encodeRequestFields r) decodeRequestFields r.onWire := by
  refine .bind (codes_int 8 _) ?_
  refine .bind (codes_int 4 _) ?_
  refine .bind (codes_int 4 _) ?_
  refine .bind (codes_int 8 _) ?_
  refine .bind (codes_int 8 _) ?_
  refine .bind (codes_int 8 _) ?_
  refine .bind (codes_int 8 _) ?_
  refine .bind (codes_int 4 _) ?_
  refine .bind (codes_int 4 _) ?_
  refine .bind (codes_int 4 _) ?_
  refine .bind (codes_int 4 _) ?_
  refine .bind (codes_int 4 _) ?_
  refine .bind (codes_skip 4) ?_
  refine .bind (codes_uint 4 _) ?_
  refine .bind (codes_uint 4 _) ?_
  exact .pure _

theorem codes_records (rs : List Record) :
    Codes (rs.flatMap encodeRequestFields) (decodeRecords rs.length) (rs.map Record.onWire) := by
  induction rs with
  | nil => exact .pure []
  | cons r rs ih =>
    rw [flatMap_cons, ← append_nil (rs.flatMap _)]
    exact .bind (codes_requestFields r) (.bind ih (.pure _))

/-- The values of C's `int32_t` and `int64_t`. -/
def InInt32 (x : Int) : Prop := -2 ^ 31 ≤ x ∧ x < 2 ^ 31

def InInt64 (x : Int) : Prop := -2 ^ 63 ≤ x ∧ x < 2 ^ 63

instance (x : Int) : Decidable (InInt32 x) := inferInstanceAs (Decidable (_ ∧ _))

instance (x : Int) : Decidable (InInt64 x) := inferInstanceAs (Decidable (_ ∧ _))

theorem InInt32.bmod {x : Int} (h : InInt32 x) : Int.bmod x (256 ^ 4) = x := by
  obtain ⟨hlow, hhigh⟩ := h
  exact Int.bmod_eq_of_le_mul_two (by norm_num; omega) (by norm_num; omega)

theorem InInt64.bmod {x : Int} (h : InInt64 x) : Int.bmod x (256 ^ 8) = x := by
  obtain ⟨hlow, hhigh⟩ := h
  exact Int.bmod_eq_of_le_mul_two (by norm_num; omega) (by norm_num; omega)

/-- The fields of a record that are encoded. -/
def wireFields (d : RequestFields × Nat) : WireFields where
  offset := d.1.offset
  numEreqs := d.1.numEreqs
  numBlocks := d.1.numBlocks
  stride := d.1.stride
  ub := d.1.ub
  lb := d.1.lb
  aggregateSize := d.1.aggregateSize
  numContigChunks := d.1.numContigChunks
  depth := d.1.depth
  numNestedReq := d.2

/-- Each field has a value of its type; in memory it cannot have another. -/
structure WireFields.Fits (w : WireFields) : Prop where
  offset : InInt64 w.offset
  numEreqs : InInt32 w.numEreqs
  numBlocks : InInt32 w.numBlocks
  stride : InInt64 w.stride
  ub : InInt64 w.ub
  lb : InInt64 w.lb
  aggregateSize : InInt64 w.aggregateSize
  numContigChunks : InInt32 w.numContigChunks
  depth : InInt32 w.depth
  numNestedReq : InInt32 w.numNestedReq

instance (w : WireFields) : Decidable w.Fits :=
  decidable_of_iff
    (((InInt64 w.offset ∧ InInt32 w.numEreqs) ∧ InInt32 w.numBlocks ∧ InInt64 w.stride) ∧
      (InInt64 w.ub ∧ InInt64 w.lb) ∧ (InInt64 w.aggregateSize ∧ InInt32 w.numContigChunks) ∧
        InInt32 w.depth ∧ InInt32 w.numNestedReq)
    ⟨fun ⟨⟨⟨h₁, h₂⟩, h₃, h₄⟩, ⟨h₅, h₆⟩, ⟨h₇, h₈⟩, h₉, h₁₀⟩ => ⟨h₁, h₂, h₃, h₄, h₅, h₆, h₇, h₈, h₉, h₁₀⟩,
      fun h => ⟨⟨⟨h.1, h.2⟩, h.3, h.4⟩, ⟨h.5, h.6⟩, ⟨h.7, h.8⟩, h.9, h.10⟩⟩

theorem onWire_fields {r : Record} (h : (wireFields (r.fields, r.numNestedReq)).Fits) :
    r.onWire.fields = wireFields (r.fields, r.numNestedReq) := by
  simp only [Record.onWire, wireFields] at h ⊢
  rw [h.offset.bmod, h.numEreqs.bmod, h.numBlocks.bmod, h.stride.bmod, h.ub.bmod, h.lb.bmod,
    h.aggregateSize.bmod, h.numContigChunks.bmod, h.depth.bmod, h.numNestedReq.bmod]

def WireRecord.relinked (r : WireRecord) : ServerRecord :=
  ⟨r.fields, r.committed, r.refcount, .ofIndex r.ereq, .ofIndex r.sreq⟩

theorem requestDecode_eq {r : WireRecord} {rs : List WireRecord} (hpacked : r.committed < 0)
    (hcount : r.fields.numNestedReq = rs.length) :
    requestDecode (r :: rs) = some ((r :: rs).map WireRecord.relinked) := by
  simp only [requestDecode, head?_cons, if_pos hpacked, hcount]
  rw [if_pos (by rw [length_cons]; omega)]
  congr 1
  refine ext_getElem (by simp) fun i h1 h2 => ?_
  have hi : (i : Int) ≤ rs.length := by
    simp only [length_map, length_cons] at h2
    omega
  simp only [getElem_map, getElem_zipIdx, Nat.zero_add, if_pos hi]
  rfl

def Pointer.target : Pointer → Option Nat
  | .entry i => some i
  | _ => none

/-- The pointer leads into an array of `n` records, or nowhere. -/
def Pointer.Inside (n : Nat) : Pointer → Prop
  | .null => True
  | .entry i => i < n
  | .raw _ => False

variable {link : Option Nat}

theorem target_ofIndex (h : ∀ i ∈ link, i < 2 ^ 32 - 1) :
    (Pointer.ofIndex (linkIndex link % 256 ^ 4)).target = link := by
  cases link with
  | none => rfl
  | some i =>
    have hi : i < 2 ^ 32 - 1 := h i rfl
    rw [linkIndex, Nat.mod_eq_of_lt (by omega), Pointer.ofIndex, if_neg (by omega), Pointer.target]

variable {n i : Nat}

theorem inside_ofIndex (h : ∀ i ∈ link, i < n) (hn : n < 2 ^ 32) :
    (Pointer.ofIndex (linkIndex link % 256 ^ 4)).Inside n := by
  cases link with
  | none => trivial
  | some i =>
    have hi : i < n := h i rfl
    rw [linkIndex, Nat.mod_eq_of_lt (by omega), Pointer.ofIndex, if_neg (by omega)]
    exact hi

def ServerRecord.blank : ServerRecord := ⟨⟨0, 0, 0, 0, 0, 0, 0, 0, 0, 0⟩, 0, 0, .null, .null⟩

/-- The graph that the decoded records make up. -/
def serverGraph (rs : List ServerRecord) : Linked WireFields where
  data i := (rs.getD i .blank).fields
  left i := (rs.getD i .blank).ereq.target
  right i := (rs.getD i .blank).sreq.target

/-- What a server decodes of a packed request. -/
def received (linreq : Nat → Record) : List ServerRecord :=
  (range ((linreq 0).numNestedReq + 1)).map fun i => (linreq i).onWire.relinked

variable {linreq : Nat → Record}

theorem received_getD (hi : i < (linreq 0).numNestedReq + 1) :
    (received linreq).getD i .blank = (linreq i).onWire.relinked := by
  simp [received, getD, hi]

/-- The server gets the graph that was sent. -/
theorem received_spec (hpacked : (linreq 0).committed = -1)
    (hlimit : (linreq 0).numNestedReq ≤ reqLimitPintRequestNum) :
    ∃ rs, Codes (setBytes (leInt 4 (linreq 0).numNestedReq) ++ (stepOver 4 ++
        (range ((linreq 0).numNestedReq + 1)).flatMap fun i => encodeRequestFields (linreq i)))
      decodePintRequest (some rs) ∧ requestDecode rs = some (received linreq) := by
  obtain ⟨n, hn⟩ : ∃ n, (linreq 0).numNestedReq = n := ⟨_, rfl⟩
  have hn100 : n ≤ 100 := hn ▸ hlimit
  have hint : InInt32 (n : Int) := ⟨by omega, by omega⟩
  obtain ⟨l, hl⟩ : ∃ l, (range (n + 1)).map linreq = l := ⟨_, rfl⟩
  have hlen : l.length = n + 1 := by rw [← hl, length_map, length_range]
  refine ⟨l.map Record.onWire, ?_, ?_⟩
  · have hflat : ((range (n + 1)).flatMap fun i => encodeRequestFields (linreq i)) =
        l.flatMap encodeRequestFields := by
      rw [← hl, flatMap_map]
    rw [hn, hflat]
    have hcount : Codes (setBytes (leInt 4 (n : Int))) (.int 4) (n : Int) := by
      have := codes_int 4 (n : Int)
      rwa [hint.bmod] at this
    refine .bind hcount (.bind (codes_skip 4) ?_)
    rw [← append_nil (l.flatMap _),
      show ((n : Int) + 1).toNat = l.length by omega]
    exact .bind (codes_records l) (.pure _)
  · have hcons : l = linreq 0 :: (range n).map fun i => linreq (i + 1) := by
      rw [← hl, range_succ_eq_map, map_cons, map_map]
      rfl
    have hreceived : received linreq = (l.map Record.onWire).map WireRecord.relinked := by
      rw [received, hn, ← hl, map_map, map_map]
      rfl
    rw [hreceived, hcons, map_cons]
    refine requestDecode_eq ?_ ?_
    · simp only [Record.onWire, hpacked]
      decide
    · simp only [Record.onWire, hn, hint.bmod, length_map, length_range]

theorem received_iso (hlimit : (linreq 0).numNestedReq ≤ reqLimitPintRequestNum)
    (hreach : ∀ i, (graph linreq).Reach 0 i → i < (linreq 0).numNestedReq + 1 ∧
      (wireFields ((linreq i).fields, (linreq i).numNestedReq)).Fits) :
    ((graph linreq).map wireFields).Iso (serverGraph (received linreq)) 0 0 id ∧
      ∀ i, (graph linreq).Reach 0 i →
        ((received linreq).getD i .blank).ereq.Inside (received linreq).length ∧
        ((received linreq).getD i .blank).sreq.Inside (received linreq).length := by
  have hlen : (received linreq).length = (linreq 0).numNestedReq + 1 := by simp [received]
  have hsmall : (linreq 0).numNestedReq + 1 ≤ 101 := Nat.succ_le_succ hlimit
  have hlink : ∀ i j, (graph linreq).Reach 0 i → (graph linreq).Edge i j →
      j < (linreq 0).numNestedReq + 1 := fun i j hi hij => (hreach j (hi.tail hij)).1
  refine ⟨Linked.Iso.of_agree (fun i hi => ?_) (fun i hi => ?_) fun i hi => ?_, fun i hi => ⟨?_, ?_⟩⟩
  · show ((received linreq).getD i .blank).fields = _
    rw [received_getD (hreach i hi).1]
    exact onWire_fields (hreach i hi).2
  · show ((received linreq).getD i .blank).ereq.target = _
    rw [received_getD (hreach i hi).1]
    exact target_ofIndex fun j hj => by
      have := hlink i j hi (.inl hj)
      omega
  · show ((received linreq).getD i .blank).sreq.target = _
    rw [received_getD (hreach i hi).1]
    exact target_ofIndex fun j hj => by
      have := hlink i j hi (.inr hj)
      omega
  · rw [received_getD (hreach i hi).1, hlen]
    exact inside_ofIndex (fun j hj => hlink i j hi (.inl hj)) (by omega)
  · rw [received_getD (hreach i hi).1, hlen]
    exact inside_ofIndex (fun j hj => hlink i j hi (.inr hj)) (by omega)

/-! ## Runs of the client -/

/-- A client builds types and packs some of them, in whatever order. -/
inductive HeapEvent where
  | call (op : HeapOp)
  | commit (a : Nat) (region : Nat → Record)

/-- What an event makes of the client's own records; regions are not among them. -/
def Heap.step (h : Heap) : HeapEvent → Option Heap
  | .call op => h.call op
  | .commit a region =>
    if a < h.length then
      (pvfsRequestCommit (a + 1) h.load region a).map fun
        | .region s => (range h.length).map s.mem
        | _ => h
    else none

variable {h h' : Heap} {a : Nat} {region : Nat → Record}

section
variable (hs : h.Sound) (ha : a < h.length)
include hs ha

theorem Heap.Sound.not_edge_self {x : Nat} (hx : (graph h.load).Reach a x) :
    ¬ (graph h.load).Edge x a := by
  intro hedge
  have hle : x ≤ a := hs.reach_le ha hx
  exact absurd hle (Nat.not_le_of_lt (hs.down x (Nat.lt_of_le_of_lt hle ha) a hedge))

theorem Heap.Sound.within : (graph h.load).Within (a + 1) a :=
  Linked.within_of_down fun x y hx hedge =>
    hs.down x (Nat.lt_of_le_of_lt (hs.reach_le ha hx) ha) y hedge

theorem Heap.Sound.requestCommit (region : Nat → Record) :
    ∃ s seen, requestCommit (a + 1) h.load region a = some s ∧ Commits h.load region a seen s :=
  requestCommit_spec region (fun _ hx => hs.not_edge_self ha hx) (hs.within ha) fun x hx =>
    .inl (hs.unmarked x (Nat.lt_of_le_of_lt (hs.reach_le ha hx) ha))

end

variable {seen : List Nat} {s : Packing}

theorem Heap.Sound.commits_mem (hs : h.Sound) (hc : Commits h.load region a seen s) :
    (range h.length).map s.mem = h := by
  refine ext_getElem (by simp) fun i h1 h2 => ?_
  have hload : h.load i = h[i] := by simp [Heap.load, getD, h2]
  have hmark : (s.mem i).committed = (h.load i).committed := by
    rcases hc.restored i with hr | hr
    · exact hr
    · rw [hr, hs.unmarked i h2]
  rw [getElem_map, getElem_range, hc.same i, hmark, ← hload]

/-- Constructors keep the heap sound. -/
theorem Heap.Sound.step (hs : h.Sound) {e : HeapEvent} (hstep : h.step e = some h') : h'.Sound := by
  cases e with
  | call op => exact hs.call hstep
  | commit a region =>
    simp only [Heap.step] at hstep
    split_ifs at hstep with ha
    obtain ⟨s, seen, hcommit, hc⟩ := hs.requestCommit ha region
    rw [pvfsRequestCommit, if_neg (by rw [hs.unmarked a ha]; decide), hcommit] at hstep
    split_ifs at hstep
    · cases hstep
      show Heap.Sound ((range h.length).map s.mem)
      rw [hs.commits_mem hc]
      exact hs
    · cases hstep
      exact hs

/-- The heap comes about by calls of the constructors. -/
def Heap.Built (h : Heap) : Prop := ∃ events, exec Heap.step elementaryHeap events = some h

theorem Heap.Built.sound (hb : h.Built) : h.Sound := by
  obtain ⟨events, hrun⟩ := hb
  exact (Throughout.of_step (fun _ _ _ hs hstep => Heap.Sound.step hs hstep)
    Heap.sound_elementaryHeap events).last hrun

/-! ## From the client to the server -/

theorem Heap.Sound.numNestedReq_pos (hs : h.Sound) (ha : a < h.length)
    (hmade : (h.load a).ereq.isSome) : 0 < (h.load a).numNestedReq := by
  obtain ⟨e, he⟩ := Option.isSome_iff_exists.mp hmade
  have hedge : (graph h.load).Edge a e := .inl he
  obtain ⟨l, hl, hlen⟩ := hs.counted a ha
  have hsub : [a, e] ⊆ l := by
    intro x hx
    rcases mem_cons.mp hx with rfl | hx
    · exact hl x ((graph h.load).reach_refl x)
    · cases mem_singleton.mp hx
      exact hl e (((graph h.load).reach_refl a).tail hedge)
  have hnodup : [a, e].Nodup := by
    simpa using Nat.ne_of_gt (hs.down a ha e hedge)
  have := (subperm_of_subset hnodup hsub).length_le
  simp only [length_cons, length_nil] at this
  omega

variable {mem : Nat → Record}

theorem Commits.length_le (hc : Commits mem region a seen s)
    (hcounted : Counted mem a) : seen.length ≤ (mem a).numNestedReq + 1 := by
  obtain ⟨l, hl, hlen⟩ := hcounted
  exact Nat.le_trans
    (subperm_of_subset hc.nodup fun x hx => hl x ((hc.mem_seen x).mp hx)).length_le hlen

theorem Commits.reach_lt {mem region : Nat → Record} (hc : Commits mem region a seen s)
    (hi : (graph s.region).Reach 0 i) : i < seen.length := by
  obtain ⟨x, hx, rfl⟩ := hc.iso.surj hi
  exact idxOf_lt_length_of_mem ((hc.mem_seen x).mpr hx)

theorem Commits.again {seen : List Nat}
    (hc : Commits mem region a seen s) (hroot : ∀ x, (graph mem).Reach a x → ¬ (graph mem).Edge x a)
    (hwithin : (graph mem).Within n a) (linreq : Nat → Record) :
    ∃ s' seen', requestCommit n s.region linreq 0 = some s' ∧
      Commits s.region linreq 0 seen' s' ∧ seen'.length ≤ seen.length := by
  have hself : (graph mem).Reach a a := (graph mem).reach_refl a
  have hwithin' : (graph s.region).Within n 0 := by
    have := hc.iso.within hself hwithin
    rwa [hc.iso.root] at this
  obtain ⟨s', seen', hcommit, hc'⟩ := requestCommit_spec linreq
    (fun i hi hedge => by
      obtain ⟨x, hx, rfl⟩ := hc.iso.surj hi
      obtain ⟨z, hz, hz0⟩ := hc.iso.edge hx hedge
      have hza : z = a := hc.iso.inj z a (hx.tail hz) hself (hz0.trans hc.iso.root.symm)
      exact hroot x hx (hza ▸ hz))
    hwithin'
    (fun i hi => by
      obtain ⟨x, hx, rfl⟩ := hc.iso.surj hi
      by_cases hxa : x = a
      · rw [hxa, hc.iso.root]
        exact .inr hc.packed
      · exact .inl (hc.plain x ((hc.mem_seen x).mpr hx) hxa))
  refine ⟨s', seen', hcommit, hc', ?_⟩
  -- the places of the second region are places of the first
  have hsub : seen' ⊆ range seen.length := by
    intro i hi
    exact mem_range.mpr (hc.reach_lt ((hc'.mem_seen i).mp hi))
  simpa using (subperm_of_subset hc'.nodup hsub).length_le

/-- **A request arrives as it was built.**  Whatever types a client has built and packed before,
whatever the memory for the region and for the message held: a type with at most 100 records
by its own count is packed in no more places than it counts, it is sent, and the server that
reads the message gets an array in which the records that can be reached from the first one
are those of the type, one to one, with their links inside the array. -/
theorem request_shipped (hbuilt : h.Built) (ha : a < h.length) (hmade : (h.load a).ereq.isSome)
    (hlimit : (h.load a).numNestedReq ≤ reqLimitPintRequestNum)
    (hfits : ∀ x, (graph h.load).Reach a x →
      (wireFields ((h.load x).fields, (h.load x).numNestedReq)).Fits)
    (region linreq : Nat → Record) :
    ∃ s lin patch, pvfsRequestCommit (a + 1) h.load region a = some (.region s) ∧
      (∀ i, (h.load a).numNestedReq + 1 ≤ i → s.region i = region i) ∧
      (∀ i, (graph s.region).Reach 0 i → i < (h.load a).numNestedReq + 1) ∧
      linearizePvfsRequest (a + 1) s.region linreq 0 = some (some lin) ∧
      (∀ i, (h.load a).numNestedReq + 1 ≤ i → lin i = linreq i) ∧
      encodePintRequest (a + 1) s.region linreq 0 = some (some patch) ∧
      ∀ bytes, Fills patch bytes → ∃ rs server, decodePintRequest.Reads bytes (some rs) ∧
        requestDecode rs = some server ∧ server.length = (h.load a).numNestedReq + 1 ∧
        ∃ φ, ((graph h.load).map wireFields).Iso (serverGraph server) a 0 φ ∧
          ∀ x, (graph h.load).Reach a x → φ x < server.length ∧
            (server.getD (φ x) .blank).ereq.Inside server.length ∧
            (server.getD (φ x) .blank).sreq.Inside server.length := by
  have hs := hbuilt.sound
  obtain ⟨s, seen, hcommit, hc⟩ := hs.requestCommit ha region
  obtain ⟨s', seen', hcommit', hc', hle⟩ :=
    hc.again (fun _ hx => hs.not_edge_self ha hx) (hs.within ha) linreq
  have hlen : seen.length ≤ (h.load a).numNestedReq + 1 := hc.length_le (hs.counted a ha)
  -- the two regions, one after the other
  have hiso := hc.iso.trans hc'.iso
  have hnum : (s.region 0).numNestedReq = (h.load a).numNestedReq :=
    congrArg Prod.snd hc.iso.data_root
  have hnum' : (s'.region 0).numNestedReq = (h.load a).numNestedReq :=
    congrArg Prod.snd hiso.data_root
  have hlimit' : (s'.region 0).numNestedReq ≤ reqLimitPintRequestNum := hnum' ▸ hlimit
  have hlin : linearizePvfsRequest (a + 1) s.region linreq 0 = some (some s'.region) := by
    rw [linearizePvfsRequest, if_neg (by rw [hnum]; exact Nat.not_lt_of_le hlimit), hcommit',
      Option.map_some, if_pos (by rw [hc'.packed]; decide)]
  obtain ⟨rs, hcodes, hdecode⟩ := received_spec hc'.packed hlimit'
  have hreach : ∀ i, (graph s'.region).Reach 0 i → i < (s'.region 0).numNestedReq + 1 ∧
      (wireFields ((s'.region i).fields, (s'.region i).numNestedReq)).Fits := by
    intro i hi
    obtain ⟨x, hx, rfl⟩ := hiso.surj hi
    constructor
    · rw [hnum']
      exact Nat.lt_of_lt_of_le (hc'.reach_lt hi) (Nat.le_trans hle hlen)
    · have hdata := hiso.data x hx
      show (wireFields ((graph s'.region).data _)).Fits
      rw [hdata]
      exact hfits x hx
  obtain ⟨hiso', hinside⟩ := received_iso hlimit' hreach
  refine ⟨s, s'.region, _, ?_, fun i hi => hc.kept i (Nat.le_trans hlen hi),
    fun i hi => Nat.lt_of_lt_of_le (hc.reach_lt hi) hlen, hlin,
    fun i hi => hc'.kept i (Nat.le_trans hle (Nat.le_trans hlen hi)), ?_, fun bytes hbytes =>
    ⟨rs, received s'.region, hcodes bytes hbytes, hdecode, ?_, _,
      (hiso.map wireFields).trans hiso', fun x hx => ?_⟩⟩
  · rw [pvfsRequestCommit, if_neg (by rw [hs.unmarked a ha]; decide),
      if_pos (hs.numNestedReq_pos ha hmade), hcommit, Option.map_some]
  · rw [encodePintRequest, hlin, hnum, ← hnum']
    rfl
  · rw [received, length_map, length_range, hnum']
  · have hx' := hiso.reach hx
    refine ⟨?_, hinside _ hx'⟩
    rw [received, length_map, length_range]
    exact (hreach _ hx').1

/-- Two bytes in a row are sent as two records. -/
theorem request_shipped_two_bytes : ∃ h s patch, exec Heap.step elementaryHeap
      [.call (.contiguous 2 11)] = some h ∧
    pvfsRequestCommit 14 h.load h.load 13 = some (.region s) ∧
    encodePintRequest 14 s.region h.load 0 = some (some patch) ∧
    ∀ bytes, Fills patch bytes → ∃ rs server, decodePintRequest.Reads bytes (some rs) ∧
      requestDecode rs = some server ∧ server.length = 2 := by
  have hbuilt : (elementaryHeap.hvector 1 2 0 11 id).Built := ⟨[.call (.contiguous 2 11)], rfl⟩
  have hlen : 13 < (elementaryHeap.hvector 1 2 0 11 id).length := by decide
  have hfits : ∀ x < 14, (wireFields (((elementaryHeap.hvector 1 2 0 11 id).load x).fields,
      ((elementaryHeap.hvector 1 2 0 11 id).load x).numNestedReq)).Fits := by decide
  obtain ⟨s, _, patch, hcommit, -, -, -, -, hencode, hserver⟩ :=
    request_shipped hbuilt hlen (by decide) (by decide)
      (fun x hx => hfits x (Nat.lt_succ_of_le (hbuilt.sound.reach_le hlen hx)))
      (elementaryHeap.hvector 1 2 0 11 id).load (elementaryHeap.hvector 1 2 0 11 id).load
  refine ⟨_, s, patch, rfl, hcommit, hencode, fun bytes hbytes => ?_⟩
  obtain ⟨rs, server, hreads, hdecode, hlength, -⟩ := hserver bytes hbytes
  exact ⟨rs, server, hreads, hdecode, hlength⟩

/-- A pair of copies of `old`, each in a type of its own; `new` is the first address that is
free. -/
def pairOf (old new : Nat) : List HeapEvent :=
  [.call (.contiguous 1 old), .call (.contiguous 1 old),
    .call (.struct [(1, 0, new), (1, 8, new + 1)])]

/-- Pairs of pairs: each level adds four records and more than doubles the count. -/
def pairsOfPairs : List HeapEvent :=
  pairOf 11 13 ++ pairOf 16 17 ++ pairOf 20 21 ++ pairOf 24 25 ++ pairOf 28 29

/-- The client has made 33 records at all, but the count of the last one is 155 because the
records under it are shared: it can be packed and not sent. -/
theorem shared_request_not_sent : ∃ h, exec Heap.step elementaryHeap pairsOfPairs = some h ∧
    h.length = 33 ∧ (∀ x, (graph h.load).Reach 32 x → x < 33) ∧
    ∀ region linreq, ∃ s, pvfsRequestCommit 33 h.load region 32 = some (.region s) ∧
      encodePintRequest 33 s.region linreq 0 = some none := by
  obtain ⟨h, hrun, hlen, hnum⟩ : ∃ h, exec Heap.step elementaryHeap pairsOfPairs = some h ∧
      h.length = 33 ∧ (h.load 32).numNestedReq = 155 := ⟨_, rfl, by decide +kernel⟩
  have hs : h.Sound := Heap.Built.sound ⟨_, hrun⟩
  have ha : 32 < h.length := by rw [hlen]; decide
  refine ⟨h, hrun, hlen, fun x hx => Nat.lt_succ_of_le (hs.reach_le ha hx), fun region linreq => ?_⟩
  obtain ⟨s, seen, hcommit, hc⟩ := hs.requestCommit ha region
  have hroot : (s.region 0).numNestedReq = 155 :=
    (congrArg Prod.snd hc.iso.data_root).trans hnum
  refine ⟨s, ?_, ?_⟩
  · rw [pvfsRequestCommit, if_neg (by rw [hs.unmarked 32 ha]; decide),
      if_pos (by rw [hnum]; decide), hcommit, Option.map_some]
  · rw [encodePintRequest, linearizePvfsRequest, if_pos (by rw [hroot]; decide)]
    rfl

/-! ## Types over packed requests -/

/-- Two bytes in a row are as they were. -/
theorem requestCommit_restores_two_bytes :
    ∃ s, requestCommit 14 (elementaryHeap.hvector 1 2 0 11 id).load (fun _ => .blank) 13 = some s ∧
      (s.mem 13 = (elementaryHeap.hvector 1 2 0 11 id).load 13) := by
  have hbuilt : (elementaryHeap.hvector 1 2 0 11 id).Built := ⟨[.call (.contiguous 2 11)], rfl⟩
  have hlen : 13 < (elementaryHeap.hvector 1 2 0 11 id).length := by decide
  have hs := hbuilt.sound
  have hplain : ∀ x, (graph (elementaryHeap.hvector 1 2 0 11 id).load).Reach 13 x →
      ((elementaryHeap.hvector 1 2 0 11 id).load x).committed = 0 := fun x hx =>
    hs.unmarked x (Nat.lt_of_le_of_lt (hs.reach_le hlen hx) hlen)
  obtain ⟨s, hcommit, hiff⟩ := requestCommit_restores_iff (fun _ => .blank)
    (fun x hx => hs.not_edge_self hlen hx) (hs.within hlen) (fun x hx => .inl (hplain x hx))
  refine ⟨s, hcommit, hiff.mpr (fun x hx _ => ?_) 13 (Linked.reach_refl _ 13)⟩
  rw [hplain x hx]
  decide

def Heap.packed (h : Heap) (a : Nat) : Option Heap :=
  (requestCommit (a + 1) h.load (fun _ => .blank) a).map fun s =>
    (range h.length).map s.mem ++ (range s.index).map fun i =>
      { s.region i with
        ereq := (s.region i).ereq.map (h.length + ·), sreq := (s.region i).sreq.map (h.length + ·) }

def threeOfPacked : Option Heap :=
  (elementaryHeap.call (.contiguous 2 11)).bind fun h => (h.packed 13).bind fun h =>
    h.call (.contiguous 3 14)

/-- **The packed request loses its mark** when a type made of it is packed. -/
theorem packed_request_loses_mark :
    ∃ h s, threeOfPacked = some h ∧ (graph h.load).Edge 16 14 ∧ (h.load 14).committed = -1 ∧
      requestCommit 17 h.load (fun _ => .blank) 16 = some s ∧ (s.mem 14).committed = 0 :=
  ⟨_, _, rfl, .inl rfl, rfl, rfl, rfl⟩

end Pvfs.Description
