import Pvfs.Description.Request
import Pvfs.Lib.Linked

/-! # Requests in memory

A `PINT_Request` is a record in memory, and its `ereq` and `sreq` are pointers to others.
Two records may point to the same one: `indexed` makes a chain of records with one element
type, and nothing keeps a user from building many types over one old type. For shipping a
request this matters, as `num_nested_req` is to bound the number of its records, each counted
once.

Here the constructors work on a heap, a record at each address, in the order in which they
were allocated. The elementary types are at the first addresses. -/

namespace Pvfs.Description

open Lib List

/-- A `PINT_Request`, with addresses for its pointers. -/
structure Record where
  fields : RequestFields
  /-- number of requests nested under this one -/
  numNestedReq : Nat
  /-- the place in the region it is being packed into, or -1 in the first record of a packed
      request -/
  committed : Int
  refcount : Int
  ereq : Option Nat
  sreq : Option Nat
deriving DecidableEq, Repr

/-- What an address that was never allocated holds: nothing is read from there. -/
def Record.blank : Record := ⟨⟨0, 0, 0, 0, 0, 0, 0, 0, 0⟩, 0, 0, 0, none, none⟩

/-- Records and their links; what they are linked for is the fields and the counts. -/
def graph (mem : Nat → Record) : Linked (RequestFields × Nat) where
  data a := ((mem a).fields, (mem a).numNestedReq)
  left a := (mem a).ereq
  right a := (mem a).sreq

theorem graph_edge {mem : Nat → Record} {a b : Nat} :
    (graph mem).Edge a b ↔ (mem a).ereq = some b ∨ (mem a).sreq = some b := Iff.rfl

/-- The request records that have been allocated, by address. -/
abbrev Heap : Type := List Record

namespace Heap

def load (h : Heap) (a : Nat) : Record := h.getD a .blank

/-- `PINT_REQUEST_REFINC`. -/
def refinc (h : Heap) (a : Nat) : Heap :=
  h.modify a fun r => if r.refcount ≥ 0 then { r with refcount := r.refcount + 1 } else r

/-- `PINT_REQUEST_REFSET`. -/
def refset (h : Heap) (a : Nat) : Heap :=
  h.modify a fun r => if r.refcount ≥ 0 then { r with refcount := 1 } else r

/-- `PVFS_Request_extent`. -/
def extent (h : Heap) (a : Nat) : Int := (h.load a).fields.ub - (h.load a).fields.lb

/-- The record `PINT_subreq` fills in. -/
def subreq (h : Heap) (offset : Int) (bsize : Nat) (stride : Int) (count : Nat) (oldreq : Nat)
    (sreq : Option Nat) : Record :=
  let old := h.load oldreq
  let oldext := h.extent oldreq
  { fields :=
      { offset := offset
        numEreqs := bsize
        stride := stride
        numBlocks := count
        ub := offset + ((count : Int) - 1) * stride + bsize * oldext
        lb := offset
        aggregateSize := old.fields.aggregateSize * count * bsize
        numContigChunks :=
          if old.fields.aggregateSize = oldext ∧ old.fields.numContigChunks = 1 then
            if count = 1 ∨ stride = bsize * oldext ∨ -stride = bsize * oldext then 1 else count
          else old.fields.numContigChunks * bsize * count
        depth := old.fields.depth + 1 }
    numNestedReq := old.numNestedReq + 1
    committed := 0
    refcount := 0
    ereq := some oldreq
    sreq := sreq }

/-- `PINT_reqstats`. The count of an element type that the next entry has too is taken off
again: it was counted with that entry. -/
def reqstats (h : Heap) (r : Record) : Record :=
  match r.sreq with
  | none => r
  | some s =>
    let g := h.load s
    { r with
      fields :=
        { r.fields with
          lb := if r.fields.lb > g.fields.lb then g.fields.lb else r.fields.lb
          ub := if r.fields.ub < g.fields.ub then g.fields.ub else r.fields.ub
          depth := if r.fields.depth < g.fields.depth then g.fields.depth else r.fields.depth
          aggregateSize := r.fields.aggregateSize + g.fields.aggregateSize
          numContigChunks := r.fields.numContigChunks + g.fields.numContigChunks }
      numNestedReq :=
        r.numNestedReq + (g.numNestedReq + 1) -
          if r.ereq = g.ereq then
            match r.ereq with
            | some e => (h.load e).numNestedReq + 1
            | none => 0
          else 0 }

/-- Put a new record over `oldreq` at the next address. -/
def alloc (h : Heap) (oldreq : Nat) (r : Record) : Heap := h.refinc oldreq ++ [r]

/-- `PVFS_Request_hvector`, with `bounds` for what `PVFS_Request_resized` does to the record
afterwards. -/
def hvector (h : Heap) (count blocklength : Nat) (stride : Int) (oldreq : Nat)
    (bounds : RequestFields → RequestFields) : Heap :=
  let r := h.subreq 0 blocklength stride count oldreq none
  let fields :=
    if stride < 0 then { r.fields with lb := ((count : Int) - 1) * stride } else r.fields
  (h.alloc oldreq { r with fields := bounds fields }).refset h.length

/-- One turn of the loop in `indexed`, `hindexed` and `struct`: a record for the entry, in front
of those made before. -/
def chain (entry : Nat × Int × Nat) (built : Heap × Option Nat) : Heap × Option Nat :=
  let (h, dt) := built
  (h.alloc entry.2.2 (h.reqstats (h.subreq entry.2.1 entry.1 0 1 entry.2.2 dt)), some h.length)

def sequence (h : Heap) (entries : List (Nat × Int × Nat)) : Heap :=
  let built := entries.foldr chain (h, none)
  built.1.refset (built.1.length - 1)

end Heap

/-! ## Calls of the constructors -/

/-- A constructor of request types, with the addresses of its arguments. -/
inductive HeapOp where
  | contiguous (count : Nat) (oldreq : Nat)
  | vector (count blocklength : Nat) (stride : Int) (oldreq : Nat)
  | hvector (count blocklength : Nat) (stride : Int) (oldreq : Nat)
  | indexed (blocks : List (Nat × Int)) (oldreq : Nat)
  | hindexed (blocks : List (Nat × Int)) (oldreq : Nat)
  | struct (entries : List (Nat × Int × Nat))
  | resized (oldreq : Nat) (lb extent : Int)

def HeapOp.oldreqs : HeapOp → List Nat
  | .contiguous _ old | .vector _ _ _ old | .hvector _ _ _ old | .resized old _ _ => [old]
  | .indexed blocks old | .hindexed blocks old => blocks.map fun _ => old
  | .struct entries => entries.map fun e => e.2.2

/-- What a call makes of the heap: the new type has the last address. It fails if it is given
a pointer to nothing, and a sequence of no entries at all is not a type. -/
def Heap.call (h : Heap) (op : HeapOp) : Option Heap :=
  if op.oldreqs ≠ [] ∧ ∀ a ∈ op.oldreqs, a < h.length then
    some (match op with
      | .contiguous count old => h.hvector 1 count 0 old id
      | .vector count blocklength stride old =>
        h.hvector count blocklength (stride * h.extent old) old id
      | .hvector count blocklength stride old => h.hvector count blocklength stride old id
      | .indexed blocks old => h.sequence (blocks.map fun b => (b.1, b.2 * h.extent old, old))
      | .hindexed blocks old => h.sequence (blocks.map fun b => (b.1, b.2, old))
      | .struct entries => h.sequence entries
      | .resized old lb extent =>
        let r := h.load old
        -- an existing resize record or useless vector is bypassed
        let inner := match r.ereq with
          | some e =>
            if r.sreq = none ∧ r.fields.offset = 0 ∧ r.fields.numEreqs = 1 ∧
                r.fields.numBlocks = 1 ∧ r.fields.stride = 0 then e
            else old
          | none => old
        h.hvector 1 1 0 inner fun f => { f with lb := lb, ub := lb + extent })
  else none

def elementaryRecord (size : Int) : Record :=
  ⟨⟨0, 1, 0, 1, size, 0, size, 1, 1⟩, 0, 0, -1, none, none⟩

/-- The elementary types: `PVFS_CHAR`, `PVFS_SHORT`, `PVFS_INT`, `PVFS_LONG`, their unsigned
kinds, `PVFS_FLOAT`, `PVFS_DOUBLE`, `PVFS_LONG_DOUBLE`, `PVFS_BYTE` and `PVFS_PACKED`. -/
def elementaryHeap : Heap := [1, 2, 4, 4, 1, 2, 4, 4, 4, 8, 8, 1, 1].map elementaryRecord

/-! ## Links lead to older records, and the counts are large enough -/

/-- `num_nested_req` bounds how many records are nested under the one at `a`. -/
def Counted (mem : Nat → Record) (a : Nat) : Prop :=
  ∃ l : List Nat, (∀ x, (graph mem).Reach a x → x ∈ l) ∧ l.length ≤ (mem a).numNestedReq + 1

/-- Links lead to older records, which are not being packed, and are counted. -/
structure Heap.Sound (h : Heap) : Prop where
  down : ∀ a < h.length, ∀ b, (graph h.load).Edge a b → b < a
  unmarked : ∀ a < h.length, (h.load a).committed = 0
  counted : ∀ a < h.length, Counted h.load a

namespace Heap

variable {h h' : Heap} {a b old : Nat} {r : Record}

/-- The records are the same but for their reference counts. -/
def Similar (h h' : Heap) : Prop :=
  h'.length = h.length ∧ ∀ a, ∃ c, h'.load a = { h.load a with refcount := c }

theorem load_append_of_lt (ha : a < h.length) : (h ++ [r]).load a = h.load a := by
  simp [load, List.getD, getElem?_append_left ha]

@[simp] theorem load_append_length (h : Heap) (r : Record) : (h ++ [r]).load h.length = r := by
  simp [load, List.getD]

theorem Similar.graph_eq (hs : h.Similar h') : graph h'.load = graph h.load := by
  have hload : ∀ a, (h'.load a).fields = (h.load a).fields ∧
      (h'.load a).numNestedReq = (h.load a).numNestedReq ∧
      (h'.load a).ereq = (h.load a).ereq ∧ (h'.load a).sreq = (h.load a).sreq := by
    intro a
    obtain ⟨c, hc⟩ := hs.2 a
    rw [hc]
    exact ⟨rfl, rfl, rfl, rfl⟩
  simp only [graph, hload]

theorem Similar.sound (hs : h.Similar h') (hsound : h.Sound) : h'.Sound where
  down a ha := by
    rw [hs.graph_eq]
    exact hsound.down a (hs.1 ▸ ha)
  unmarked a ha := by
    obtain ⟨c, hc⟩ := hs.2 a
    rw [hc]
    exact hsound.unmarked a (hs.1 ▸ ha)
  counted a ha := by
    obtain ⟨c, hc⟩ := hs.2 a
    rw [Counted, hs.graph_eq, hc]
    exact hsound.counted a (hs.1 ▸ ha)

theorem similar_modify {f : Record → Record} (hf : ∀ r, ∃ c, f r = { r with refcount := c })
    (a : Nat) : h.Similar (h.modify a f) := by
  refine ⟨length_modify .., fun b => ?_⟩
  simp only [load, List.getD, getElem?_modify]
  cases h[b]? with
  | none => exact ⟨Record.blank.refcount, by simp⟩
  | some r =>
    by_cases hab : a = b
    · obtain ⟨c, hc⟩ := hf r
      exact ⟨c, by simp [hab, hc]⟩
    · exact ⟨r.refcount, by simp [hab]⟩

theorem similar_refinc (h : Heap) (a : Nat) : h.Similar (h.refinc a) := by
  refine similar_modify (fun r => ?_) a
  by_cases hr : r.refcount ≥ 0
  · exact ⟨_, if_pos hr⟩
  · exact ⟨r.refcount, if_neg hr⟩

theorem similar_refset (h : Heap) (a : Nat) : h.Similar (h.refset a) := by
  refine similar_modify (fun r => ?_) a
  by_cases hr : r.refcount ≥ 0
  · exact ⟨_, if_pos hr⟩
  · exact ⟨r.refcount, if_neg hr⟩

section
variable (hs : h.Sound)
include hs

theorem Sound.reach_le (ha : a < h.length) (hr : (graph h.load).Reach a b) : b ≤ a := by
  induction hr with
  | refl => exact Nat.le_refl a
  | tail _ he ih => exact Nat.le_trans (Nat.le_of_lt (hs.down _ (Nat.lt_of_le_of_lt ih ha) _ he)) ih

theorem Sound.iso_append (ha : a < h.length) (r : Record) :
    (graph h.load).Iso (graph (load (h ++ [r]))) a a id := by
  have hload : ∀ x, (graph h.load).Reach a x → load (h ++ [r]) x = h.load x := fun x hx =>
    load_append_of_lt (Nat.lt_of_le_of_lt (hs.reach_le ha hx) ha)
  apply Linked.Iso.of_agree
  · intro x hx
    simp only [graph, hload x hx]
  · intro x hx
    simp only [graph, hload x hx]
  · intro x hx
    simp only [graph, hload x hx]

theorem Sound.reach_append (ha : a < h.length) (hr : (graph (load (h ++ [r]))).Reach a b) :
    (graph h.load).Reach a b := by
  obtain ⟨x, hx, rfl⟩ := (hs.iso_append ha r).surj hr
  exact hx

/-- `num_nested_req` covers what the record links to. -/
def Covers (h : Heap) (r : Record) : Prop :=
  ∃ e, r.ereq = some e ∧ e < h.length ∧
    match r.sreq with
    | none => (h.load e).numNestedReq + 1 ≤ r.numNestedReq
    | some s => s < h.length ∧
      ((h.load e).numNestedReq + (h.load s).numNestedReq + 2 ≤ r.numNestedReq ∨
        ((h.load s).ereq = some e ∧ (h.load s).numNestedReq + 1 ≤ r.numNestedReq))

theorem Sound.reach_new (hc : h.Covers r) (hr : (graph (load (h ++ [r]))).Reach h.length b) :
    b = h.length ∨ (∃ e, r.ereq = some e ∧ (graph h.load).Reach e b) ∨
      ∃ s, r.sreq = some s ∧ (graph h.load).Reach s b := by
  obtain ⟨e, he, hlt, hsreq⟩ := hc
  rcases Relation.ReflTransGen.cases_head hr with rfl | ⟨c, hedge, hrest⟩
  · exact .inl rfl
  rw [graph_edge, load_append_length] at hedge
  rcases hedge with hl | hl
  · have hec : e = c := Option.some.inj (he.symm.trans hl)
    subst hec
    exact .inr (.inl ⟨e, he, hs.reach_append hlt hrest⟩)
  · rw [hl] at hsreq
    exact .inr (.inr ⟨c, hl, hs.reach_append hsreq.1 hrest⟩)

theorem Sound.counted_append (hc : h.Covers r) : Counted (load (h ++ [r])) h.length := by
  have hreach := fun b => hs.reach_new (b := b) hc
  obtain ⟨e, he, hlt, hsreq⟩ := hc
  rw [Counted, load_append_length]
  obtain ⟨le, hle, hlene⟩ := hs.counted e hlt
  have hin : ∀ x, (graph (load (h ++ [r]))).Reach h.length x →
      x = h.length ∨ (graph h.load).Reach e x ∨ ∃ s, r.sreq = some s ∧ (graph h.load).Reach s x := by
    intro x hx
    rcases hreach x hx with rfl | ⟨e', he', hx⟩ | hx
    · exact .inl rfl
    · rw [he, Option.some.injEq] at he'
      exact .inr (.inl (he' ▸ hx))
    · exact .inr (.inr hx)
  cases hq : r.sreq with
  | none =>
    rw [hq] at hsreq
    refine ⟨h.length :: le, fun x hx => ?_, by simp only [length_cons]; omega⟩
    rcases hin x hx with rfl | hx | ⟨s, hs', -⟩
    · exact mem_cons_self
    · exact mem_cons_of_mem _ (hle x hx)
    · rw [hq] at hs'
      cases hs'
  | some s =>
    rw [hq] at hsreq
    obtain ⟨hslt, hnum⟩ := hsreq
    obtain ⟨ls, hls, hlens⟩ := hs.counted s hslt
    have hnext : ∀ x, (∃ s', r.sreq = some s' ∧ (graph h.load).Reach s' x) → x ∈ ls := by
      rintro x ⟨s', hs', hx⟩
      rw [hq, Option.some.injEq] at hs'
      exact hls x (hs' ▸ hx)
    rcases hnum with hnum | ⟨hshare, hnum⟩
    · refine ⟨h.length :: (le ++ ls), fun x hx => ?_, ?_⟩
      · rcases hin x hx with rfl | hx | hx
        · exact mem_cons_self
        · exact mem_cons_of_mem _ (mem_append_left _ (hle x hx))
        · exact mem_cons_of_mem _ (mem_append_right _ (hnext x hx))
      · simp only [length_cons, length_append]
        omega
    · -- the element type is among what the next entry reaches
      refine ⟨h.length :: ls, fun x hx => ?_, by simp only [length_cons]; omega⟩
      rcases hin x hx with rfl | hx | hx
      · exact mem_cons_self
      · exact mem_cons_of_mem _ (hls x (hx.head (.inl hshare)))
      · exact mem_cons_of_mem _ (hnext x hx)

theorem Sound.append (hunmarked : r.committed = 0) (hc : h.Covers r) : Heap.Sound (h ++ [r]) := by
  have hold : ∀ a, a < (h ++ [r]).length → a < h.length ∨ a = h.length := by
    intro a ha
    rw [length_append, length_singleton] at ha
    omega
  refine ⟨fun a ha b hedge => ?_, fun a ha => ?_, fun a ha => ?_⟩
  · rcases hold a ha with ha | rfl
    · refine hs.down a ha b ?_
      rwa [graph_edge, load_append_of_lt ha] at hedge
    · rw [graph_edge, load_append_length] at hedge
      obtain ⟨e, he, hlt, hsreq⟩ := hc
      rcases hedge with hl | hl
      · rw [show b = e from Option.some.inj (hl.symm.trans he)]
        exact hlt
      · rw [hl] at hsreq
        exact hsreq.1
  · rcases hold a ha with ha | rfl
    · rw [load_append_of_lt ha]
      exact hs.unmarked a ha
    · rw [load_append_length]
      exact hunmarked
  · rcases hold a ha with ha | rfl
    · obtain ⟨l, hl, hlen⟩ := hs.counted a ha
      exact ⟨l, fun x hx => hl x (hs.reach_append ha hx), by rwa [load_append_of_lt ha]⟩
    · exact hs.counted_append hc

end

/-! ## The constructors -/

theorem Similar.covers (hs : h.Similar h') (hc : h.Covers r) : h'.Covers r := by
  have hnum : ∀ a, (h'.load a).numNestedReq = (h.load a).numNestedReq ∧
      (h'.load a).ereq = (h.load a).ereq := by
    intro a
    obtain ⟨c, hc⟩ := hs.2 a
    rw [hc]
    exact ⟨rfl, rfl⟩
  simpa only [Covers, hnum, hs.1] using hc

theorem Sound.alloc (hs : h.Sound) (hunmarked : r.committed = 0) (hc : h.Covers r) :
    (h.alloc old r).Sound :=
  ((similar_refinc h old).sound hs).append hunmarked ((similar_refinc h old).covers hc)

theorem length_alloc (h : Heap) (old : Nat) (r : Record) :
    (h.alloc old r).length = h.length + 1 := by
  rw [alloc, length_append, (similar_refinc h old).1, length_singleton]

theorem Sound.hvector (hs : h.Sound) (hold : old < h.length) (count blocklength : Nat)
    (stride : Int) (bounds : RequestFields → RequestFields) :
    (h.hvector count blocklength stride old bounds).Sound :=
  (similar_refset _ _).sound (hs.alloc rfl ⟨old, rfl, hold, Nat.le_refl _⟩)

theorem covers_reqstats (hold : old < h.length) {dt : Option Nat} (hdt : ∀ s ∈ dt, s < h.length)
    (offset : Int) (bsize : Nat) : h.Covers (h.reqstats (h.subreq offset bsize 0 1 old dt)) := by
  cases dt with
  | none => exact ⟨old, rfl, hold, Nat.le_refl _⟩
  | some s =>
    refine ⟨old, rfl, hold, hdt s rfl, ?_⟩
    simp only [reqstats, subreq]
    by_cases hshare : (h.load s).ereq = some old
    · right
      rw [hshare, if_pos rfl]
      exact ⟨rfl, by omega⟩
    · left
      rw [if_neg (Ne.symm hshare)]
      omega

/-- A chain has been built, and the heap is sound. -/
def Chained (h : Heap) (built : Heap × Option Nat) : Prop :=
  built.1.Sound ∧ h.length ≤ built.1.length ∧ ∀ s ∈ built.2, s < built.1.length

theorem Chained.chain {built : Heap × Option Nat} (hb : h.Chained built) {entry : Nat × Int × Nat}
    (hold : entry.2.2 < h.length) : h.Chained (chain entry built) := by
  obtain ⟨hsound, hle, hdt⟩ := hb
  have hunmarked : (built.1.reqstats (built.1.subreq entry.2.1 entry.1 0 1 entry.2.2 built.2)).committed
      = 0 := by
    cases built.2 <;> rfl
  have hlen := length_alloc built.1 entry.2.2
    (built.1.reqstats (built.1.subreq entry.2.1 entry.1 0 1 entry.2.2 built.2))
  refine ⟨hsound.alloc hunmarked (covers_reqstats (by omega) hdt ..), ?_, ?_⟩
  · exact Nat.le_trans hle (by rw [Heap.chain, hlen]; omega)
  · intro s hs
    cases hs
    rw [Heap.chain, hlen]
    exact Nat.lt_succ_self _

theorem Sound.sequence (hs : h.Sound) {entries : List (Nat × Int × Nat)}
    (hold : ∀ e ∈ entries, e.2.2 < h.length) : (h.sequence entries).Sound := by
  have hb : h.Chained (entries.foldr Heap.chain (h, none)) := by
    induction entries with
    | nil => exact ⟨hs, Nat.le_refl _, fun s hs => by cases hs⟩
    | cons e es ih =>
      exact (ih fun e' he' => hold e' (mem_cons_of_mem _ he')).chain (hold e mem_cons_self)
  exact (similar_refset _ _).sound hb.1

theorem Sound.call (hs : h.Sound) {op : HeapOp} (hcall : h.call op = some h') : h'.Sound := by
  unfold Heap.call at hcall
  split_ifs at hcall with hold
  obtain ⟨-, hold⟩ := hold
  obtain rfl := Option.some.inj hcall
  cases op with
  | contiguous count old | vector count blocklength stride old =>
    exact hs.hvector (hold old mem_cons_self) ..
  | hvector count blocklength stride old => exact hs.hvector (hold old mem_cons_self) ..
  | indexed blocks old | hindexed blocks old =>
    refine hs.sequence fun e he => ?_
    obtain ⟨b, hb, rfl⟩ := mem_map.mp he
    exact hold old (mem_map.mpr ⟨b, hb, rfl⟩)
  | struct entries => exact hs.sequence fun e he => hold e.2.2 (mem_map.mpr ⟨e, he, rfl⟩)
  | resized old lb extent =>
    have hlt : old < h.length := hold old mem_cons_self
    refine hs.hvector ?_ ..
    split
    · next e he =>
      split_ifs
      · exact Nat.lt_trans (hs.down old hlt e (.inl he)) hlt
      · exact hlt
    · exact hlt

theorem sound_elementaryHeap : elementaryHeap.Sound := by
  have hleaf : ∀ a, (elementaryHeap.load a).ereq = none ∧ (elementaryHeap.load a).sreq = none ∧
      (elementaryHeap.load a).committed = 0 := by
    intro a
    rw [load, List.getD, elementaryHeap, getElem?_map]
    cases [(1 : Int), 2, 4, 4, 1, 2, 4, 4, 4, 8, 8, 1, 1][a]? with
    | none | some size => exact ⟨rfl, rfl, rfl⟩
  have hedge : ∀ a b, ¬ (graph elementaryHeap.load).Edge a b := by
    intro a b h
    rw [graph_edge, (hleaf a).1, (hleaf a).2.1] at h
    rcases h with h | h <;> cases h
  refine ⟨fun a _ b h => absurd h (hedge a b), fun a _ => (hleaf a).2.2, fun a _ => ⟨[a], ?_, ?_⟩⟩
  · intro x hx
    rcases Relation.ReflTransGen.cases_head hx with rfl | ⟨c, hc, -⟩
    · exact mem_singleton_self _
    · exact absurd hc (hedge a c)
  · exact Nat.succ_le_succ (Nat.zero_le _)

end Heap

end Pvfs.Description
