import Mathlib.Tactic.Common

/-! # I/O requests and their constructors

A `PINT_Request` is PVFS's datatype record: a strided block of `num_blocks` groups of
`num_ereqs` copies of the element type `ereq`, followed by the next entry `sreq` of the
same sequence. Users never fill one in by hand. They start from the elementary types
(`PVFS_BYTE`, `PVFS_INT`, …) and apply the `PVFS_Request_*` constructors of
`pvfs-request.c`, which are translated here one by one.

**What is left out.**  `num_nested_req`, `committed` and `refcount` only matter for
packing a request for the wire and for freeing it; neither the constructors' other fields
nor request processing read them. Offsets and sizes are C's signed 64 bit types and
counts are 32 bit; signed overflow is undefined there, so both are unbounded here.
`PVFS_NULL` is not exported to users of the constructors. -/

namespace Pvfs.Description

/-- The scalar fields of a `PINT_Request`. -/
structure RequestFields where
  /-- offset from the start of the last set of elements -/
  offset : Int
  /-- number of ereqs in a block -/
  numEreqs : Nat
  numBlocks : Nat
  /-- distance between blocks in bytes -/
  stride : Int
  ub : Int
  lb : Int
  aggregateSize : Int
  numContigChunks : Nat
  /-- number of levels of nesting -/
  depth : Nat
deriving DecidableEq, Repr

/-- A `PINT_Request *`: `NULL`, or a record with its element type and its sequence type. -/
inductive Request where
  | null
  | node (fields : RequestFields) (ereq sreq : Request)
deriving DecidableEq, Repr

namespace Request

/-- The record behind a pointer. The code never reads a field through `NULL`. -/
def fields : Request → RequestFields
  | null => ⟨0, 0, 0, 0, 0, 0, 0, 0, 0⟩
  | node f _ _ => f

def ereq : Request → Request
  | null => null
  | node _ e _ => e

def sreq : Request → Request
  | null => null
  | node _ _ s => s

def offset (r : Request) : Int := r.fields.offset
def numEreqs (r : Request) : Nat := r.fields.numEreqs
def numBlocks (r : Request) : Nat := r.fields.numBlocks
def stride (r : Request) : Int := r.fields.stride
def aggregateSize (r : Request) : Int := r.fields.aggregateSize
def numContigChunks (r : Request) : Nat := r.fields.numContigChunks
def depth (r : Request) : Nat := r.fields.depth

/-- `PVFS_Request_extent`. -/
def extent (r : Request) : Int := r.fields.ub - r.fields.lb

section
variable (f : RequestFields) (e s : Request)

@[simp] theorem ereq_node : (node f e s).ereq = e := rfl
@[simp] theorem sreq_node : (node f e s).sreq = s := rfl
@[simp] theorem offset_node : (node f e s).offset = f.offset := rfl
@[simp] theorem numEreqs_node : (node f e s).numEreqs = f.numEreqs := rfl
@[simp] theorem numBlocks_node : (node f e s).numBlocks = f.numBlocks := rfl
@[simp] theorem stride_node : (node f e s).stride = f.stride := rfl
@[simp] theorem aggregateSize_node : (node f e s).aggregateSize = f.aggregateSize := rfl
@[simp] theorem depth_node : (node f e s).depth = f.depth := rfl

end

/-! ## Elementary types -/

/-- The shape every elementary type has: one packed run of `size` bytes. -/
def elementary (size : Int) : Request :=
  node ⟨0, 1, 0, 1, size, 0, size, 1, 1⟩ null null

def pintChar := elementary 1
def pintShort := elementary 2
def pintInt := elementary 4
def pintLong := elementary 4
def pintUnsignedChar := elementary 1
def pintUnsignedShort := elementary 2
def pintUnsigned := elementary 4
def pintUnsignedLong := elementary 4
def pintFloat := elementary 4
def pintDouble := elementary 8
def pintLongDouble := elementary 8
def pintByte := elementary 1
def pintPacked := elementary 1

def elementaryTypes : List Request :=
  [pintChar, pintShort, pintInt, pintLong, pintUnsignedChar, pintUnsignedShort, pintUnsigned,
    pintUnsignedLong, pintFloat, pintDouble, pintLongDouble, pintByte, pintPacked]

/-! ## Constructors -/

/-- `PINT_subreq`: fill in a record whose `sreq` the caller has set. -/
def subreq (offset : Int) (bsize : Nat) (stride : Int) (count : Nat) (oldreq : Request)
    (oldext : Int) (sreq : Request) : Request :=
  node
    { offset := offset
      numEreqs := bsize
      stride := stride
      numBlocks := count
      ub := offset + ((count : Int) - 1) * stride + bsize * oldext
      lb := offset
      aggregateSize := oldreq.aggregateSize * count * bsize
      numContigChunks :=
        if oldreq.aggregateSize = oldext ∧ oldreq.numContigChunks = 1 then
          if count = 1 ∨ stride = bsize * oldext ∨ -stride = bsize * oldext then 1 else count
        else oldreq.numContigChunks * bsize * count
      depth := oldreq.depth + 1 }
    oldreq sreq

/-- `PINT_reqstats`: fold the statistics of the rest of the sequence into its first entry. -/
def reqstats : Request → Request
  | null => null
  | node f e null => node f e null
  | node f e (node g e' s') =>
    node
      { f with
        lb := if f.lb > g.lb then g.lb else f.lb
        ub := if f.ub < g.ub then g.ub else f.ub
        depth := if f.depth < g.depth then g.depth else f.depth
        aggregateSize := f.aggregateSize + g.aggregateSize
        numContigChunks := f.numContigChunks + g.numContigChunks }
      e (node g e' s')

/-- Overwrite the bounds of a record, as `PVFS_Request_hvector` and `PVFS_Request_resized`
do after building it. -/
def withBounds (lb ub : Int) : Request → Request
  | null => null
  | node f e s => node { f with lb := lb, ub := ub } e s

/-- `PVFS_Request_hvector`; `none` is `PVFS_ERR_REQ`. -/
def hvector (count blocklength : Nat) (stride : Int) (oldreq : Request) : Option Request :=
  if oldreq = null then none
  else
    let r := subreq 0 blocklength stride count oldreq oldreq.extent null
    some (if stride < 0 then r.withBounds (((count : Int) - 1) * stride) r.fields.ub else r)

/-- `PVFS_Request_contiguous`. -/
def contiguous (count : Nat) (oldreq : Request) : Option Request :=
  hvector 1 count 0 oldreq

/-- `PVFS_Request_vector`. -/
def vector (count blocklength : Nat) (stride : Int) (oldreq : Request) : Option Request :=
  if oldreq = null then none else hvector count blocklength (stride * oldreq.extent) oldreq

/-- The loop `indexed`, `hindexed` and `struct` share: it runs from the last entry to the
first and chains each new record in front of the ones already built. -/
def sequence (entries : List (Nat × Int × Request)) : Option Request :=
  entries.foldr
    (fun entry built => built.bind fun dt =>
      if entry.2.2 = null then none
      else some (reqstats
        (subreq entry.2.1 entry.1 0 1 entry.2.2 entry.2.2.extent dt)))
    (some null)

/-- `PVFS_Request_indexed`: displacements count extents of the old type. -/
def indexed (blocks : List (Nat × Int)) (oldreq : Request) : Option Request :=
  if oldreq = null then none
  else sequence (blocks.map fun b => (b.1, b.2 * oldreq.extent, oldreq))

/-- `PVFS_Request_hindexed`: displacements count bytes. -/
def hindexed (blocks : List (Nat × Int)) (oldreq : Request) : Option Request :=
  if oldreq = null then none
  else sequence (blocks.map fun b => (b.1, b.2, oldreq))

/-- `PVFS_Request_struct`: every entry has a type of its own. -/
def struct (entries : List (Nat × Int × Request)) : Option Request :=
  sequence entries

/-- `PVFS_Request_resized`. -/
def resized (oldreq : Request) (lb extent : Int) : Option Request :=
  if oldreq = null then none
  else
    -- an existing resize record or useless vector is bypassed
    let inner :=
      if oldreq.ereq ≠ null ∧ oldreq.sreq = null ∧ oldreq.offset = 0 ∧ oldreq.numEreqs = 1 ∧
          oldreq.numBlocks = 1 ∧ oldreq.stride = 0 then oldreq.ereq
      else oldreq
    (hvector 1 1 0 inner).map (withBounds lb (lb + extent))

/-- The requests users can build, with positive counts and block lengths, and with `ok` on
every displacement, stride and extent they pass. -/
inductive Built (ok : Int → Prop) : Request → Prop where
  | elementary {r : Request} (h : r ∈ elementaryTypes) : Built ok r
  | contiguous {count : Nat} {old r : Request} (hc : 0 < count) (ho : Built ok old)
      (h : contiguous count old = some r) : Built ok r
  | vector {count blocklength : Nat} {stride : Int} {old r : Request} (hc : 0 < count)
      (hb : 0 < blocklength) (hs : ok stride) (ho : Built ok old)
      (h : vector count blocklength stride old = some r) : Built ok r
  | hvector {count blocklength : Nat} {stride : Int} {old r : Request} (hc : 0 < count)
      (hb : 0 < blocklength) (hs : ok stride) (ho : Built ok old)
      (h : hvector count blocklength stride old = some r) : Built ok r
  | indexed {blocks : List (Nat × Int)} {old r : Request} (hne : blocks ≠ [])
      (hb : ∀ b ∈ blocks, 0 < b.1 ∧ ok b.2) (ho : Built ok old)
      (h : indexed blocks old = some r) : Built ok r
  | hindexed {blocks : List (Nat × Int)} {old r : Request} (hne : blocks ≠ [])
      (hb : ∀ b ∈ blocks, 0 < b.1 ∧ ok b.2) (ho : Built ok old)
      (h : hindexed blocks old = some r) : Built ok r
  | struct {entries : List (Nat × Int × Request)} {r : Request} (hne : entries ≠ [])
      (hb : ∀ e ∈ entries, 0 < e.1 ∧ ok e.2.1) (ho : ∀ e ∈ entries, Built ok e.2.2)
      (h : struct entries = some r) : Built ok r
  | resized {lb extent : Int} {old r : Request} (he : ok extent) (ho : Built ok old)
      (h : resized old lb extent = some r) : Built ok r

end Request

end Pvfs.Description
