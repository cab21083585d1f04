import Pvfs.Lib.Steps

/-! # The attribute cache (dbpf-attr-cache.c)

The cache has an element for a handle whose attributes were looked up or created, with
the attribute record and the values of those keys that are registered as cacheable. Every operation
works on the database first and on the cache afterwards, in two steps under different locks, and
two kinds of threads do so: the service thread, which runs the dataspace and key/value operations
one after the other, and the AIO callback threads, which record the size of a datafile after a
write, one at a time under `dbpf_update_size_lock`.

`ServiceOp` and `AttrOp` are the control points of these operations, each of which is the step
that comes next. What is in the cache is *owed* an update while an operation is between its two
steps.

The handle stands for the pair of file system and handle that the cache is indexed by. The count
of a handle's entries is kept under an empty key, which is not a cacheable one, and is left out.
-/

namespace Pvfs.Trove

open Pvfs.Lib

abbrev Handle := Nat

abbrev KeyvalData := List UInt8

/-- `TROVE_ds_attributes`: the type, the size of the bytestream; the other fields are only copied. -/
structure DsAttributes where
  type : Nat
  bSize : Int
deriving DecidableEq, Repr

/-- `dbpf_attr_cache_elem_t`. -/
structure CacheElem where
  attr : DsAttributes
  keyvalPairs : String → Option KeyvalData

/-- What follows a lookup of the attributes: nothing, `dbpf_bstream_resize_op_svc`, or the size
update of `aio_progress_notification`. -/
inductive AfterGet where
  | done
  | resize (size : Int)
  | grow (eor : Int)
deriving DecidableEq, Repr

/-- The steps of `dbpf_dspace_attr_get` and `dbpf_dspace_attr_set`. -/
inductive AttrOp where
  /-- `ds_db->get` -/
  | get (h : Handle) (after : AfterGet)
  /-- `dbpf_attr_cache_insert` -/
  | insert (h : Handle) (attr : DsAttributes) (after : AfterGet)
  /-- `ds_db->put` -/
  | set (h : Handle) (attr : DsAttributes)
  /-- `dbpf_attr_cache_ds_attr_update_cached_data` -/
  | update (h : Handle) (attr : DsAttributes)
deriving DecidableEq, Repr

inductive WriteMode where
  | plain
  | noOverwrite
  | onlyOverwrite
deriving DecidableEq, Repr

/-- The steps of the service thread. -/
inductive ServiceOp where
  | attr (op : AttrOp)
  /-- `dbpf_dspace_create_store_handle`: the handle is looked up, stored, and put into the cache -/
  | create (h : Handle) (type : Nat)
  | createPut (h : Handle) (type : Nat)
  | createInsert (h : Handle) (attr : DsAttributes)
  /-- `remove_one_handle`: the record is deleted, the element removed, the entries deleted -/
  | remove (h : Handle)
  | removeCached (h : Handle)
  | removeKeyvals (h : Handle)
  /-- `dbpf_keyval_read_op_svc` -/
  | read (h : Handle) (key : String) (binary : Bool)
  /-- `dbpf_keyval_write_op_svc`: the key is looked up, put, and counted -/
  | write (h : Handle) (key : String) (val : KeyvalData) (mode : WriteMode) (binary : Bool)
  | writePut (h : Handle) (key : String) (val : KeyvalData) (noOverwrite binary : Bool)
  | writeInfo (h : Handle) (key : String) (val : KeyvalData) (binary : Bool)
  /-- `dbpf_attr_cache_elem_set_data_based_on_key`, at the end of a read or a write -/
  | setData (h : Handle) (key : String) (val : KeyvalData)
  /-- `dbpf_keyval_remove_op_svc` -/
  | removeKey (h : Handle) (key : String)
  | removeInfo (h : Handle)
deriving DecidableEq, Repr

/-- The databases, the cache, and the operations under way. -/
structure StoreState where
  ds : Handle → Option DsAttributes
  keyval : Handle → String → Option KeyvalData
  cache : Handle → Option CacheElem
  service : Option ServiceOp
  /-- the service thread holds `dbpf_update_size_lock` -/
  serviceLocked : Bool
  /-- the AIO callback that holds it -/
  callback : Option AttrOp

/-- What can happen to the stores. -/
inductive CacheEvent where
  | begin (op : ServiceOp)
  | service (ok : Bool) (victim : Option Handle)
  | deleteKeyval (key : String)
  | beginSize (h : Handle) (eor : Int)
  | size (ok : Bool) (victim : Option Handle)
  | postWrite (h : Handle)

/-! ## The cache -/

/-- `dbpf_attr_cache_insert`; a full cache loses some element. The key/value data of an element
that is already there is forgotten. -/
def insertElem (cache : Handle → Option CacheElem) (h : Handle) (attr : DsAttributes)
    (victim : Option Handle) : Handle → Option CacheElem :=
  fun h' => if h' = h then some ⟨attr, fun _ => none⟩ else if victim = some h' then none
    else cache h'

/-- `dbpf_attr_cache_ds_attr_update_cached_data`. -/
def updateElem (cache : Handle → Option CacheElem) (h : Handle) (attr : DsAttributes) :
    Handle → Option CacheElem :=
  fun h' => if h' = h then (cache h').map fun e => { e with attr := attr } else cache h'

/-- `dbpf_attr_cache_remove`. -/
def removeElem (cache : Handle → Option CacheElem) (h : Handle) : Handle → Option CacheElem :=
  fun h' => if h' = h then none else cache h'

/-- `dbpf_attr_cache_elem_set_data_based_on_key`. -/
def setElemData (keywords : List String) (cache : Handle → Option CacheElem) (h : Handle)
    (key : String) (val : KeyvalData) : Handle → Option CacheElem :=
  fun h' => if h' = h ∧ key ∈ keywords then
      (cache h').map fun e =>
        { e with keyvalPairs := fun k => if k = key then some val else e.keyvalPairs k }
    else cache h'

def setKeyval (keyval : Handle → String → Option KeyvalData) (h : Handle) (key : String)
    (val : Option KeyvalData) : Handle → String → Option KeyvalData :=
  fun h' k => if h' = h ∧ k = key then val else keyval h' k

def setDs (ds : Handle → Option DsAttributes) (h : Handle) (attr : Option DsAttributes) :
    Handle → Option DsAttributes :=
  fun h' => if h' = h then attr else ds h'

/-! ## The operations -/

def AfterGet.next (h : Handle) (a : DsAttributes) : AfterGet → Option AttrOp
  | .done => none
  | .resize size => some (.set h { a with bSize := size })
  | .grow eor => if a.bSize < eor then some (.set h { a with bSize := eor }) else none

/-- A step, and the one that follows. `ok` is the answer of the database. -/
def AttrOp.run (s : StoreState) (ok : Bool) (victim : Option Handle) :
    AttrOp → StoreState × Option AttrOp
  | .get h after =>
    match s.ds h with
    | some a => (s, if ok then some (.insert h a after) else none)
    | none => (s, none)
  | .insert h a after => ({ s with cache := insertElem s.cache h a victim }, after.next h a)
  | .set h a =>
    if ok then ({ s with ds := setDs s.ds h (some a) }, some (.update h a)) else (s, none)
  | .update h a => ({ s with cache := updateElem s.cache h a }, none)

def ServiceOp.run (keywords : List String) (s : StoreState) (ok : Bool)
    (victim : Option Handle) : ServiceOp → StoreState × Option ServiceOp
  | .attr op =>
    let r := op.run s ok victim
    (r.1, r.2.map .attr)
  | .create h type =>
    (s, if ok && (s.ds h).isNone then some (.createPut h type) else none)
  | .createPut h type =>
    if ok then ({ s with ds := setDs s.ds h (some ⟨type, 0⟩) }, some (.createInsert h ⟨type, 0⟩))
    else (s, none)
  | .createInsert h a => ({ s with cache := insertElem s.cache h a victim }, none)
  | .remove h =>
    if ok && (s.ds h).isSome then ({ s with ds := setDs s.ds h none }, some (.removeCached h))
    else (s, none)
  | .removeCached h => ({ s with cache := removeElem s.cache h }, some (.removeKeyvals h))
  | .removeKeyvals _ => (s, none)
  | .read h key binary =>
    match s.keyval h key with
    | some val => (s, if ok && !binary then some (.setData h key val) else none)
    | none => (s, none)
  | .write h key val mode binary =>
    match mode with
    | .plain => (s, some (.writePut h key val false binary))
    | .noOverwrite => (s, some (.writePut h key val true binary))
    | .onlyOverwrite =>
      (s, if ok && (s.keyval h key).isSome then some (.writePut h key val false binary) else none)
  | .writePut h key val noOverwrite binary =>
    if ok && !(noOverwrite && (s.keyval h key).isSome) then
      ({ s with keyval := setKeyval s.keyval h key (some val) },
        if noOverwrite then some (.writeInfo h key val binary)
        else if binary then none else some (.setData h key val))
    else (s, none)
  | .writeInfo h key val binary => (s, if ok && !binary then some (.setData h key val) else none)
  | .setData h key val => ({ s with cache := setElemData keywords s.cache h key val }, none)
  | .removeKey h key =>
    -- the cache is not told
    if ok && (s.keyval h key).isSome then
      ({ s with keyval := setKeyval s.keyval h key none }, some (.removeInfo h))
    else (s, none)
  | .removeInfo _ => (s, none)

def ServiceOp.initial : ServiceOp → Bool
  | .attr (.get _ .done) | .attr (.get _ (.resize _)) | .attr (.set ..) | .create .. | .remove _
  | .read .. | .write .. | .removeKey .. => true
  | _ => false

/-- It is one that takes `dbpf_update_size_lock`. -/
def ServiceOp.locks : ServiceOp → Bool
  | .attr (.get _ (.resize _)) => true
  | _ => false

namespace StoreState

def init : StoreState :=
  ⟨fun _ => none, fun _ _ => none, fun _ => none, none, false, none⟩

/-- One event; `none` if it is not enabled. -/
def step (keywords : List String) (s : StoreState) : CacheEvent → Option StoreState
  | .begin op =>
    if s.service = none ∧ op.initial = true ∧ (op.locks = true → s.callback = none) then
      some { s with service := some op, serviceLocked := op.locks }
    else none
  | .service ok victim =>
    s.service.map fun op =>
      let r := op.run keywords s ok victim
      { r.1 with service := r.2, serviceLocked := r.2.isSome && s.serviceLocked }
  | .deleteKeyval key =>
    match s.service with
    | some (.removeKeyvals h) => some { s with keyval := setKeyval s.keyval h key none }
    | _ => none
  | .beginSize h eor =>
    if s.callback = none ∧ s.serviceLocked = false then
      some { s with callback := some (.get h (.grow eor)) }
    else none
  | .size ok victim =>
    s.callback.map fun op =>
      let r := op.run s ok victim
      { r.1 with callback := r.2 }
  | .postWrite h => some { s with cache := removeElem s.cache h }

end StoreState

end Pvfs.Trove
