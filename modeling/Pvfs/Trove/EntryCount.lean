import Pvfs.Lib.Bytes
import Pvfs.Lib.Steps
import Pvfs.Trove.KeyvalStore

/-! # The number of entries of a handle (dbpf-keyval.c)

Operations that carry `TROVE_KEYVAL_HANDLE_COUNT` keep the number of key/value entries of the
handle in its bookkeeping record, the one with the empty key. A missing record stands for
zero. Five operations change the number, and they do it in three ways: `handle_info_ops` once
per entry (writes, removes), one subtraction for a whole list (`remove_list`), and
`handle_info_ops` once per entry *after* a batch has been removed (iterate with remove), but
only if the batch did not end the iteration.

All database calls succeed here: a `get` or `del` may only answer that the key is not there.
An operation is `none` if an assertion fails, and where the bookkeeping record does not fit into
a count. -/

namespace Pvfs.Trove

open Pvfs.Lib List KeyvalDb

/-- The key/value database, with the bytes of the values. -/
abbrev Keyvals := KeyvalDb (List UInt8)

/-- What the bytes of a variable that are never set happen to be. -/
class Uninit where
  bytes : Keyvals → List UInt8

instance : Uninit := ⟨fun _ => [0, 0, 0, 0]⟩

/-! ## The operations -/

section
variable (db : Keyvals) (handle : Nat)

/-- The count that the bookkeeping record holds, if it holds one. -/
def handleInfo : Option Nat :=
  match db.get handle [] with
  | none => some 0
  | some val => if val.length = 4 then some (ofLeBytes val) else none

/-- The `uint32_t count` as it is read before it is changed, and `data.size`. More bytes do not fit
(`DB_BUFFER_SMALL`); with fewer, the rest is never set. -/
def readInfo [Uninit] : Option (Nat × Nat) :=
  match db.get handle [] with
  | none => some (0, 4)
  | some val =>
    if val.length ≤ 4 then some (ofLeBytes ((val ++ Uninit.bytes db).take 4), val.length) else none

inductive HandleInfoAction where
  | increment
  | decrement
deriving DecidableEq, Repr

variable [Uninit]

/-- `dbpf_keyval_handle_info_ops`. -/
def handleInfoOps (action : HandleInfoAction) : Option Keyvals :=
  (readInfo db handle).bind fun (count, size) =>
    match action with
    | .increment => some (db.put handle [] ((leBytes 4 (count + 1)).take size))
    | .decrement =>
      -- assert(info.count > 0)
      if count = 0 then none
      else if count - 1 = 0 then some (db.del handle [])
      else some (db.put handle [] ((leBytes 4 (count - 1)).take size))

/-- `dbpf_keyval_write_op_svc` with `TROVE_NOOVERWRITE`: an existing key is refused. -/
def keyvalWrite (key val : List UInt8) : Option Keyvals :=
  match db.get handle key with
  | some _ => some db
  | none => handleInfoOps (db.put handle key val) handle .increment

/-- `dbpf_keyval_write_list_op_svc` with `TROVE_NOOVERWRITE`. The loop that looks every key up is
left out: it goes on both when the key is there and when it is not. -/
def keyvalWriteList (db : Keyvals) (handle : Nat) :
    List (List UInt8 × List UInt8) → Option Keyvals
  | [] => some db
  | (key, val) :: rest =>
    (handleInfoOps (db.put handle key val) handle .increment).bind fun db =>
      keyvalWriteList db handle rest

/-- `dbpf_keyval_do_remove`: the database after it, and whether the key was there. -/
def doRemove (key : List UInt8) : Keyvals × Bool :=
  match db.get handle key with
  | none => (db, false)
  | some _ => (db.del handle key, true)

/-- `dbpf_keyval_remove_op_svc`. -/
def keyvalRemove (key : List UInt8) : Option Keyvals :=
  match doRemove db handle key with
  | (db, false) => some db
  | (db, true) => handleInfoOps db handle .decrement

/-- The loop of `dbpf_keyval_remove_list_op_svc`, and its `remove_count`. -/
def removeEach (db : Keyvals) (handle : Nat) : List (List UInt8) → Keyvals × Nat
  | [] => (db, 0)
  | key :: keys =>
    match doRemove db handle key with
    | (db, removed) =>
      match removeEach db handle keys with
      | (db, removeCount) => (db, removeCount + removed.toNat)

/-- `dbpf_keyval_remove_list_op_svc`: the difference is written back, zero as well. -/
def keyvalRemoveList (keys : List (List UInt8)) : Option Keyvals :=
  match removeEach db handle keys with
  | (db, removeCount) =>
    (readInfo db handle).map fun (count, size) =>
      db.put handle [] ((leInt 4 ((count : Int) - removeCount)).take size)

/-- The records of a batch are deleted one by one (`PINT_dbpf_dspace_remove_keyval`). -/
def deleteBatch : Keyvals → List (KeyvalRecord (List UInt8)) → Keyvals
  | db, [] => db
  | db, r :: batch => deleteBatch (db.del r.handle r.key) batch

/-- `count` times `handle_info_ops` to decrement. -/
def decrementTimes (handle : Nat) : Nat → Keyvals → Option Keyvals
  | 0, db => some db
  | n + 1, db => (handleInfoOps db handle .decrement).bind (decrementTimes handle n)

/-- `dbpf_keyval_iterate_op_svc` and `dbpf_keyval_iterate_keys_op_svc` with
`TROVE_KEYVAL_ITERATE_REMOVE`, given what the position cache has for the position. Only the
latter may be called with the count 0, and then goes on until there is nothing left. -/
def keyvalIterateRemove [CursorCalls (KeyvalRecord (List UInt8))] (count pos : Nat)
    (cached : Option (List UInt8)) : Option Keyvals :=
  if pos = iterateEnd then some db
  else
    match keyvalIterate db handle (if count = 0 then db.records.length + 2 else count) pos cached with
    | none => none
    -- -TROVE_ENOENT: the count is not adjusted
    | some (false, batch) => some (deleteBatch db batch)
    | some (true, batch) => decrementTimes handle batch.length (deleteBatch db batch)

end

/-- An operation on the key/value pairs of a handle. -/
inductive KeyvalOp where
  | write (key val : List UInt8)
  | writeList (keyvals : List (List UInt8 × List UInt8))
  | remove (key : List UInt8)
  | removeList (keys : List (List UInt8))
  | iterateRemove (count pos : Nat) (cached : Option (List UInt8))

def KeyvalOp.step [Uninit] [CursorCalls (KeyvalRecord (List UInt8))] (handle : Nat) (db : Keyvals) :
    KeyvalOp → Option Keyvals
  | .write key val => keyvalWrite db handle key val
  | .writeList keyvals => keyvalWriteList db handle keyvals
  | .remove key => keyvalRemove db handle key
  | .removeList keys => keyvalRemoveList db handle keys
  | .iterateRemove count pos cached => keyvalIterateRemove db handle count pos cached

/-- The count kept for a handle is the number of its entries. -/
def Counted (handle : Nat) (db : Keyvals) : Prop :=
  handleInfo db handle = some (db.named handle).length

/-! ## The bookkeeping record -/

section
variable {db : Keyvals} {handle n : Nat}

theorem handleInfo_put (h : n < 2 ^ 32) :
    handleInfo (db.put handle [] (leBytes 4 n)) handle = some n := by
  rw [handleInfo, get_put_self]
  simp only [length_leBytes, if_true]
  rw [ofLeBytes_leBytes_of_lt h]

theorem readInfo_of_count [Uninit] (h : handleInfo db handle = some n) :
    readInfo db handle = some (n, 4) := by
  unfold handleInfo at h
  rw [readInfo]
  split at h
  · rw [Option.some.inj h]
  · split at h
    next val _ hlen =>
      rw [if_pos (Nat.le_of_eq hlen), take_left' hlen, Option.some.inj h, hlen]
    next => cases h

theorem handleInfo_congr {db' : Keyvals} (h : db'.get handle [] = db.get handle []) :
    handleInfo db' handle = handleInfo db handle := by
  rw [handleInfo, handleInfo, h]

/-- A change of the bookkeeping record alone: the entries are the same, the count is `n`. -/
structure Booked (handle n : Nat) (db db' : Keyvals) : Prop where
  named : db'.named handle = db.named handle
  count : handleInfo db' handle = some n
  get : ∀ key, key ≠ [] → db'.get handle key = db.get handle key

theorem booked_put (h : n < 2 ^ 32) : Booked handle n db (db.put handle [] (leBytes 4 n)) where
  named := named_put_info
  count := handleInfo_put h
  get _ hkey := get_put_ne hkey

theorem booked_del : Booked handle 0 db (db.del handle []) where
  named := named_del_info
  count := by rw [handleInfo, get_del_self]
  get _ hkey := get_del_ne hkey

section
variable [Uninit]

theorem handleInfoOps_increment (h : handleInfo db handle = some n) (hn : n + 1 < 2 ^ 32) :
    ∃ db', handleInfoOps db handle .increment = some db' ∧ Booked handle (n + 1) db db' := by
  refine ⟨_, ?_, booked_put hn⟩
  rw [handleInfoOps, readInfo_of_count h]
  rfl

omit [Uninit] in
theorem handleInfo_lt (h : handleInfo db handle = some n) : n < 2 ^ 32 := by
  unfold handleInfo at h
  split at h
  · cases h
    decide
  · rename_i val _
    split at h
    · rename_i hlen
      cases h
      have := ofLeBytes_lt val
      rw [hlen] at this
      exact this
    · cases h

theorem handleInfoOps_decrement (h : handleInfo db handle = some (n + 1)) :
    ∃ db', handleInfoOps db handle .decrement = some db' ∧ Booked handle n db db' := by
  have hn : n < 2 ^ 32 := Nat.lt_of_succ_lt (handleInfo_lt h)
  rw [handleInfoOps, readInfo_of_count h]
  cases n with
  | zero => exact ⟨_, rfl, booked_del⟩
  | succ n => exact ⟨_, rfl, booked_put hn⟩

theorem decrementTimes_spec {m : Nat} (h : handleInfo db handle = some (n + m)) :
    ∃ db', decrementTimes handle n db = some db' ∧ Booked handle m db db' := by
  induction n generalizing db with
  | zero =>
    rw [Nat.zero_add] at h
    exact ⟨db, rfl, rfl, h, fun _ _ => rfl⟩
  | succ n ih =>
    rw [Nat.succ_add] at h
    obtain ⟨db1, hrun1, hbooked1⟩ := handleInfoOps_decrement h
    obtain ⟨db2, hrun2, hbooked2⟩ := ih hbooked1.count
    refine ⟨db2, ?_, hbooked2.named.trans hbooked1.named, hbooked2.count, fun key hkey => ?_⟩
    · rw [decrementTimes, hrun1]
      exact hrun2
    · rw [hbooked2.get key hkey, hbooked1.get key hkey]

end

end

/-! ## Writing and removing -/

section
variable [Uninit] {db : Keyvals} {handle : Nat} {key val : List UInt8}

theorem Counted.insert (h : Counted handle db) (hkey : key ≠ []) (hnew : db.get handle key = none)
    (hroom : (db.named handle).length + 1 < 2 ^ 32) :
    ∃ db', handleInfoOps (db.put handle key val) handle .increment = some db' ∧
      Counted handle db' ∧ (db'.named handle).length = (db.named handle).length + 1 ∧
      ∀ key', key' ≠ [] → key' ≠ key → db'.get handle key' = db.get handle key' := by
  have hinfo : handleInfo (db.put handle key val) handle = some (db.named handle).length := by
    rw [handleInfo_congr (get_put_ne hkey.symm)]
    exact h
  obtain ⟨db', hrun, hbooked⟩ := handleInfoOps_increment hinfo hroom
  have hlen : (db'.named handle).length = (db.named handle).length + 1 := by
    rw [hbooked.named, length_named_put hkey hnew]
  refine ⟨db', hrun, ?_, hlen, fun key' hkey' hne => ?_⟩
  · rw [Counted, hbooked.count, hlen]
  · rw [hbooked.get key' hkey', get_put_ne hne]

theorem keyvalWrite_counted (h : Counted handle db) (hkey : key ≠ [])
    (hroom : (db.named handle).length + 1 < 2 ^ 32) :
    ∃ db', keyvalWrite db handle key val = some db' ∧ Counted handle db' := by
  unfold keyvalWrite
  cases hget : db.get handle key with
  | some v => exact ⟨db, rfl, h⟩
  | none =>
    obtain ⟨db', hrun, hcounted, -, -⟩ := h.insert hkey hget hroom
    exact ⟨db', hrun, hcounted⟩

theorem keyvalWriteList_counted {keyvals : List (List UInt8 × List UInt8)} (h : Counted handle db)
    (hkeys : ∀ kv ∈ keyvals, kv.1 ≠ []) (hdistinct : (keyvals.map (·.1)).Nodup)
    (hnew : ∀ kv ∈ keyvals, db.get handle kv.1 = none)
    (hroom : (db.named handle).length + keyvals.length < 2 ^ 32) :
    ∃ db', keyvalWriteList db handle keyvals = some db' ∧ Counted handle db' := by
  induction keyvals generalizing db with
  | nil => exact ⟨db, rfl, h⟩
  | cons kv rest ih =>
    obtain ⟨key, val⟩ := kv
    rw [map_cons, nodup_cons] at hdistinct
    rw [length_cons] at hroom
    obtain ⟨db1, hrun1, hcounted1, hlen1, hget1⟩ := @Counted.insert _ db handle key val h
      (hkeys _ mem_cons_self) (hnew _ mem_cons_self) (by omega)
    have hnew1 : ∀ kv ∈ rest, db1.get handle kv.1 = none := by
      intro kv hkv
      have hne : kv.1 ≠ key := by
        rintro rfl
        exact hdistinct.1 (mem_map.mpr ⟨kv, hkv, rfl⟩)
      rw [hget1 kv.1 (hkeys kv (mem_cons_of_mem _ hkv)) hne]
      exact hnew kv (mem_cons_of_mem _ hkv)
    obtain ⟨db2, hrun2, hcounted2⟩ := ih hcounted1
      (fun kv hkv => hkeys kv (mem_cons_of_mem _ hkv)) hdistinct.2 hnew1 (by omega)
    refine ⟨db2, ?_, hcounted2⟩
    rw [keyvalWriteList, hrun1]
    exact hrun2

omit [Uninit] in
theorem handleInfo_del (hkey : key ≠ []) :
    handleInfo (db.del handle key) handle = handleInfo db handle :=
  handleInfo_congr (get_del_ne hkey.symm)

theorem keyvalRemove_counted (h : Counted handle db) (hkey : key ≠ []) :
    ∃ db', keyvalRemove db handle key = some db' ∧ Counted handle db' := by
  unfold keyvalRemove doRemove
  cases hget : db.get handle key with
  | none => exact ⟨db, rfl, h⟩
  | some v =>
    have hlen := length_named_del hkey hget
    have hinfo : handleInfo (db.del handle key) handle =
        some (((db.del handle key).named handle).length + 1) := by
      rw [handleInfo_del hkey, hlen]
      exact h
    obtain ⟨db', hrun, hbooked⟩ := handleInfoOps_decrement hinfo
    refine ⟨db', hrun, ?_⟩
    rw [Counted, hbooked.count, hbooked.named]

variable {keys : List (List UInt8)}

omit [Uninit] in
theorem removeEach_spec (hkeys : ∀ key ∈ keys, key ≠ []) :
    ((removeEach db handle keys).1.named handle).length + (removeEach db handle keys).2 =
        (db.named handle).length ∧
      handleInfo (removeEach db handle keys).1 handle = handleInfo db handle := by
  induction keys generalizing db with
  | nil => exact ⟨rfl, rfl⟩
  | cons key keys ih =>
    have hkey : key ≠ [] := hkeys key mem_cons_self
    have hrest : ∀ key ∈ keys, key ≠ [] := fun key hk => hkeys key (mem_cons_of_mem _ hk)
    rw [removeEach, doRemove]
    cases hget : db.get handle key with
    | none =>
      have := @ih db hrest
      exact this
    | some v =>
      obtain ⟨hlen, hinfo⟩ := @ih (db.del handle key) hrest
      have hdel := length_named_del hkey hget
      refine ⟨?_, hinfo.trans (handleInfo_del hkey)⟩
      dsimp only [Bool.toNat_true]
      omega

theorem keyvalRemoveList_counted (h : Counted handle db)
    (hkeys : ∀ key ∈ keys, key ≠ []) :
    ∃ db', keyvalRemoveList db handle keys = some db' ∧ Counted handle db' := by
  obtain ⟨hlen, hinfo⟩ := @removeEach_spec db handle keys hkeys
  unfold keyvalRemoveList
  generalize removeEach db handle keys = removed at hlen hinfo
  obtain ⟨db1, n⟩ := removed
  dsimp only at hlen hinfo ⊢
  have hlt := handleInfo_lt h
  have hleft : leInt 4 (((db.named handle).length : Int) - n) = leBytes 4 (db1.named handle).length := by
    rw [leInt]
    congr 1
    omega
  rw [readInfo_of_count (hinfo.trans h), Option.map_some, hleft]
  refine ⟨_, rfl, ?_⟩
  rw [take_of_length_le (Nat.le_of_eq (length_leBytes ..))]
  have hbooked : Booked handle (db1.named handle).length db1 _ := booked_put (by omega)
  rw [Counted, hbooked.count, hbooked.named]

variable {batch : List (KeyvalRecord (List UInt8))}

omit [Uninit] in
/-- A batch is removed, and the count is not touched. -/
theorem deleteBatch_spec
    (hours : ∀ r ∈ batch, r.handle = handle ∧ r.key ≠ [])
    (hstored : ∀ r ∈ batch, ∃ v, db.get handle r.key = some v)
    (hdistinct : (batch.map (·.key)).Nodup) :
    ((deleteBatch db batch).named handle).length + batch.length = (db.named handle).length ∧
      handleInfo (deleteBatch db batch) handle = handleInfo db handle := by
  induction batch generalizing db with
  | nil => exact ⟨rfl, rfl⟩
  | cons r batch ih =>
    rw [map_cons, nodup_cons] at hdistinct
    obtain ⟨rfl, hkey⟩ := hours r mem_cons_self
    obtain ⟨v, hv⟩ := hstored r mem_cons_self
    have hstored' : ∀ q ∈ batch, ∃ v, (db.del r.handle r.key).get r.handle q.key = some v := by
      intro q hq
      have hne : q.key ≠ r.key := fun heq => hdistinct.1 (heq ▸ mem_map_of_mem hq)
      rw [get_del_ne hne]
      exact hstored q (mem_cons_of_mem _ hq)
    obtain ⟨hlen, hinfo⟩ :=
      ih (fun q hq => hours q (mem_cons_of_mem _ hq)) hstored' hdistinct.2
    have hdel := length_named_del hkey hv
    refine ⟨?_, hinfo.trans (handleInfo_del hkey)⟩
    rw [deleteBatch, length_cons]
    omega

omit [Uninit] in
theorem deleteBatch_sublist
    (hsub : batch.Sublist (db.named handle)) :
    ((deleteBatch db batch).named handle).length + batch.length = (db.named handle).length ∧
      handleInfo (deleteBatch db batch) handle = handleInfo db handle := by
  apply deleteBatch_spec
  · intro r hr
    exact db.mem_named handle (hsub.subset hr)
  · intro r hr
    have hmem := hsub.subset hr
    refine ⟨r.val, ?_⟩
    rw [← (db.mem_named handle hmem).1]
    exact get_of_mem (mem_of_mem_filter hmem)
  · exact named_keys_nodup.sublist (hsub.map _)

end

/-! ## Any sequence of operations -/

/-- The bookkeeping record is all there is of the handle, and the last record of the database. -/
def InfoLast (handle : Nat) (db : Keyvals) : Prop :=
  db.named handle = [] ∧ db.upper handle = [] ∧ db.info handle ≠ []

/-- What the count rests on, operation by operation: keys are not empty; a list is written to keys
that are new and different from one another; there is room for the entries in 32 bits; a batch
to be removed does not run into the end, unless it is there already; a single entry is not
asked for from the start if that would bring the bookkeeping record; and no assertion fails on the
way to a position. -/
def KeyvalOp.Sound (handle : Nat) (db : Keyvals) : KeyvalOp → Prop
  | .write key _ => key ≠ [] ∧ (db.named handle).length + 1 < 2 ^ 32
  | .writeList keyvals =>
    (∀ kv ∈ keyvals, kv.1 ≠ []) ∧ (keyvals.map (·.1)).Nodup ∧
      (∀ kv ∈ keyvals, db.get handle kv.1 = none) ∧
      (db.named handle).length + keyvals.length < 2 ^ 32
  | .remove key => key ≠ []
  | .removeList keys => ∀ key ∈ keys, key ≠ []
  | .iterateRemove count pos cached =>
    pos = iterateEnd ∨
      (ahead db handle pos cached = [] ∨
        0 < count ∧ count ≤ (ahead db handle pos cached).length) ∧
      ¬ (pos = iterateStart ∧ count = 1 ∧ InfoLast handle db) ∧ ¬ StepAborts pos cached

section
variable [Uninit] [CursorCalls (KeyvalRecord (List UInt8))] {db : Keyvals} {handle : Nat}
  {cached : Option (List UInt8)}

omit [Uninit] in
theorem iterateRemove_start_empty {n : Nat}
    (h : Counted handle db) (hnamed : db.named handle = []) (hn : 0 < n)
    (hone : ¬ (n = 1 ∧ InfoLast handle db)) :
    ∃ batch, keyvalIterate db handle n iterateStart cached = some (false, batch) ∧
      Counted handle (deleteBatch db batch) := by
  rw [keyvalIterate_start_empty n cached hnamed]
  by_cases hupper : db.upper handle = []
  · rw [if_pos hupper]
    rcases db.info_cases handle with hinfo | ⟨q, hinfo⟩
    · rw [hinfo]
      exact ⟨[], rfl, h⟩
    · have hlast : InfoLast handle db := by
        refine ⟨hnamed, hupper, ?_⟩
        rw [hinfo]
        exact cons_ne_nil q []
      have hshort : ¬ n - 1 ≤ 0 := by
        intro hle
        exact hone ⟨by omega, hlast⟩
      obtain ⟨hhandle, hkey⟩ :=
        db.mem_info handle (by rw [hinfo]; exact mem_cons_self)
      rw [hinfo]
      rw [decide_eq_false hshort]
      refine ⟨[q], rfl, ?_⟩
      rw [deleteBatch, deleteBatch, hhandle, hkey, Counted]
      have hbooked : Booked handle 0 db _ := booked_del
      rw [hbooked.count, hbooked.named, hnamed]
      rfl
  · rw [if_neg hupper]
    exact ⟨[], rfl, h⟩

theorem keyvalIterateRemove_counted {count pos : Nat}
    (h : Counted handle db)
    (hsound : (KeyvalOp.iterateRemove count pos cached).Sound handle db) :
    ∃ db', keyvalIterateRemove db handle count pos cached = some db' ∧ Counted handle db' := by
  unfold keyvalIterateRemove
  rcases hsound with hend | ⟨hahead, hone, hstep⟩
  · rw [if_pos hend]
    exact ⟨db, rfl, h⟩
  by_cases hend : pos = iterateEnd
  · rw [if_pos hend]
    exact ⟨db, rfl, h⟩
  rw [if_neg hend]
  generalize hn : (if count = 0 then db.records.length + 2 else count) = n
  have hpos : 0 < n := by
    rw [← hn]
    split <;> omega
  by_cases hempty : pos = iterateStart ∧ db.named handle = []
  · obtain ⟨rfl, hnamed⟩ := hempty
    have hone' : ¬ (n = 1 ∧ InfoLast handle db) := by
      rintro ⟨rfl, hlast⟩
      split at hn
      · omega
      · exact hone ⟨rfl, hn, hlast⟩
    obtain ⟨batch, hbatch, hcounted⟩ := iterateRemove_start_empty h hnamed hpos hone'
    rw [hbatch]
    exact ⟨_, rfl, hcounted⟩
  have hne : pos = iterateStart → db.named handle ≠ [] := fun hs hnamed => hempty ⟨hs, hnamed⟩
  rw [keyvalIterate_ahead hpos hne hstep]
  rcases hahead with hnil | ⟨hcount, hle⟩
  · rw [hnil, decide_eq_false (by simp; omega)]
    exact ⟨db, by simp [deleteBatch], h⟩
  · rw [if_neg (Nat.ne_of_gt hcount)] at hn
    subst hn
    rw [decide_eq_true hle]
    -- the batch is removed, and then subtracted
    have hsub : ((ahead db handle pos cached).take count).Sublist (db.named handle) :=
      (take_sublist count _).trans ahead_sublist
    obtain ⟨hlen, hinfo⟩ := deleteBatch_sublist hsub
    have hdue := hinfo.trans h
    rw [← hlen, Nat.add_comm] at hdue
    obtain ⟨db', hrun, hbooked⟩ := decrementTimes_spec hdue
    refine ⟨db', hrun, ?_⟩
    rw [Counted, hbooked.count, hbooked.named]

/-- A sound operation keeps the count right. -/
theorem KeyvalOp.step_counted {op : KeyvalOp} (h : Counted handle db) (hsound : op.Sound handle db) :
    ∃ db', op.step handle db = some db' ∧ Counted handle db' := by
  cases op with
  | write key val => exact keyvalWrite_counted h hsound.1 hsound.2
  | writeList keyvals =>
    obtain ⟨hkeys, hdistinct, hnew, hroom⟩ := hsound
    exact keyvalWriteList_counted h hkeys hdistinct hnew hroom
  | remove key => exact keyvalRemove_counted h hsound
  | removeList keys => exact keyvalRemoveList_counted h hsound
  | iterateRemove count pos cached => exact keyvalIterateRemove_counted h hsound

/-- **The entries of a handle are counted right, and the assertion never fails**, along every
sequence of operations that are sound in the state they find. -/
theorem entry_count_kept (h : Counted handle db) (ops : List KeyvalOp)
    (hsound : Guarded (KeyvalOp.step handle) (fun db op => op.Sound handle db) db ops) :
    Counted handle db ∧
      Guarded (KeyvalOp.step handle)
        (fun db op => ∃ db', op.step handle db = some db' ∧ Counted handle db') db ops := by
  refine ⟨h, (Guarded.of_step ?_ h hsound).1⟩
  intro db op hdb hop
  exact ⟨KeyvalOp.step_counted hdb hop, KeyvalOp.step_counted hdb hop⟩

end

def Keyvals.empty : Keyvals := ⟨[], List.Pairwise.nil⟩

def countedOps : List KeyvalOp :=
  [.write [97] [1], .writeList [([98], [2]), ([99], [3])], .remove [97], .write [100] [4],
    .iterateRemove 2 iterateStart none, .removeList [[100], [97]]]

theorem entry_count_kept_countedOps :
    Counted 5 Keyvals.empty ∧
      Guarded (KeyvalOp.step 5) (fun db op => op.Sound 5 db) Keyvals.empty countedOps ∧
      Guarded (KeyvalOp.step 5)
        (fun db op => ∃ db', op.step 5 db = some db' ∧ Counted 5 db') Keyvals.empty countedOps := by
  have hsound : Guarded (KeyvalOp.step 5) (fun db op => op.Sound 5 db) Keyvals.empty countedOps := by
    refine .cons rfl ⟨by decide, by decide⟩ ?_
    refine .cons rfl ⟨by decide, by decide, by decide, by decide⟩ ?_
    refine .cons rfl (show [97] ≠ [] by decide) ?_
    refine .cons rfl ⟨by decide, by decide⟩ ?_
    refine .cons rfl (.inr ⟨.inr ⟨by decide, by decide⟩, fun h => absurd h.2.1 (by decide),
      fun h => h.1 rfl⟩) ?_
    exact .cons rfl (show ∀ key ∈ [[100], [97]], key ≠ [] by decide) trivial
  have h := @entry_count_kept _ _ Keyvals.empty 5 rfl countedOps hsound
  exact ⟨h.1, hsound, h.2⟩

/-- A list written over an existing key counts it twice, entries removed up to the end of an
iteration stay counted, and after a list removal has left a count of zero, removing one entry
from the start removes the bookkeeping record and fails the assertion. -/
theorem entry_count_breaks :
    (∃ db, exec (KeyvalOp.step 5) Keyvals.empty [.write [97] [1], .writeList [([97], [2])]] = some db ∧
      handleInfo db 5 = some 2 ∧ (db.named 5).length = 1) ∧
    (∃ db, exec (KeyvalOp.step 5) Keyvals.empty
        [.write [97] [1], .iterateRemove 2 iterateStart none] = some db ∧
      handleInfo db 5 = some 1 ∧ (db.named 5).length = 0) ∧
    ∃ db, exec (KeyvalOp.step 5) Keyvals.empty [.write [97] [1], .removeList [[97]]] = some db ∧
      Counted 5 db ∧ KeyvalOp.step 5 db (.iterateRemove 1 iterateStart none) = none :=
  ⟨⟨_, rfl, rfl, rfl⟩, ⟨_, rfl, rfl, rfl⟩, _, rfl, rfl, rfl⟩

/-! ## The no-overwrite flag

`dbpf_keyval_write_list_op_svc` looks every key up before it writes any, but the only thing
that stops it there is a key that is missing under `TROVE_ONLYOVERWRITE`. A key that is there
does not, so with `TROVE_NOOVERWRITE` it is overwritten, and counted once more. -/

structure WriteFlags where
  noOverwrite : Bool
  onlyOverwrite : Bool
  handleCount : Bool

inductive WriteListRet where
  | complete
  | enoent
  | eexist
deriving DecidableEq, Repr

/-- The loop that writes. The cached attributes are another store (`Pvfs.Trove.AttrCache`). -/
def writeEach [Uninit] (flags : WriteFlags) (handle : Nat) (db : Keyvals) :
    List (List UInt8 × List UInt8) → Option Keyvals
  | [] => some db
  | (key, val) :: rest =>
    (if flags.noOverwrite && flags.handleCount then
        handleInfoOps (db.put handle key val) handle .increment
      else some (db.put handle key val)).bind fun db => writeEach flags handle db rest

/-- `dbpf_keyval_write_list_op_svc`. -/
def keyvalWriteListOpSvc [Uninit] (flags : WriteFlags) (db : Keyvals) (handle : Nat)
    (keyvals : List (List UInt8 × List UInt8)) : Option (WriteListRet × Keyvals) :=
  -- read each key to see if it is present
  if keyvals.all fun kv =>
      (db.get handle kv.1).isSome || flags.noOverwrite || !flags.onlyOverwrite then
    (writeEach flags handle db keyvals).map fun db => (.complete, db)
  else some (.enoent, db)

/-- What the flag promises: every entry keeps its value, and either the operation says that there
is one of the keys already, or there was none and all of them are stored. -/
def NoOverwrite (db : Keyvals) (handle : Nat) (keyvals : List (List UInt8 × List UInt8))
    (out : Option (WriteListRet × Keyvals)) : Prop :=
  ∃ ret db', out = some (ret, db') ∧
    (∀ key v, key ≠ [] → db.get handle key = some v → db'.get handle key = some v) ∧
    (ret = .eexist ∨ ret = .complete ∧
      ∀ kv ∈ keyvals, db.get handle kv.1 = none ∧ db'.get handle kv.1 = some kv.2)

/-- The bookkeeping record is no larger than a count. -/
def InfoFits (db : Keyvals) (handle : Nat) : Prop :=
  ∀ val ∈ db.get handle [], val.length ≤ 4

section
variable [Uninit] {flags : WriteFlags} {db : Keyvals} {handle : Nat}
  {keyvals : List (List UInt8 × List UInt8)}
variable {key val : List UInt8}

theorem readInfo_cases : InfoFits db handle ∧ (∃ info, readInfo db handle = some info) ∨
    ¬ InfoFits db handle ∧ readInfo db handle = none := by
  unfold InfoFits readInfo
  cases db.get handle [] with
  | none => exact .inl ⟨by simp, _, rfl⟩
  | some val =>
    by_cases hle : val.length ≤ 4
    · exact .inl ⟨by simpa using hle, _, if_pos hle⟩
    · exact .inr ⟨by simpa using hle, if_neg hle⟩

theorem writeEach_turn (hkey : key ≠ [])
    (hinfo : flags.handleCount = true → InfoFits db handle) :
    ∃ db', (if flags.noOverwrite && flags.handleCount then
        handleInfoOps (db.put handle key val) handle .increment
      else some (db.put handle key val)) = some db' ∧
      (flags.handleCount = true → InfoFits db' handle) ∧
      ∀ key', key' ≠ [] → db'.get handle key' = (db.put handle key val).get handle key' := by
  by_cases hcount : (flags.noOverwrite && flags.handleCount) = true
  · have hfits : InfoFits (db.put handle key val) handle := by
      rw [InfoFits, get_put_ne hkey.symm]
      exact hinfo (Bool.and_eq_true_iff.mp hcount).2
    obtain ⟨info, hn⟩ := (readInfo_cases.resolve_right fun h => h.1 hfits).2
    refine ⟨_, by rw [if_pos hcount, handleInfoOps, hn]; rfl, fun _ => ?_,
      fun key' hkey' => get_put_ne hkey'⟩
    rw [InfoFits, get_put_self]
    simp
  · refine ⟨_, if_neg hcount, fun hc => ?_, fun _ _ => rfl⟩
    rw [InfoFits, get_put_ne hkey.symm]
    exact hinfo hc

theorem writeEach_spec (hdistinct : (keyvals.map (·.1)).Nodup) (hkeys : ∀ kv ∈ keyvals, kv.1 ≠ [])
    (hinfo : flags.handleCount = true → InfoFits db handle) :
    ∃ db', writeEach flags handle db keyvals = some db' ∧
      (∀ kv ∈ keyvals, db'.get handle kv.1 = some kv.2) ∧
      ∀ key, key ≠ [] → key ∉ keyvals.map (·.1) → db'.get handle key = db.get handle key := by
  induction keyvals generalizing db with
  | nil => exact ⟨db, rfl, fun _ h => absurd h not_mem_nil, fun _ _ _ => rfl⟩
  | cons kv rest ih =>
    obtain ⟨key, val⟩ := kv
    obtain ⟨hnew, hrest⟩ := nodup_cons.mp hdistinct
    have hkey : key ≠ [] := hkeys _ mem_cons_self
    obtain ⟨db1, hturn, hinfo1, hget1⟩ := @writeEach_turn _ flags db handle key val hkey hinfo
    obtain ⟨db', hrun, hstored, hother⟩ :=
      ih hrest (fun kv hkv => hkeys kv (mem_cons_of_mem _ hkv)) hinfo1
    refine ⟨db', by rw [writeEach, hturn]; exact hrun, fun kv hkv => ?_, fun key' hkey' hout => ?_⟩
    · rcases mem_cons.mp hkv with rfl | hkv
      · rw [hother key hkey hnew, hget1 key hkey, get_put_self]
      · exact hstored kv hkv
    · rw [map_cons, mem_cons, not_or] at hout
      rw [hother key' hkey' hout.2, hget1 key' hkey', get_put_ne hout.1]

/-- **A list write keeps the no-overwrite promise just if none of its keys is stored**, and, where
the entries are counted, the bookkeeping record is no larger than a count. -/
theorem writeList_noOverwrite_iff (hflag : flags.noOverwrite = true)
    (hdistinct : (keyvals.map (·.1)).Nodup) (hkeys : ∀ kv ∈ keyvals, kv.1 ≠ []) :
    NoOverwrite db handle keyvals (keyvalWriteListOpSvc flags db handle keyvals) ↔
      (∀ kv ∈ keyvals, db.get handle kv.1 = none) ∧
        (keyvals ≠ [] → flags.handleCount = true → InfoFits db handle) := by
  have hsvc : keyvalWriteListOpSvc flags db handle keyvals =
      (writeEach flags handle db keyvals).map fun db => (.complete, db) := by
    rw [keyvalWriteListOpSvc, if_pos (by simp [hflag])]
  rw [hsvc]
  constructor
  · rintro ⟨ret, db', hout, -, hret⟩
    obtain ⟨db₁, hrun, heq⟩ := Option.map_eq_some_iff.mp hout
    cases heq
    rcases hret with hret | ⟨-, hall⟩
    · cases hret
    refine ⟨fun kv hkv => (hall kv hkv).1, fun hne hcount => ?_⟩
    obtain ⟨⟨key, val⟩, rest, rfl⟩ := exists_cons_of_ne_nil hne
    rw [writeEach, if_pos (by simp [hflag, hcount]), handleInfoOps] at hrun
    rcases @readInfo_cases _ (db.put handle key val) handle with ⟨hfits, -⟩ | ⟨-, hnone⟩
    · rwa [InfoFits, get_put_ne (hkeys _ mem_cons_self).symm] at hfits
    · rw [hnone] at hrun
      cases hrun
  · rintro ⟨hnone, hinfo⟩
    by_cases hnil : keyvals = []
    · subst hnil
      exact ⟨.complete, db, rfl, fun _ _ _ h => h, .inr ⟨rfl, fun _ h => absurd h not_mem_nil⟩⟩
    obtain ⟨db', hrun, hstored, hother⟩ := writeEach_spec hdistinct hkeys (hinfo hnil)
    refine ⟨.complete, db', by rw [hrun]; rfl, fun key v hkey hv => ?_,
      .inr ⟨rfl, fun kv hkv => ⟨hnone kv hkv, hstored kv hkv⟩⟩⟩
    rw [hother key hkey, hv]
    intro hmem
    obtain ⟨kv, hkv, rfl⟩ := mem_map.mp hmem
    rw [hnone kv hkv] at hv
    cases hv

end

theorem writeList_noOverwrite_two :
    NoOverwrite Keyvals.empty 5 [([98], [2]), ([99], [3])]
      (keyvalWriteListOpSvc ⟨true, false, true⟩ Keyvals.empty 5 [([98], [2]), ([99], [3])]) :=
  (writeList_noOverwrite_iff rfl (by decide) (by decide)).mpr
    ⟨fun _ _ => rfl, fun _ _ _ h => nomatch h⟩

/-- A key that is stored is overwritten, and the operation reports success. -/
theorem noOverwrite_overwrites :
    ∃ db', keyvalWriteListOpSvc ⟨true, false, false⟩ (Keyvals.empty.put 5 [97] [1]) 5
        [([97], [2])] = some (.complete, db') ∧
      (Keyvals.empty.put 5 [97] [1]).get 5 [97] = some [1] ∧ db'.get 5 [97] = some [2] ∧
      ¬ NoOverwrite (Keyvals.empty.put 5 [97] [1]) 5 [([97], [2])]
        (keyvalWriteListOpSvc ⟨true, false, false⟩ (Keyvals.empty.put 5 [97] [1]) 5
          [([97], [2])]) := by
  refine ⟨_, rfl, rfl, rfl, ?_⟩
  rintro ⟨ret, db', hout, hkept, -⟩
  cases hout
  exact absurd (hkept [97] [1] (by decide) rfl) (by decide)

end Pvfs.Trove
