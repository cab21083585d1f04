import Pvfs.Trove.AttrCache
import Pvfs.Trove.Dspace
import Pvfs.Trove.EntryCount

/-! # What is left of a removed dataspace (dbpf-dspace.c)

`remove_one_handle` again, with all that is kept under a handle: the attribute record, the
cached attributes, the byte stream and the key/value records. The key/value records are
removed by an iteration from the start, which steps over the bookkeeping record. So the count
of a handle outlives its entries, and a new object under the handle begins with it.

The ledger of handles (`Pvfs.Trove.Dspace`) and the steps between which other threads can run
(`Pvfs.Trove.AttrCache`) are the subjects of other modules. What those say of `remove_one_handle`
is shown to be what is said here, as far as they have the same parts. -/

namespace Pvfs.Trove

open Pvfs.Lib List

/-- Which handles have an attribute record, cached attributes and a byte stream, and the key/value
records of all of them. -/
structure Objects where
  records : Nat → Bool
  cached : Nat → Bool
  bstreams : Nat → Bool
  keyvals : Keyvals

section
variable [CursorCalls (KeyvalRecord (List UInt8))]

/-- `PINT_dbpf_keyval_iterate` with `PINT_dbpf_dspace_remove_keyval`, from the start to the end. -/
def removeKeyvals (db : Keyvals) (handle : Nat) : Keyvals :=
  match keyvalIterate db handle (db.records.length + 2) iterateStart none with
  | none => db
  | some (_, batch) => deleteBatch db batch

/-- `remove_one_handle`. `unlink` says whether `fast_unlink` fails, which is not looked at. An
iteration that fails is taken to have removed nothing yet. -/
def Objects.removeOneHandle (s : Objects) (handle : Nat) (faults : RemoveFaults) (unlink : Bool) :
    Except DspaceError Unit × Objects :=
  if faults.del then (.error .db, s)
  else if s.records handle = false then (.error .enoent, s)
  else
    let s' := { s with
      records := setRecord s.records handle false
      cached := setRecord s.cached handle false
      bstreams := setRecord s.bstreams handle (s.bstreams handle && unlink) }
    if faults.iterate then (.error .db, s')
    else (.ok (), { s' with keyvals := removeKeyvals s'.keyvals handle })

/-! ## The other views of the function -/

variable {o : Objects} {handle : Nat} {faults : RemoveFaults}

/-- With the ledger in view, the answer and the attribute records are the same. -/
theorem removeOneHandle_answers (avl : Avl) (purgatory : Timeval) (unlink : Bool)
    {s s' : Dspaces} {clock : Nat → Timeval} {ret : Except DspaceError Unit}
    (hrecords : s.records = o.records)
    (hrun : removeOneHandle avl purgatory s handle faults clock = some (ret, s')) :
    (o.removeOneHandle handle faults unlink).1 = ret ∧
      (o.removeOneHandle handle faults unlink).2.records = s'.records := by
  dsimp only [removeOneHandle] at hrun
  rw [hrecords] at hrun
  unfold Objects.removeOneHandle
  split_ifs at hrun ⊢
  · cases hrun
    exact ⟨rfl, hrecords.symm⟩
  · cases hrun
    exact ⟨rfl, hrecords.symm⟩
  · cases hrun
    exact ⟨rfl, rfl⟩
  · -- only the ledger changes when the handle is freed
    obtain ⟨s'', hfree, heq⟩ := Option.map_eq_some_iff.mp hrun
    obtain ⟨r, -, rfl⟩ := Option.map_eq_some_iff.mp hfree
    cases heq
    exact ⟨rfl, rfl⟩

/-- The attribute records and the elements of the cache are those of the two stores. -/
structure Shows (o : Objects) (s : StoreState) : Prop where
  records : ∀ h, o.records h = (s.ds h).isSome
  cached : ∀ h, o.cached h = (s.cache h).isSome

/-- The steps of the service thread up to the iteration over the key/value records. -/
def serviceRemoves (keywords : List String) (s : StoreState) (handle : Handle) (ok : Bool)
    (victim : Option Handle) : StoreState :=
  match (ServiceOp.remove handle).run keywords s ok victim with
  | (s, none) => s
  | (s, some op) => (op.run keywords s ok victim).1

/-- With nothing in between, the steps do to the two stores what the function does. -/
theorem serviceRemoves_shows (keywords : List String) (victim : Option Handle) (unlink : Bool)
    {s : StoreState} (h : Shows o s) :
    Shows (o.removeOneHandle handle faults unlink).2
      (serviceRemoves keywords s handle (!faults.del) victim) := by
  have hrecord := h.records handle
  unfold Objects.removeOneHandle serviceRemoves ServiceOp.run
  cases hdel : faults.del with
  | true => simpa using h
  | false =>
    cases hds : (s.ds handle).isSome with
    | false => simpa [hrecord, hds] using h
    | true =>
      have hrecords : ∀ h', setRecord o.records handle false h' =
          (setDs s.ds handle none h').isSome := by
        intro h'
        by_cases heq : h' = handle <;> simp [setRecord, setDs, heq, h.records]
      have hcached : ∀ h', setRecord o.cached handle false h' =
          (removeElem s.cache handle h').isSome := by
        intro h'
        by_cases heq : h' = handle <;> simp [setRecord, removeElem, heq, h.cached]
      -- the iteration and its failure are about neither of the two stores
      cases faults.iterate <;>
        exact ⟨by simpa [hrecord, hds] using hrecords, by simpa [hrecord, hds] using hcached⟩

end

/-! ## What is left -/

/-- Nothing is left under a handle, and a new object there counts no entries. -/
structure Gone (handle : Nat) (s : Objects) : Prop where
  record : s.records handle = false
  cached : s.cached handle = false
  bstream : s.bstreams handle = false
  named : s.keyvals.named handle = []
  info : s.keyvals.info handle = []
  count : handleInfo s.keyvals handle = some 0

section
variable {db : Keyvals} {handle : Nat}

theorem filter_deleteBatch {p : KeyvalRecord (List UInt8) → Bool}
    {batch : List (KeyvalRecord (List UInt8))}
    (hp : ∀ r ∈ batch, ∀ v, p ⟨r.handle, r.key, v⟩ = false) :
    (deleteBatch db batch).records.filter p = db.records.filter p := by
  induction batch generalizing db with
  | nil => rfl
  | cons r batch ih =>
    rw [deleteBatch, ih fun q hq => hp q (mem_cons_of_mem _ hq)]
    exact KeyvalDb.filter_del (hp r mem_cons_self)

/-- The entries go, and the bookkeeping record only if it is the last one. -/
theorem removeKeyvals_spec [CursorCalls (KeyvalRecord (List UInt8))] : (removeKeyvals db handle).named handle = [] ∧
    ((removeKeyvals db handle).info handle = [] ↔ db.info handle = [] ∨ InfoLast handle db) := by
  unfold removeKeyvals
  by_cases hnamed : db.named handle = []
  · rw [keyvalIterate_start_empty _ none hnamed]
    by_cases hupper : db.upper handle = []
    · rw [if_pos hupper]
      rcases db.info_cases handle with hinfo | ⟨q, hinfo⟩
      · rw [hinfo]
        exact ⟨hnamed, iff_of_true hinfo (.inl rfl)⟩
      · obtain ⟨hhandle, hkey⟩ := db.mem_info handle (r := q) (by simp [hinfo])
        have hlast : InfoLast handle db := ⟨hnamed, hupper, by simp [hinfo]⟩
        rw [hinfo]
        dsimp only [deleteBatch]
        rw [hhandle, hkey]
        refine ⟨KeyvalDb.named_del_info.trans hnamed, iff_of_true ?_ (.inr hlast)⟩
        exact KeyvalDb.here_of_get_none KeyvalDb.get_del_self
    · rw [if_neg hupper]
      exact ⟨hnamed, (or_iff_left fun hlast => hupper hlast.2.1).symm⟩
  · have hle : (db.named handle).length ≤ db.records.length := length_filter_le ..
    rw [keyvalIterate_start none (by omega) hnamed]
    dsimp only
    rw [take_of_length_le (by omega)]
    obtain ⟨hlen, -⟩ := deleteBatch_sublist (Sublist.refl (db.named handle))
    have hinfo : (deleteBatch db (db.named handle)).info handle = db.info handle :=
      filter_deleteBatch fun r hr v => by simp [(db.mem_named handle hr).2]
    rw [hinfo]
    exact ⟨length_eq_zero_iff.mp (by omega), (or_iff_left fun hlast => hnamed hlast.1).symm⟩

theorem handleInfo_of_info (h : db.info handle = []) : handleInfo db handle = some 0 := by
  have hhere : db.here handle [] = [] := h
  rw [handleInfo, KeyvalDb.get, hhere]
  rfl

/-- **A removed dataspace is gone** just when its byte stream could be moved away and either it had
no bookkeeping record or the iteration ran into that. -/
theorem removeOneHandle_gone_iff [CursorCalls (KeyvalRecord (List UInt8))] {s s' : Objects} {faults : RemoveFaults} {unlink : Bool}
    (hrun : s.removeOneHandle handle faults unlink = (.ok (), s')) :
    Gone handle s' ↔ (unlink = true → s.bstreams handle = false) ∧
      (s.keyvals.info handle = [] ∨ InfoLast handle s.keyvals) := by
  obtain ⟨hnamed, hinfo⟩ := @removeKeyvals_spec s.keyvals handle _
  dsimp only [Objects.removeOneHandle] at hrun
  split_ifs at hrun
  all_goals cases hrun
  rw [← hinfo]
  constructor
  · intro h
    refine ⟨fun hunlink => ?_, h.info⟩
    have hbstream := h.bstream
    simpa [setRecord, hunlink] using hbstream
  · rintro ⟨hbstream, hnone⟩
    refine ⟨if_pos rfl, if_pos rfl, (if_pos rfl).trans ?_, hnamed, hnone, handleInfo_of_info hnone⟩
    cases unlink with
    | true => rw [hbstream rfl, Bool.false_and]
    | false => exact Bool.and_false _

end

def oneObject (counted : Bool) : Objects where
  records h := h = 5
  cached h := h = 5
  bstreams h := h = 5
  keyvals :=
    if counted then (Keyvals.empty.put 5 [97] [1]).put 5 [] [1, 0, 0, 0]
    else Keyvals.empty.put 5 [97] [1]

theorem removeOneHandle_gone_uncounted :
    ∃ s', (oneObject false).removeOneHandle 5 ⟨false, false⟩ false = (.ok (), s') ∧ Gone 5 s' :=
  ⟨_, rfl, (@removeOneHandle_gone_iff 5 _ (oneObject false) _ ⟨false, false⟩ false rfl).mpr ⟨nofun, .inl rfl⟩⟩

/-- The count of the entry is still there when the entry is not. -/
theorem removeOneHandle_leaves_count :
    ∃ s', (oneObject true).removeOneHandle 5 ⟨false, false⟩ false = (.ok (), s') ∧
      s'.keyvals.named 5 = [] ∧ handleInfo s'.keyvals 5 = some 1 ∧ ¬ Gone 5 s' :=
  ⟨_, rfl, rfl, rfl, fun h => nomatch h.info⟩

end Pvfs.Trove
