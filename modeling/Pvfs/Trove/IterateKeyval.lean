import Pvfs.Trove.IterateHandles
import Mathlib.Data.List.Lex
import Mathlib.Data.List.Nodup
import Mathlib.Data.Prod.Lex

/-! # Iterating over the key/value pairs of a handle (dbpf-keyval.c)

Directory entries and extended attributes are key/value records of one handle.
`dbpf_keyval_iterate_op_svc` returns a batch of them and a position that counts the records
returned so far, with the number of the iteration (`readdir_session`) in its upper half. A
later call goes on in one of two ways. The *position cache* remembers the last key of the
batch: the cursor is set to that key and the batch begins after it. If the position is not in
the cache, `dbpf_keyval_iterate_step_to_position` steps through the records from the first one.

The two ways do not lead to the same place. Stepping `n` times from the first record leads to
the record with index `n`, which has *not* been returned yet, and the batch begins after it.

A record with an empty key holds the number of entries of the handle (`handle_info`). It sorts
before the others and is skipped by `dbpf_keyval_iterate_get_first_entry`, which ignores that
there may be nothing to skip to.

Berkeley DB is any database with the calls of `CursorCalls` over the sorted list of records; its
only answers are a record and `DB_NOTFOUND`, which leaves the cursor where it was. Key buffers
hold any key. -/

namespace Pvfs.Trove

open List hiding Cursor
open Pvfs.Lib

variable {V : Type}

/-- A record of the key/value database: `struct dbpf_keyval_db_entry` and its value. -/
structure KeyvalRecord (V : Type) where
  handle : Nat
  key : List UInt8
  val : V
deriving DecidableEq, Repr

/-- `memcmp` of equally long keys is negative. -/
def memLess : List UInt8 → List UInt8 → Bool
  | a :: as, b :: bs => if a = b then memLess as bs else decide (a < b)
  | _, _ => false

/-- `PINT_trove_dbpf_keyval_compare`, for a record and a key: the record comes first. -/
def KeyvalRecord.before (a : KeyvalRecord V) (handle : Nat) (key : List UInt8) : Bool :=
  if a.handle ≠ handle then decide (a.handle < handle)
  else if key.length < a.key.length then false
  else if a.key.length < key.length then true
  else memLess a.key key

/-- The key/value database of a collection: its records in key order. -/
structure KeyvalDb (V : Type) where
  records : List (KeyvalRecord V)
  sorted : records.Pairwise fun a b => a.before b.handle b.key = true

section
variable [CursorCalls (KeyvalRecord V)]

/-- `c_get` with `DB_SET_RANGE`. -/
def KeyvalDb.setRange (db : KeyvalDb V) (handle : Nat) (key : List UInt8) :
    Option (Cursor (KeyvalRecord V)) :=
  CursorCalls.seekRange (fun r => r.before handle key) db.records

/-- `c_get` with `DB_SET`. -/
def KeyvalDb.set (db : KeyvalDb V) (handle : Nat) (key : List UInt8) :
    Option (Cursor (KeyvalRecord V)) :=
  CursorCalls.seekExact (fun r => decide (r.handle = handle ∧ r.key = key)) db.records

/-- `dbpf_keyval_iterate_cursor_get`, given where the cursor was and what `c_get` found: the record
unless it is missing or belongs to another handle (`-TROVE_ENOENT`), and where the cursor is. -/
def cursorGet (handle : Nat) (was found : Option (Cursor (KeyvalRecord V))) :
    Option (KeyvalRecord V) × Option (Cursor (KeyvalRecord V)) :=
  match found with
  | none => (none, was)
  | some c => (if c.record.handle = handle then some c.record else none, some c)

/-- `dbpf_keyval_iterate_get_first_entry`: whether it succeeded, and the cursor. -/
def iterateGetFirstEntry (db : KeyvalDb V) (handle : Nat) :
    Bool × Option (Cursor (KeyvalRecord V)) :=
  match cursorGet handle none (db.setRange handle []) with
  | (none, cur) => (false, cur)
  | (some r, cur) =>
    if r.key.length = 0 then
      -- skip handle_info; the result of this `DB_NEXT` is not looked at
      (true, (cursorGet handle cur (cur.bind CursorCalls.next)).2)
    else (true, cur)

/-- `n` times `DB_NEXT`, until one fails: whether all succeeded, the records, and the cursor. Both
the loop that fills a batch and the one that steps to a position are this. -/
def walk (handle : Nat) :
    Nat → Option (Cursor (KeyvalRecord V)) →
      Bool × List (KeyvalRecord V) × Option (Cursor (KeyvalRecord V))
  | 0, cur => (true, [], cur)
  | n + 1, cur =>
    match cursorGet handle cur (cur.bind CursorCalls.next) with
    | (none, cur) => (false, [], cur)
    | (some r, cur) =>
      let w := walk handle n cur
      (w.1, r :: w.2.1, w.2.2)

/-- Where positioning has left the cursor: on a record still to be returned
(`DBPF_ITERATE_CURRENT_POSITION`), on the last one returned, or nowhere (`-TROVE_ENOENT`); or an
assertion has failed. -/
inductive Skipped where
  | here
  | past
  | enoent
  | aborted
deriving DecidableEq, Repr

/-- `dbpf_keyval_iterate_step_to_position`. -/
def iterateStepToPosition (db : KeyvalDb V) (handle pos : Nat) :
    Skipped × Option (Cursor (KeyvalRecord V)) :=
  -- `assert(pos != TROVE_ITERATE_START)`, here of a position without its session
  if pos = iterateStart then (.aborted, none)
  else
    match iterateGetFirstEntry db handle with
    | (false, cur) => (.enoent, cur)
    | (true, cur) =>
      let w := walk handle pos cur
      (if w.1 then .past else .enoent, w.2.2)

/-- `dbpf_keyval_iterate_skip_to_position`, given what the position cache has for the position. -/
def iterateSkipToPosition (db : KeyvalDb V) (handle pos : Nat) (cached : Option (List UInt8)) :
    Skipped × Option (Cursor (KeyvalRecord V)) :=
  match cached with
  | none => iterateStepToPosition db handle (pos % 2 ^ 32)
  | some key =>
    match cursorGet handle none (db.set handle key) with
    | (some _, cur) => (.past, cur)
    | (none, cur) =>
      -- the entry has been removed in the interim
      match cursorGet handle cur (db.setRange handle key) with
      | (none, cur) => (.enoent, cur)
      | (some _, cur) => (.here, cur)

def iterateBegin (db : KeyvalDb V) (handle pos : Nat) (cached : Option (List UInt8)) :
    Skipped × Option (Cursor (KeyvalRecord V)) :=
  if pos = iterateStart then
    match iterateGetFirstEntry db handle with
    | (false, cur) => (.enoent, cur)
    | (true, cur) => (.here, cur)
  else iterateSkipToPosition db handle pos cached

/-- `PINT_dbpf_keyval_iterate` for a positive count and no callback: whether the whole batch could
be read, and what was read. `none` is the end of the server. -/
def keyvalIterate (db : KeyvalDb V) (handle count pos : Nat) (cached : Option (List UInt8)) :
    Option (Bool × List (KeyvalRecord V)) :=
  match iterateBegin db handle pos cached with
  | (.aborted, _) => none
  | (.enoent, _) => some (false, [])
  | (.past, cur) =>
    let w := walk handle count cur
    some (w.1, w.2.1)
  | (.here, cur) =>
    match cursorGet handle cur cur with
    | (none, _) => some (false, [])
    | (some r, cur) =>
      let w := walk handle (count - 1) cur
      some (w.1, r :: w.2.1)

/-- What the server keeps between calls: the position cache and the number of the next iteration. -/
structure IterateState where
  pcache : Nat → Nat → Option (List UInt8)
  readdirSession : Nat

/-- `PINT_dbpf_keyval_pcache_insert`. -/
def IterateState.remember (st : IterateState) (handle pos : Nat) (key : List UInt8) : IterateState :=
  { st with pcache := fun h p => if h = handle ∧ p = pos then some key else st.pcache h p }

def IterateState.forget (st : IterateState) (handle pos : Nat) : IterateState :=
  { st with pcache := fun h p => if h = handle ∧ p = pos then none else st.pcache h p }

/-- `dbpf_keyval_iterate_op_svc`: the batch, the position to go on from, and the state after. -/
def keyvalIterateOpSvc (db : KeyvalDb V) (handle count pos : Nat) (st : IterateState) :
    Option (List (KeyvalRecord V) × Nat × IterateState) :=
  if pos = iterateEnd then some ([], iterateEnd, st)
  else
    match keyvalIterate db handle count pos (st.pcache handle pos) with
    | none => none
    | some (false, batch) => some (batch, iterateEnd, st)
    | some (true, batch) =>
      let pos' := if pos = iterateStart then (batch.length + st.readdirSession * 2 ^ 32) % 2 ^ 64
        else (pos + batch.length) % 2 ^ 64
      let st' := if pos = iterateStart then
        { st with readdirSession := (st.readdirSession + 1) % 2 ^ 32 } else st
      match batch.getLast? with
      | none => some (batch, pos', st')
      | some r => some (batch, pos', st'.remember handle pos' r.key)

/-- Call after call, each from the position the last one returned, until the end is reported. The
`k`th call asks for `count k` records, and `miss k` says that its position is not (or no
longer) in the position cache. -/
def readThrough (db : KeyvalDb V) (handle : Nat) (count : Nat → Nat) (miss : Nat → Bool) :
    Nat → Nat → IterateState → Nat → Option (List (KeyvalRecord V))
  | _, _, _, 0 => none
  | k, pos, st, fuel + 1 =>
    match keyvalIterateOpSvc db handle (count k) pos (if miss k then st.forget handle pos else st) with
    | none => none
    | some (batch, pos', st') =>
      if pos' = iterateEnd then some batch
      else (readThrough db handle count miss (k + 1) pos' st' fuel).map (batch ++ ·)

end

/-! ## The records of a handle -/

/-- The key order as an order of tuples. -/
def keyRank (handle : Nat) (key : List UInt8) : ℕ ×ₗ ℕ ×ₗ List ℕ :=
  toLex (handle, toLex (key.length, key.map UInt8.toNat))

theorem keyRank_inj {h h' : Nat} {k k' : List UInt8} (heq : keyRank h k = keyRank h' k') :
    h = h' ∧ k = k' := by
  simp only [keyRank, toLex_inj, Prod.mk.injEq] at heq
  exact ⟨heq.1, map_injective_iff.mpr (fun _ _ => UInt8.toNat_inj.mp) heq.2.2⟩

theorem memLess_iff {a b : List UInt8} (hlen : a.length = b.length) :
    memLess a b = true ↔ a.map UInt8.toNat < b.map UInt8.toNat := by
  induction a generalizing b with
  | nil =>
    cases b with
    | nil => simp [memLess]
    | cons y bs => cases hlen
  | cons x as ih =>
    cases b with
    | nil => cases hlen
    | cons y bs =>
      rw [memLess, map_cons, map_cons, cons_lt_cons_iff, UInt8.toNat_inj, ← ih (Nat.succ.inj hlen)]
      by_cases hxy : x = y
      · simp [hxy]
      · simp [hxy, UInt8.lt_iff_toNat_lt]

variable {r : KeyvalRecord V}

namespace KeyvalRecord

variable {handle : Nat} {key : List UInt8}

theorem before_iff : r.before handle key = true ↔ keyRank r.handle r.key < keyRank handle key := by
  rw [keyRank, keyRank, Prod.Lex.toLex_lt_toLex, Prod.Lex.toLex_lt_toLex, before]
  dsimp only
  split_ifs with hne hgt hlt
  · simp [hne]
  · simp
    omega
  · simp
    omega
  · have hlen : r.key.length = key.length := by omega
    rw [memLess_iff hlen]
    simp [not_not.mp hne, hlen]

theorem before_self (r : KeyvalRecord V) : r.before r.handle r.key = false := by
  rw [Bool.eq_false_iff, Ne, before_iff]
  exact lt_irrefl _

theorem before_trans {a b : KeyvalRecord V} (hab : a.before b.handle b.key = true)
    (hb : b.before handle key = true) : a.before handle key = true :=
  before_iff.mpr (lt_trans (before_iff.mp hab) (before_iff.mp hb))

theorem before_total {a b : KeyvalRecord V} (hne : ¬ (a.handle = b.handle ∧ a.key = b.key)) :
    a.before b.handle b.key = !b.before a.handle a.key := by
  rw [Bool.eq_iff_iff, Bool.not_eq_true', ← Bool.not_eq_true, before_iff, before_iff, not_lt]
  exact ⟨le_of_lt, fun hle => lt_of_le_of_ne hle (mt keyRank_inj hne)⟩

theorem before_handle_le (h : r.before handle key = true) : r.handle ≤ handle := by
  rcases Prod.Lex.toLex_lt_toLex.mp (before_iff.mp h) with hlt | ⟨heq, -⟩
  · exact Nat.le_of_lt hlt
  · exact Nat.le_of_eq heq

theorem before_nil (r : KeyvalRecord V) (handle : Nat) :
    r.before handle [] = decide (r.handle < handle) := by
  by_cases hne : r.handle = handle
  · subst hne
    cases hkey : r.key with
    | nil => simp [before, hkey, memLess]
    | cons b bs => simp [before, hkey]
  · rw [before, if_pos hne]

def isAt (r : KeyvalRecord V) (handle : Nat) (key : List UInt8) : Bool :=
  decide (r.handle = handle ∧ r.key = key)

end KeyvalRecord

namespace KeyvalDb

section
variable (db : KeyvalDb V) (handle : Nat) (key : List UInt8)

/-- The records of a handle with a non-empty key, in key order: its entries. -/
def named : List (KeyvalRecord V) :=
  db.records.filter fun r => decide (r.handle = handle ∧ r.key ≠ [])

/-- The bookkeeping record of a handle, if it has one. -/
def info : List (KeyvalRecord V) :=
  db.records.filter fun r => decide (r.handle = handle ∧ r.key = [])

def upper : List (KeyvalRecord V) := db.records.filter fun r => decide (handle < r.handle)

def below : List (KeyvalRecord V) := db.records.filter fun r => r.before handle key

def here : List (KeyvalRecord V) := db.records.filter fun r => r.isAt handle key

def above : List (KeyvalRecord V) :=
  db.records.filter fun r => !r.before handle key && !r.isAt handle key

/-- The entries of a handle that come after a key. -/
def later : List (KeyvalRecord V) :=
  (db.named handle).filter fun r => !r.before handle key && !r.isAt handle key

theorem split_at : db.records = db.below handle key ++ (db.here handle key ++ db.above handle key) := by
  have hbelow : db.records.Pairwise fun a b =>
      b.before handle key = true → a.before handle key = true :=
    db.sorted.imp fun hab hb => KeyvalRecord.before_trans hab hb
  have hhere : (db.records.filter fun r => !r.before handle key).Pairwise fun a b =>
      b.isAt handle key = true → a.isAt handle key = true := by
    rw [pairwise_filter]
    refine db.sorted.imp fun {a b} hab ha _ hb => ?_
    -- what comes before the record with the key comes before the key
    obtain ⟨hhandle, hkey⟩ := of_decide_eq_true hb
    rw [hhandle, hkey] at hab
    simp [hab] at ha
  conv_lhs => rw [← filter_append_filter_not hbelow, ← filter_append_filter_not hhere]
  simp only [filter_filter]
  congr 1
  congr 1
  · apply filter_congr
    intro r _
    cases hat : r.isAt handle key with
    | false => rfl
    | true =>
      obtain ⟨hhandle, hkey⟩ := of_decide_eq_true hat
      rw [← hhandle, ← hkey, r.before_self]
      rfl
  · apply filter_congr
    intro r _
    exact Bool.and_comm ..

end

section
variable (db : KeyvalDb V) (handle : Nat)

theorem mem_named (h : r ∈ db.named handle) : r.handle = handle ∧ r.key ≠ [] :=
  of_decide_eq_true (mem_filter.mp h).2

theorem upper_ne (h : r ∈ db.upper handle) : r.handle ≠ handle :=
  Nat.ne_of_gt (of_decide_eq_true (mem_filter.mp h).2)

theorem mem_info (h : r ∈ db.info handle) : r.handle = handle ∧ r.key = [] :=
  of_decide_eq_true (mem_filter.mp h).2

variable {db handle} {key : List UInt8}

theorem above_eq : db.above handle key = db.later handle key ++ db.upper handle := by
  have hours : (db.above handle key).Pairwise fun a b =>
      decide (b.handle ≤ handle) = true → decide (a.handle ≤ handle) = true := by
    refine (db.sorted.filter _).imp fun {a b} hab hb => decide_eq_true ?_
    exact Nat.le_trans (KeyvalRecord.before_handle_le hab) (of_decide_eq_true hb)
  rw [← filter_append_filter_not hours, above, later, named]
  simp only [filter_filter]
  congr 1 <;> apply filter_congr <;> intro r _
  · rcases Nat.lt_trichotomy r.handle handle with hlt | heq | hgt
    · simp [KeyvalRecord.before, Nat.ne_of_lt hlt, hlt]
    · cases hkey : r.key <;> cases key <;> simp [KeyvalRecord.before, KeyvalRecord.isAt, heq, hkey]
    · simp [Nat.ne_of_gt hgt, hgt]
  · rcases Nat.lt_or_ge handle r.handle with hgt | hle
    · simp [KeyvalRecord.before, KeyvalRecord.isAt, Nat.ne_of_gt hgt, hgt, Nat.le_of_lt hgt]
    · simp [hle]

theorem later_nil : db.later handle [] = db.named handle := by
  refine filter_eq_self.mpr fun r hr => ?_
  obtain ⟨hhandle, hkey⟩ := db.mem_named handle hr
  simp [r.before_nil, KeyvalRecord.isAt, hhandle, hkey]

theorem here_cases : db.here handle key = [] ∨ ∃ v, db.here handle key = [⟨handle, key, v⟩] := by
  have hat : ∀ r ∈ db.here handle key, r.handle = handle ∧ r.key = key :=
    fun r hr => of_decide_eq_true (mem_filter.mp hr).2
  have hsorted : (db.here handle key).Pairwise fun a b => a.before b.handle b.key = true :=
    db.sorted.filter _
  generalize db.here handle key = l at hat hsorted
  match l with
  | [] => exact .inl rfl
  | [⟨h, k, v⟩] =>
    obtain ⟨rfl, rfl⟩ := hat _ mem_cons_self
    exact .inr ⟨v, rfl⟩
  | a :: b :: _ =>
    exfalso
    have hab := (pairwise_cons.mp hsorted).1 b mem_cons_self
    have ha := hat a mem_cons_self
    have hb := hat b (mem_cons_of_mem _ mem_cons_self)
    rw [hb.1, hb.2, ← ha.1, ← ha.2, a.before_self] at hab
    cases hab

theorem setRange_eq [CursorCalls (KeyvalRecord V)] :
    db.setRange handle key = seekFirst (db.here handle key ++ db.above handle key) := by
  have hbelow : ∀ r ∈ db.below handle key, r.before handle key = true :=
    fun r hr => (mem_filter.mp hr).2
  have hrest : ∀ r ∈ db.here handle key ++ db.above handle key, r.before handle key = false := by
    intro r hr
    rcases mem_append.mp hr with hr | hr
    · obtain ⟨rfl, rfl⟩ := of_decide_eq_true (mem_filter.mp hr).2
      exact r.before_self
    · simpa using (Bool.and_eq_true_iff.mp (mem_filter.mp hr).2).1
  rw [setRange]
  conv_lhs => rw [db.split_at handle key]
  exact CursorCalls.seekRange_append hbelow hrest

variable (db handle)

theorem info_cases : db.info handle = [] ∨ ∃ r, db.info handle = [r] := by
  rcases @here_cases _ db handle [] with hnone | ⟨v, hinfo⟩
  · exact .inl hnone
  · exact .inr ⟨_, hinfo⟩

theorem named_nodup : (db.named handle).Nodup := by
  apply Pairwise.filter
  apply db.sorted.imp
  intro a b hab
  rintro rfl
  rw [a.before_self] at hab
  cases hab

theorem setRange_nil [CursorCalls (KeyvalRecord V)] : db.setRange handle [] =
    seekFirst (db.info handle ++ (db.named handle ++ db.upper handle)) := by
  rw [setRange_eq, above_eq, later_nil]
  rfl

variable {db handle}

theorem set_stored [CursorCalls (KeyvalRecord V)] (h : db.here handle key = [r]) :
    db.set handle key = some ⟨r, db.above handle key⟩ := by
  rw [set]
  conv_lhs => rw [db.split_at handle key, h]
  refine CursorCalls.seekExact_some _ _ _ _ (fun r' hr' => decide_eq_false ?_) ?_
  · rintro ⟨rfl, rfl⟩
    have hbefore := (mem_filter.mp hr').2
    rw [r'.before_self] at hbefore
    cases hbefore
  · have hr : r ∈ db.here handle key := by rw [h]; exact mem_cons_self
    exact (mem_filter.mp hr).2

theorem set_missing [CursorCalls (KeyvalRecord V)] (h : db.here handle key = []) :
    db.set handle key = none := by
  refine CursorCalls.seekExact_none _ _ fun r hr => decide_eq_false fun hrec => ?_
  exact filter_eq_nil_iff.mp h r hr (decide_eq_true hrec)

theorem later_ours : ∀ r ∈ db.later handle key, r.handle = handle :=
  fun _ hr => (db.mem_named handle (mem_of_mem_filter hr)).1

theorem later_key {i : Nat} (hi : (db.named handle)[i]? = some r) :
    db.later handle r.key = (db.named handle).drop (i + 1) := by
  obtain ⟨hlt, hget⟩ := List.getElem?_eq_some_iff.mp hi
  have hr := (db.mem_named handle (mem_of_getElem? hi)).1
  have hnamed : db.named handle =
      (db.named handle).take i ++ r :: (db.named handle).drop (i + 1) := by
    rw [← hget, ← drop_eq_getElem_cons hlt, take_append_drop]
  have hsorted : (db.named handle).Pairwise fun a b => a.before b.handle b.key = true :=
    db.sorted.filter _
  rw [hnamed] at hsorted
  obtain ⟨-, hpost, hpre⟩ := pairwise_append.mp hsorted
  rw [later]
  conv_lhs => rw [hnamed]
  rw [filter_append, filter_cons_of_neg (by simp [KeyvalRecord.isAt, hr]), filter_eq_nil_iff.mpr,
    filter_eq_self.mpr, nil_append]
  · intro b hb
    have hbefore := (pairwise_cons.mp hpost).1 b hb
    have hne : ¬ (r.handle = b.handle ∧ r.key = b.key) := by
      rintro ⟨hhandle, hkey⟩
      rw [← hhandle, ← hkey, r.before_self] at hbefore
      cases hbefore
    rw [KeyvalRecord.before_total hne] at hbefore
    rw [← hr, hbefore, KeyvalRecord.isAt, decide_eq_false fun h => hne ⟨h.1.symm, h.2.symm⟩]
    rfl
  · intro a ha
    rw [← hr, hpre a ha r mem_cons_self]
    simp

end

end KeyvalDb

/-! ## One batch -/

variable {rest : List (KeyvalRecord V)} {pos : Nat}

section
variable [CursorCalls (KeyvalRecord V)] {db : KeyvalDb V} {handle : Nat}

/-- Steps lead through the entries of the handle, as far as there are any. -/
theorem walk_spec {l others : List (KeyvalRecord V)} (hl : ∀ r ∈ l, r.handle = handle)
    (hothers : ∀ r ∈ others, r.handle ≠ handle) (n : Nat) {c : Cursor (KeyvalRecord V)}
    (hc : c.rest = l ++ others) :
    ∃ cur, walk handle n (some c) = (decide (n ≤ l.length), l.take n, cur) ∧
      (n ≤ l.length → ∃ c', cur = some c' ∧ c'.rest = l.drop n ++ others) := by
  induction n generalizing c l with
  | zero => exact ⟨some c, by simp [walk], fun _ => ⟨c, rfl, hc⟩⟩
  | succ n ih =>
    obtain ⟨record, rest⟩ := c
    subst hc
    cases l with
    | cons r l =>
      have hnext : cursorGet handle (some ⟨record, (r :: l) ++ others⟩)
          ((some ⟨record, (r :: l) ++ others⟩ : Option (Cursor _)).bind CursorCalls.next) =
          (some r, some ⟨r, l ++ others⟩) := by
        simp [cursorGet, hl r mem_cons_self]
      obtain ⟨cur, hwalk, hcur⟩ := ih (fun q hq => hl q (mem_cons_of_mem _ hq))
        (c := ⟨r, l ++ others⟩) rfl
      refine ⟨cur, ?_, fun hle => hcur (Nat.le_of_succ_le_succ hle)⟩
      rw [walk, hnext]
      dsimp only
      rw [hwalk]
      simp
    | nil =>
      have hnext : ∃ cur, cursorGet handle (some ⟨record, [] ++ others⟩)
          ((some ⟨record, [] ++ others⟩ : Option (Cursor _)).bind CursorCalls.next) = (none, cur) := by
        cases others with
        | nil => exact ⟨some ⟨record, []⟩, by simp [cursorGet]⟩
        | cons q others => exact ⟨some ⟨q, others⟩, by
            simp [cursorGet, hothers q mem_cons_self]⟩
      obtain ⟨cur, hnext⟩ := hnext
      refine ⟨cur, ?_, fun hle => absurd hle (Nat.not_succ_le_zero n)⟩
      rw [walk, hnext]
      simp

theorem iterateGetFirstEntry_named (hnamed : db.named handle = r :: rest) :
    iterateGetFirstEntry db handle = (true, some ⟨r, rest ++ db.upper handle⟩) := by
  have hr := db.mem_named handle (r := r) (by simp [hnamed])
  rw [iterateGetFirstEntry, db.setRange_nil handle, hnamed]
  rcases db.info_cases handle with hinfo | ⟨q, hinfo⟩
  · rw [hinfo]
    simp [seekFirst, cursorGet, hr.1, hr.2]
  · have hq := db.mem_info handle (r := q) (by simp [hinfo])
    rw [hinfo]
    simp [seekFirst, cursorGet, hq.1, hq.2, CursorCalls.next_eq]

variable {count : Nat} {cached : Option (List UInt8)}

theorem keyvalIterate_here (hours : ∀ q ∈ r :: rest, q.handle = handle)
    (hbegin : iterateBegin db handle pos cached = (.here, some ⟨r, rest ++ db.upper handle⟩))
    (hcount : 0 < count) :
    keyvalIterate db handle count pos cached =
      some (decide (count ≤ (r :: rest).length), (r :: rest).take count) := by
  obtain ⟨n, rfl⟩ : ∃ n, count = n + 1 := ⟨count - 1, by omega⟩
  obtain ⟨cur, hwalk, -⟩ := walk_spec (fun q hq => hours q (mem_cons_of_mem _ hq))
    (fun q hq => db.upper_ne handle hq) n (c := ⟨r, rest ++ db.upper handle⟩) rfl
  rw [keyvalIterate, hbegin]
  simp only [cursorGet, hours r mem_cons_self, if_true, Nat.add_sub_cancel, hwalk]
  simp

theorem keyvalIterate_past {l others : List (KeyvalRecord V)} {c : Cursor (KeyvalRecord V)}
    (hours : ∀ q ∈ l, q.handle = handle) (hothers : ∀ q ∈ others, q.handle ≠ handle)
    (hbegin : iterateBegin db handle pos cached = (.past, some c)) (hrest : c.rest = l ++ others) :
    keyvalIterate db handle count pos cached = some (decide (count ≤ l.length), l.take count) := by
  obtain ⟨cur, hwalk, -⟩ := walk_spec hours hothers count hrest
  rw [keyvalIterate, hbegin]
  dsimp only
  rw [hwalk]

theorem keyvalIterate_start (cached : Option (List UInt8)) (hcount : 0 < count)
    (hne : db.named handle ≠ []) :
    keyvalIterate db handle count iterateStart cached =
      some (decide (count ≤ (db.named handle).length), (db.named handle).take count) := by
  obtain ⟨r, rest, hnamed⟩ := exists_cons_of_ne_nil hne
  have hours : ∀ q ∈ r :: rest, q.handle = handle := by
    intro q hq
    rw [← hnamed] at hq
    exact (db.mem_named handle hq).1
  rw [hnamed]
  apply keyvalIterate_here hours _ hcount
  rw [iterateBegin, if_pos rfl, iterateGetFirstEntry_named hnamed]

/-- The batch from the start of a handle without entries: nothing, unless the bookkeeping record is
there and is the last record of the database, in which case it is returned itself. -/
theorem keyvalIterate_start_empty (count : Nat) (cached : Option (List UInt8))
    (hnamed : db.named handle = []) :
    keyvalIterate db handle count iterateStart cached =
      if db.upper handle = [] then
        match db.info handle with
        | [] => some (false, [])
        | r :: _ => some (decide (count - 1 ≤ 0), [r])
      else some (false, []) := by
  rw [keyvalIterate, iterateBegin, iterateGetFirstEntry, db.setRange_nil handle, hnamed]
  rcases db.info_cases handle with hinfo | ⟨q, hinfo⟩
  · rw [hinfo]
    cases hupper : db.upper handle with
    | nil => rfl
    | cons r rest =>
      have hr := db.upper_ne handle (r := r) (by simp [hupper])
      simp [seekFirst, cursorGet, hr]
  · have hq := db.mem_info handle (r := q) (by simp [hinfo])
    rw [hinfo]
    cases hupper : db.upper handle with
    | nil =>
      have hnone : ∀ r ∈ ([] : List (KeyvalRecord V)), r.handle = handle := by simp
      have hnone' : ∀ r ∈ ([] : List (KeyvalRecord V)), r.handle ≠ handle := by simp
      obtain ⟨cur, hwalk, -⟩ := walk_spec hnone hnone' (count - 1) (c := ⟨q, []⟩) rfl
      simp [seekFirst, cursorGet, hq.1, hq.2, CursorCalls.next_eq, hwalk]
    | cons r rest =>
      have hr := db.upper_ne handle (r := r) (by simp [hupper])
      simp [seekFirst, cursorGet, hq.1, hq.2, hr, CursorCalls.next_eq]

/-- A position leads the cursor to the entry with index `i`, by the cached key or by stepping. -/
def LeadsTo (db : KeyvalDb V) (handle i pos : Nat) (cached : Option (List UInt8)) : Prop :=
  ∃ r, (db.named handle)[i]? = some r ∧
    (cached = some r.key ∨ cached = none ∧ pos % 2 ^ 32 = i ∧ i ≠ iterateStart)

theorem keyvalIterate_cached {key : List UInt8} (hcount : 0 < count) (hstart : pos ≠ iterateStart) :
    keyvalIterate db handle count pos (some key) =
      some (decide (count ≤ (db.later handle key).length), (db.later handle key).take count) := by
  rcases @KeyvalDb.here_cases _ db handle key with hhere | ⟨v, hhere⟩
  · have hset := KeyvalDb.set_missing hhere
    have hrange := @KeyvalDb.setRange_eq _ db handle key
    rw [hhere, nil_append, KeyvalDb.above_eq] at hrange
    cases hlater : db.later handle key with
    | cons r rest =>
      have hours : ∀ q ∈ r :: rest, q.handle = handle := by
        rw [← hlater]
        exact KeyvalDb.later_ours
      rw [hlater] at hrange
      apply keyvalIterate_here hours _ hcount
      rw [iterateBegin, if_neg hstart, iterateSkipToPosition]
      simp [hset, hrange, seekFirst, cursorGet, hours r mem_cons_self]
    | nil =>
      have hbegin : ∃ cur, iterateBegin db handle pos (some key) = (.enoent, cur) := by
        rw [hlater] at hrange
        rw [iterateBegin, if_neg hstart, iterateSkipToPosition]
        cases hupper : db.upper handle with
        | nil => simp [hset, hrange, hupper, seekFirst, cursorGet]
        | cons q rest =>
          have hq := db.upper_ne handle (by rw [hupper]; exact mem_cons_self)
          simp [hset, hrange, hupper, seekFirst, cursorGet, hq]
      obtain ⟨cur, hbegin⟩ := hbegin
      rw [keyvalIterate, hbegin]
      simp [Nat.ne_of_gt hcount]
  · have hbegin : iterateBegin db handle pos (some key) =
        (.past, some ⟨⟨handle, key, v⟩, db.above handle key⟩) := by
      rw [iterateBegin, if_neg hstart, iterateSkipToPosition]
      simp [KeyvalDb.set_stored hhere, cursorGet]
    exact keyvalIterate_past KeyvalDb.later_ours (fun _ hr => db.upper_ne handle hr) hbegin
      KeyvalDb.above_eq

theorem iterateGetFirstEntry_cases :
    (∃ cur, iterateGetFirstEntry db handle = (false, cur)) ∧ db.named handle = [] ∨
    ∃ c others, iterateGetFirstEntry db handle = (true, some c) ∧
      c.rest = (db.named handle).tail ++ others ∧ ∀ r ∈ others, r.handle ≠ handle := by
  have hupper : ∀ r ∈ db.upper handle, r.handle ≠ handle := fun r hr => db.upper_ne handle hr
  cases hnamed : db.named handle with
  | cons r rest => exact .inr ⟨_, _, iterateGetFirstEntry_named hnamed, rfl, hupper⟩
  | nil =>
    rw [iterateGetFirstEntry, db.setRange_nil handle, hnamed]
    generalize db.upper handle = others at hupper
    rcases db.info_cases handle with hinfo | ⟨q, hinfo⟩
    · refine .inl ⟨?_, rfl⟩
      rw [hinfo]
      cases others with
      | nil => exact ⟨none, rfl⟩
      | cons r rest => simp [seekFirst, cursorGet, hupper r mem_cons_self]
    · have hq := db.mem_info handle (by rw [hinfo]; exact mem_cons_self)
      rw [hinfo]
      cases others with
      | nil => exact .inr ⟨⟨q, []⟩, [], by simp [seekFirst, cursorGet, hq.1, hq.2], rfl, hupper⟩
      | cons r rest =>
        refine .inr ⟨⟨r, rest⟩, rest, ?_, rfl, fun r' hr' => hupper r' (mem_cons_of_mem _ hr')⟩
        simp [seekFirst, cursorGet, hq.1, hq.2]

theorem keyvalIterate_aborted (hstart : pos ≠ iterateStart) (hstep : pos % 2 ^ 32 = iterateStart) :
    keyvalIterate db handle count pos none = none := by
  rw [keyvalIterate, iterateBegin, if_neg hstart, iterateSkipToPosition, iterateStepToPosition,
    if_pos hstep]

theorem keyvalIterate_stepped (hcount : 0 < count) (hstep : pos % 2 ^ 32 ≠ iterateStart) :
    keyvalIterate db handle count pos none =
      some (decide (count ≤ ((db.named handle).drop (pos % 2 ^ 32 + 1)).length),
        ((db.named handle).drop (pos % 2 ^ 32 + 1)).take count) := by
  have hstart : pos ≠ iterateStart := by
    rintro rfl
    exact hstep rfl
  rw [← drop_tail]
  have htail : ∀ r ∈ (db.named handle).tail, r.handle = handle :=
    fun r hr => (db.mem_named handle (mem_of_mem_tail hr)).1
  rcases @iterateGetFirstEntry_cases _ _ db handle with
    ⟨⟨cur, hfirst⟩, hnil⟩ | ⟨c, others, hfirst, hrest, hothers⟩
  · rw [keyvalIterate, iterateBegin, if_neg hstart, iterateSkipToPosition, iterateStepToPosition,
      if_neg hstep, hfirst, hnil]
    simp [Nat.ne_of_gt hcount]
  obtain ⟨cur, hwalk, hcur⟩ := walk_spec htail hothers (pos % 2 ^ 32) hrest
  have hbegin : iterateBegin db handle pos none =
      (if decide (pos % 2 ^ 32 ≤ (db.named handle).tail.length) then .past else .enoent, cur) := by
    rw [iterateBegin, if_neg hstart, iterateSkipToPosition, iterateStepToPosition, if_neg hstep,
      hfirst]
    dsimp only
    rw [hwalk]
  by_cases hle : pos % 2 ^ 32 ≤ (db.named handle).tail.length
  · obtain ⟨c', rfl, hc'⟩ := hcur hle
    rw [decide_eq_true hle] at hbegin
    exact keyvalIterate_past (fun r hr => htail r (mem_of_mem_drop hr)) hothers hbegin hc'
  · rw [decide_eq_false hle] at hbegin
    rw [keyvalIterate, hbegin, drop_of_length_le (Nat.le_of_not_le hle)]
    simp [Nat.ne_of_gt hcount]

/-- The entries ahead of a position: all of them at the start, those after the cached key, or
those behind the one that stepping leads to. -/
def ahead (db : KeyvalDb V) (handle pos : Nat) (cached : Option (List UInt8)) :
    List (KeyvalRecord V) :=
  if pos = iterateStart then db.named handle
  else
    match cached with
    | some key => db.later handle key
    | none => (db.named handle).drop (pos % 2 ^ 32 + 1)

omit [CursorCalls (KeyvalRecord V)] in
theorem ahead_sublist : (ahead db handle pos cached).Sublist (db.named handle) := by
  unfold ahead
  split
  · exact Sublist.refl _
  · cases cached with
    | some key => exact filter_sublist
    | none => exact drop_sublist ..

/-- A position to go on from that is not cached, and whose low half has the value that the steps
are not made for. -/
def StepAborts (pos : Nat) (cached : Option (List UInt8)) : Prop :=
  pos ≠ iterateStart ∧ cached = none ∧ pos % 2 ^ 32 = iterateStart

/-- **A batch is what is ahead of its position**, except from the start of a handle without
entries. -/
theorem keyvalIterate_ahead (hcount : 0 < count)
    (hne : pos = iterateStart → db.named handle ≠ []) (hstep : ¬ StepAborts pos cached) :
    keyvalIterate db handle count pos cached =
      some (decide (count ≤ (ahead db handle pos cached).length),
        (ahead db handle pos cached).take count) := by
  unfold ahead
  by_cases hstart : pos = iterateStart
  · subst hstart
    exact keyvalIterate_start cached hcount (hne rfl)
  rw [if_neg hstart]
  cases cached with
  | some key => exact keyvalIterate_cached hcount hstart
  | none => exact keyvalIterate_stepped hcount fun h => hstep ⟨hstart, rfl, h⟩

omit [CursorCalls (KeyvalRecord V)] in
theorem LeadsTo.ahead_eq {i : Nat} (hstart : pos ≠ iterateStart)
    (hlead : LeadsTo db handle i pos cached) :
    ahead db handle pos cached = (db.named handle).drop (i + 1) := by
  obtain ⟨r, hi, rfl | ⟨rfl, rfl, -⟩⟩ := hlead
  · rw [ahead, if_neg hstart]
    exact KeyvalDb.later_key hi
  · exact if_neg hstart

omit [CursorCalls (KeyvalRecord V)] in
theorem LeadsTo.not_stepAborts {i : Nat} (hlead : LeadsTo db handle i pos cached) :
    ¬ StepAborts pos cached := by
  rintro ⟨-, rfl, hstep⟩
  obtain ⟨r, -, hkey | ⟨-, rfl, hne⟩⟩ := hlead
  · cases hkey
  · exact hne hstep

end

/-! ## Call after call -/

section
variable [CursorCalls (KeyvalRecord V)] {db : KeyvalDb V} {handle : Nat} {count : Nat → Nat} {miss : Nat → Bool}

@[simp] theorem IterateState.remember_pcache (st : IterateState) (handle pos : Nat)
    (key : List UInt8) : (st.remember handle pos key).pcache handle pos = some key := by
  simp [remember]

@[simp] theorem IterateState.forget_pcache (st : IterateState) (handle pos : Nat) :
    (st.forget handle pos).pcache handle pos = none := by
  simp [forget]

/-- The position after `n` entries of an iteration. -/
def readPosition (session n : Nat) : Nat := (n + session * 2 ^ 32) % 2 ^ 64

theorem readPosition_add (session n c : Nat) :
    (readPosition session n + c) % 2 ^ 64 = readPosition session (n + c) := by
  unfold readPosition
  omega

theorem readPosition_mod (session n : Nat) : readPosition session n % 2 ^ 32 = n % 2 ^ 32 := by
  unfold readPosition
  omega

/-- The position cache has the key of the entry with index `i` for a position. -/
def Remembers (db : KeyvalDb V) (handle i pos : Nat) (st : IterateState) : Prop :=
  ∃ r, (db.named handle)[i]? = some r ∧ st.pcache handle pos = some r.key

theorem opSvc_short {pos c : Nat} {st : IterateState} {batch : List (KeyvalRecord V)}
    (hend : pos ≠ iterateEnd)
    (h : keyvalIterate db handle c pos (st.pcache handle pos) = some (false, batch)) :
    keyvalIterateOpSvc db handle c pos st = some (batch, iterateEnd, st) := by
  rw [keyvalIterateOpSvc, if_neg hend, h]

variable {st : IterateState} {c : Nat}

theorem opSvc_full {batch : List (KeyvalRecord V)} (hend : pos ≠ iterateEnd)
    (h : keyvalIterate db handle c pos (st.pcache handle pos) = some (true, batch))
    (hlast : batch.getLast? = some r) :
    ∃ pos' st', keyvalIterateOpSvc db handle c pos st = some (batch, pos', st') ∧
      pos' = (if pos = iterateStart then readPosition st.readdirSession batch.length
        else (pos + batch.length) % 2 ^ 64) ∧ st'.pcache handle pos' = some r.key := by
  rw [keyvalIterateOpSvc, if_neg hend, h]
  dsimp only
  rw [hlast]
  exact ⟨_, _, rfl, rfl, IterateState.remember_pcache ..⟩

omit [CursorCalls (KeyvalRecord V)] in
theorem getLast?_batch (db : KeyvalDb V) (handle : Nat) {a : Nat} (hc : 0 < c)
    (hle : a + c ≤ (db.named handle).length) :
    (((db.named handle).drop a).take c).getLast? = (db.named handle)[a + c - 1]? := by
  have hlen : (((db.named handle).drop a).take c).length = c := by
    rw [length_take, length_drop]
    omega
  rw [getLast?_eq_getElem?, getElem?_take_of_lt (by omega), getElem?_drop]
  congr 1
  omega

theorem opSvc_batch {a : Nat} (hend : pos ≠ iterateEnd) (hc : 0 < c)
    (hbatch : keyvalIterate db handle c pos (st.pcache handle pos) =
      some (decide (c ≤ ((db.named handle).drop a).length), ((db.named handle).drop a).take c)) :
    ∃ pos' st', keyvalIterateOpSvc db handle c pos st =
        some (((db.named handle).drop a).take c, pos', st') ∧
      if c ≤ ((db.named handle).drop a).length then
        pos' = (if pos = iterateStart then readPosition st.readdirSession c else (pos + c) % 2 ^ 64) ∧
          Remembers db handle (a + c - 1) pos' st'
      else pos' = iterateEnd := by
  by_cases hfull : c ≤ ((db.named handle).drop a).length
  · have hlen : (((db.named handle).drop a).take c).length = c := by
      rw [length_take, Nat.min_eq_left hfull]
    rw [length_drop] at hfull
    have hlast := getLast?_batch db handle (a := a) hc (by omega)
    rw [getElem?_eq_getElem (by omega)] at hlast
    rw [decide_eq_true (by rwa [length_drop])] at hbatch
    obtain ⟨pos', st', hsvc, hpos', hrem⟩ := opSvc_full hend hbatch hlast
    rw [hlen] at hpos'
    refine ⟨pos', st', hsvc, ?_⟩
    rw [if_pos (by rwa [length_drop])]
    exact ⟨hpos', _, getElem?_eq_getElem (by omega), hrem⟩
  · rw [decide_eq_false hfull] at hbatch
    exact ⟨_, st, opSvc_short hend hbatch, by rw [if_neg hfull]⟩

theorem opSvc_after {i : Nat} (hstart : pos ≠ iterateStart) (hend : pos ≠ iterateEnd) (hc : 0 < c)
    (hlead : LeadsTo db handle i pos (st.pcache handle pos)) :
    ∃ pos' st', keyvalIterateOpSvc db handle c pos st =
        some (((db.named handle).drop (i + 1)).take c, pos', st') ∧
      if i + c < (db.named handle).length then
        pos' = (pos + c) % 2 ^ 64 ∧ Remembers db handle (i + c) pos' st'
      else pos' = iterateEnd := by
  have hbatch := @keyvalIterate_ahead V pos _ db handle c (st.pcache handle pos) hc
    (fun h => absurd h hstart) hlead.not_stepAborts
  rw [hlead.ahead_eq hstart] at hbatch
  have hiff : c ≤ ((db.named handle).drop (i + 1)).length ↔ i + c < (db.named handle).length := by
    rw [length_drop]
    omega
  have h := opSvc_batch hend hc hbatch
  simp only [hiff, if_neg hstart, show i + 1 + c - 1 = i + c by omega] at h
  exact h

theorem opSvc_start (st : IterateState) (hne : db.named handle ≠ []) (hc : 0 < c) :
    ∃ pos' st', keyvalIterateOpSvc db handle c iterateStart st =
        some ((db.named handle).take c, pos', st') ∧
      if c ≤ (db.named handle).length then
        pos' = readPosition st.readdirSession c ∧ Remembers db handle (c - 1) pos' st'
      else pos' = iterateEnd := by
  have h := opSvc_batch (a := 0) (by decide) hc (keyvalIterate_start (st.pcache handle iterateStart) hc hne)
  rwa [if_pos rfl, Nat.zero_add] at h

variable {rs : List (KeyvalRecord V)} {k : Nat}

/-- One call, and then the rest of the reading. -/
theorem readThrough_iff {pos' : Nat} {st0 st' : IterateState} {batch : List (KeyvalRecord V)}
    (hst : (if miss k then st.forget handle pos else st) = st0)
    (h : keyvalIterateOpSvc db handle (count k) pos st0 = some (batch, pos', st')) :
    Returns (readThrough db handle count miss k pos st) rs ↔
      if pos' = iterateEnd then rs = batch
      else ∃ rest, rs = batch ++ rest ∧
        Returns (readThrough db handle count miss (k + 1) pos' st') rest := by
  split
  next hlast =>
    have hret : Returns (readThrough db handle count miss k pos st) batch := by
      refine .shift (k := 1) (.always fun n => ?_)
      rw [readThrough, hst, h]
      exact if_pos hlast
    exact ⟨fun hrs => hrs.unique hret, fun hrs => hrs ▸ hret⟩
  next hmore =>
    refine returns_succ_map_iff (fun _ _ => append_cancel_left) (N := 0) fun n _ => ?_
    rw [readThrough, hst, h]
    exact if_neg hmore

theorem not_returns_of_aborted (hmiss : miss k = true) (hstart : pos ≠ iterateStart)
    (hend : pos ≠ iterateEnd) (hstep : pos % 2 ^ 32 = iterateStart) :
    ¬ Returns (readThrough db handle count miss k pos st) rs := by
  rintro ⟨n, hn⟩
  have hrs := hn (n + 1) (Nat.le_succ n)
  rw [readThrough, hmiss, if_pos rfl, keyvalIterateOpSvc, if_neg hend,
    IterateState.forget_pcache, keyvalIterate_aborted hstart hstep] at hrs
  cases hrs

/-- Reading from the start ends, and has returned every entry exactly once and nothing else. -/
def ReadsComplete (db : KeyvalDb V) (handle : Nat) (count : Nat → Nat) (miss : Nat → Bool)
    (st : IterateState) : Prop :=
  ∃ rs, Returns (readThrough db handle count miss 0 iterateStart st) rs ∧
    rs.Perm (db.named handle)

/-- What the calls for the entries of a handle must not meet: a bookkeeping record that is the only
record of the handle and the last one of the database; a position with one of the special
values, but for the end position when all entries have been returned; and a position
missing in the cache that stepping (by its low 32 bits) does not find to be past the last entry, or
that it refuses. -/
structure Unbroken (db : KeyvalDb V) (handle : Nat) (count : Nat → Nat) (miss : Nat → Bool)
    (session : Nat) : Prop where
  info : db.named handle = [] → db.upper handle = [] → db.info handle = []
  start : ∀ k, 0 < k → pageStart count k ≤ (db.named handle).length →
    readPosition session (pageStart count k) ≠ iterateStart
  ended : ∀ k, 0 < k → pageStart count k < (db.named handle).length →
    readPosition session (pageStart count k) ≠ iterateEnd
  cached : ∀ k, 0 < k → pageStart count k ≤ (db.named handle).length → miss k = true →
    (db.named handle).length ≤ pageStart count k % 2 ^ 32 ∧ pageStart count k % 2 ^ 32 ≠ iterateStart

theorem pageStart_pos (hcount : ∀ k, 0 < count k) (hk : 0 < k) : 0 < pageStart count k := by
  obtain ⟨k, rfl⟩ : ∃ j, k = j + 1 := ⟨k - 1, by omega⟩
  exact Nat.lt_of_lt_of_le (hcount k) (Nat.le_add_left ..)

variable {session : Nat}

theorem Unbroken.returns_rest (h : Unbroken db handle count miss session)
    (hcount : ∀ k, 0 < count k) (hk : 0 < k) (hle : pageStart count k ≤ (db.named handle).length)
    (hend : readPosition session (pageStart count k) ≠ iterateEnd)
    (hrem : Remembers db handle (pageStart count k - 1)
      (readPosition session (pageStart count k)) st) :
    Returns (readThrough db handle count miss k (readPosition session (pageStart count k)) st)
      ((db.named handle).drop (pageStart count k)) := by
  -- every call that does not report the end leaves fewer entries
  generalize hleft : (db.named handle).length - pageStart count k = left
  induction left using Nat.strongRecOn generalizing k st with
  | ind left ih =>
    have hpos := pageStart_pos hcount hk
    have hstart := h.start k hk hle
    have hsucc : pageStart count (k + 1) = pageStart count k + count k := rfl
    have hgrow := hcount k
    cases hmiss : miss k with
    | true =>
      obtain ⟨hpast, hstep⟩ := h.cached k hk hle hmiss
      rw [← readPosition_mod session] at hstep
      have hsvc := @opSvc_short V _ db handle _ (count k) (st.forget handle _) [] hend (by
        rw [IterateState.forget_pcache, keyvalIterate_stepped hgrow hstep, readPosition_mod,
          drop_of_length_le (by omega)]
        simp [Nat.ne_of_gt hgrow])
      rw [readThrough_iff (if_pos hmiss) hsvc, if_pos rfl, drop_of_length_le (by omega)]
    | false =>
      obtain ⟨r, hr, hcache⟩ := hrem
      obtain ⟨pos', st', hsvc, hnext⟩ := opSvc_after hstart hend hgrow ⟨r, hr, .inl hcache⟩
      rw [show pageStart count k - 1 + 1 = pageStart count k by omega] at hsvc
      rw [readThrough_iff (by rw [hmiss]; rfl) hsvc]
      split at hnext
      next hfull =>
        rw [readPosition_add,
          show pageStart count k - 1 + count k = pageStart count (k + 1) - 1 by omega] at hnext
        obtain ⟨rfl, hrem'⟩ := hnext
        split
        next hlast =>
          -- only the position after the last entry may have this value
          have hall : ¬ pageStart count (k + 1) < (db.named handle).length :=
            fun hlt => h.ended (k + 1) (Nat.succ_pos k) hlt hlast
          exact (take_of_length_le (by rw [length_drop]; omega)).symm
        next hlast =>
          refine ⟨(db.named handle).drop (pageStart count (k + 1)), ?_,
            ih _ (by omega) (show 0 < k + 1 from Nat.succ_pos k) (by omega) hlast hrem' rfl⟩
          rw [hsucc, ← drop_drop, take_append_drop]
      next hfull => rw [hnext, if_pos rfl, take_of_length_le (by rw [length_drop]; omega)]

theorem exists_forgetting (st : IterateState) (b : Bool) (handle pos : Nat) :
    ∃ st0 : IterateState, (if b then st.forget handle pos else st) = st0 ∧
      st0.readdirSession = st.readdirSession := by
  cases b
  · exact ⟨st, rfl, rfl⟩
  · exact ⟨st.forget handle pos, rfl, rfl⟩

theorem Unbroken.readsComplete (h : Unbroken db handle count miss st.readdirSession)
    (hcount : ∀ k, 0 < count k) : ReadsComplete db handle count miss st := by
  refine ⟨db.named handle, ?_, Perm.refl _⟩
  have hstart : iterateStart ≠ iterateEnd := by decide
  have hone : pageStart count 1 = count 0 := Nat.zero_add _
  obtain ⟨st0, hst0, hsession⟩ := exists_forgetting st (miss 0) handle iterateStart
  by_cases hne : db.named handle = []
  · rw [readThrough_iff hst0 (opSvc_short hstart ?_), if_pos rfl, hne]
    rw [keyvalIterate_start_empty _ _ hne]
    by_cases hupper : db.upper handle = []
    · rw [if_pos hupper, h.info hne hupper]
    · rw [if_neg hupper]
  · obtain ⟨pos', st', hsvc, hnext⟩ := opSvc_start st0 hne (hcount 0)
    rw [readThrough_iff hst0 hsvc]
    rw [← hone, hsession] at hnext
    split at hnext
    next hfull =>
      obtain ⟨rfl, hrem⟩ := hnext
      split
      next hlast =>
        have hall : ¬ pageStart count 1 < (db.named handle).length :=
          fun hlt => h.ended 1 Nat.one_pos hlt hlast
        exact (take_of_length_le (by omega)).symm
      next hlast =>
        rw [← hone]
        exact ⟨_, (take_append_drop ..).symm, h.returns_rest hcount Nat.one_pos hfull hlast hrem⟩
    next hfull => rw [hnext, if_pos rfl, take_of_length_le (by omega)]

theorem first_mem_readThrough_start (hnamed : db.named handle = r :: rest) (hcount : 0 < count k)
    (hrs : Returns (readThrough db handle count miss k iterateStart st) rs) : r ∈ rs := by
  obtain ⟨st0, hst0, -⟩ := exists_forgetting st (miss k) handle iterateStart
  obtain ⟨pos', st', hsvc, -⟩ := opSvc_start st0 (hnamed ▸ cons_ne_nil r rest) hcount
  have hmem : r ∈ (db.named handle).take (count k) := by
    obtain ⟨m, hm⟩ : ∃ m, count k = m + 1 := ⟨count k - 1, by omega⟩
    simp [hnamed, hm]
  rw [readThrough_iff hst0 hsvc] at hrs
  split at hrs
  · exact hrs ▸ hmem
  · obtain ⟨more, rfl, -⟩ := hrs
    exact mem_append_left _ hmem

section
variable (hshort : (db.named handle).length < 2 ^ 32) (hcount : ∀ k, 0 < count k)
include hshort hcount

/-- Once a call has been led to an entry instead of past it, that entry is not returned any more:
the later calls, whether led by the cache or by stepping, go on behind it, or all over again
from the start. -/
theorem skipped_entry_lost {i : Nat} (hi : i < (db.named handle).length)
    (hlead : Remembers db handle i (readPosition session i) st ∨ miss k = true)
    (hrs : Returns (readThrough db handle count miss k (readPosition session i) st) rs) :
    (∃ r rest, db.named handle = r :: rest ∧ r ∈ rs) ∨ rs ⊆ (db.named handle).drop (i + 1) := by
  generalize hleft : (db.named handle).length - i = left
  induction left using Nat.strongRecOn generalizing i k st rs with
  | ind left ih =>
    by_cases hstart : readPosition session i = iterateStart
    · left
      obtain ⟨r, rest, hnamed⟩ := exists_cons_of_ne_nil
        (ne_nil_of_length_pos (Nat.lt_of_le_of_lt (Nat.zero_le _) hi))
      rw [hstart] at hrs
      exact ⟨r, rest, hnamed, first_mem_readThrough_start hnamed (hcount k) hrs⟩
    by_cases hend : readPosition session i = iterateEnd
    · right
      rw [readThrough_iff rfl (by rw [keyvalIterateOpSvc, if_pos hend]), if_pos rfl] at hrs
      simp [hrs]
    -- by the cache or by stepping, the call is led to the entry with index `i`
    obtain ⟨st0, hst0, hlead0⟩ : ∃ st0,
        (if miss k then st.forget handle (readPosition session i) else st) = st0 ∧
        LeadsTo db handle i (readPosition session i) (st0.pcache handle (readPosition session i)) := by
      cases hmiss : miss k with
      | true =>
        have hmod : readPosition session i % 2 ^ 32 = i := by
          rw [readPosition_mod, Nat.mod_eq_of_lt (by omega)]
        refine ⟨_, rfl, _, getElem?_eq_getElem hi, .inr ⟨?_, hmod, ?_⟩⟩
        · exact IterateState.forget_pcache ..
        · rintro rfl
          exact not_returns_of_aborted hmiss hstart hend hmod hrs
      | false =>
        rcases hlead with ⟨r, hr, hcache⟩ | htrue
        · exact ⟨st, rfl, r, hr, .inl hcache⟩
        · rw [hmiss] at htrue
          cases htrue
    obtain ⟨pos', st', hsvc, hnext⟩ := opSvc_after hstart hend (hcount k) hlead0
    rw [readThrough_iff hst0 hsvc] at hrs
    split at hrs
    next =>
      rw [hrs]
      exact .inr (take_subset ..)
    next hlast =>
      obtain ⟨more, rfl, hmore⟩ := hrs
      split at hnext
      next hfull =>
        rw [readPosition_add] at hnext
        obtain ⟨rfl, hrem⟩ := hnext
        have hgrow := hcount k
        rcases ih _ (by omega) hfull (.inl hrem) hmore rfl with ⟨r, rest, hnamed, hr⟩ | hsub
        · exact .inl ⟨r, rest, hnamed, mem_append_right _ hr⟩
        · refine .inr (append_subset.mpr ⟨take_subset .., fun q hq => ?_⟩)
          have := hsub hq
          rw [show i + count k + 1 = i + 1 + count k by omega, ← drop_drop] at this
          exact mem_of_mem_drop this
      next => exact absurd hnext hlast

/-- How far a reading has come before its `k`th call: it is over, or the entries of the earlier
calls have been returned and the last of them is remembered. -/
def Reached (db : KeyvalDb V) (handle : Nat) (count : Nat → Nat) (miss : Nat → Bool)
    (session : Nat) (rs : List (KeyvalRecord V)) (k : Nat) : Prop :=
  if readPosition session (pageStart count k) = iterateEnd then
    rs = (db.named handle).take (pageStart count k)
  else
    ∃ rest st, rs = (db.named handle).take (pageStart count k) ++ rest ∧
      Returns (readThrough db handle count miss k (readPosition session (pageStart count k)) st)
        rest ∧
      Remembers db handle (pageStart count k - 1) (readPosition session (pageStart count k)) st

theorem Reached.unbroken (hperm : rs.Perm (db.named handle)) (hk : 0 < k)
    (hle : pageStart count k ≤ (db.named handle).length)
    (h : Reached db handle count miss session rs k) :
    readPosition session (pageStart count k) ≠ iterateStart ∧
    (pageStart count k < (db.named handle).length →
      readPosition session (pageStart count k) ≠ iterateEnd ∧ miss k = false) := by
  have hpos := pageStart_pos hcount hk
  have hnodup := hperm.nodup_iff.mpr (db.named_nodup handle)
  by_cases hend : readPosition session (pageStart count k) = iterateEnd
  · rw [Reached, if_pos hend] at h
    refine ⟨by rw [hend]; decide, fun hlt => ?_⟩
    have hlen := hperm.length_eq
    rw [h, length_take] at hlen
    omega
  · rw [Reached, if_neg hend] at h
    obtain ⟨rest, st, hrs, hret, -⟩ := h
    -- the first entry has been returned and must not come again
    have hfirst : ∀ r tail, db.named handle = r :: tail → r ∉ rest := by
      intro r tail hnamed hr
      have htake : r ∈ (db.named handle).take (pageStart count k) := by
        obtain ⟨m, hm⟩ : ∃ m, pageStart count k = m + 1 := ⟨pageStart count k - 1, by omega⟩
        rw [hnamed, hm]
        exact mem_cons_self
      rw [hrs] at hnodup
      exact (nodup_append.mp hnodup).2.2 r htake r hr rfl
    constructor
    · intro hstart
      obtain ⟨r, tail, hnamed⟩ := exists_cons_of_ne_nil
        (ne_nil_of_length_pos (Nat.lt_of_lt_of_le hpos hle))
      rw [hstart] at hret
      exact hfirst r tail hnamed (first_mem_readThrough_start hnamed (hcount k) hret)
    · intro hlt
      refine ⟨hend, ?_⟩
      by_contra hmiss
      -- the next entry would be lost
      have hnext : (db.named handle)[pageStart count k] ∈ rest := by
        have hmem := hperm.mem_iff.mpr (getElem_mem hlt)
        rw [hrs] at hmem
        rcases mem_append.mp hmem with htake | hrest
        · exfalso
          obtain ⟨j, hj, hget⟩ := mem_iff_getElem.mp htake
          rw [length_take] at hj
          rw [getElem_take, List.Nodup.getElem_inj_iff (db.named_nodup handle)] at hget
          omega
        · exact hrest
      have hmissed : miss k = true := by simpa using hmiss
      rcases skipped_entry_lost hshort hcount hlt (.inr hmissed) hret with
        ⟨r, tail, hnamed, hr⟩ | hsub
      · exact hfirst r tail hnamed hr
      · obtain ⟨j, hj, hget⟩ := mem_iff_getElem.mp (hsub hnext)
        rw [getElem_drop, List.Nodup.getElem_inj_iff (db.named_nodup handle)] at hget
        omega

omit hshort hcount in
/-- A call that fails the assertion ends the server, and so there is no such call in a reading that
is complete. -/
theorem Reached.not_aborted (hstart : readPosition session (pageStart count k) ≠ iterateStart)
    (h : Reached db handle count miss session rs k) (hmiss : miss k = true) :
    pageStart count k % 2 ^ 32 ≠ iterateStart := by
  intro hstep
  rw [← readPosition_mod session] at hstep
  by_cases hend : readPosition session (pageStart count k) = iterateEnd
  · rw [hend] at hstep
    exact absurd hstep (by decide)
  · rw [Reached, if_neg hend] at h
    obtain ⟨rest, st, -, hret, -⟩ := h
    exact not_returns_of_aborted hmiss hstart hend hstep hret

theorem ReadsComplete.reached (hall : Returns (readThrough db handle count miss 0 iterateStart st) rs)
    (hperm : rs.Perm (db.named handle)) (hk : 0 < k)
    (hle : pageStart count k ≤ (db.named handle).length) :
    Reached db handle count miss st.readdirSession rs k := by
  induction k with
  | zero => exact absurd hk (Nat.lt_irrefl 0)
  | succ k ih =>
    have hsucc : pageStart count (k + 1) = pageStart count k + count k := rfl
    have hgrow := hcount k
    cases k with
    | zero =>
      have hone : pageStart count 1 = count 0 := Nat.zero_add _
      rw [hone] at hle
      obtain ⟨st0, hst0, hsession⟩ := exists_forgetting st (miss 0) handle iterateStart
      have hne : db.named handle ≠ [] := ne_nil_of_length_pos (by omega)
      obtain ⟨pos', st', hsvc, hnext⟩ := opSvc_start st0 hne (hcount 0)
      rw [if_pos hle, hsession] at hnext
      obtain ⟨rfl, hrem⟩ := hnext
      rw [readThrough_iff hst0 hsvc] at hall
      rw [Reached, hone]
      split at hall
      next hlast => rwa [if_pos hlast]
      next hlast =>
        obtain ⟨rest, hrs, hret⟩ := hall
        rw [if_neg hlast]
        exact ⟨rest, st', hrs, hret, hrem⟩
    | succ k =>
      have hk' : 0 < k + 1 := Nat.succ_pos k
      have hpos := pageStart_pos hcount hk'
      have hreached := ih hk' (by omega)
      obtain ⟨hstart, hmore⟩ := hreached.unbroken hshort hcount hperm hk' (by omega)
      obtain ⟨hend, hmiss⟩ := hmore (by omega)
      rw [Reached, if_neg hend] at hreached
      obtain ⟨rest, st1, hrs, hret, r, hr, hcache⟩ := hreached
      obtain ⟨pos', st', hsvc, hnext⟩ := opSvc_after hstart hend hgrow ⟨r, hr, .inl hcache⟩
      rw [show pageStart count (k + 1) - 1 + 1 = pageStart count (k + 1) by omega] at hsvc
      rw [if_pos (by omega), readPosition_add, ← hsucc,
        show pageStart count (k + 1) - 1 + count (k + 1) = pageStart count (k + 1 + 1) - 1 by
          omega] at hnext
      obtain ⟨rfl, hrem⟩ := hnext
      rw [readThrough_iff (by rw [hmiss]; rfl) hsvc] at hret
      rw [Reached, hsucc, take_add, ← hsucc]
      split at hret
      next hlast => rw [if_pos hlast, hrs, hret]
      next hlast =>
        obtain ⟨more, hmore, hret'⟩ := hret
        rw [if_neg hlast]
        exact ⟨more, st', by rw [hrs, hmore, append_assoc], hret', hrem⟩

end

theorem info_mem_readThrough (hne : db.named handle = []) (hupper : db.upper handle = [])
    (hinfo : db.info handle = [r])
    (hall : Returns (readThrough db handle count miss 0 iterateStart st) rs) : r ∈ rs := by
  obtain ⟨st0, hst0, -⟩ := exists_forgetting st (miss 0) handle iterateStart
  have hbatch := keyvalIterate_start_empty (count 0) (st0.pcache handle iterateStart) hne
  rw [if_pos hupper, hinfo] at hbatch
  have hend : iterateStart ≠ iterateEnd := by decide
  obtain ⟨pos', st', hsvc⟩ : ∃ pos' st',
      keyvalIterateOpSvc db handle (count 0) iterateStart st0 = some ([r], pos', st') := by
    cases hfull : decide (count 0 - 1 ≤ 0) with
    | false => exact ⟨_, _, opSvc_short hend (by rw [hbatch, hfull])⟩
    | true =>
      obtain ⟨pos', st', hsvc, -⟩ := opSvc_full hend (by rw [hbatch, hfull]) rfl
      exact ⟨pos', st', hsvc⟩
  rw [readThrough_iff hst0 hsvc] at hall
  split at hall
  · simp [hall]
  · obtain ⟨rest, rfl, -⟩ := hall
    simp

/-- Reading a handle call after call returns each of its entries exactly once and nothing else if
nothing of what breaks it occurs; and for handles with fewer than `2 ^ 32` entries only then. -/
theorem reads_complete_iff (st : IterateState) (hcount : ∀ k, 0 < count k) :
    (Unbroken db handle count miss st.readdirSession → ReadsComplete db handle count miss st) ∧
    ((db.named handle).length < 2 ^ 32 → ReadsComplete db handle count miss st →
      Unbroken db handle count miss st.readdirSession) := by
  refine ⟨fun h => h.readsComplete hcount, ?_⟩
  rintro hshort ⟨rs, hall, hperm⟩
  have hto : ∀ k, 0 < k → pageStart count k ≤ (db.named handle).length → _ :=
    fun k hk hle => ReadsComplete.reached hshort hcount hall hperm hk hle
  have hreached : ∀ k, 0 < k → pageStart count k ≤ (db.named handle).length → _ :=
    fun k hk hle => (hto k hk hle).unbroken hshort hcount hperm hk hle
  refine ⟨fun hne hupper => ?_, fun k hk hle => (hreached k hk hle).1,
    fun k hk hlt => ((hreached k hk (Nat.le_of_lt hlt)).2 hlt).1, fun k hk hle hmiss => ?_⟩
  · rcases db.info_cases handle with hinfo | ⟨r, hinfo⟩
    · exact hinfo
    · have hr := hperm.mem_iff.mp (info_mem_readThrough hne hupper hinfo hall)
      rw [hne] at hr
      cases hr
  · refine ⟨?_, (hto k hk hle).not_aborted (hreached k hk hle).1 hmiss⟩
    by_contra hlt
    have hlt' : pageStart count k < (db.named handle).length := by
      omega
    rw [((hreached k hk hle).2 hlt').2] at hmiss
    cases hmiss

end

def threeEntries : KeyvalDb Unit where
  records := [⟨7, [], ()⟩, ⟨7, [97], ()⟩, ⟨7, [98], ()⟩, ⟨7, [99], ()⟩]
  sorted := by decide

/-- With every position in the cache the three entries are returned one by one. -/
theorem reads_complete_three_entries :
    ReadsComplete threeEntries 7 (fun _ => 1) (fun _ => false) ⟨fun _ _ => none, 0⟩ := by
  refine (reads_complete_iff _ fun _ => Nat.one_pos).1 ?_
  have hstart : ∀ k, pageStart (fun _ => 1) k = k := by
    intro k
    induction k with
    | zero => rfl
    | succ k ih => rw [pageStart, ih]
  have hlen : (threeEntries.named 7).length = 3 := by decide
  refine ⟨by decide, fun k _ hle => ?_, fun k _ hlt => ?_, fun k _ _ h => by cases h⟩
  · rw [hstart] at hle
    rw [hstart, readPosition, iterateStart]
    omega
  · rw [hstart, hlen] at hlt
    rw [hstart, readPosition, iterateEnd]
    omega

/-- The second position is not in the cache: the second entry is never returned. And the
bookkeeping record of a directory without entries is returned as an entry if nothing follows
it in the database. -/
theorem reading_breaks :
    (Returns (readThrough threeEntries 7 (fun _ => 1) (fun k => k == 1) 0 iterateStart
        ⟨fun _ _ => none, 0⟩) [⟨7, [97], ()⟩, ⟨7, [99], ()⟩] ∧
      ¬ ReadsComplete threeEntries 7 (fun _ => 1) (fun k => k == 1) ⟨fun _ _ => none, 0⟩) ∧
    ¬ ReadsComplete (V := Unit) ⟨[⟨7, [], ()⟩], by decide⟩ 7 (fun _ => 1) (fun _ => false)
      ⟨fun _ _ => none, 0⟩ := by
  have hlost : Returns (readThrough threeEntries 7 (fun _ => 1) (fun k => k == 1) 0 iterateStart
      ⟨fun _ _ => none, 0⟩) [⟨7, [97], ()⟩, ⟨7, [99], ()⟩] := by
    have hfirst : keyvalIterateOpSvc threeEntries 7 1 iterateStart ⟨fun _ _ => none, 0⟩ =
        some ([⟨7, [97], ()⟩], 1, IterateState.remember ⟨fun _ _ => none, 1⟩ 7 1 [97]) := rfl
    rw [readThrough_iff rfl hfirst, if_neg (by decide)]
    exact ⟨[⟨7, [99], ()⟩], rfl, .shift (k := 2) (.always fun _ => rfl)⟩
  refine ⟨⟨hlost, ?_⟩, ?_⟩
  · rintro ⟨rs, hall, hperm⟩
    rw [hall.unique hlost] at hperm
    exact absurd hperm.length_eq (by decide)
  · rintro ⟨rs, hall, hperm⟩
    have hr := info_mem_readThrough (r := ⟨7, [], ()⟩) (by decide) (by decide) (by decide) hall
    exact absurd (hperm.mem_iff.mp hr) (by decide)

end Pvfs.Trove
