import Pvfs.Lib.Cursor
import Pvfs.Lib.Loop
import Mathlib.Algebra.Group.Nat.Defs
import Mathlib.Data.List.Perm.Basic

/-! # Iterating over the handles of a collection (dbpf-dspace.c)

`dbpf_dspace_iterate_handles_op_svc` returns one page of the handles of a collection and the
*position* from which the next call goes on. The position is a handle: the first one of the
next page, taken from the bulk buffer when the page ends inside it and from the cursor when
it does not. Two values of the same number space are not handles but mean `start` and `end`
(`include/pvfs2-types.h`), and nothing keeps a stored handle from having one of these values.

Berkeley DB is any database with the calls of `CursorCalls` over the sorted list of handles; every
record has the size the code expects, and the only answers are a record, `DB_NOTFOUND`, and
a bulk buffer that turns out too small and is enlarged, which changes nothing but the number
of records that fit. That number is arbitrary: `bulk j` stands for it in the `j`th bulk read. -/

namespace Pvfs.Trove

open Pvfs.Lib List

/-- `PVFS_ITERATE_START`, `INT32_MAX - 1`. -/
def iterateStart : Nat := 2147483646

/-- `PVFS_ITERATE_END`, `INT32_MAX - 2`. -/
def iterateEnd : Nat := 2147483645

/-- The two comparison functions a dataspace database is opened with: collections of the older
format keep their handles in increasing order, the others in decreasing order. -/
inductive AttrCompare where
  | plain
  | reversed
deriving DecidableEq, Repr

/-- The comparison function puts `a` before `b`. -/
def AttrCompare.before : AttrCompare → Nat → Nat → Bool
  | .plain, a, b => decide (b < a)
  | .reversed, a, b => decide (a < b)

theorem AttrCompare.before_irrefl (cmp : AttrCompare) (a : Nat) : cmp.before a a = false := by
  cases cmp <;> simp [before]

/-- The database of dataspace attributes: the handles of the collection in key order. -/
structure DspaceDb where
  compare : AttrCompare
  handles : List Nat
  sorted : handles.Pairwise fun a b => compare.before a b = true

/-- Size of the bulk buffer for a page of `count` handles, an `int`: 88 bytes for each entry after
the first (a `TROVE_handle` and a `TROVE_ds_attributes`), rounded up to a multiple of 1024. -/
def startSize (count : Nat) : Int :=
  Int.bmod ((Int.bmod (88 * ((count : Int) - 1)) (2 ^ 32) + 1023) / 1024 * 1024) (2 ^ 32)

/-- `-TROVE_ENOMEM`, the one error a page can end with. -/
inductive IterateError where
  | enomem
deriving DecidableEq, Repr

/-- The variables of the loop that fills a page. `buffered` holds the entries of the bulk buffer
that have not been read yet; it is `none` while `tmp_ptr` is null. -/
structure Filling where
  handleArray : List Nat
  cursor : Cursor Nat
  buffered : Option (List Nat)
  reads : Nat
deriving DecidableEq, Repr

section
variable [CursorCalls Nat]

/-- One turn of the loop: a bulk read, and then its entries until the page or the buffer ends.
Leaving with `false` is the jump to `return_ok` with `DB_NOTFOUND`. -/
def fillBody (count : Nat) (bulk : Nat → Nat) (s : Filling) :
    Option (Turn Filling (Bool × Filling)) :=
  if s.handleArray.length < count then
    match CursorCalls.bulk (bulk s.reads) s.cursor with
    | none => some (.leave (false, s))
    | some (batch, cursor) =>
      let room := count - s.handleArray.length
      some (.again
        { handleArray := s.handleArray ++ batch.take room
          cursor := cursor
          -- `DB_MULTIPLE_KEY_NEXT` sets `tmp_ptr` to null only when it is asked for one more
          buffered := if batch.length < room then none else some (batch.drop room)
          reads := s.reads + 1 })
  else
    some (.leave (true, s))

/-- The position after a full page: the next entry of the bulk buffer, else (`get_next`) the next
record of the database, else the end. -/
def nextPosition (s : Filling) : Nat :=
  match s.buffered with
  | some (h :: _) => h
  | _ =>
    match CursorCalls.next s.cursor with
    | some c => c.record
    | none => iterateEnd

def DspaceDb.cursorAt (db : DspaceDb) (position : Nat) : Option (Cursor Nat) :=
  if position ≠ iterateStart then
    CursorCalls.seekRange (fun h => db.compare.before h position) db.handles
  else
    CursorCalls.first db.handles

/-- `dbpf_dspace_iterate_handles_op_svc`: one page of at most `count` handles from `position`, and
the position to go on from. -/
def iterateHandles (db : DspaceDb) (position count : Nat) (bulk : Nat → Nat) (fuel : Nat) :
    Option (Except IterateError (List Nat × Nat)) :=
  if position = iterateEnd then
    some (.ok ([], iterateEnd))
  else
    match db.cursorAt position with
    | none => some (.ok ([], iterateEnd))
    | some cursor =>
      -- a negative size becomes an enormous `size_t`, which no allocation can serve
      if startSize count < 0 then some (.error .enomem)
      else
        (iterate (fillBody count bulk) fuel ⟨[cursor.record], cursor, none, 0⟩).map fun r =>
          match r with
          | (false, s) => .ok (s.handleArray, iterateEnd)
          | (true, s) => .ok (s.handleArray, nextPosition s)

/-- Paging: call after call, each from the position the last one returned, until the end position
is returned. The `k`th call asks for `count k` handles. -/
def pageThrough (db : DspaceDb) (count : Nat → Nat) (bulk : Nat → Nat → Nat) :
    Nat → Nat → Nat → Option (Except IterateError (List Nat))
  | _, _, 0 => none
  | k, position, fuel + 1 =>
    match iterateHandles db position (count k) (bulk k) fuel with
    | none => none
    | some (.error e) => some (.error e)
    | some (.ok (page, position')) =>
      if position' = iterateEnd then some (.ok page)
      else (pageThrough db count bulk (k + 1) position' fuel).map fun r => r.map (page ++ ·)

end

/-! ## One page -/

/-- While a page is filled, what has been stored, what is buffered and what is ahead of the cursor
make up the handles `l` from the position on. -/
structure Filling.Of (l : List Nat) (count : Nat) (s : Filling) : Prop where
  parts : s.handleArray ++ (s.buffered.getD [] ++ s.cursor.rest) = l
  le : s.handleArray.length ≤ count
  drained : s.handleArray.length < count → s.buffered = none

def pageOf [CursorCalls Nat] : Bool × Filling → List Nat × Nat
  | (false, s) => (s.handleArray, iterateEnd)
  | (true, s) => (s.handleArray, nextPosition s)

/-- The first `count` handles of `l`, and the position of the next one. -/
def pageSpec (l : List Nat) (count : Nat) : List Nat × Nat :=
  (l.take count, (l.drop count).head?.getD iterateEnd)

variable {l : List Nat}
variable {count : Nat} {s : Filling}

section
variable [CursorCalls Nat]

theorem Filling.Of.read (hs : s.Of l count) (bulk : Nat → Nat)
    (hlt : s.handleArray.length < count) (hrest : s.cursor.rest ≠ []) :
    ∃ s', fillBody count bulk s = some (.again s') ∧ s'.Of l count ∧
      s.handleArray.length < s'.handleArray.length := by
  obtain ⟨batch, cursor, hbulk, hne, happ⟩ := CursorCalls.bulk_some (bulk s.reads) _ hrest
  have hpos : 0 < batch.length := length_pos_of_ne_nil hne
  have hparts := hs.parts
  rw [hs.drained hlt] at hparts
  refine ⟨_, by rw [fillBody, if_pos hlt, hbulk], ⟨?_, ?_, ?_⟩, ?_⟩
  · by_cases hshort : batch.length < count - s.handleArray.length
    · rw [if_pos hshort, take_of_length_le (Nat.le_of_lt hshort)]
      simpa [happ] using hparts
    · rw [if_neg hshort, Option.getD_some, append_assoc, ← append_assoc (List.take _ _),
        take_append_drop, happ]
      simpa using hparts
  · simp only [length_append, length_take]
    omega
  · intro hstill
    simp only [length_append, length_take] at hstill
    exact if_pos (by omega)
  · simp only [length_append, length_take]
    omega

theorem Filling.Of.nextPosition_eq (hs : s.Of l count)
    (hfull : s.handleArray.length = count) : pageOf (true, s) = pageSpec l count := by
  have hparts := hs.parts
  have htake : l.take count = s.handleArray := by rw [← hparts, ← hfull, take_left]
  have hdrop : l.drop count = s.buffered.getD [] ++ s.cursor.rest := by
    rw [← hparts, ← hfull, drop_left]
  obtain ⟨array, ⟨record, rest⟩, buffered, reads⟩ := s
  rw [pageSpec, htake, hdrop]
  cases buffered with
  | none => cases rest <;> simp [pageOf, nextPosition]
  | some b =>
    cases b with
    | nil => cases rest <;> simp [pageOf, nextPosition]
    | cons h t => rfl

theorem fill_leaves (bulk : Nat → Nat) (s : Filling) (hs : s.Of l count) :
    ∃ r, Leaves (fun _ => fillBody count bulk) s r ∧ pageOf r = pageSpec l count := by
  -- every turn of the loop stores a handle
  generalize hroom : count - s.handleArray.length = room
  induction room using Nat.strongRecOn generalizing s with
  | ind room ih =>
    by_cases hlt : s.handleArray.length < count
    · by_cases hrest : s.cursor.rest = []
      · refine ⟨(false, s), Leaves.last (Returns.always fun _ => ?_), ?_⟩
        · rw [fillBody, if_pos hlt, CursorCalls.bulk_none _ _ hrest]
        · have hl : l = s.handleArray := by
            rw [← hs.parts, hs.drained hlt, hrest]
            simp
          rw [pageSpec, hl, take_of_length_le (Nat.le_of_lt hlt),
            drop_of_length_le (Nat.le_of_lt hlt)]
          rfl
      · obtain ⟨s', hbody, hs', hgrow⟩ := hs.read bulk hlt hrest
        obtain ⟨r, hr, hpage⟩ := ih _ (by omega) s' hs' rfl
        exact ⟨r, Leaves.turn (Returns.always fun _ => hbody) hr, hpage⟩
    · have hle := hs.le
      refine ⟨(true, s), Leaves.last (Returns.always fun _ => ?_), ?_⟩
      · rw [fillBody, if_neg hlt]
      · exact hs.nextPosition_eq (by omega)

variable {c : Cursor Nat} {position : Nat}

theorem iterateHandles_page {db : DspaceDb} (bulk : Nat → Nat)
    (hend : position ≠ iterateEnd) (hc : db.cursorAt position = some c)
    (hsize : 0 ≤ startSize count) (hcount : 0 < count) :
    Returns (iterateHandles db position count bulk)
      (.ok (pageSpec (c.record :: c.rest) count)) := by
  have hof : Filling.Of (c.record :: c.rest) count ⟨[c.record], c, none, 0⟩ :=
    ⟨rfl, hcount, fun _ => rfl⟩
  obtain ⟨r, hleaves, hpage⟩ := fill_leaves bulk _ hof
  apply hleaves.returns.map
  intro fuel hfuel
  rw [iterateHandles, if_neg hend, hc]
  dsimp only
  rw [if_neg (by omega), hfuel, ← hpage]
  obtain ⟨full, s⟩ := r
  cases full <;> rfl

end

/-! ## Paging -/

section
variable {db : DspaceDb} {count : Nat → Nat} {bulk : Nat → Nat → Nat}

/-- Index of the first handle of the `k`th page. -/
def pageStart (count : Nat → Nat) : Nat → Nat
  | 0 => 0
  | k + 1 => pageStart count k + count k

/-- The position the `k`th call is made from: the start, then the first handle of its page. -/
def pagePosition (db : DspaceDb) (count : Nat → Nat) : Nat → Nat
  | 0 => iterateStart
  | k + 1 => (db.handles.drop (pageStart count (k + 1))).head?.getD iterateEnd

/-- Paging from the start ends, and has returned every stored handle exactly once. -/
def PagesComplete [CursorCalls Nat] (db : DspaceDb) (count : Nat → Nat) (bulk : Nat → Nat → Nat) : Prop :=
  ∃ hs, Returns (pageThrough db count bulk 0 iterateStart) (.ok hs) ∧
    hs.Perm db.handles

/-- Every page of the collection can be asked for: its bulk buffer has a size, and the handle that
a later page begins with is neither of the two special positions. -/
def Resumable (db : DspaceDb) (count : Nat → Nat) : Prop :=
  ∀ k h, db.handles[pageStart count k]? = some h →
    0 ≤ startSize (count k) ∧ (0 < k → h ≠ iterateStart ∧ h ≠ iterateEnd)

theorem DspaceDb.nodup (db : DspaceDb) : db.handles.Nodup := by
  apply db.sorted.imp
  intro a b hab
  rintro rfl
  rw [db.compare.before_irrefl] at hab
  exact Bool.false_ne_true hab

variable {k : Nat}

theorem pagePosition_succ {h : Nat} (hk : db.handles[pageStart count (k + 1)]? = some h) :
    pagePosition db count (k + 1) = h := by
  rw [pagePosition, head?_drop, hk]
  rfl

theorem pageSpec_drop (k : Nat) :
    pageSpec (db.handles.drop (pageStart count k)) (count k) =
      ((db.handles.drop (pageStart count k)).take (count k), pagePosition db count (k + 1)) := by
  rw [pageSpec, drop_drop]
  rfl

variable [CursorCalls Nat]

theorem DspaceDb.cursorAt_stored (db : DspaceDb) {i h : Nat} (hi : db.handles[i]? = some h)
    (hstart : h ≠ iterateStart) : db.cursorAt h = some ⟨h, db.handles.drop (i + 1)⟩ := by
  obtain ⟨hlt, hget⟩ := List.getElem?_eq_some_iff.mp hi
  have hsplit : db.handles = db.handles.take i ++ h :: db.handles.drop (i + 1) := by
    rw [← hget, ← drop_eq_getElem_cons hlt, take_append_drop]
  have hsorted := db.sorted
  rw [hsplit] at hsorted
  rw [cursorAt, if_pos hstart]
  conv_lhs => rw [hsplit]
  exact CursorCalls.seekRange_mid hsorted (fun y hy => hy) (db.compare.before_irrefl h)

theorem DspaceDb.cursorAt_start (db : DspaceDb) :
    db.cursorAt iterateStart = seekFirst db.handles := by
  rw [cursorAt, if_neg fun h => h rfl, CursorCalls.first_eq]

theorem iterateHandles_start (bulk : Nat → Nat → Nat) (hne : db.handles ≠ [])
    (hsize : 0 ≤ startSize (count k)) (hcount : 0 < count k) :
    Returns (iterateHandles db iterateStart (count k) (bulk k))
      (.ok (pageSpec db.handles (count k))) := by
  have hcur := db.cursorAt_start
  obtain ⟨h, t, hht⟩ := exists_cons_of_ne_nil hne
  rw [hht] at hcur ⊢
  exact iterateHandles_page (bulk k) (by decide) hcur hsize hcount

variable {page hs : List Nat}

theorem pageThrough_again {position' : Nat}
    (hpage : Returns (iterateHandles db position (count k) (bulk k)) (.ok (page, position')))
    (hmore : position' ≠ iterateEnd) :
    Returns (pageThrough db count bulk k position) (.ok hs) ↔
      ∃ rest, hs = page ++ rest ∧
        Returns (pageThrough db count bulk (k + 1) position') (.ok rest) := by
  obtain ⟨N, hN⟩ := hpage
  have hstep : ∀ n, N ≤ n → pageThrough db count bulk k position (n + 1) =
      (pageThrough db count bulk (k + 1) position' n).map fun r => r.map (page ++ ·) := by
    intro n hn
    rw [pageThrough, hN n hn]
    exact if_neg hmore
  have hinj : ∀ r r' : Except IterateError (List Nat),
      r.map (page ++ ·) = r'.map (page ++ ·) → r = r' := by
    intro r r' h
    cases r <;> cases r'
    · exact congrArg Except.error (Except.error.inj h)
    · cases h
    · cases h
    · exact congrArg Except.ok (append_cancel_left (Except.ok.inj h))
  rw [returns_succ_map_iff hinj hstep]
  constructor
  · rintro ⟨r, hr, hret⟩
    cases r with
    | error e => cases hr
    | ok rest => exact ⟨rest, Except.ok.inj hr, hret⟩
  · rintro ⟨rest, rfl, hret⟩
    exact ⟨.ok rest, rfl, hret⟩

theorem pageThrough_last
    (hpage : Returns (iterateHandles db position (count k) (bulk k)) (.ok (page, iterateEnd))) :
    Returns (pageThrough db count bulk k position) (.ok page) := by
  refine .shift (k := 1) (hpage.map fun n hn => ?_)
  rw [pageThrough, hn]
  exact if_pos rfl

theorem pageThrough_enomem (hend : position ≠ iterateEnd) (hc : db.cursorAt position = some c)
    (hsize : startSize (count k) < 0) :
    Returns (pageThrough db count bulk k position) (.error .enomem) := by
  refine .shift (k := 1) (.always fun n => ?_)
  rw [pageThrough, iterateHandles, if_neg hend, hc]
  dsimp only
  rw [if_pos hsize]

theorem first_mem_pageThrough_start {h : Nat} {t rest : List Nat} (hhandles : db.handles = h :: t)
    (hcount : 0 < count k) (hrest : Returns (pageThrough db count bulk k iterateStart) (.ok rest)) :
    h ∈ rest := by
  have hsize : 0 ≤ startSize (count k) := by
    by_contra hneg
    have hcur : db.cursorAt iterateStart = some ⟨h, t⟩ := by rw [db.cursorAt_start, hhandles]; rfl
    cases hrest.unique (pageThrough_enomem (by decide) hcur (by omega))
  have hne : db.handles ≠ [] := by rw [hhandles]; exact cons_ne_nil h t
  have hpage := iterateHandles_start bulk hne hsize hcount
  have hmem : h ∈ (pageSpec db.handles (count k)).1 := by
    obtain ⟨m, hm⟩ : ∃ m, count k = m + 1 := ⟨count k - 1, by omega⟩
    rw [hhandles, hm]
    exact mem_cons_self
  generalize pageSpec db.handles (count k) = spec at hpage hmem
  obtain ⟨page, position⟩ := spec
  by_cases hlast : position = iterateEnd
  · subst hlast
    rw [Except.ok.inj (hrest.unique (pageThrough_last hpage))]
    exact hmem
  · obtain ⟨more, rfl, -⟩ := (pageThrough_again hpage hlast).mp hrest
    exact mem_append_left _ hmem

theorem iterateHandles_at (bulk : Nat → Nat → Nat) {k h : Nat} (hcount : 0 < count k)
    (hk : db.handles[pageStart count k]? = some h) (hsize : 0 ≤ startSize (count k))
    (hpos : 0 < k → h ≠ iterateStart ∧ h ≠ iterateEnd) :
    Returns (iterateHandles db (pagePosition db count k) (count k) (bulk k))
      (.ok ((db.handles.drop (pageStart count k)).take (count k),
        pagePosition db count (k + 1))) := by
  rw [← pageSpec_drop]
  cases k with
  | zero =>
    refine iterateHandles_start bulk ?_ hsize hcount
    intro hnil
    rw [hnil] at hk
    cases hk
  | succ k =>
    obtain ⟨hstart, hend⟩ := hpos (Nat.succ_pos k)
    obtain ⟨hlt, hget⟩ := List.getElem?_eq_some_iff.mp hk
    rw [pagePosition_succ hk, drop_eq_getElem_cons hlt, hget]
    exact iterateHandles_page _ hend (db.cursorAt_stored hk hstart) hsize hcount

theorem Resumable.returns_rest (hres : Resumable db count) (hcount : ∀ k, 0 < count k) (k : Nat)
    (hk : pageStart count k < db.handles.length) :
    Returns (pageThrough db count bulk k (pagePosition db count k))
      (.ok (db.handles.drop (pageStart count k))) := by
  -- each page makes what is left shorter
  generalize hleft : db.handles.length - pageStart count k = left
  induction left using Nat.strongRecOn generalizing k with
  | ind left ih =>
    obtain ⟨hsize, hpos⟩ := hres k _ (getElem?_eq_getElem hk)
    have hpage := iterateHandles_at bulk (hcount k) (getElem?_eq_getElem hk) hsize hpos
    have hsucc : pageStart count (k + 1) = pageStart count k + count k := rfl
    have hgrow := hcount k
    by_cases hmore : pageStart count (k + 1) < db.handles.length
    · have hget := getElem?_eq_getElem hmore
      have hne : pagePosition db count (k + 1) ≠ iterateEnd := by
        rw [pagePosition_succ hget]
        exact ((hres (k + 1) _ hget).2 (Nat.succ_pos k)).2
      apply (pageThrough_again hpage hne).mpr
      refine ⟨db.handles.drop (pageStart count (k + 1)), ?_, ih _ (by omega) (k + 1) hmore rfl⟩
      rw [hsucc, ← drop_drop, take_append_drop]
    · have hend : pagePosition db count (k + 1) = iterateEnd := by
        rw [pagePosition, drop_of_length_le (by omega)]
        rfl
      rw [hend, take_of_length_le (by rw [length_drop]; omega)] at hpage
      exact pageThrough_last hpage

theorem Resumable.pagesComplete (hres : Resumable db count) (hcount : ∀ k, 0 < count k) :
    PagesComplete db count bulk := by
  by_cases hempty : db.handles = []
  · refine ⟨[], pageThrough_last (Returns.always fun fuel => ?_), by rw [hempty]⟩
    rw [iterateHandles, db.cursorAt_start, hempty]
    rfl
  · exact ⟨_, hres.returns_rest hcount 0 (length_pos_of_ne_nil hempty), Perm.refl _⟩

theorem PagesComplete.reaches (hcount : ∀ k, 0 < count k)
    (hall : Returns (pageThrough db count bulk 0 iterateStart) (.ok hs))
    (hperm : hs.Perm db.handles) (k : Nat) (hk : pageStart count k < db.handles.length) :
    (∃ rest, hs = db.handles.take (pageStart count k) ++ rest ∧
      Returns (pageThrough db count bulk k (pagePosition db count k)) (.ok rest)) ∧
    0 ≤ startSize (count k) ∧
    (0 < k → db.handles[pageStart count k] ≠ iterateStart ∧
      db.handles[pageStart count k] ≠ iterateEnd) := by
  induction k with
  | zero =>
    refine ⟨⟨hs, rfl, hall⟩, ?_, fun h => absurd h (Nat.lt_irrefl 0)⟩
    by_contra hneg
    obtain ⟨h, t, hht⟩ := exists_cons_of_ne_nil (ne_nil_of_length_pos hk)
    have hcur : db.cursorAt iterateStart = some ⟨h, t⟩ := by rw [db.cursorAt_start, hht]; rfl
    cases hall.unique (pageThrough_enomem (by decide) hcur (by omega))
  | succ k ih =>
    have hsucc : pageStart count (k + 1) = pageStart count k + count k := rfl
    have hgrow := hcount k
    obtain ⟨⟨rest, hhs, hrest⟩, hsize, hpos⟩ := ih (by omega)
    have hpage := iterateHandles_at bulk (hcount k)
      (getElem?_eq_getElem (by omega)) hsize hpos
    have hget := getElem?_eq_getElem hk
    have htake : db.handles.take (pageStart count (k + 1)) = db.handles.take (pageStart count k) ++
        (db.handles.drop (pageStart count k)).take (count k) := by rw [hsucc, take_add]
    -- the end position would have ended the paging before this page
    have hend : db.handles[pageStart count (k + 1)] ≠ iterateEnd := by
      intro hend
      rw [pagePosition_succ hget, hend] at hpage
      have hlast := Except.ok.inj (hrest.unique (pageThrough_last hpage))
      have hlen := hperm.length_eq
      rw [hhs, hlast, ← htake, length_take] at hlen
      omega
    obtain ⟨more, hmore, hret⟩ :=
      (pageThrough_again hpage (by rwa [pagePosition_succ hget])).mp hrest
    have hhs' : hs = db.handles.take (pageStart count (k + 1)) ++ more := by
      rw [hhs, hmore, htake, append_assoc]
    have hnodup := hperm.nodup_iff.mpr db.nodup
    -- the start position would have brought the first handle once more
    have hstart : db.handles[pageStart count (k + 1)] ≠ iterateStart := by
      intro hstart
      obtain ⟨h, t, hht⟩ := exists_cons_of_ne_nil
        (ne_nil_of_length_pos (Nat.lt_of_le_of_lt (Nat.zero_le _) hk))
      rw [pagePosition_succ hget, hstart] at hret
      have hagain := first_mem_pageThrough_start hht (hcount (k + 1)) hret
      have hfirst : h ∈ db.handles.take (pageStart count (k + 1)) := by
        obtain ⟨m, hm⟩ : ∃ m, pageStart count (k + 1) = m + 1 := ⟨pageStart count (k + 1) - 1, by omega⟩
        rw [hht, hm]
        exact mem_cons_self
      rw [hhs'] at hnodup
      exact (nodup_append.mp hnodup).2.2 h hfirst h hagain rfl
    refine ⟨⟨more, hhs', hret⟩, ?_, fun _ => ⟨hstart, hend⟩⟩
    by_contra hneg
    rw [pagePosition_succ hget] at hret
    have hcur := db.cursorAt_stored hget hstart
    cases hret.unique (pageThrough_enomem hend hcur (by omega))

/-- Paging returns every handle exactly once exactly if every page can be asked for. -/
theorem pages_complete_iff (hcount : ∀ k, 2 ≤ count k) :
    PagesComplete db count bulk ↔ Resumable db count := by
  have hpos : ∀ k, 0 < count k := fun k => Nat.lt_of_lt_of_le (by decide) (hcount k)
  constructor
  · rintro ⟨hs, hall, hperm⟩ k h hk
    obtain ⟨hlt, rfl⟩ := List.getElem?_eq_some_iff.mp hk
    exact (PagesComplete.reaches hpos hall hperm k hlt).2
  · intro hres
    exact hres.pagesComplete hpos

end

/-- Three handles in pages of two: the second page begins with an ordinary handle. -/
theorem pages_complete_three_handles :
    PagesComplete ⟨.plain, [9, 7, 5], by decide⟩ (fun _ => 2) (fun _ _ => 0) := by
  refine (pages_complete_iff fun _ => Nat.le_refl 2).mpr ?_
  intro k h hk
  have hmem : h ∈ [9, 7, 5] := mem_of_getElem? hk
  refine ⟨show 0 ≤ startSize 2 by decide, fun _ => ?_⟩
  clear hk
  revert h
  decide

def endHandleDb : DspaceDb := ⟨.plain, [2147483650, 2147483649, iterateEnd], by decide⟩

def startHandleDb : DspaceDb := ⟨.plain, [2147483650, 2147483649, iterateStart], by decide⟩

/-- In pages of two, the handle with the value of the end position is never returned; with the
value of the start position, the second call begins again with the first handle. -/
theorem special_handles_break_paging :
    (Returns (pageThrough endHandleDb (fun _ => 2) (fun _ _ => 0) 0 iterateStart)
      (.ok [2147483650, 2147483649]) ∧
      ¬ PagesComplete endHandleDb (fun _ => 2) (fun _ _ => 0)) ∧
    ¬ PagesComplete startHandleDb (fun _ => 2) (fun _ _ => 0) := by
  refine ⟨⟨?_, ?_⟩, ?_⟩
  · apply pageThrough_last
    exact @iterateHandles_at endHandleDb (fun _ => 2) _ (fun _ _ => 0) 0 2147483650 (by decide) rfl
      (by decide) (fun h => absurd h (Nat.lt_irrefl 0))
  · rintro ⟨hs, hall, hperm⟩
    have hreach := PagesComplete.reaches (fun _ => Nat.succ_pos 1) hall hperm 1 (by decide)
    exact (hreach.2.2 Nat.one_pos).2 rfl
  · rintro ⟨hs, hall, hperm⟩
    have hreach := PagesComplete.reaches (fun _ => Nat.succ_pos 1) hall hperm 1 (by decide)
    exact (hreach.2.2 Nat.one_pos).1 rfl

end Pvfs.Trove
