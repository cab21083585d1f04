import Mathlib.Data.List.Nodup
import Mathlib.Logic.Function.Basic
import Pvfs.Lib.Machine
import Pvfs.Lib.Steps

/-! # The cache with timeouts (tcache.c)

An entry hangs in a chain of the hash table and in a list that begins with the entry whose last
use is the longest ago. Whatever is called, the two hold the same entries, and an insertion
takes from the front of the list: first what has expired, and at the hard limit one entry more.
When an entry was used last is not in the cache: it is read off the calls that were made.

The date on which an entry expires has its microseconds carried only if they are more than a
second, so a date can be written with 1000000 of them; the whole second that it stands for is
then taken for a later moment. -/

namespace Pvfs.Common

open Lib List Function

/-- What `PINT_tcache_set_info` sets; there is one replacement algorithm. -/
structure TcacheOptions where
  timeoutMsecs : Nat
  expirationEnabled : Bool
  hardLimit : Nat
  softLimit : Nat
  reclaimPercentage : Nat
  enable : Bool
  limits : 1 ≤ softLimit ∧ 1 ≤ hardLimit

/-- `struct PINT_tcache`, with the key in the payload of an entry and its `expiration_date` under the
address of the entry. -/
structure Tcache (Key : Type) where
  numEntries : Nat
  hTable : Nat → List Nat
  lruList : List Nat
  key : Nat → Key
  expirationDate : Nat → Timeval

/-- `check_expiration`: whether the answer is `-PVFS_ETIME`. -/
def checkExpiration (o : TcacheOptions) (expirationDate tv : Timeval) : Bool :=
  o.expirationEnabled && tv.after expirationDate

/-- `PINT_tcache_refresh_entry`: what the clock makes of an `expiration_date`. -/
def refreshEntry (o : TcacheOptions) (expirationDate now : Timeval) : Timeval :=
  if !o.expirationEnabled then expirationDate
  else
    let sec := now.sec + o.timeoutMsecs / 1000
    let usec := now.usec + o.timeoutMsecs % 1000 * 1000
    if usec > 1000000 then ⟨sec + 1, usec - 1000000⟩ else ⟨sec, usec⟩

/-- **An entry expires just after its timeout, but for one moment**: a date that is a whole second
because of a carry is missed by that second. -/
theorem expired_iff (o : TcacheOptions) (old : Timeval) {refreshed now : Timeval}
    (hr : refreshed.usec < 1000000) (hn : now.usec < 1000000) :
    (checkExpiration o (refreshEntry o old refreshed) now = true ↔
      micros refreshed + o.timeoutMsecs * 1000 < micros now) ↔
      if o.expirationEnabled then
        ¬ (refreshed.usec + o.timeoutMsecs % 1000 * 1000 = 1000000 ∧
          micros now = micros refreshed + o.timeoutMsecs * 1000)
      else micros now ≤ micros refreshed + o.timeoutMsecs * 1000 := by
  have hdiv := Nat.div_add_mod o.timeoutMsecs 1000
  unfold checkExpiration refreshEntry Timeval.after micros
  cases o.expirationEnabled with
  | false => simp
  | true =>
    simp only [Bool.not_true, Bool.false_eq_true, if_false, if_true, Bool.true_and]
    split <;> simp only [gt_iff_lt, Bool.or_eq_true, Bool.and_eq_true, decide_eq_true_eq] <;> omega

/-- A cache whose entries are good for half a second. -/
def halfSecond : TcacheOptions := ⟨500, true, 10, 5, 25, true, by decide⟩

/-- A cache with room for two entries. -/
def twoEntries : TcacheOptions := ⟨500, true, 2, 2, 25, true, by decide⟩

theorem expired_halfSecond :
    checkExpiration halfSecond (refreshEntry halfSecond ⟨0, 0⟩ ⟨10, 0⟩) ⟨10, 500001⟩ = true :=
  ((expired_iff halfSecond ⟨0, 0⟩ (by decide) (by decide)).mpr (by decide)).mpr (by decide)

/-- A million microseconds are not carried, and the entry expires at its very date. -/
theorem expired_at_carry :
    checkExpiration halfSecond (refreshEntry halfSecond ⟨0, 0⟩ ⟨10, 500000⟩) ⟨11, 0⟩ = true ∧
      micros ⟨11, 0⟩ = micros ⟨10, 500000⟩ + halfSecond.timeoutMsecs * 1000 :=
  ⟨rfl, rfl⟩

namespace Tcache

/-! ## The calls -/

variable {Key : Type} (o : TcacheOptions) (hashKey : Key → Nat) (t : Tcache Key)

/-- `PINT_tcache_delete`. -/
def delete (p : Nat) : Tcache Key :=
  { t with
    hTable := fun index => (t.hTable index).erase p
    lruList := t.lruList.erase p
    numEntries := t.numEntries - 1 }

/-- The loop of `PINT_tcache_reclaim`. -/
def reclaimLoop (tv : Timeval) : List Nat → Int → Tcache Key → Tcache Key
  | [], _, t => t
  | p :: rest, entriesToPurge, t =>
    if checkExpiration o (t.expirationDate p) tv then
      -- break if we hit percentage cap
      if entriesToPurge - 1 ≤ 0 then t.delete p
      else reclaimLoop tv rest (entriesToPurge - 1) (t.delete p)
    else t

/-- `PINT_tcache_reclaim`. -/
def reclaim (tv : Timeval) : Tcache Key :=
  reclaimLoop o tv t.lruList (o.reclaimPercentage * o.softLimit % 2 ^ 32 / 100 : Nat) t

/-- `PINT_tcache_lookup`: the entry and whether it has expired, or `-PVFS_ENOENT`. -/
def lookup [DecidableEq Key] (t : Tcache Key) (key : Key) (tv : Timeval) :
    Option (Nat × Bool × Tcache Key) :=
  ((t.hTable (hashKey key)).find? fun p => t.key p = key).map fun p =>
    -- put at tail of LRU
    (p, checkExpiration o (t.expirationDate p) tv, { t with lruList := t.lruList.erase p ++ [p] })

/-- Over the soft limit, try to reclaim some entries. -/
def makeRoom (tv : Timeval) : Tcache Key :=
  if t.numEntries ≥ o.softLimit then t.reclaim o tv else t

/-- The new entry, at the address that `calloc` gave it; with none, `-PVFS_ENOMEM`. -/
def link (key : Key) (now : Timeval) : Option Nat → Tcache Key
  | none => t
  | some p =>
    { numEntries := t.numEntries + 1
      hTable := fun index => if index = hashKey key then t.hTable index ++ [p] else t.hTable index
      lruList := t.lruList ++ [p]
      key := update t.key p key
      expirationDate := update t.expirationDate p (refreshEntry o ⟨0, 0⟩ now) }

/-- `PINT_tcache_insert_entry`, with its two readings of the clock and the answer of `calloc`. -/
def insertEntry (key : Key) (tv now : Timeval) (tmpEntry : Option Nat) : Tcache Key :=
  if !o.enable then t
  else
    let t := t.makeRoom o tv
    if t.numEntries ≥ o.hardLimit then
      -- `tcache_lookup_oldest`, which fails if there is none
      match t.lruList with
      | [] => t
      | p :: _ => (t.delete p).link o hashKey key now tmpEntry
    else t.link o hashKey key now tmpEntry

/-- A call of the cache's interface. -/
inductive Call (Key : Type) where
  | insert (key : Key) (tv now : Timeval) (tmpEntry : Option Nat)
  | lookup (key : Key) (tv : Timeval)
  | delete (p : Nat)
  | refresh (p : Nat) (now : Timeval)
  | reclaim (tv : Timeval)

/-- A call; only an entry of the cache can be deleted or refreshed, and `calloc` does not give the
memory of an entry that is still there when it is called. -/
def call [DecidableEq Key] (t : Tcache Key) : Call Key → Option (Tcache Key)
  | .insert key tv now tmpEntry =>
    let atCalloc := t.insertEntry o hashKey key tv now none
    if tmpEntry.all (· ∉ atCalloc.lruList) then some (t.insertEntry o hashKey key tv now tmpEntry)
    else none
  | .lookup key tv => some (((t.lookup o hashKey key tv).map fun found => found.2.2).getD t)
  | .delete p => if p ∈ t.lruList then some (t.delete p) else none
  | .refresh p now =>
    let date := refreshEntry o (t.expirationDate p) now
    if p ∈ t.lruList then some { t with expirationDate := update t.expirationDate p date } else none
  | .reclaim tv => some (t.reclaim o tv)

/-! ## What the calls say about the uses -/

/-- The keys that were inserted or looked up, in this order. -/
def accesses (calls : List (Call Key)) : List Key :=
  calls.filterMap fun
    | .insert key .. => some key
    | .lookup key _ => some key
    | _ => none

/-- The keys that were inserted. -/
def insertions (calls : List (Call Key)) : List Key :=
  calls.filterMap fun
    | .insert key .. => some key
    | _ => none

/-- `later` was accessed after the last access of `earlier`. -/
def AccessedSince (log : List Key) (earlier later : Key) : Prop :=
  ∃ upTo since, log = upTo ++ since ∧ earlier ∉ since ∧ later ∈ since

/-- The hash table and the list hold the same entries, each once and where it belongs. -/
structure Linked : Prop where
  chained : ∀ index p, (t.hTable index).count p =
    if p ∈ t.lruList ∧ index = hashKey (t.key p) then 1 else 0
  listed : t.lruList.Nodup
  counted : t.numEntries = t.lruList.length
  limited : t.numEntries ≤ o.hardLimit

/-- The list is ordered by last access. -/
def Ordered (log : List Key) : Prop :=
  t.lruList.Pairwise fun p q => AccessedSince log (t.key p) (t.key q)

/-- An insertion keeps what reclaiming has left, in its order, but at the hard limit not the first
entry of it; and all others of these have been accessed since the first one was. -/
def EvictsOldest (log : List Key) : Prop :=
  ∀ key tv now tmpEntry, o.enable = true →
    (t.insertEntry o hashKey key tv now tmpEntry).lruList =
      (if (t.makeRoom o tv).numEntries ≥ o.hardLimit then (t.makeRoom o tv).lruList.tail
        else (t.makeRoom o tv).lruList) ++ tmpEntry.toList ∧
    ∀ p ∈ (t.makeRoom o tv).lruList.head?, ∀ q ∈ (t.makeRoom o tv).lruList.tail,
      AccessedSince log (t.key p) (t.key q)

variable {o hashKey t}

/-! ## Taking entries out -/

theorem Linked.delete {p : Nat} (h : t.Linked o hashKey) (hp : p ∈ t.lruList) :
    (t.delete p).Linked o hashKey := by
  refine ⟨fun index q => ?_, h.listed.erase p, ?_, Nat.le_trans (Nat.sub_le ..) h.limited⟩
  · simp only [Tcache.delete, count_erase, h.chained, beq_iff_eq, h.listed.mem_erase_iff]
    by_cases hqp : p = q
    · subst hqp
      simp only [if_true, ne_eq, not_true, false_and, if_false]
      split <;> rfl
    · simp only [if_neg hqp, Nat.sub_zero, ne_eq, Ne.symm hqp, not_false_eq_true, true_and]
  · simp only [Tcache.delete, h.counted, length_erase_of_mem hp]

variable {l : List Nat} {log : List Key} {t' : Tcache Key}

/-- `t'` has the entries of `t`, but not all of them. -/
structure Fewer (t t' : Tcache Key) : Prop where
  key : t'.key = t.key
  sublist : t'.lruList <+ t.lruList

theorem Fewer.trans {t'' : Tcache Key} (h : Fewer t t') (h' : Fewer t' t'') : Fewer t t'' :=
  ⟨h'.key.trans h.key, h'.sublist.trans h.sublist⟩

theorem Fewer.delete (t : Tcache Key) (p : Nat) : Fewer t (t.delete p) :=
  ⟨rfl, erase_sublist ..⟩

theorem Fewer.ordered (h : Fewer t t') (hord : t.Ordered log) : t'.Ordered log := by
  rw [Ordered, h.key]
  exact hord.sublist h.sublist

/-- Reclaiming deletes entries of the cache, one after the other. -/
theorem Linked.reclaimLoop (tv : Timeval) (hl : l.Nodup) {n : Int}
    (h : t.Linked o hashKey) (hmem : l ⊆ t.lruList) :
    (Tcache.reclaimLoop o tv l n t).Linked o hashKey ∧ Fewer t (Tcache.reclaimLoop o tv l n t) := by
  induction l generalizing t n with
  | nil => exact ⟨h, rfl, Sublist.refl _⟩
  | cons p rest ih =>
    obtain ⟨hp, hrest⟩ := nodup_cons.mp hl
    have hdel := h.delete (hmem mem_cons_self)
    rw [Tcache.reclaimLoop]
    split
    · split
      · exact ⟨hdel, .delete t p⟩
      · obtain ⟨hlinked, hfewer⟩ := ih (n := n - 1) hrest hdel fun q hq =>
          (mem_erase_of_ne (ne_of_mem_of_not_mem hq hp)).mpr (hmem (mem_cons_of_mem _ hq))
        exact ⟨hlinked, (Fewer.delete t p).trans hfewer⟩
    · exact ⟨h, rfl, Sublist.refl _⟩

theorem Linked.makeRoom (tv : Timeval) (h : t.Linked o hashKey) :
    (t.makeRoom o tv).Linked o hashKey ∧ Fewer t (t.makeRoom o tv) := by
  unfold Tcache.makeRoom
  split
  · exact h.reclaimLoop tv h.listed (Subset.refl _)
  · exact ⟨h, rfl, Sublist.refl _⟩

/-! ## The new entry -/

theorem Linked.link (key : Key) (now : Timeval) {tmpEntry : Option Nat} (h : t.Linked o hashKey)
    (hroom : t.numEntries < o.hardLimit) (hnew : ∀ p ∈ tmpEntry, p ∉ t.lruList) :
    (t.link o hashKey key now tmpEntry).Linked o hashKey := by
  cases tmpEntry with
  | none => exact h
  | some p =>
    have hp : p ∉ t.lruList := hnew p rfl
    refine ⟨fun index q => ?_, by simpa [Tcache.link] using h.listed.concat hp,
      by simp [Tcache.link, h.counted], hroom⟩
    have hchain := h.chained index q
    simp only [Tcache.link, apply_ite (count q), count_append, count_singleton, beq_iff_eq,
      mem_append, mem_singleton, update_apply]
    by_cases hq : q = p
    · subst hq
      rw [if_neg fun hin => hp hin.1] at hchain
      simp [hchain]
    · simpa [hq, Ne.symm hq] using hchain

/-- What an insertion finds when it calls `calloc`: no entry, or a cache with room that has some of
the entries that it had. -/
theorem Linked.insertEntry_cases (key : Key) (tv now : Timeval) (h : t.Linked o hashKey) :
    ∃ t', t'.Linked o hashKey ∧ Fewer t t' ∧
      ((∀ tmpEntry, t.insertEntry o hashKey key tv now tmpEntry = t') ∨
        t'.numEntries < o.hardLimit ∧ ∀ tmpEntry,
          t.insertEntry o hashKey key tv now tmpEntry = t'.link o hashKey key now tmpEntry) := by
  obtain ⟨h1, hfewer⟩ := h.makeRoom tv
  unfold Tcache.insertEntry
  split
  · exact ⟨t, h, ⟨rfl, Sublist.refl _⟩, .inl fun _ => rfl⟩
  dsimp only
  split
  next hfull =>
    split
    next => exact ⟨_, h1, hfewer, .inl fun _ => rfl⟩
    next p rest hlru =>
      refine ⟨_, h1.delete (hlru ▸ mem_cons_self), hfewer.trans (.delete _ p),
        .inr ⟨?_, fun _ => rfl⟩⟩
      have hlim := h1.limited
      have hpos := o.limits.2
      simp only [Tcache.delete]
      omega
  next hroom => exact ⟨_, h1, hfewer, .inr ⟨Nat.not_le.mp hroom, fun _ => rfl⟩⟩

theorem Linked.evictsOldest (h : t.Linked o hashKey) (hord : t.Ordered log) :
    t.EvictsOldest o hashKey log := by
  intro key tv now tmpEntry hen
  obtain ⟨h1, hfewer⟩ := h.makeRoom tv
  have hord1 := hfewer.ordered hord
  constructor
  · simp only [Tcache.insertEntry, hen, Bool.not_true, Bool.false_eq_true, if_false]
    split
    next hfull =>
      split
      next hnil =>
        -- as many entries as the hard limit allows are at least one
        rw [h1.counted, hnil] at hfull
        exact absurd hfull (Nat.not_le.mpr o.limits.2)
      next p rest hlru => cases tmpEntry <;> simp [Tcache.link, Tcache.delete, hlru]
    next => cases tmpEntry <;> simp [Tcache.link]
  · rw [Ordered, hfewer.key] at hord1
    intro p hp q hq
    cases hlru : (t.makeRoom o tv).lruList with
    | nil => simp [hlru] at hp
    | cons p' rest =>
      rw [hlru] at hord1 hp hq
      cases hp
      exact rel_of_pairwise_cons hord1 hq

/-! ## The order of the accesses -/

/-- An access to another key does not change who was accessed since when. -/
theorem AccessedSince.concat {k k' : Key} (h : AccessedSince log k k') {key : Key} (hk : k ≠ key) :
    AccessedSince (log ++ [key]) k k' := by
  obtain ⟨upTo, since, rfl, hnot, hin⟩ := h
  refine ⟨upTo, since ++ [key], append_assoc .., ?_, mem_append_left _ hin⟩
  rw [mem_append, mem_singleton, not_or]
  exact ⟨hnot, hk⟩

theorem accessedSince_last {k key : Key} (hk : k ≠ key) : AccessedSince (log ++ [key]) k key :=
  ⟨log, [key], rfl, by simpa using hk, mem_singleton_self key⟩

theorem Ordered.access {key : Key} (h : t.Ordered log) (hkey : ∀ p ∈ t.lruList, t.key p ≠ key) :
    t.Ordered (log ++ [key]) :=
  h.imp_of_mem fun hp _ hpq => hpq.concat (hkey _ hp)

/-- The entry that was accessed comes last. -/
theorem Ordered.moved {p : Nat} (h : t.Ordered log) (hkey : ∀ q ∈ t.lruList, t.key q ≠ t'.key p)
    (hlru : t'.lruList = t.lruList ++ [p]) (hsame : ∀ q ∈ t.lruList, t'.key q = t.key q) :
    t'.Ordered (log ++ [t'.key p]) := by
  rw [Ordered, hlru, pairwise_append]
  refine ⟨(h.access hkey).imp_of_mem fun hq hr hqr => ?_, pairwise_singleton .., fun q hq r hr => ?_⟩
  · rwa [hsame _ hq, hsame _ hr]
  · rw [mem_singleton.mp hr, hsame q hq]
    exact accessedSince_last (hkey q hq)

/-- The cache after some calls: it is linked and ordered, and the entries have different keys that
were inserted. -/
structure After (o : TcacheOptions) (hashKey : Key → Nat) (calls : List (Call Key))
    (t : Tcache Key) : Prop where
  linked : t.Linked o hashKey
  ordered : t.Ordered (accesses calls)
  inserted : ∀ p ∈ t.lruList, t.key p ∈ insertions calls
  distinct : (t.lruList.map t.key).Nodup

variable {calls : List (Call Key)}

/-- A call that only takes entries out, and is about none that is left. -/
theorem After.fewer (h : After o hashKey calls t) (c : Call Key) (hlinked : t'.Linked o hashKey)
    (hfewer : Fewer t t') (hkey : ∀ p ∈ t'.lruList, ∀ key ∈ accesses [c], t.key p ≠ key) :
    After o hashKey (calls ++ [c]) t' := by
  have hacc : accesses (calls ++ [c]) = accesses calls ++ accesses [c] := filterMap_append
  refine ⟨hlinked, ?_, fun p hp => ?_, ?_⟩
  · rw [hacc]
    have hord := hfewer.ordered h.ordered
    cases c with
    | insert key => exact hord.access fun p hp => hfewer.key ▸ hkey p hp key (mem_singleton_self key)
    | lookup key => exact hord.access fun p hp => hfewer.key ▸ hkey p hp key (mem_singleton_self key)
    | _ => simpa [accesses] using hord
  · rw [hfewer.key, insertions, filterMap_append]
    exact mem_append_left _ (h.inserted p (hfewer.sublist.subset hp))
  · rw [hfewer.key]
    exact h.distinct.sublist (hfewer.sublist.map _)

theorem After.insert (h : After o hashKey calls t) {key : Key} {tv now : Timeval}
    {tmpEntry : Option Nat} (hkey : key ∉ insertions calls)
    (hnew : ∀ p ∈ tmpEntry, p ∉ (t.insertEntry o hashKey key tv now none).lruList) :
    After o hashKey (calls ++ [.insert key tv now tmpEntry])
      (t.insertEntry o hashKey key tv now tmpEntry) := by
  obtain ⟨t1, h1, hfewer, hins⟩ := h.linked.insertEntry_cases key tv now
  have hne : ∀ p ∈ t1.lruList, t1.key p ≠ key := by
    rintro p hp rfl
    rw [hfewer.key] at hkey
    exact hkey (h.inserted p (hfewer.sublist.subset hp))
  have hleft : After o hashKey (calls ++ [.insert key tv now tmpEntry]) t1 :=
    h.fewer _ h1 hfewer fun p hp _ hk => mem_singleton.mp hk ▸ hfewer.key ▸ hne p hp
  obtain hins | ⟨hroom, hins⟩ := hins
  · rwa [hins]
  rw [hins] at hnew ⊢
  cases tmpEntry with
  | none => exact hleft
  | some p =>
    have hp : p ∉ t1.lruList := hnew p rfl
    have hsame : ∀ q ∈ t1.lruList, update t1.key p key q = t1.key q :=
      fun q hq => update_of_ne (ne_of_mem_of_not_mem hq hp) ..
    have hself : update t1.key p key p = key := update_self ..
    refine ⟨h1.link key now hroom hnew, ?_, fun q hq => ?_, ?_⟩
    · rw [accesses, filterMap_append]
      have hmoved := (hfewer.ordered h.ordered).moved (p := p) (fun q hq => ?_)
        (show (t1.link o hashKey key now (some p)).lruList = _ from rfl) hsame
      · rwa [show (t1.link o hashKey key now (some p)).key p = key from hself] at hmoved
      · exact fun heq => hne q hq (heq.trans hself)
    · rcases mem_append.mp hq with hq | hq
      · rw [show (t1.link o hashKey key now (some p)).key q = _ from hsame q hq]
        exact hleft.inserted q hq
      · rw [mem_singleton.mp hq]
        simp [Tcache.link, insertions]
    · simp only [Tcache.link, map_append, map_cons, map_nil, hself, map_congr_left hsame]
      rw [← concat_eq_append]
      refine hleft.distinct.concat fun hin => ?_
      obtain ⟨q, hq, heq⟩ := mem_map.mp hin
      exact hne q hq heq

variable [DecidableEq Key]

/-- Looking up a key finds the one entry that has it. -/
theorem Linked.find?_eq (h : t.Linked o hashKey) (key : Key) (p : Nat)
    (hfind : (t.hTable (hashKey key)).find? (fun p => t.key p = key) = some p) :
    p ∈ t.lruList ∧ t.key p = key := by
  refine ⟨?_, by simpa using find?_some hfind⟩
  have hpos := count_pos_iff.mpr (mem_of_find?_eq_some hfind)
  rw [h.chained] at hpos
  by_contra hnot
  rw [if_neg fun hin => hnot hin.1] at hpos
  exact Nat.lt_irrefl 0 hpos

theorem Linked.find?_none (h : t.Linked o hashKey) {key : Key}
    (hfind : (t.hTable (hashKey key)).find? (fun p => t.key p = key) = none) :
    ∀ p ∈ t.lruList, t.key p ≠ key := by
  rintro p hp rfl
  have hcount := h.chained (hashKey (t.key p)) p
  rw [if_pos ⟨hp, rfl⟩] at hcount
  have hmem : p ∈ t.hTable (hashKey (t.key p)) := count_pos_iff.mp (by omega)
  simpa using find?_eq_none.mp hfind p hmem

theorem After.lookup (h : After o hashKey calls t) (key : Key) (tv : Timeval) :
    After o hashKey (calls ++ [.lookup key tv])
      (((t.lookup o hashKey key tv).map fun found => found.2.2).getD t) := by
  unfold Tcache.lookup
  cases hfind : (t.hTable (hashKey key)).find? fun p => t.key p = key with
  | none =>
    refine h.fewer _ h.linked ⟨rfl, Sublist.refl _⟩ fun p hp k hk => ?_
    cases mem_singleton.mp hk
    exact h.linked.find?_none hfind p hp
  | some p =>
    obtain ⟨hp, rfl⟩ := h.linked.find?_eq key p hfind
    have hperm : t.lruList.erase p ++ [p] ~ t.lruList :=
      perm_append_comm.trans (perm_cons_erase hp).symm
    refine ⟨⟨fun index q => ?_, hperm.nodup_iff.mpr h.linked.listed,
      h.linked.counted.trans hperm.length_eq.symm, h.linked.limited⟩, ?_, fun q hq => ?_, ?_⟩
    · simpa only [hperm.mem_iff, Option.map_some, Option.getD_some] using h.linked.chained index q
    · rw [accesses, filterMap_append]
      refine ((Fewer.delete t p).ordered h.ordered).moved (fun q hq => ?_) rfl fun _ _ => rfl
      obtain ⟨hne, hq⟩ := h.linked.listed.mem_erase_iff.mp hq
      exact fun heq => hne (inj_on_of_nodup_map h.distinct hq hp heq)
    · rw [insertions, filterMap_append]
      exact mem_append_left _ (h.inserted q (hperm.mem_iff.mp hq))
    · exact (hperm.map t.key).nodup_iff.mpr h.distinct

/-- A call keeps the cache in order, if it does not insert a key a second time. -/
theorem After.call {c : Call Key} (h : After o hashKey calls t)
    (hkeys : (insertions (calls ++ [c])).Nodup) (hcall : t.call o hashKey c = some t') :
    After o hashKey (calls ++ [c]) t' := by
  cases c with
  | insert key tv now tmpEntry =>
    obtain ⟨hnew, heq⟩ := Option.ite_none_right_eq_some.mp hcall
    cases heq
    refine h.insert (fun hin => ?_) (by simpa [Option.all_eq_true] using hnew)
    rw [insertions, filterMap_append] at hkeys
    exact (nodup_append.mp hkeys).2.2 key hin key (mem_singleton_self key) rfl
  | lookup key tv =>
    cases hcall
    exact h.lookup key tv
  | delete p =>
    obtain ⟨hp, heq⟩ := Option.ite_none_right_eq_some.mp hcall
    cases heq
    exact h.fewer _ (h.linked.delete hp) (.delete t p) (by simp [accesses])
  | refresh p now =>
    obtain ⟨-, heq⟩ := Option.ite_none_right_eq_some.mp hcall
    cases heq
    exact h.fewer _ { h.linked with } ⟨rfl, Sublist.refl _⟩ (by simp [accesses])
  | reclaim tv =>
    cases hcall
    obtain ⟨hlinked, hfewer⟩ := h.linked.reclaimLoop tv h.linked.listed (Subset.refl _)
    exact h.fewer _ hlinked hfewer (by simp [accesses])

theorem After.exec (h : After o hashKey calls t) {more : List (Call Key)}
    (hkeys : (insertions (calls ++ more)).Nodup)
    (hrun : exec (Tcache.call o hashKey) t more = some t') :
    After o hashKey (calls ++ more) t' := by
  induction more generalizing t calls with
  | nil =>
    cases hrun
    rwa [append_nil]
  | cons c rest ih =>
    obtain ⟨t1, hc, hrest⟩ := Option.bind_eq_some_iff.mp hrun
    rw [append_cons] at hkeys ⊢
    refine ih (h.call (hkeys.sublist ?_) hc) hkeys hrest
    exact (sublist_append_left ..).filterMap _

/-- **Whatever calls are made of an empty cache, its entries are linked and stand in the order of
their last accesses**, as the calls have them, and a further insertion at the hard limit takes the
entry that was accessed the longest ago. -/
theorem linked_throughout (o : TcacheOptions) (hashKey : Key → Nat) (key : Nat → Key)
    (expirationDate : Nat → Timeval) (calls : List (Call Key)) (hkeys : (insertions calls).Nodup)
    (hrun : Lib.exec (Tcache.call o hashKey) ⟨0, fun _ => [], [], key, expirationDate⟩ calls =
      some t) :
    t.Linked o hashKey ∧ t.Ordered (accesses calls) ∧ t.EvictsOldest o hashKey (accesses calls) := by
  have hempty : After o hashKey [] ⟨0, fun _ => [], [], key, expirationDate⟩ :=
    ⟨⟨by simp, nodup_nil, rfl, Nat.zero_le _⟩, Pairwise.nil, by simp, nodup_nil⟩
  have hafter : After o hashKey ([] ++ calls) t := hempty.exec hkeys hrun
  rw [nil_append] at hafter
  exact ⟨hafter.linked, hafter.ordered, hafter.linked.evictsOldest hafter.ordered⟩

/-- A third entry comes while the cache has room for two. -/
def thirdCall : List (Call Nat) :=
  [.insert 7 ⟨0, 0⟩ ⟨0, 1⟩ (some 0), .insert 8 ⟨0, 2⟩ ⟨0, 3⟩ (some 1), .lookup 7 ⟨0, 4⟩,
    .insert 9 ⟨0, 5⟩ ⟨0, 6⟩ (some 2)]

/-- With room for two, the second of two insertions makes way for a third one after a lookup of the
first. -/
theorem linked_throughout_twoEntries :
    ∃ t, exec (Tcache.call twoEntries id) ⟨0, fun _ => [], [], id, fun _ => ⟨0, 0⟩⟩ thirdCall = some t ∧
      t.lruList = [0, 2] ∧ t.Linked twoEntries id ∧ t.Ordered [7, 8, 7, 9] ∧
      t.EvictsOldest twoEntries id [7, 8, 7, 9] :=
  ⟨_, rfl, rfl, linked_throughout twoEntries id id (fun _ => ⟨0, 0⟩) thirdCall (by decide) rfl⟩

end Tcache

end Pvfs.Common
