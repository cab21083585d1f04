import Pvfs.Trove.EntryCount

/-! # Going on from a position again (dbpf-keyval.c, dbpf-keyval-pcache.c)

A position stands for the last entry returned, and what follows it does not change when it is
asked for. The position cache remembers the key of that entry; but
`dbpf_keyval_iterate_skip_to_position` gives the database the remembered key itself as the
place for the key it finds. Once the entry has been removed, that is another key, cut to the
length of the remembered one, and the next call from the same position goes on from there. Keys
are ordered by their lengths first, so a longer key that is cut may do no harm. A position that
is not in the cache is found by counting entries, from the first of them on. -/

namespace Pvfs.Trove

open Pvfs.Lib List

variable {V : Type}

/-- `dbpf_keyval_iterate_cursor_get` fills in the key up to the space available. -/
def copyKey (buffer key : List UInt8) : List UInt8 :=
  key.take buffer.length ++ buffer.drop key.length

/-- The remembered key after `dbpf_keyval_iterate_skip_to_position`. -/
def rememberedAfter [CursorCalls (KeyvalRecord V)] (db : KeyvalDb V) (handle : Nat) (key : List UInt8) : List UInt8 :=
  match cursorGet handle none (db.set handle key) with
  | (some r, _) => copyKey key r.key
  | (none, cur) =>
    match cursorGet handle cur (db.setRange handle key) with
    | (some r, _) => copyKey key r.key
    | (none, _) => key

def KeyvalDb.upto (db : KeyvalDb V) (handle : Nat) (key : List UInt8) : List (KeyvalRecord V) :=
  (db.named handle).filter fun r => r.before handle key || r.isAt handle key

/-- Two calls in a row return the same entries, those that follow the last one returned. -/
def GoesOn [CursorCalls (KeyvalRecord V)] (db : KeyvalDb V) (handle count pos : Nat) (last : List UInt8)
    (cached : Option (List UInt8)) : Prop :=
  (keyvalIterate db handle count pos cached).map Prod.snd = some ((db.later handle last).take count) ∧
    (keyvalIterate db handle count pos (cached.map (rememberedAfter db handle))).map Prod.snd =
      (keyvalIterate db handle count pos cached).map Prod.snd

/-- An entry comes after a key. -/
def KeyvalRecord.after (r : KeyvalRecord V) (handle : Nat) (key : List UInt8) : Bool :=
  !r.before handle key && !r.isAt handle key

/-- A removed entry does no harm where nothing follows it, or where the first entry that does has a
longer key, and no entry lies between the beginning of that key and the removed one. -/
def Unharmed (db : KeyvalDb V) (handle : Nat) (last : List UInt8) : Prop :=
  ∀ r ∈ (db.later handle last).head?, last.length < r.key.length ∧
    ∀ e ∈ db.named handle, e.before handle last = true →
      e.after handle (r.key.take last.length) = false

/-- With the position in the cache, the last entry returned is still stored, or its removal does no
harm. Without, there is one entry more up to the last one returned than have been returned, or
there is nothing to go on to, and the steps are made at all. -/
def Steady (db : KeyvalDb V) (handle pos : Nat) (last : List UInt8) (inCache : Bool) : Prop :=
  if inCache then db.here handle last ≠ [] ∨ Unharmed db handle last
  else pos % 2 ^ 32 ≠ iterateStart ∧
    ((db.upto handle last).length = pos % 2 ^ 32 + 1 ∨
      db.later handle last = [] ∧ (db.upto handle last).length ≤ pos % 2 ^ 32)

section
variable {db : KeyvalDb V} {handle : Nat}

theorem upto_append_later (key : List UInt8) :
    db.upto handle key ++ db.later handle key = db.named handle := by
  have hdown : (db.named handle).Pairwise fun a b =>
      (b.before handle key || b.isAt handle key) = true →
        (a.before handle key || a.isAt handle key) = true := by
    refine (db.sorted.filter _).imp fun {a b} hab hb => ?_
    rw [Bool.or_eq_true] at hb ⊢
    rcases hb with hb | hb
    · exact .inl (@KeyvalRecord.before_trans _ _ _ a b hab hb)
    · obtain ⟨rfl, rfl⟩ := of_decide_eq_true hb
      exact .inl hab
  rw [← filter_append_filter_not hdown, KeyvalDb.upto, KeyvalDb.later]
  simp only [Bool.not_or]

theorem later_eq_drop (key : List UInt8) :
    db.later handle key = (db.named handle).drop (db.upto handle key).length := by
  rw [← upto_append_later key, drop_left]

theorem drop_eq_of_take {α : Type} {l : List α} (hl : l.Nodup) {a b count : Nat} (hcount : 0 < count)
    (h : (l.drop a).take count = (l.drop b).take count) : l.drop a = l.drop b := by
  have hget : l[a]? = l[b]? := by
    have := congrArg head? h
    rwa [head?_take, head?_take, if_neg (Nat.ne_of_gt hcount), if_neg (Nat.ne_of_gt hcount),
      head?_drop, head?_drop] at this
  by_cases ha : a < l.length
  · rw [(getElem?_inj ha hl).mp hget]
  · rw [getElem?_eq_none (Nat.not_lt.mp ha)] at hget
    rw [drop_of_length_le (Nat.not_lt.mp ha), drop_of_length_le (getElem?_eq_none_iff.mp hget.symm)]

/-! ## What the first call leaves in the cache -/

theorem copyKey_self (key : List UInt8) : copyKey key key = key := by
  rw [copyKey, take_length, drop_length, append_nil]

theorem rememberedAfter_stored [CursorCalls (KeyvalRecord V)] {last : List UInt8} (h : db.here handle last ≠ []) :
    rememberedAfter db handle last = last := by
  obtain ⟨v, hhere⟩ := (@KeyvalDb.here_cases _ db handle last).resolve_left h
  rw [rememberedAfter, KeyvalDb.set_stored hhere]
  simp [cursorGet, copyKey_self]

theorem rememberedAfter_removed [CursorCalls (KeyvalRecord V)] {last : List UInt8} (h : db.here handle last = []) :
    rememberedAfter db handle last =
      ((db.later handle last).head?.map fun r => copyKey last r.key).getD last := by
  have hrange := @KeyvalDb.setRange_eq _ db handle last
  rw [h, nil_append, KeyvalDb.above_eq] at hrange
  rw [rememberedAfter, KeyvalDb.set_missing h, hrange]
  cases hlater : db.later handle last with
  | cons r rest =>
    have hr : r.handle = handle := KeyvalDb.later_ours r (hlater ▸ mem_cons_self)
    simp [cursorGet, seekFirst, hr]
  | nil =>
    -- what follows belongs to other handles
    cases hupper : db.upper handle with
    | nil => rfl
    | cons r rest =>
      have hr := db.upper_ne handle (r := r) (by simp [hupper])
      simp [cursorGet, seekFirst, hr]

variable {r e : KeyvalRecord V} {last : List UInt8}

theorem KeyvalRecord.after_iff (he : e.handle = handle) {key : List UInt8} :
    e.after handle key = true ↔ keyRank handle key < keyRank handle e.key := by
  rw [KeyvalRecord.after, Bool.and_eq_true, Bool.not_eq_true', ← Bool.not_eq_true, Bool.not_eq_true',
    ← Bool.not_eq_true, KeyvalRecord.before_iff, he, not_lt, KeyvalRecord.isAt, decide_eq_true_eq]
  refine ⟨fun h => lt_of_le_of_ne h.1 fun heq => h.2 ⟨he, (keyRank_inj heq).2.symm⟩, fun h => ?_⟩
  exact ⟨le_of_lt h, fun hat => absurd h (hat.2 ▸ lt_irrefl _)⟩

theorem keyRank_lt_of_length {k k' : List UInt8} (h : k.length < k'.length) :
    keyRank handle k < keyRank handle k' :=
  Prod.Lex.toLex_lt_toLex.mpr (.inr ⟨rfl, Prod.Lex.toLex_lt_toLex.mpr (.inl h)⟩)

theorem length_le_of_keyRank {k k' : List UInt8} (h : keyRank handle k ≤ keyRank handle k') :
    k.length ≤ k'.length :=
  Nat.not_lt.mp fun hlt => absurd h (not_le.mpr (keyRank_lt_of_length hlt))

theorem mem_later : e ∈ db.later handle last ↔ e ∈ db.named handle ∧ e.after handle last = true :=
  mem_filter

/-- The entries after a key come in the order of their keys. -/
theorem keyRank_le_of_later {rest : List (KeyvalRecord V)} (hlater : db.later handle last = r :: rest)
    (he : e ∈ db.later handle last) : keyRank handle r.key ≤ keyRank handle e.key := by
  have hsorted : (db.later handle last).Pairwise fun a b => a.before b.handle b.key = true :=
    (db.sorted.filter _).filter _
  have hr := KeyvalDb.later_ours r (hlater ▸ mem_cons_self)
  have hhandle := KeyvalDb.later_ours e he
  rw [hlater] at hsorted he
  rcases mem_cons.mp he with rfl | he
  · exact le_rfl
  · have hbefore := KeyvalRecord.before_iff.mp (rel_of_pairwise_cons hsorted he)
    rw [hr, hhandle] at hbefore
    exact le_of_lt hbefore

/-- When the key that is remembered leads on like the one that was. -/
theorem later_remembered_iff [CursorCalls (KeyvalRecord V)] (h : db.here handle last = []) :
    db.later handle (rememberedAfter db handle last) = db.later handle last ↔
      Unharmed db handle last := by
  rw [rememberedAfter_removed h, Unharmed]
  cases hlater : db.later handle last with
  | nil => simp [hlater]
  | cons r rest =>
    have hr : r ∈ db.later handle last := hlater ▸ mem_cons_self
    obtain ⟨hnamed, hafter⟩ := mem_later.mp hr
    have hours := (db.mem_named handle hnamed).1
    have hle := length_le_of_keyRank (le_of_lt ((KeyvalRecord.after_iff hours).mp hafter))
    have hcopy : copyKey last r.key = r.key.take last.length := by
      rw [copyKey, drop_of_length_le hle, append_nil]
    have hlen : (r.key.take last.length).length = last.length := by simpa using hle
    simp only [head?_cons, Option.map_some, Option.getD_some, Option.mem_some_iff, forall_eq', hcopy]
    constructor
    · intro heq
      have hkeep : ∀ e ∈ db.named handle,
          e.after handle (r.key.take last.length) = true ↔ e.after handle last = true := by
        intro e he
        have hmem : e ∈ db.later handle (r.key.take last.length) ↔ e ∈ db.later handle last := by
          rw [heq, hlater]
        simpa only [mem_later, he, true_and] using hmem
      refine ⟨Nat.lt_of_le_of_ne hle fun hsame => ?_, fun e he hbefore => ?_⟩
      · -- the key that was found fits, and the entry is not after itself
        have hself := (hkeep r hnamed).mpr hafter
        rw [hsame, take_length, KeyvalRecord.after_iff hours] at hself
        exact lt_irrefl _ hself
      · rw [← Bool.not_eq_true, hkeep e he, KeyvalRecord.after, hbefore]
        simp
    · rintro ⟨hlonger, hnone⟩
      rw [← hlater]
      refine filter_congr fun e he => ?_
      have hhandle := (db.mem_named handle he).1
      change e.after handle (r.key.take last.length) = e.after handle last
      by_cases hlast : e.after handle last = true
      · -- what follows the last entry is at least as long as the first entry that does
        have hrank := keyRank_le_of_later hlater (mem_later.mpr ⟨he, hlast⟩)
        rw [hlast, KeyvalRecord.after_iff hhandle]
        have hmore := length_le_of_keyRank hrank
        exact keyRank_lt_of_length (by omega)
      · rw [Bool.not_eq_true] at hlast
        rw [hlast]
        refine hnone e he ?_
        have hat : ¬ e.isAt handle last = true :=
          filter_eq_nil_iff.mp h e (mem_of_mem_filter he)
        simpa [KeyvalRecord.after, hat] using hlast

/-- **When an iteration can go on from a position twice.** -/
theorem goesOn_iff [CursorCalls (KeyvalRecord V)] {count pos : Nat} {cached : Option (List UInt8)}
    (hcount : 0 < count) (hstart : pos ≠ iterateStart)
    (hcached : ∀ key ∈ cached, key = last) :
    GoesOn db handle count pos last cached ↔ Steady db handle pos last cached.isSome := by
  have hnodup := db.named_nodup handle
  cases cached with
  | some key =>
    obtain rfl := hcached key rfl
    have hgoes : GoesOn db handle count pos key (some key) ↔
        db.later handle (rememberedAfter db handle key) = db.later handle key := by
      rw [GoesOn, Option.map_some, keyvalIterate_cached hcount hstart,
        keyvalIterate_cached hcount hstart]
      refine ⟨fun h => ?_, fun h => ⟨rfl, by rw [h]⟩⟩
      have h := Option.some.inj h.2
      rw [later_eq_drop, later_eq_drop key] at h ⊢
      exact drop_eq_of_take hnodup hcount h
    rw [hgoes, Steady, Option.isSome_some, if_pos rfl]
    by_cases hhere : db.here handle key = []
    · rw [later_remembered_iff hhere]
      exact (or_iff_right fun h => h hhere).symm
    · rw [rememberedAfter_stored hhere]
      exact iff_of_true rfl (.inl hhere)
  | none =>
    have hlen := congrArg length (@upto_append_later _ db handle last)
    rw [length_append] at hlen
    rw [GoesOn, Option.map_none, Steady, Option.isSome_none, if_neg Bool.false_ne_true]
    by_cases hstep : pos % 2 ^ 32 = iterateStart
    · rw [keyvalIterate_aborted hstart hstep]
      exact iff_of_false (fun h => nomatch h.1) fun h => h.1 hstep
    rw [keyvalIterate_stepped hcount hstep, and_iff_right hstep]
    constructor
    · rintro ⟨h, -⟩
      replace h := Option.some.inj h
      dsimp only at h
      rw [later_eq_drop] at h
      have hdrop := congrArg length (drop_eq_of_take hnodup hcount h)
      rw [length_drop, length_drop] at hdrop
      by_cases hone : (db.upto handle last).length = pos % 2 ^ 32 + 1
      · exact .inl hone
      · exact .inr ⟨length_eq_zero_iff.mp (by omega), by omega⟩
    · intro h
      refine ⟨congrArg some ?_, rfl⟩
      dsimp only
      rcases h with hone | ⟨hnil, hle⟩
      · rw [later_eq_drop, hone]
      · rw [hnil, length_nil] at hlen
        rw [hnil, drop_of_length_le (by omega)]

end

theorem goesOn_stored : threeEntries.here 7 [97] ≠ [] ∧ GoesOn threeEntries 7 2 1 [97] (some [97]) :=
  ⟨by decide, (goesOn_iff (by decide) (by decide) (by simp)).mpr (.inl (by decide))⟩

/-- The last entry returned had the key `[96]` and has been removed: the second call does not
return what the first one did. And where the cache has lost a position, an entry is missing. -/
theorem goesOn_breaks :
    (keyvalIterate threeEntries 7 1 1 (some [96]) = some (true, [⟨7, [97], ()⟩]) ∧
      keyvalIterate threeEntries 7 1 1 (some (rememberedAfter threeEntries 7 [96])) =
        some (true, [⟨7, [98], ()⟩])) ∧
    (threeEntries.later 7 [97]).take 1 = [⟨7, [98], ()⟩] ∧
      keyvalIterate threeEntries 7 1 1 none = some (true, [⟨7, [99], ()⟩]) :=
  ⟨⟨rfl, rfl⟩, rfl, rfl⟩

end Pvfs.Trove
