import Pvfs.Lib.Loop
import Mathlib.Data.List.DropRight

/-! # Strings (str-utils.c)

Paths are walked in place, lists are split at their commas, and a directory is removed from the
front of a path. A string is the list of its bytes without the NUL behind them, but for a path that
is walked: there each segment is cut off with a NUL where the slash behind it was, and the next call
puts the slash back. -/

namespace Pvfs.Common

open Lib List

/-- The byte that ends a string. -/
def nul : Char := '\x00'

/-- A string without `c` is one field; any other one is a field, `c` and the fields behind it. -/
theorem fields_induction {α : Type} (c : α) {P : List α → Prop} (hlast : ∀ s, c ∉ s → P s)
    (hnext : ∀ a b, c ∉ a → P b → P (a ++ c :: b)) (s : List α) : P s := by
  induction hn : s.length using Nat.strongRecOn generalizing s with
  | _ n ih =>
    by_cases hc : c ∈ s
    · obtain ⟨a, b, rfl, ha⟩ := eq_append_cons_of_mem hc
      subst hn
      exact hnext a b ha (ih _ (by simp; omega) b rfl)
    · exact hlast s hc

/-! ## Walking a path -/

/-- The bytes of the path and the two variables of the caller. -/
structure PathWalk where
  path : List Char
  segp : Option Nat
  opaquep : Option Nat

/-- A loop over the bytes from `ptr` on; `none` is a read behind them. -/
def scan (p : Char → Bool) : List Char → Nat → Option Nat
  | [], _ => none
  | c :: rest, ptr => if c ≠ nul ∧ p c then scan p rest (ptr + 1) else some ptr

/-- `PINT_string_next_segment` once the string is in its original state. -/
def nextFrom (w : PathWalk) (ptr : Nat) : Option (Int × PathWalk) :=
  (scan (· = '/') (w.path.drop ptr) ptr).bind fun start =>
    if w.path[start]? = some nul then some (-1, w)
    else (scan (· ≠ '/') (w.path.drop start) start).map fun stop =>
      if w.path[stop]? = some nul then (0, ⟨w.path, some start, none⟩)
      else (0, ⟨w.path.set stop nul, some start, some stop⟩)

/-- `PINT_string_next_segment`. -/
def stringNextSegment (w : PathWalk) : Option (Int × PathWalk) :=
  match w.segp, w.opaquep with
  | none, _ => nextFrom w 0
  | some _, some ptr => nextFrom { w with path := w.path.set ptr '/' } (ptr + 1)
  | some _, none => some (-1, w)

/-- The string that the segment pointer points to. -/
def PathWalk.segment (w : PathWalk) : List Char :=
  (w.path.drop (w.segp.getD 0)).takeWhile (· ≠ nul)

/-- A caller's loop that does `f` for each segment. -/
def walkBody {β : Type} (f : β → List Char → β) (st : PathWalk × β) :
    Option (Turn (PathWalk × β) (PathWalk × β)) :=
  (stringNextSegment st.1).map fun r =>
    if r.1 = 0 then .again (r.2, f st.2 r.2.segment) else .leave (r.2, st.2)

/-- `PINT_string_count_segments`, in which `segstate` is not set before the first call. -/
def stringCountSegments (pathname : List Char) (segstate : Option Nat) (fuel : Nat) : Option Nat :=
  (Lib.iterate (walkBody fun count _ => count + 1) fuel (⟨pathname, none, segstate⟩, 0)).map (·.2)

/-- The maximal parts of a path without a slash. -/
def pathSegments (s : List Char) : List (List Char) := (s.splitOn '/').filter (· ≠ [])

variable {x : Char} {pre a rest : List Char} {w : PathWalk}

theorem scan_eq {p : Char → Bool} (ha : ∀ c ∈ a, c ≠ nul ∧ p c) (hx : ¬ (x ≠ nul ∧ p x))
    (ptr : Nat) : scan p (a ++ x :: rest) ptr = some (ptr + a.length) := by
  induction a generalizing ptr with
  | nil => exact if_neg hx
  | cons c a ih =>
    rw [cons_append, scan, if_pos (ha c mem_cons_self), ih (forall_mem_of_forall_mem_cons ha)]
    simp
    omega

theorem set_behind (y : Char) :
    (pre ++ (a ++ x :: rest)).set (pre.length + a.length) y = pre ++ (a ++ y :: rest) := by
  rw [← append_assoc, ← length_append, set_append_right _ _ (Nat.le_refl _), Nat.sub_self,
    set_cons_zero, append_assoc]

theorem nextFrom_slash : nextFrom { w with path := pre ++ '/' :: rest } pre.length =
    nextFrom { w with path := pre ++ '/' :: rest } (pre.length + 1) := by
  have hdrop : (pre ++ '/' :: rest).drop (pre.length + 1) = rest := by simp [drop_append]
  simp only [nextFrom, drop_left, hdrop]
  rw [scan, if_pos ⟨by decide, by decide⟩]

theorem nextFrom_segment (ha : a ≠ []) (hnul : nul ∉ a) (hslash : '/' ∉ a)
    (hx : x = nul ∨ x = '/') :
    nextFrom { w with path := pre ++ (a ++ x :: rest) } pre.length =
      some (0, ⟨pre ++ (a ++ nul :: rest), some pre.length,
        if x = nul then none else some (pre.length + a.length)⟩) := by
  have hrun : ∀ c ∈ a, c ≠ nul ∧ decide (c ≠ '/') = true := fun c hc =>
    ⟨ne_of_mem_of_not_mem hc hnul, decide_eq_true (ne_of_mem_of_not_mem hc hslash)⟩
  have hstart : scan (· = '/') (a ++ x :: rest) pre.length = some pre.length ∧
      (pre ++ (a ++ x :: rest))[pre.length]? ≠ some nul := by
    obtain ⟨c, a, rfl⟩ := exists_cons_of_ne_nil ha
    obtain ⟨hc, hc'⟩ := hrun c mem_cons_self
    exact ⟨if_neg fun h => of_decide_eq_true hc' (of_decide_eq_true h.2), by simpa using hc⟩
  have hstop : scan (· ≠ '/') (a ++ x :: rest) pre.length = some (pre.length + a.length) :=
    scan_eq hrun (by rcases hx with rfl | rfl <;> decide) _
  have hend : (pre ++ (a ++ x :: rest))[pre.length + a.length]? = some x := by
    rw [← append_assoc, ← length_append, getElem?_append_right (Nat.le_refl _), Nat.sub_self]
    rfl
  simp only [nextFrom, drop_left, hstart.1, hstop, Option.bind_some, Option.map_some,
    if_neg hstart.2, hend, set_behind]
  by_cases hlast : x = nul <;> simp [hlast]

section
variable {β : Type} (f : β → List Char → β)

theorem walkBody_segment {acc : β} (ha : a ≠ []) (hnul : nul ∉ a) (hslash : '/' ∉ a)
    (hx : x = nul ∨ x = '/')
    (hw : stringNextSegment w = nextFrom { w with path := pre ++ (a ++ x :: rest) } pre.length) :
    walkBody f (w, acc) = some (.again (⟨pre ++ (a ++ nul :: rest), some pre.length,
      if x = nul then none else some (pre.length + a.length)⟩, f acc a)) := by
  have hseg : (a ++ nul :: rest).takeWhile (· ≠ nul) = a := by
    rw [takeWhile_append_of_pos fun c hc => decide_eq_true (ne_of_mem_of_not_mem hc hnul)]
    simp
  rw [walkBody, hw, nextFrom_segment ha hnul hslash hx]
  simp only [PathWalk.segment, Option.map_some, if_true, Option.getD_some, drop_left, hseg]

theorem walk_from (s : List Char) (hnul : nul ∉ s) (acc : β)
    (hw : stringNextSegment w = nextFrom { w with path := pre ++ (s ++ [nul]) } pre.length) :
    ∃ w', w'.path = pre ++ (s ++ [nul]) ∧
      Leaves (fun _ => walkBody f) (w, acc) (w', (pathSegments s).foldl f acc) := by
  induction s using fields_induction '/' generalizing pre w acc with
  | hlast s hslash =>
    rw [pathSegments, splitOn_eq_singleton hslash]
    by_cases hs : s = []
    · subst hs
      have hend : stringNextSegment w = some (-1, { w with path := pre ++ [nul] }) :=
        hw.trans (by simp [nextFrom, scan])
      exact ⟨_, rfl, .last (.always fun _ => by rw [walkBody, hend]; rfl)⟩
    · refine ⟨⟨pre ++ (s ++ [nul]), some pre.length, none⟩, rfl, .turn (.always fun _ =>
        walkBody_segment f hs hnul hslash (.inl rfl) hw) (.last (.always fun _ => ?_))⟩
      simp [hs, walkBody, stringNextSegment]
  | hnext a b hslash ih =>
    obtain ⟨hnula, hnulb⟩ : nul ∉ a ∧ nul ∉ b := by simp_all
    rw [pathSegments, splitOn_append_cons_self_of_not_mem hslash]
    by_cases ha : a = []
    · subst ha
      obtain ⟨w', hpath, hleaves⟩ := @ih (pre ++ ['/']) w hnulb acc
        (by simpa using hw.trans nextFrom_slash)
      exact ⟨w', by simpa using hpath, by simpa [pathSegments] using hleaves⟩
    · -- the next call puts the slash back
      obtain ⟨w', hpath, hleaves⟩ := @ih (pre ++ (a ++ ['/']))
        ⟨pre ++ (a ++ nul :: (b ++ [nul])), some pre.length, some (pre.length + a.length)⟩ hnulb
        (f acc a) (by simp only [stringNextSegment, set_behind]; simp [Nat.add_assoc])
      rw [append_assoc, cons_append] at hw
      refine ⟨w', by simpa using hpath, .turn (.always fun _ =>
        walkBody_segment f ha hnula hslash (.inr rfl) hw) ?_⟩
      simpa [ha, pathSegments, nul] using hleaves

end

/-- **A walk yields the segments in their order and leaves the path as it was**, and counting them
gives their number. -/
theorem stringNextSegment_walk {s : List Char} (hs : nul ∉ s) (segstate : Option Nat) :
    (∃ w, w.path = s ++ [nul] ∧ Returns (Lib.iterate (walkBody fun segs seg => segs ++ [seg]) ·
      (⟨s ++ [nul], none, segstate⟩, [])) (w, pathSegments s)) ∧
    Returns (stringCountSegments (s ++ [nul]) segstate) (pathSegments s).length := by
  have hwalk {β : Type} (f : β → List Char → β) (acc : β) :=
    @walk_from [] ⟨s ++ [nul], none, segstate⟩ β f s hs acc rfl
  constructor
  · obtain ⟨w, hpath, hleaves⟩ := hwalk (fun segs seg => segs ++ [seg]) []
    exact ⟨w, hpath, by simpa [← flatMap_def] using hleaves.returns⟩
  · obtain ⟨w, -, hleaves⟩ := hwalk (fun count _ => count + 1) 0
    refine hleaves.returns.map fun n hn => ?_
    rw [stringCountSegments, hn]
    simp

theorem stringNextSegment_walk_two : pathSegments ['/', 'a', '/', '/', 'b', '/'] = [['a'], ['b']] ∧
    Returns (stringCountSegments ['/', 'a', '/', '/', 'b', '/', nul] none) 2 :=
  ⟨by decide, (@stringNextSegment_walk ['/', 'a', '/', '/', 'b', '/'] (by decide) none).2⟩

/-! ## Lists of fields

Allocations succeed. -/

/-- `strchr`: the strings in front of the first `c` and behind it. -/
def strchr (c : Char) : List Char → Option (List Char × List Char)
  | [] => none
  | d :: s => if d = c then some ([], s) else (strchr c s).map fun r => (d :: r.1, r.2)

/-- The loop that copies the tokens; the holder is `none` behind the terminator, where it must not
be read. An empty field ends the loop (`true`). -/
def copyTokens : Nat → Option (List Char) → Option (List (List Char) × Bool)
  | 0, _ => some ([], false)
  | _ + 1, none => none
  | n + 1, some holder =>
    let (token, next) := match strchr ',' holder with
      | none => (holder, none)
      | some (token, next) => (token, some next)
    if token = [] then some ([], true)
    else (copyTokens n next).map fun r => (token :: r.1, r.2)

/-- `PINT_split_string_list`: what it returns and the tokens that are set. -/
def splitStringList (commaList : List Char) : Option (Nat × List (List Char)) :=
  let tokencount := commaList.count ',' + 1
  if tokencount = 1 then some (1, [commaList])
  else (copyTokens tokencount (some commaList)).map fun r =>
    (if r.2 then tokencount - 1 else tokencount, r.1)

/-- The loop that finds the keys and the values; `none` is one that breaks off. -/
def findKeyvals : Nat → Option (List Char) → Option (List (List Char × List Char))
  | 0, _ => some []
  | _ + 1, none => none
  | n + 1, some ptr =>
    (strchr ':' ptr).bind fun (key, val) =>
      match strchr ',' ptr with
      | none => (findKeyvals n none).map ((key, val) :: ·)
      | some (field, next) =>
        if field.length < key.length then none
        -- the value ends where the next turn writes a NUL
        else (findKeyvals n (some next)).map ((key, field.drop (key.length + 1)) :: ·)

/-- `PINT_split_keyvals`: `some none` is `-PVFS_EINVAL`. The first loop steps over a byte before it
looks for a comma, which for the empty string is its terminator (`none`). -/
def splitKeyvals : List Char → Option (Option (Nat × List (List Char × List Char)))
  | [] => none
  | c :: rest =>
    let nparams := rest.count ',' + 1
    some ((findKeyvals nparams (some (c :: rest))).bind fun kvs =>
      if ∃ kv ∈ kvs, ':' ∈ kv.1 ∨ ':' ∈ kv.2 then none else some (nparams, kvs))

/-- Every field is a key, a colon and a value. -/
def Keyvals (fields : List (List Char)) (kvs : List (List Char × List Char)) : Prop :=
  kvs.map (fun kv => kv.1 ++ ':' :: kv.2) = fields ∧ ∀ kv ∈ kvs, ':' ∉ kv.1

/-- What the two functions are for. -/
structure Splits (s : List Char) : Prop where
  list : ∃ tokens, splitStringList s = some (tokens.length, tokens) ∧
    tokens = (s.splitOn ',').filter (· ≠ [])
  keyvals : ∃ r, splitKeyvals s = some r ∧ ∀ n kvs, r = some (n, kvs) ↔
    n = kvs.length ∧ Keyvals (s.splitOn ',') kvs ∧ ∀ kv ∈ kvs, ':' ∉ kv.2

variable {c : Char} {s b : List Char} {kvs : List (List Char × List Char)} {n : Nat}

theorem strchr_append (ha : c ∉ a) :
    strchr c (a ++ b) = (strchr c b).map fun r => (a ++ r.1, r.2) := by
  induction a with
  | nil => simp
  | cons d a ih =>
    obtain ⟨hd, ha⟩ := not_or.mp (mt mem_cons.mpr ha)
    rw [cons_append, strchr, if_neg (Ne.symm hd), ih ha, Option.map_map]
    rfl

theorem strchr_eq_none (ha : c ∉ a) : strchr c a = none := by
  simpa [strchr] using @strchr_append a c [] ha

theorem strchr_field (ha : c ∉ a) : strchr c (a ++ c :: b) = some (a, b) := by
  simp [strchr_append ha, strchr]

theorem strchr_spec (h : strchr c s = some (a, b)) : s = a ++ c :: b ∧ c ∉ a := by
  by_cases hc : c ∈ s
  · obtain ⟨k, v, rfl, hk⟩ := eq_append_cons_of_mem hc
    cases (strchr_field hk).symm.trans h
    exact ⟨rfl, hk⟩
  · cases (strchr_eq_none hc).symm.trans h

theorem length_splitOn (s : List Char) : (s.splitOn ',').length = s.count ',' + 1 := by
  induction s using fields_induction ',' with
  | hlast s hs => rw [count_eq_zero_of_not_mem hs, splitOn_eq_singleton hs]; rfl
  | hnext a b ha ih =>
    rw [splitOn_append_cons_self_of_not_mem ha, count_append, count_eq_zero_of_not_mem ha,
      count_cons_self, Nat.zero_add, length_cons, ih]

theorem copyTokens_eq (s : List Char) : copyTokens (s.splitOn ',').length (some s) =
    some ((s.splitOn ',').takeWhile (· ≠ []), decide ([] ∈ s.splitOn ',')) := by
  induction s using fields_induction ',' with
  | hlast s hs =>
    rw [splitOn_eq_singleton hs]
    by_cases hnil : s = []
    · subst hnil
      rfl
    · simp [copyTokens, strchr_eq_none hs, hnil, Ne.symm hnil]
  | hnext a b ha ih =>
    rw [splitOn_append_cons_self_of_not_mem ha, length_cons, copyTokens, strchr_field ha]
    by_cases hnil : a = [] <;> simp [ih, hnil, eq_comm]

theorem tokens_iff (fs : List (List Char)) :
    ((if [] ∈ fs then fs.length - 1 else fs.length) = (fs.takeWhile (· ≠ [])).length ∧
      fs.takeWhile (· ≠ []) = fs.filter (· ≠ [])) ↔ ∀ f ∈ fs.dropLast, f ≠ [] := by
  have hfull (p : List (List Char)) (hp : [] ∉ p) : ∀ f ∈ p, decide (f ≠ []) = true := fun f hf =>
    decide_eq_true (ne_of_mem_of_not_mem hf hp)
  by_cases h : [] ∈ fs
  · obtain ⟨p, q, rfl, hp⟩ := eq_append_cons_of_mem h
    rw [if_pos h, takeWhile_append_of_pos (hfull p hp), takeWhile_cons_of_neg (by decide),
      append_nil, filter_append, filter_eq_self.mpr (hfull p hp)]
    cases q with
    | nil => simpa using fun f hf => ne_of_mem_of_not_mem hf hp
    | cons f q => simp
  · rw [if_neg h, takeWhile_eq_self_iff.mpr (hfull fs h), filter_eq_self.mpr (hfull fs h)]
    simpa using fun f hf => ne_of_mem_of_not_mem (dropLast_subset fs hf) h

theorem findKeyvals_field (ha : ',' ∉ a) :
    findKeyvals (n + 1) (some (a ++ ',' :: b)) =
      (strchr ':' a).bind fun kv => (findKeyvals n (some b)).map (kv :: ·) := by
  simp only [findKeyvals, strchr_field ha]
  by_cases hc : ':' ∈ a
  · obtain ⟨k, v, rfl, hk⟩ := eq_append_cons_of_mem hc
    rw [append_assoc, cons_append, strchr_field hk, strchr_field hk]
    have hdrop : (k ++ ':' :: v).drop (k.length + 1) = v := by simp
    rw [Option.bind_some, Option.bind_some, hdrop, if_neg (by simp)]
  · -- the colon, if there is one, is behind the comma
    rw [strchr_append hc, strchr_eq_none hc, strchr, if_neg (by decide)]
    cases strchr ':' b <;> simp

theorem keyvals_cons {field : List Char} {fields : List (List Char)}
    {found : Option (List (List Char × List Char))}
    (h : ∀ kvs, found = some kvs ↔ Keyvals fields kvs) (kvs) :
    ((strchr ':' field).bind fun kv => found.map (kv :: ·)) = some kvs ↔
      Keyvals (field :: fields) kvs := by
  rw [Option.bind_eq_some_iff]
  constructor
  · rintro ⟨⟨k, v⟩, hkv, hmap⟩
    obtain ⟨kvs', hfound, rfl⟩ := Option.map_eq_some_iff.mp hmap
    obtain ⟨rfl, hk⟩ := strchr_spec hkv
    obtain ⟨rfl, hrest⟩ := (h kvs').mp hfound
    exact ⟨rfl, forall_mem_cons.mpr ⟨hk, hrest⟩⟩
  · rintro ⟨hmap, hkeys⟩
    cases kvs with
    | nil => cases hmap
    | cons kv kvs =>
      obtain ⟨rfl, hrest⟩ := cons.inj hmap
      obtain ⟨hk, hkeys⟩ := forall_mem_cons.mp hkeys
      exact ⟨kv, strchr_field hk, by rw [(h kvs).mpr ⟨hrest, hkeys⟩]; rfl⟩

theorem findKeyvals_iff (s : List Char) : ∀ kvs,
    findKeyvals (s.splitOn ',').length (some s) = some kvs ↔ Keyvals (s.splitOn ',') kvs := by
  induction s using fields_induction ',' with
  | hlast s hs =>
    rw [splitOn_eq_singleton hs]
    simp only [length_singleton, findKeyvals, strchr_eq_none hs]
    exact keyvals_cons fun kvs => by cases kvs <;> simp [Keyvals]
  | hnext a b ha ih =>
    rw [splitOn_append_cons_self_of_not_mem ha, length_cons, findKeyvals_field ha]
    exact keyvals_cons ih

theorem splitKeyvals_iff : splitKeyvals (c :: rest) = some (some (n, kvs)) ↔
    n = kvs.length ∧ Keyvals ((c :: rest).splitOn ',') kvs ∧ ∀ kv ∈ kvs, ':' ∉ kv.2 := by
  rw [splitKeyvals, Option.some_inj, Option.bind_eq_some_iff]
  by_cases hc : c = ','
  · -- the first field is empty, which has no colon
    subst hc
    have hfirst : ∀ n, findKeyvals (n + 1) (some (',' :: rest)) = none := fun n =>
      @findKeyvals_field [] rest n (by decide)
    refine iff_of_false (by simp [hfirst]) fun h => ?_
    cases ((findKeyvals_iff _ _).mpr h.2.1).symm.trans (hfirst _)
  · rw [← count_cons_of_ne hc]
    simp only [← length_splitOn, findKeyvals_iff]
    constructor
    · rintro ⟨kvs', hkvs, hif⟩
      split at hif
      · cases hif
      next hcolon =>
        cases hif
        exact ⟨hkvs.1 ▸ length_map .., hkvs, fun kv hkv hc => hcolon ⟨kv, hkv, .inr hc⟩⟩
    · rintro ⟨rfl, hkvs, hvals⟩
      refine ⟨kvs, hkvs, ?_⟩
      rw [if_neg, ← hkvs.1, length_map]
      rintro ⟨kv, hkv, hk | hv⟩
      · exact hkvs.2 kv hkv hk
      · exact hvals kv hkv hv

theorem splitStringList_eq (hs : s ≠ []) : splitStringList s =
    some (if [] ∈ s.splitOn ',' then (s.splitOn ',').length - 1 else (s.splitOn ',').length,
      (s.splitOn ',').takeWhile (· ≠ [])) := by
  rw [splitStringList, ← length_splitOn, copyTokens_eq]
  by_cases hc : ',' ∈ s
  · have hcount : s.count ',' ≠ 0 := (count_pos_iff.mpr hc).ne'
    rw [if_neg (by rw [length_splitOn]; omega)]
    simp
  · rw [splitOn_eq_singleton hc]
    simp [hs, Ne.symm hs]

/-- **Both functions split a string as they should** exactly when it is not empty and no field but
the last is. -/
theorem splits_iff (s : List Char) :
    Splits s ↔ s ≠ [] ∧ ∀ field ∈ (s.splitOn ',').dropLast, field ≠ [] := by
  constructor
  · rintro ⟨⟨tokens, hl, htokens⟩, r, hr, -⟩
    have hs : s ≠ [] := by
      rintro rfl
      cases hr
    refine ⟨hs, (tokens_iff _).mp ?_⟩
    rw [splitStringList_eq hs, Option.some_inj, Prod.mk.injEq] at hl
    rw [hl.1, hl.2]
    exact ⟨rfl, htokens⟩
  · rintro ⟨hs, hfields⟩
    obtain ⟨hcount, hfilter⟩ := (tokens_iff _).mpr hfields
    refine ⟨⟨_, by rw [splitStringList_eq hs, hcount], hfilter⟩, ?_⟩
    obtain ⟨c, rest, rfl⟩ := exists_cons_of_ne_nil hs
    exact ⟨_, rfl, fun n kvs => Option.some_inj.symm.trans splitKeyvals_iff⟩

/-- Two tokens are reported and one is set. -/
theorem not_splits_hole : splitStringList ['a', ',', ',', 'b'] = some (2, [['a']]) ∧
    ¬ Splits ['a', ',', ',', 'b'] := by
  have hlist : splitStringList ['a', ',', ',', 'b'] = some (2, [['a']]) := by decide
  refine ⟨hlist, ?_⟩
  rintro ⟨⟨tokens, h, -⟩, -⟩
  obtain ⟨h, rfl⟩ := Prod.mk.inj (Option.some.inj (hlist.symm.trans h))
  cases h

/-! ## Removing a directory in front of a path -/

inductive DirPrefixError where
  | einval
  | enoent
  | enametoolong
deriving DecidableEq

/-- The loop that goes on while `pathname[1]` is a slash. -/
def skipSlashes : List Char → List Char
  | c :: d :: rest => if d = '/' then skipSlashes (d :: rest) else c :: d :: rest
  | s => s

/-- The loop over the slashes at the end. A directory of slashes alone makes it read the byte
`before` in front of them, and from a slash there it goes on into other memory (`none`). -/
def trimSlashes (before : Char) (dir : List Char) : Nat → Option Nat
  | 0 => if before = '/' then none else some 0
  | n + 1 => if dir[n]? = some '/' then trimSlashes before dir n else some (n + 1)

/-- Write a text to the front of a buffer; `none` is a write behind its end. -/
def store (out text : List Char) : Option (List Char) :=
  if text.length ≤ out.length then some (text ++ out.drop text.length) else none

/-- The tests for `-PVFS_ENOENT`; `len` bytes of the directory count. -/
def noEntry (path dir : List Char) (len : Nat) : Bool :=
  len ≠ 0 ∧ (len > path.length + 1 ∨ dir.take len ≠ path.take len ∨
    path[len]? ≠ some '/' ∧ path[len]? ≠ none)

/-- `PINT_remove_dir_prefix`, with the directory `dir` to be removed and a buffer `out` of
`out_max_len` bytes. -/
def removeDirPrefix (before : Char) (pathname dir out : List Char) :
    Option (Except DirPrefixError (List Char)) :=
  if out = [] ∨ pathname.head? ≠ some '/' ∨ dir.head? ≠ some '/' then some (.error .einval)
  else
    let path := skipSlashes pathname
    (trimSlashes before dir dir.length).bind fun len =>
      if noEntry path dir len then some (.error .enoent)
      else
        let rest := path.drop len
        if 1 + rest.length > out.length then some (.error .enametoolong)
        else (store out (if rest = [] then ['/', nul] else rest ++ [nul])).map .ok

/-- The path without the slashes that repeat its first one. -/
def collapsed (pathname : List Char) : List Char := '/' :: pathname.dropWhile (· = '/')

/-- The directory without the slashes at its end. -/
def trimmed (dir : List Char) : List Char := dir.rdropWhile (· = '/')

/-- What is to be left of the path, if it is the directory or continues it with a slash. -/
def Remains (pathname dir rest : List Char) : Prop :=
  collapsed pathname = trimmed dir ++ rest ∧ (rest = [] ∨ rest.head? = some '/')

/-- Nothing is written behind the buffer, and the call succeeds exactly when a rest remains and
fits, with the rest, or with a slash for nothing. -/
def RemovesDir (before : Char) (pathname dir out : List Char) : Prop :=
  ∃ r, removeDirPrefix before pathname dir out = some r ∧ ∀ out', r = .ok out' ↔
    ∃ rest text, Remains pathname dir rest ∧ text = (if rest = [] then ['/'] else rest) ∧
      text.length + 1 ≤ out.length ∧ out' = text ++ nul :: out.drop (text.length + 1)

variable {before : Char} {pathname dir out : List Char}

theorem skipSlashes_eq (h : pathname.head? = some '/') :
    skipSlashes pathname = collapsed pathname := by
  fun_induction skipSlashes pathname with
  | case1 c rest ih =>
    cases h
    rw [ih rfl]
    simp [collapsed]
  | case2 c d rest hd =>
    cases h
    simp [collapsed, hd]
  | case3 s hs =>
    rcases s with - | ⟨c, - | ⟨d, rest⟩⟩
    · cases h
    · cases h
      rfl
    · exact absurd rfl (hs c d rest)

theorem trimSlashes_eq (hn : n ≤ dir.length) :
    trimSlashes before dir n = if before = '/' ∧ trimmed (dir.take n) = [] then none
      else some (trimmed (dir.take n)).length := by
  unfold trimmed
  induction n with
  | zero => simp [trimSlashes]
  | succ n ih =>
    rw [trimSlashes, ih (by omega), ← take_append_getElem hn, rdropWhile_concat,
      getElem?_eq_getElem hn]
    by_cases h : dir[n] = '/'
    · simp [h]
    · have hdir : dir ≠ [] := fun hnil => by simp [hnil] at hn
      simp [h, hdir]
      omega

theorem remains_iff : Remains pathname dir rest ↔
    noEntry (collapsed pathname) dir (trimmed dir).length = false ∧
      rest = (collapsed pathname).drop (trimmed dir).length := by
  have hpath : (collapsed pathname).head? = some '/' := rfl
  have hcut : dir.take (trimmed dir).length = trimmed dir :=
    (prefix_iff_eq_take.mp ( rdropWhile_prefix ..)).symm
  simp only [Remains, noEntry, hcut, ← head?_drop, decide_eq_false_iff_not]
  generalize collapsed pathname = path at *
  generalize trimmed dir = cut
  constructor
  · rintro ⟨rfl, hrest⟩
    rw [drop_left, take_left, length_append]
    refine ⟨?_, rfl⟩
    rintro ⟨-, hlen | hne | ⟨hslash, hnone⟩⟩
    · omega
    · exact hne rfl
    · rcases hrest with rfl | hrest
      · exact hnone rfl
      · exact hslash hrest
  · rintro ⟨h, rfl⟩
    by_cases hnil : cut = []
    · subst hnil
      exact ⟨rfl, .inr hpath⟩
    · simp only [ne_eq, length_eq_zero_iff, hnil, not_false_eq_true, true_and, not_or, not_and,
        not_not] at h
      obtain ⟨-, htake, hnext⟩ := h
      refine ⟨((congrArg (· ++ _) htake).trans (take_append_drop ..)).symm, ?_⟩
      by_cases hslash : (path.drop cut.length).head? = some '/'
      · exact .inr hslash
      · exact .inl (head?_eq_none_iff.mp (hnext hslash))

/-- **The directory is removed as it should be** unless the loop over its slashes leaves it, or
nothing remains and the buffer has no room for a slash and a NUL. -/
theorem removesDir_iff (hpath : pathname.head? = some '/') (hdir : dir.head? = some '/')
    (hout : out ≠ []) :
    RemovesDir before pathname dir out ↔
      ((∃ c ∈ dir, c ≠ '/') ∨ before ≠ '/') ∧ ¬ (out.length = 1 ∧ Remains pathname dir []) := by
  have hbytes : (∃ c ∈ dir, c ≠ '/') ↔ trimmed dir ≠ [] := by simp [trimmed]
  have hlen := length_pos_iff.mpr hout
  simp only [RemovesDir, removeDirPrefix, remains_iff]
  rw [if_neg (by simp [hpath, hdir, hout]), skipSlashes_eq hpath, trimSlashes_eq (Nat.le_refl _),
    take_length, hbytes]
  by_cases hfault : before = '/' ∧ trimmed dir = []
  · simp [hfault]
  · rw [if_neg hfault, Option.bind_some]
    have hfine : trimmed dir ≠ [] ∨ before ≠ '/' := by tauto
    generalize (collapsed pathname).drop (trimmed dir).length = rest
    cases noEntry (collapsed pathname) dir (trimmed dir).length with
    | true => simp [hfine]
    | false =>
      simp only [hfine, true_and, Bool.false_eq_true, if_false]
      by_cases hrest : rest = []
      · subst hrest
        by_cases hone : out.length = 1
        · simp [store, hone]
        · have hroom : 2 ≤ out.length := by omega
          simp [store, hone, hroom, hout, eq_comm]
      · by_cases hroom : rest.length + 1 ≤ out.length
        · have hfits : ¬ 1 + rest.length > out.length := by omega
          simp [store, hrest, hroom, hfits, eq_comm]
        · have hlong : 1 + rest.length > out.length := by omega
          simp [hrest, hroom, hlong]

/-- Nothing remains, and the NUL is written behind a buffer of one byte. -/
theorem not_removesDir_one : ¬ RemovesDir nul ['/', 'a'] ['/', 'a'] [nul] := by
  rintro ⟨r, h, -⟩
  cases h

/-- The mount point is removed from a path below it. -/
theorem removesDir_mount : RemovesDir nul ['/', 'a', '/', 'b'] ['/', 'a', '/'] [nul, nul, nul] :=
  (removesDir_iff rfl rfl (by decide)).mpr
    ⟨.inl ⟨'a', by decide, by decide⟩, fun h => absurd h.1 (by decide)⟩

end Pvfs.Common
