import Pvfs.Trove.AttrCache

/-! # What the attribute cache may be asked

Coherence is meant for the moments at which nothing is going on at a handle. Between the step on
the database and the step on the cache an element is behind, and somebody *owes* the cache a
step; the invariant is that an element that nobody owes anything is up to date.

It is not kept by every step. A record that was read from the database can be put into the
cache after another thread has changed or deleted it, a key is removed from the database alone,
and so is a key written as a binary one. `StoreState.Fresh` says of a step that it is none of
these. -/

namespace Pvfs.Trove

open Pvfs.Lib Option ServiceOp AttrOp

/-! ## Coherence -/

def AttrOp.handle : AttrOp → Handle
  | .get h _ | .insert h _ _ | .set h _ | .update h _ => h

def ServiceOp.handle : ServiceOp → Handle
  | .attr op => op.handle
  | .create h _ | .createPut h _ | .createInsert h _ | .remove h | .removeCached h
  | .removeKeyvals h | .read h _ _ | .write h _ _ _ _ | .writePut h _ _ _ _ | .writeInfo h _ _ _
  | .setData h _ _ | .removeKey h _ | .removeInfo h => h

def CachedKey (cache : Handle → Option CacheElem) (h : Handle) (key : String)
    (val : KeyvalData) : Prop :=
  ∃ e, cache h = some e ∧ e.keyvalPairs key = some val

namespace StoreState

/-- An operation on the handle is under way. -/
def InProgress (s : StoreState) (h : Handle) : Prop :=
  (∃ op, s.service = some op ∧ op.handle = h) ∨ ∃ op, s.callback = some op ∧ op.handle = h

/-- The cache has nothing that the databases do not have. -/
def Coherent (s : StoreState) (h : Handle) : Prop :=
  (∀ e, s.cache h = some e → s.ds h = some e.attr) ∧
    ∀ key val, CachedKey s.cache h key val → s.keyval h key = some val

def CoherentAtRest (s : StoreState) : Prop :=
  ∀ h, ¬ s.InProgress h → s.Coherent h

end StoreState

/-! ## The condition on a step -/

/-- What is about to be put into the cache is in the database. -/
def AttrOp.Fresh (s : StoreState) : AttrOp → Prop
  | .insert h a _ => s.ds h = some a
  | .update h a => (s.cache h).isSome = true → s.ds h = some a
  | _ => True

/-- In addition, a key that is removed is not cached, and neither is one that is overwritten as a
binary key, unless with the same value. -/
def ServiceOp.Fresh (s : StoreState) : ServiceOp → Prop
  | .attr op => op.Fresh s
  | .createInsert h a => s.ds h = some a
  | .writePut h key val _ true => ∀ val', CachedKey s.cache h key val' → val' = val
  | .removeKey h key => ∀ val', ¬ CachedKey s.cache h key val'
  | _ => True

/-- The condition on an event, in the state before it. -/
def StoreState.Fresh (s : StoreState) : CacheEvent → Prop
  | .service _ _ => ∀ op, s.service = some op → op.Fresh s
  | .size _ _ => ∀ op, s.callback = some op → op.Fresh s
  | _ => True

/-! ## The records -/

def AttrOp.Owes (h : Handle) : AttrOp → Prop
  | .update h' _ => h' = h
  | _ => False

def ServiceOp.Owes (h : Handle) : ServiceOp → Prop
  | .attr op => op.Owes h
  | .createInsert h' _ | .removeCached h' => h' = h
  | _ => False

variable {h : Handle}

theorem AttrOp.Owes.handle_eq {op : AttrOp} (ho : op.Owes h) : op.handle = h := by
  cases op with
  | update h' a => exact ho
  | _ => exact ho.elim

variable {op : ServiceOp}

theorem ServiceOp.Owes.handle_eq (ho : op.Owes h) : op.handle = h := by
  cases op with
  | attr op => exact AttrOp.Owes.handle_eq ho
  | createInsert | removeCached => exact ho
  | _ => exact ho.elim

def RecordsOk (ds : Handle → Option DsAttributes) (cache : Handle → Option CacheElem)
    (owed : Handle → Prop) : Prop :=
  ∀ h e, cache h = some e → ds h = some e.attr ∨ owed h

section
variable {ds : Handle → Option DsAttributes} {cache : Handle → Option CacheElem}
  {owed owed' own : Handle → Prop} {h : Handle} {a : DsAttributes}

theorem RecordsOk.mono (hok : RecordsOk ds cache owed) (hle : ∀ h, owed h → owed' h) :
    RecordsOk ds cache owed' := by
  intro h e he
  exact (hok h e he).imp_right (hle h)

theorem RecordsOk.other (hok : RecordsOk ds cache fun h => own h ∨ owed h) (hown : ∀ h, ¬ own h) :
    RecordsOk ds cache owed :=
  hok.mono fun h ho => ho.resolve_left (hown h)

theorem RecordsOk.setDs (hok : RecordsOk ds cache owed) (h : Handle) (a : Option DsAttributes) :
    RecordsOk (setDs ds h a) cache fun h' => h = h' ∨ owed h' := by
  intro h' e he
  by_cases hh : h' = h
  · exact .inr (.inl hh.symm)
  · rw [Trove.setDs, if_neg hh]
    exact (hok h' e he).imp_right .inr

section
variable (hok : RecordsOk ds cache fun h' => h = h' ∨ owed h')
include hok

theorem RecordsOk.insertElem (hfresh : ds h = some a) (victim : Option Handle) :
    RecordsOk ds (insertElem cache h a victim) owed := by
  intro h' e he
  rw [Trove.insertElem] at he
  by_cases hh : h' = h
  · rw [if_pos hh] at he
    cases he
    rw [hh]
    exact .inl hfresh
  · rw [if_neg hh] at he
    split at he
    · cases he
    · exact (hok h' e he).imp_right fun ho => ho.resolve_left fun hh' => hh hh'.symm

theorem RecordsOk.updateElem (hfresh : (cache h).isSome = true → ds h = some a) :
    RecordsOk ds (updateElem cache h a) owed := by
  intro h' e he
  rw [Trove.updateElem] at he
  by_cases hh : h' = h
  · subst hh
    rw [if_pos rfl] at he
    obtain ⟨e0, he0, rfl⟩ := map_eq_some_iff.mp he
    exact .inl (hfresh (by rw [he0]; rfl))
  · rw [if_neg hh] at he
    refine (hok h' e he).imp_right fun ho => ?_
    exact ho.resolve_left fun hh' => hh hh'.symm

theorem RecordsOk.removeElem : RecordsOk ds (removeElem cache h) owed := by
  intro h' e he
  rw [Trove.removeElem] at he
  by_cases hh : h' = h
  · rw [if_pos hh] at he
    cases he
  · rw [if_neg hh] at he
    refine (hok h' e he).imp_right fun ho => ?_
    exact ho.resolve_left fun hh' => hh hh'.symm

end

theorem RecordsOk.setElemData (hok : RecordsOk ds cache owed) (keywords : List String) (h : Handle)
    (key : String) (val : KeyvalData) :
    RecordsOk ds (setElemData keywords cache h key val) owed := by
  intro h' e he
  rw [Trove.setElemData] at he
  split at he
  · obtain ⟨e0, he0, rfl⟩ := map_eq_some_iff.mp he
    exact hok h' e0 he0
  · exact hok h' e he

end

def AttrOp.owed (op : Option AttrOp) (h : Handle) : Prop :=
  ∃ o, op = some o ∧ o.Owes h

def ServiceOp.owed (op : Option ServiceOp) (h : Handle) : Prop :=
  ∃ o, op = some o ∧ o.Owes h

variable {s : StoreState}

theorem AttrOp.run_recordsOk {op : AttrOp} {owed : Handle → Prop}
    (hok : RecordsOk s.ds s.cache fun h => op.Owes h ∨ owed h) (hfresh : op.Fresh s) (ok : Bool)
    (victim : Option Handle) :
    RecordsOk (op.run s ok victim).1.ds (op.run s ok victim).1.cache
      fun h => AttrOp.owed (op.run s ok victim).2 h ∨ owed h := by
  cases op with
  | get h after =>
    rw [run]
    cases s.ds h <;> exact (hok.other fun _ => id).mono fun _ => .inr
  | insert h a after =>
    have hins := RecordsOk.insertElem ((hok.other fun _ => id).mono fun _ => .inr) hfresh victim
    exact hins.mono fun _ => .inr
  | set h a =>
    have hok' := hok.other fun _ => id
    cases ok with
    | false => exact hok'.mono fun _ => .inr
    | true =>
      refine (hok'.setDs h (some a)).mono fun h' ho => ho.imp_left fun hh => ?_
      exact ⟨_, rfl, hh⟩
  | update h a => exact (RecordsOk.updateElem hok hfresh).mono fun _ => .inr

/-- A step pays what it owes for attributes, or comes to owe it. -/
theorem ServiceOp.run_recordsOk {owed : Handle → Prop} (keywords : List String)
    (hok : RecordsOk s.ds s.cache fun h => op.Owes h ∨ owed h) (hfresh : op.Fresh s) (ok : Bool)
    (victim : Option Handle) :
    RecordsOk (op.run keywords s ok victim).1.ds (op.run keywords s ok victim).1.cache
      fun h => ServiceOp.owed (op.run keywords s ok victim).2 h ∨ owed h := by
  cases op with
  | attr op =>
    refine (run_recordsOk hok hfresh ok victim).mono fun h ho => ho.imp_left ?_
    rintro ⟨o, ho, hw⟩
    exact ⟨.attr o, map_eq_some_iff.mpr ⟨o, ho, rfl⟩, hw⟩
  | createInsert h a => exact (RecordsOk.insertElem hok hfresh victim).mono fun _ => .inr
  | removeCached h => exact (RecordsOk.removeElem hok).mono fun _ => .inr
  | createPut h type =>
    have hok' := hok.other fun _ => id
    cases ok with
    | false => exact hok'.mono fun _ => .inr
    | true =>
      refine (hok'.setDs h (some ⟨type, 0⟩)).mono fun h' ho => ho.imp_left fun hh => ?_
      exact ⟨_, rfl, hh⟩
  | remove h =>
    have hok' := hok.other fun _ => id
    rw [run]
    split
    · refine (hok'.setDs h none).mono fun h' ho => ho.imp_left fun hh => ?_
      exact ⟨_, rfl, hh⟩
    · exact hok'.mono fun _ => .inr
  | setData h key val =>
    exact ((hok.other fun _ => id).setElemData keywords h key val).mono fun _ => .inr
  | create h type | removeKeyvals h | writeInfo h key val binary | removeInfo h =>
    exact (hok.other fun _ => id).mono fun _ => .inr
  | read h key binary | writePut h key val noOverwrite binary | removeKey h key =>
    rw [run]
    split <;> exact (hok.other fun _ => id).mono fun _ => .inr
  | write h key val mode binary =>
    cases mode <;> exact (hok.other fun _ => id).mono fun _ => .inr

/-! ## The values of keys -/

def ServiceOp.wrote : ServiceOp → Option (Handle × String × KeyvalData)
  | .writeInfo h key val _ | .setData h key val => some (h, key, val)
  | _ => none

def ServiceOp.quiet : ServiceOp → Bool
  | .writeInfo _ _ _ _ | .setData _ _ _ | .removeKeyvals _ => false
  | _ => true

/-- The cached values are stored, but for what is being changed. -/
structure KeyvalsOk (keywords : List String) (keyval : Handle → String → Option KeyvalData)
    (cache : Handle → Option CacheElem) (op : Option ServiceOp) : Prop where
  stored : ∀ h key val, CachedKey cache h key val →
    keyval h key = some val ∨ ∃ v, op = some (.setData h key v)
  keyword : ∀ h key val, CachedKey cache h key val → key ∈ keywords
  wrote : ∀ o h key val, op = some o → o.wrote = some (h, key, val) → keyval h key = some val
  removing : ∀ h, op = some (.removeKeyvals h) → ∀ key val, ¬ CachedKey cache h key val

def KeysShrink (cache' cache : Handle → Option CacheElem) : Prop :=
  ∀ h key val, CachedKey cache' h key val → CachedKey cache h key val

section
variable (cache : Handle → Option CacheElem) (h : Handle)

theorem insertElem_keysShrink (a : DsAttributes) (victim : Option Handle) :
    KeysShrink (insertElem cache h a victim) cache := by
  rintro h' key val ⟨e, he, hval⟩
  rw [insertElem] at he
  split at he
  · cases he
    cases hval
  · split at he
    · cases he
    · exact ⟨e, he, hval⟩

theorem updateElem_keysShrink (a : DsAttributes) : KeysShrink (updateElem cache h a) cache := by
  rintro h' key val ⟨e, he, hval⟩
  rw [updateElem] at he
  split at he
  · obtain ⟨e0, he0, rfl⟩ := map_eq_some_iff.mp he
    exact ⟨e0, he0, hval⟩
  · exact ⟨e, he, hval⟩

theorem removeElem_keysShrink : KeysShrink (removeElem cache h) cache := by
  rintro h' key val ⟨e, he, hval⟩
  rw [removeElem] at he
  split at he
  · cases he
  · exact ⟨e, he, hval⟩

theorem not_cachedKey_removeElem (key : String) (val : KeyvalData) :
    ¬ CachedKey (removeElem cache h) h key val := by
  rintro ⟨e, he, -⟩
  rw [removeElem, if_pos rfl] at he
  cases he

end

variable {val : KeyvalData} {key : String}
variable {keywords : List String}

theorem cachedKey_setElemData {cache : Handle → Option CacheElem} {h' : Handle} {key' : String}
    {val' : KeyvalData} (hc : CachedKey (setElemData keywords cache h key val) h' key' val') :
    (h' = h ∧ key' = key ∧ val' = val ∧ key ∈ keywords) ∨
      (¬ (h' = h ∧ key' = key ∧ key ∈ keywords) ∧ CachedKey cache h' key' val') := by
  obtain ⟨e, he, hval⟩ := hc
  rw [setElemData] at he
  split at he
  · rename_i hh
    obtain ⟨e0, he0, rfl⟩ := map_eq_some_iff.mp he
    replace hval : (if key' = key then some val else e0.keyvalPairs key') = some val' := hval
    by_cases hkey : key' = key
    · rw [if_pos hkey] at hval
      cases hval
      exact .inl ⟨hh.1, hkey, rfl, hh.2⟩
    · rw [if_neg hkey] at hval
      exact .inr ⟨fun hc => hkey hc.2.1, e0, he0, hval⟩
  · rename_i hh
    exact .inr ⟨fun hc => hh ⟨hc.1, hc.2.2⟩, e, he, hval⟩

section
variable {keywords : List String} {keyval : Handle → String → Option KeyvalData}
  {cache cache' : Handle → Option CacheElem}

theorem KeyvalsOk.shrink {op : Option ServiceOp} (hok : KeyvalsOk keywords keyval cache op)
    (hs : KeysShrink cache' cache) : KeyvalsOk keywords keyval cache' op where
  stored h key val hc := hok.stored h key val (hs h key val hc)
  keyword h key val hc := hok.keyword h key val (hs h key val hc)
  wrote := hok.wrote
  removing h hop key val hc := hok.removing h hop key val (hs h key val hc)

theorem KeyvalsOk.eq_stored (hok : KeyvalsOk keywords keyval cache none)
    (hc : CachedKey cache h key val) : keyval h key = some val := by
  refine (hok.stored h key val hc).resolve_right ?_
  rintro ⟨v, hv⟩
  cases hv

theorem KeyvalsOk.settled (hok : KeyvalsOk keywords keyval cache (some op))
    (hop : ∀ h key val, op ≠ .setData h key val) : KeyvalsOk keywords keyval cache none where
  stored h key val hc := by
    refine .inl ((hok.stored h key val hc).resolve_right ?_)
    rintro ⟨v, hv⟩
    exact hop h key v (Option.some.inj hv)
  keyword := hok.keyword
  wrote o h key val ho := by cases ho
  removing h ho := by cases ho

section
variable (hok : KeyvalsOk keywords keyval cache none)
include hok

theorem KeyvalsOk.goOn {op : Option ServiceOp} (hquiet : ∀ o ∈ op, o.quiet = true) :
    KeyvalsOk keywords keyval cache op where
  stored h key val hc := .inl (hok.eq_stored hc)
  keyword := hok.keyword
  wrote o h key val ho hw := by
    have hq := hquiet o ho
    cases o with
    | writeInfo | setData => cases hq
    | _ => cases hw
  removing h ho := absurd (hquiet _ ho) Bool.noConfusion

theorem KeyvalsOk.goOnQuiet (hquiet : op.quiet = true) : KeyvalsOk keywords keyval cache (some op) :=
  hok.goOn fun _ ho => Option.some.inj ho ▸ hquiet

theorem KeyvalsOk.goOnWith (hop : op.wrote = some (h, key, val)) (hval : keyval h key = some val) :
    KeyvalsOk keywords keyval cache (some op) where
  stored h' key' val' hc := .inl (hok.eq_stored hc)
  keyword := hok.keyword
  wrote o h' key' val' ho hw := by
    cases ho
    rw [hop] at hw
    cases hw
    exact hval
  removing h' ho := by
    cases ho
    cases hop

end

theorem setKeyval_same (h : Handle) (key : String) (val : Option KeyvalData) :
    setKeyval keyval h key val h key = val := if_pos ⟨rfl, rfl⟩

theorem KeyvalsOk.setKeyval (hok : KeyvalsOk keywords keyval cache none) {val : Option KeyvalData}
    (hval : ∀ val', CachedKey cache h key val' → val = some val') :
    KeyvalsOk keywords (setKeyval keyval h key val) cache none where
  stored h' key' val' hc := by
    refine .inl ?_
    by_cases hh : h' = h ∧ key' = key
    · obtain ⟨rfl, rfl⟩ := hh
      rw [setKeyval_same, hval val' hc]
    · rw [Trove.setKeyval, if_neg hh]
      exact hok.eq_stored hc
  keyword := hok.keyword
  wrote o h' key' val' ho := by cases ho
  removing h' ho := by cases ho

theorem KeyvalsOk.setKeyval_setData (hok : KeyvalsOk keywords keyval cache none) (h : Handle)
    (key : String) (val : KeyvalData) :
    KeyvalsOk keywords (Trove.setKeyval keyval h key (some val)) cache
      (some (.setData h key val)) where
  stored h' key' val' hc := by
    by_cases hh : h' = h ∧ key' = key
    · obtain ⟨rfl, rfl⟩ := hh
      exact .inr ⟨val, rfl⟩
    · rw [Trove.setKeyval, if_neg hh]
      exact .inl (hok.eq_stored hc)
  keyword := hok.keyword
  wrote o h' key' val' ho hw := by
    cases ho
    cases hw
    exact setKeyval_same h key (some val)
  removing h' ho := by cases ho

theorem KeyvalsOk.setElemData (hok : KeyvalsOk keywords keyval cache (some (.setData h key val))) :
    KeyvalsOk keywords keyval (setElemData keywords cache h key val) none where
  stored h' key' val' hc := by
    refine .inl ?_
    rcases cachedKey_setElemData hc with ⟨rfl, rfl, rfl, -⟩ | ⟨hother, hc'⟩
    · exact hok.wrote _ h' key' val' rfl rfl
    · refine (hok.stored h' key' val' hc').resolve_right ?_
      rintro ⟨v, hv⟩
      cases hv
      exact hother ⟨rfl, rfl, hok.keyword h key val' hc'⟩
  keyword h' key' val' hc := by
    rcases cachedKey_setElemData hc with ⟨rfl, rfl, rfl, hkey⟩ | ⟨-, hc'⟩
    · exact hkey
    · exact hok.keyword h' key' val' hc'
  wrote o h' key' val' ho := by cases ho
  removing h' ho := by cases ho

end

theorem AttrOp.run_keyvals (s : StoreState) (op : AttrOp) (ok : Bool) (victim : Option Handle) :
    (op.run s ok victim).1.keyval = s.keyval ∧
      KeysShrink (op.run s ok victim).1.cache s.cache := by
  have hsame : KeysShrink s.cache s.cache := fun _ _ _ hc => hc
  cases op with
  | get h after =>
    rw [run]
    cases s.ds h <;> exact ⟨rfl, hsame⟩
  | insert h a after => exact ⟨rfl, insertElem_keysShrink s.cache h a victim⟩
  | set h a => cases ok <;> exact ⟨rfl, hsame⟩
  | update h a => exact ⟨rfl, updateElem_keysShrink s.cache h a⟩

/-- The same for key/value data. -/
theorem ServiceOp.run_keyvalsOk (hok : KeyvalsOk keywords s.keyval s.cache (some op))
    (hfresh : op.Fresh s) (ok : Bool) (victim : Option Handle) :
    KeyvalsOk keywords (op.run keywords s ok victim).1.keyval
      (op.run keywords s ok victim).1.cache (op.run keywords s ok victim).2 := by
  by_cases hdata : ∃ h key val, op = .setData h key val
  · obtain ⟨h, key, val, rfl⟩ := hdata
    exact hok.setElemData
  -- in front of any other step every cached value is the stored one
  have hset := hok.settled fun h key val hop => hdata ⟨h, key, val, hop⟩
  cases op with
  | attr op =>
    obtain ⟨hkeyval, hshrink⟩ := run_keyvals s op ok victim
    have hkeep := hset.shrink hshrink
    rw [← hkeyval] at hkeep
    refine hkeep.goOn fun o ho => ?_
    obtain ⟨o', -, rfl⟩ := map_eq_some_iff.mp ho
    rfl
  | create h type | createPut h type | remove h =>
    rw [run]
    split
    · exact hset.goOnQuiet rfl
    · exact hset
  | createInsert h a =>
    exact hset.shrink (insertElem_keysShrink s.cache h a victim)
  | removeCached h =>
    have hkeep := hset.shrink (removeElem_keysShrink s.cache h)
    refine ⟨fun h' key val hc => .inl (hkeep.eq_stored hc), hkeep.keyword, ?_, ?_⟩
    · intro o h' key val ho hw
      cases ho
      cases hw
    · intro h' ho key val
      cases ho
      exact not_cachedKey_removeElem s.cache h key val
  | read h key binary =>
    rw [run]
    split
    · rename_i val hval
      split
      · exact hset.goOnWith rfl hval
      · exact hset
    · exact hset
  | write h key val mode binary =>
    cases mode with
    | plain | noOverwrite => exact hset.goOnQuiet rfl
    | onlyOverwrite =>
      rw [run]
      split
      · exact hset.goOnQuiet rfl
      · exact hset
  | writePut h key val noOverwrite binary =>
    rw [run]
    split
    · rename_i hput
      have hsame : setKeyval s.keyval h key (some val) h key = some val :=
        setKeyval_same h key (some val)
      cases noOverwrite with
      | true =>
        -- the key was not stored, so it was not cached either
        have hnone : ok = true ∧ s.keyval h key = none := by
          simpa using hput
        refine KeyvalsOk.goOnWith (hset.setKeyval fun val' hc => ?_) rfl hsame
        exact absurd ((hset.eq_stored hc).symm.trans hnone.2) (some_ne_none _)
      | false =>
        cases binary with
        | true =>
          refine hset.setKeyval fun val' hc => ?_
          rw [hfresh val' hc]
        | false => exact hset.setKeyval_setData h key val
    · exact hset
  | writeInfo h key val binary =>
    have hval : s.keyval h key = some val := hok.wrote _ h key val rfl rfl
    rw [run]
    split
    · exact hset.goOnWith rfl hval
    · exact hset
  | setData h key val => exact absurd ⟨h, key, val, rfl⟩ hdata
  | removeKey h key =>
    rw [run]
    split
    · have hdel : KeyvalsOk keywords (setKeyval s.keyval h key none) s.cache none :=
        hset.setKeyval fun val' hc => absurd hc (hfresh val')
      exact hdel.goOnQuiet rfl
    · exact hset
  | removeKeyvals h | removeInfo h => exact hset

/-! ## Runs -/

theorem AttrOp.run_threads (s : StoreState) (op : AttrOp) (ok : Bool) (victim : Option Handle) :
    (op.run s ok victim).1.service = s.service ∧
      (op.run s ok victim).1.callback = s.callback := by
  cases op with
  | get h after =>
    rw [run]
    cases s.ds h <;> exact ⟨rfl, rfl⟩
  | set h a => cases ok <;> exact ⟨rfl, rfl⟩
  | insert | update => exact ⟨rfl, rfl⟩

theorem ServiceOp.run_callback (keywords : List String) (s : StoreState) (op : ServiceOp)
    (ok : Bool) (victim : Option Handle) :
    (op.run keywords s ok victim).1.callback = s.callback := by
  cases op with
  | attr op => exact (run_threads s op ok victim).2
  | write h key val mode binary => cases mode <;> rfl
  | createPut h type | remove h | read h key binary | writePut h key val noOverwrite binary
    | removeKey h key =>
    rw [run]
    split <;> rfl
  | _ => rfl

theorem ServiceOp.initial_quiet (hop : op.initial = true) : op.quiet = true := by
  cases op with
  | writeInfo | setData | removeKeyvals => cases hop
  | _ => rfl

namespace StoreState

/-- The invariant: the cache is right but for what it is owed. -/
structure Inv (keywords : List String) (s : StoreState) : Prop where
  records : RecordsOk s.ds s.cache fun h =>
    owed s.service h ∨ owed s.callback h
  keyvals : KeyvalsOk keywords s.keyval s.cache s.service

theorem init_inv (keywords : List String) : Inv keywords init where
  records h e he := by cases he
  keyvals :=
    { stored := fun h key val ⟨_, he, _⟩ => by cases he
      keyword := fun h key val ⟨_, he, _⟩ => by cases he
      wrote := fun o h key val ho => by cases ho
      removing := fun h ho => by cases ho }

theorem step_inv {s' : StoreState} {e : CacheEvent} (hinv : Inv keywords s) (hfresh : s.Fresh e)
    (hstep : step keywords s e = some s') : Inv keywords s' := by
  obtain ⟨hrec, hkv⟩ := hinv
  cases e with
  | begin op =>
    rw [step] at hstep
    split at hstep
    · rename_i hbegin
      cases hstep
      rw [hbegin.1] at hrec hkv
      refine ⟨hrec.mono fun h ho => .inr (ho.resolve_left ?_),
        hkv.goOnQuiet (initial_quiet hbegin.2.1)⟩
      rintro ⟨o, ho, -⟩
      cases ho
    · cases hstep
  | service ok victim =>
    obtain ⟨op, hop, rfl⟩ := map_eq_some_iff.mp hstep
    rw [hop] at hrec hkv
    have hrec' : RecordsOk s.ds s.cache fun h => op.Owes h ∨ owed s.callback h := by
      refine hrec.mono fun h ho => ho.imp_left ?_
      rintro ⟨o, ho, hw⟩
      cases ho
      exact hw
    refine ⟨?_, run_keyvalsOk hkv (hfresh op hop) ok victim⟩
    have hrun := run_recordsOk keywords hrec' (hfresh op hop) ok victim
    rw [← run_callback keywords s op ok victim] at hrun
    exact hrun
  | deleteKeyval key =>
    rw [step] at hstep
    split at hstep
    · rename_i h hop
      cases hstep
      refine ⟨hrec, ?_⟩
      have hnone := hkv.removing h hop
      rw [hop] at hkv
      have hset := hkv.settled fun h key val hc => by cases hc
      have hdel : KeyvalsOk keywords (setKeyval s.keyval h key none) s.cache none :=
        hset.setKeyval fun val' hc => absurd hc (hnone key val')
      refine ⟨fun h' key' val' hc => .inl (hdel.eq_stored hc), hdel.keyword, ?_, ?_⟩
      · intro o h' key' val' ho hw
        rw [show s.service = some o from ho] at hop
        cases hop
        cases hw
      · intro h' ho
        rw [show s.service = _ from ho] at hop
        cases hop
        exact hnone
    · cases hstep
  | beginSize h eor =>
    rw [step] at hstep
    split at hstep
    · rename_i hbegin
      cases hstep
      rw [hbegin.1] at hrec
      refine ⟨hrec.mono fun h ho => .inl (ho.resolve_right ?_), hkv⟩
      rintro ⟨o, ho, -⟩
      cases ho
    · cases hstep
  | size ok victim =>
    obtain ⟨op, hop, rfl⟩ := map_eq_some_iff.mp hstep
    have hrec' : RecordsOk s.ds s.cache fun h => op.Owes h ∨ owed s.service h := by
      refine hrec.mono fun h ho => ho.symm.imp_left ?_
      rintro ⟨o, ho, hw⟩
      rw [hop] at ho
      cases ho
      exact hw
    obtain ⟨hkeyval, hshrink⟩ := run_keyvals s op ok victim
    have hrun := run_recordsOk hrec' (hfresh op hop) ok victim
    have hkeep := hkv.shrink hshrink
    rw [← (run_threads s op ok victim).1] at hrun hkeep
    rw [← hkeyval] at hkeep
    exact ⟨hrun.mono fun h ho => ho.symm, hkeep⟩
  | postWrite h =>
    cases hstep
    refine ⟨RecordsOk.removeElem (hrec.mono fun _ => .inr), ?_⟩
    exact hkv.shrink (removeElem_keysShrink s.cache h)

theorem Inv.coherentAtRest (hinv : Inv keywords s) : s.CoherentAtRest := by
  intro h hrest
  constructor
  · intro e he
    refine (hinv.records h e he).resolve_right ?_
    rintro (⟨op, hop, ho⟩ | ⟨op, hop, ho⟩)
    · exact hrest (.inl ⟨op, hop, ho.handle_eq⟩)
    · exact hrest (.inr ⟨op, hop, ho.handle_eq⟩)
  · intro key val hc
    refine (hinv.keyvals.stored h key val hc).resolve_right ?_
    rintro ⟨v, hv⟩
    exact hrest (.inl ⟨_, hv, rfl⟩)

/-- **Every run.**  The cache is coherent at every handle at rest, all along a run in which no
outdated record is put into the cache and no cached key is changed behind its back. -/
theorem coherent_of_fresh (keywords : List String) (es : List CacheEvent)
    (hfresh : EachStep (step keywords) Fresh init es) :
    Throughout (step keywords) CoherentAtRest init es := by
  have hinv : Throughout (step keywords) (Inv keywords) init es :=
    Throughout.of_eachStep (fun _ _ _ => step_inv) (init_inv keywords) hfresh
  exact hinv.mono fun _ h => h.coherentAtRest

/-- An operation of the service thread, from its beginning through `n` steps that succeed. -/
def served (op : ServiceOp) (n : Nat) : List CacheEvent :=
  .begin op :: List.replicate n (.service true none)

/-- The size update of the callback of a write, in its four steps. -/
def sizeUpdated (h : Handle) (eor : Int) : List CacheEvent :=
  .beginSize h eor :: List.replicate 4 (.size true none)

/-- A handle is created, a key of it written, and its attributes set; then a write makes it larger. -/
theorem coherent_of_fresh_callback :
    Throughout (step ["key"]) CoherentAtRest init
      (served (.create 1 4) 3 ++ served (.write 1 "key" [7] .plain false) 3 ++
        served (.attr (.set 1 ⟨4, 9⟩)) 2 ++ .postWrite 1 :: sizeUpdated 1 10) := by
  apply coherent_of_fresh
  iterate 17 (refine .cons rfl ?_ ?_; rotate_left)
  all_goals try trivial
  all_goals
    intro op hop
    cases hop
  all_goals first
    | trivial
    | exact rfl
    | exact fun _ => rfl

def removedKey : List CacheEvent :=
  served (.create 1 4) 3 ++ served (.write 1 "key" [7] .plain false) 3 ++
    served (.removeKey 1 "key") 2

/-- The key is overwritten as a binary one after it was cached. -/
def binaryKey : List CacheEvent :=
  served (.create 1 4) 3 ++ served (.write 1 "key" [7] .plain false) 3 ++
    served (.write 1 "key" [8] .plain true) 2

/-- The attributes are looked up; before the record is put into the cache, the size update of a
write goes through. -/
def overtakenLookup : List CacheEvent :=
  served (.create 1 4) 3 ++ [.postWrite 1] ++ served (.attr (.get 1 .done)) 1 ++
    sizeUpdated 1 10 ++ [.service true none]

/-- **The cache goes stale.** -/
theorem cache_goes_stale :
    ¬ Throughout (step ["key"]) CoherentAtRest init removedKey ∧
    ¬ Throughout (step ["key"]) CoherentAtRest init binaryKey ∧
    ¬ Throughout (step ["key"]) CoherentAtRest init overtakenLookup := by
  have hrest : ∀ s : StoreState, s.service = none → s.callback = none → ¬ s.InProgress 1 := by
    rintro s hs hc (⟨op, hop, -⟩ | ⟨op, hop, -⟩)
    · rw [hs] at hop
      cases hop
    · rw [hc] at hop
      cases hop
  refine ⟨fun h => ?_, fun h => ?_, fun h => ?_⟩
  · have hend := (h.last rfl 1 (hrest _ rfl rfl)).2 "key" [7] ⟨_, rfl, rfl⟩
    cases hend
  · have hend := (h.last rfl 1 (hrest _ rfl rfl)).2 "key" [7] ⟨_, rfl, rfl⟩
    cases hend
  · have hend := (h.last rfl 1 (hrest _ rfl rfl)).1 _ rfl
    cases hend

end StoreState

end Pvfs.Trove
