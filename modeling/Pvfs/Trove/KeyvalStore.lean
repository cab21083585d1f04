import Pvfs.Trove.IterateKeyval

/-! # Changing the key/value database

`put` and `del` of the database behind `KeyvalDb`: the records stay in key order, and a key
occurs once. What the users of the database need is how the entries of a handle and its
bookkeeping record change. -/

namespace Pvfs.Trove

open Pvfs.Lib List

variable {V : Type}

namespace KeyvalDb

variable (db : KeyvalDb V) (handle : Nat) (key : List UInt8)

/-! ## Operations -/

/-- `DB->get`. -/
def get : Option V := (db.here handle key).head?.map (·.val)

/-- `DB->put`, which replaces the record if there is one. -/
def put (val : V) : KeyvalDb V where
  records := db.below handle key ++ ⟨handle, key, val⟩ :: db.above handle key
  sorted := by
    have habove : ∀ b ∈ db.above handle key,
        KeyvalRecord.before ⟨handle, key, val⟩ b.handle b.key = true := by
      intro b hb
      obtain ⟨hbefore, hat⟩ := Bool.and_eq_true_iff.mp (mem_filter.mp hb).2
      have hne : ¬ (handle = b.handle ∧ key = b.key) := by
        intro h
        simp [KeyvalRecord.isAt, h.1, h.2] at hat
      rw [@KeyvalRecord.before_total _ ⟨handle, key, val⟩ b hne]
      exact hbefore
    rw [pairwise_append, pairwise_cons]
    refine ⟨db.sorted.filter _, ⟨habove, db.sorted.filter _⟩, ?_⟩
    intro a ha b hb
    have hbelow : a.before handle key = true := (mem_filter.mp ha).2
    rcases mem_cons.mp hb with rfl | hb
    · exact hbelow
    · exact @KeyvalRecord.before_trans _ _ _ a ⟨handle, key, val⟩ hbelow (habove b hb)

/-- `DB->del`, and `c_del` on a cursor that stands on the record. -/
def del : KeyvalDb V where
  records := db.below handle key ++ db.above handle key
  sorted := by
    have hrec := db.sorted
    rw [db.split_at handle key] at hrec
    exact hrec.sublist ((sublist_append_right ..).append_left _)

variable {db handle key}

theorem here_of_get_none (h : db.get handle key = none) : db.here handle key = [] := by
  rcases @here_cases _ db handle key with hhere | ⟨v, hhere⟩
  · exact hhere
  · simp [get, hhere] at h

theorem here_of_get_some {v : V} (h : db.get handle key = some v) :
    db.here handle key = [⟨handle, key, v⟩] := by
  rcases @here_cases _ db handle key with hhere | ⟨v', hhere⟩
  · simp [get, hhere] at h
  · rw [get, hhere] at h
    cases h
    exact hhere

section
variable {p : KeyvalRecord V → Bool}

theorem filter_put {v : V} (hp : ∀ v, p ⟨handle, key, v⟩ = false) :
    (db.put handle key v).records.filter p = db.records.filter p := by
  conv_rhs => rw [db.split_at handle key]
  rcases @here_cases _ db handle key with hhere | ⟨v', hhere⟩ <;> simp [put, hhere, hp]

theorem filter_del (hp : ∀ v, p ⟨handle, key, v⟩ = false) :
    (db.del handle key).records.filter p = db.records.filter p := by
  conv_rhs => rw [db.split_at handle key]
  rcases @here_cases _ db handle key with hhere | ⟨v', hhere⟩ <;> simp [del, hhere, hp]

end

/-! ## Looking a key up after a change -/

section
variable {key' : List UInt8} {v : V}

theorem get_put_ne (hne : key' ≠ key) : (db.put handle key v).get handle key' = db.get handle key' := by
  rw [get, get, here, here, filter_put]
  intro v
  exact decide_eq_false fun h => hne h.2.symm

theorem get_del_ne (hne : key' ≠ key) : (db.del handle key).get handle key' = db.get handle key' := by
  rw [get, get, here, here, filter_del]
  intro v
  exact decide_eq_false fun h => hne h.2.symm

theorem filter_isAt_below : (db.below handle key).filter (fun r => r.isAt handle key) = [] := by
  rw [filter_eq_nil_iff]
  intro r hr hat
  obtain ⟨hhandle, hkey⟩ := of_decide_eq_true hat
  have hbefore := (mem_filter.mp hr).2
  rw [← hhandle, ← hkey, r.before_self] at hbefore
  cases hbefore

theorem filter_isAt_above : (db.above handle key).filter (fun r => r.isAt handle key) = [] := by
  rw [filter_eq_nil_iff]
  intro r hr hat
  have := (Bool.and_eq_true_iff.mp (mem_filter.mp hr).2).2
  simp [hat] at this

@[simp] theorem get_put_self : (db.put handle key v).get handle key = some v := by
  have hhere : (db.put handle key v).here handle key = [⟨handle, key, v⟩] := by
    have hself : KeyvalRecord.isAt ⟨handle, key, v⟩ handle key = true := decide_eq_true ⟨rfl, rfl⟩
    rw [here, put]
    simp [filter_isAt_below, filter_isAt_above, hself]
  rw [get, hhere]
  rfl

@[simp] theorem get_del_self : (db.del handle key).get handle key = none := by
  have hhere : (db.del handle key).here handle key = [] := by
    rw [here, del]
    simp [filter_isAt_below, filter_isAt_above]
  rw [get, hhere]
  rfl

theorem get_of_mem {r : KeyvalRecord V} (hr : r ∈ db.records) :
    db.get r.handle r.key = some r.val := by
  have hmem : r ∈ db.here r.handle r.key :=
    mem_filter.mpr ⟨hr, decide_eq_true ⟨rfl, rfl⟩⟩
  rcases @here_cases _ db r.handle r.key with hhere | ⟨v, hhere⟩
  · rw [hhere] at hmem
    cases hmem
  · rw [hhere, mem_singleton] at hmem
    rw [get, hhere, hmem]
    rfl

end

/-! ## The entries of a handle after a change -/

section
variable {v : V}

theorem named_put_info : (db.put handle [] v).named handle = db.named handle :=
  filter_put fun _ => by simp

theorem named_del_info : (db.del handle []).named handle = db.named handle :=
  filter_del fun _ => by simp

theorem length_named_put (hkey : key ≠ []) (h : db.get handle key = none) :
    ((db.put handle key v).named handle).length = (db.named handle).length + 1 := by
  conv_rhs => rw [named, db.split_at handle key, here_of_get_none h]
  simp [named, put, hkey, Nat.add_assoc]

theorem length_named_del (hkey : key ≠ []) (h : db.get handle key = some v) :
    ((db.del handle key).named handle).length + 1 = (db.named handle).length := by
  conv_rhs => rw [named, db.split_at handle key, here_of_get_some h]
  simp [named, del, hkey, Nat.add_assoc]

theorem named_keys_nodup : ((db.named handle).map (·.key)).Nodup := by
  rw [List.Nodup, pairwise_map]
  refine Pairwise.imp_of_mem ?_ (db.sorted.filter _)
  intro a b ha hb hab hkey
  have hsame : a.handle = b.handle :=
    (db.mem_named handle ha).1.trans (db.mem_named handle hb).1.symm
  rw [← hsame, ← hkey, a.before_self] at hab
  cases hab

end

end KeyvalDb

end Pvfs.Trove
