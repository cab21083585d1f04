import Pvfs.Trove.Coalesce
import Mathlib.Data.List.Nodup

/-! # Durability of metadata operations

An operation that was posted with `TROVE_SYNC` should not be reported as successful before its
update is on disk: before a sync of the database of its collection has succeeded. The coalesce
queue does not know the collections of the operations in it, and `dbpf_sync_coalesce` does not
look at the result of the sync, so this depends on the runs.

The proof is by two invariants. Every operation is in one place (`SyncState.EachOnce`), so that
an operation in the completion queue is never serviced again; and an operation with an unsynced
update has been serviced (`SyncState.Served`), so that a cancelled one has no update. -/

namespace Pvfs.Trove.SyncState

open Pvfs.Lib List SyncState

/-- The operations that `dbpf_sync_coalesce` moves to the completion queue. -/
def leaving (colls : Nat → Collection) (s : SyncState) (op : MetaOp) (ret : RetCode) :
    List (MetaOp × RetCode) :=
  let coll := colls op.coll
  let c := s.ctx op.type.kind op.context
  if op.type.doesSync && op.sync && coll.metaSyncEnabled then
    if c.syncCounter < coll.lowWatermark ∨
        (0 < coll.highWatermark ∧ coll.highWatermark ≤ c.coalesceCounter) then
      (op, ret) :: c.syncQueue
    else []
  else [(op, ret)]

/-- Every successful operation with the sync flag, of a collection with metadata sync enabled, has
its update on disk. -/
def Durable (colls : Nat → Collection) (s : SyncState) : Prop :=
  ∀ f ∈ s.completion, f.state = .ok () → f.op.sync = true →
    (colls f.op.coll).metaSyncEnabled = true → f.op ∉ s.unsynced

/-- What a step has to observe: where an operation that owes a sync leaves for the completion queue
with its update unsynced, the operation that takes it along does sync, is of the same
collection, and its sync succeeds. -/
def Synced (colls : Nat → Collection) (s : SyncState) : SyncEvent → Prop
  | .coalesce op ret ok =>
    ∀ p ∈ s.leaving colls op ret, p.2 = .ok () → p.1.sync = true →
      (colls p.1.coll).metaSyncEnabled = true → p.1 ∈ s.unsynced →
      op.type.doesSync = true ∧ p.1.coll = op.coll ∧ ok = true
  | _ => True

def Served (s : SyncState) : Prop :=
  ∀ op ∈ s.unsynced, op ∈ s.posted ∧ op ∉ s.queue ∧ (op, none) ∉ s.inService

section
variable {colls : Nat → Collection} {s : SyncState} {op : MetaOp} {ret : RetCode} {ok : Bool}
  {o : MetaOp}

theorem syncCoalesce_completion : (s.syncCoalesce colls op ret ok).completion =
    s.completion ++ (s.leaving colls op ret).map fun p => ⟨p.1, p.2, .completed⟩ := by
  unfold syncCoalesce leaving
  cases op.type.doesSync with
  | false => rfl
  | true =>
    cases op.sync with
    | false => rfl
    | true =>
      dsimp only
      cases (colls op.coll).metaSyncEnabled with
      | false =>
        simp only [Bool.not_true, Bool.not_false, Bool.false_eq_true, if_false, if_true,
          Bool.and_false, map_cons, map_nil]
        split
        · rw [(dbSync_eq ..).2.2.2.1]
          rfl
        · rfl
      | true =>
        simp only [Bool.not_true, Bool.false_eq_true, if_false, Bool.and_self, if_true]
        split
        · rw [← (@dbSync_eq s op.coll op.type.kind ok).2.2.2.1]
          rfl
        · rw [map_nil, append_nil]
          rfl

theorem mem_dbSync {coll : Nat} {kind : SyncKind} :
    o ∈ (s.dbSync coll kind ok).unsynced ↔
      o ∈ s.unsynced ∧ ¬ (ok = true ∧ o.coll = coll ∧ o.type.kind = kind) := by
  cases ok with
  | false => simp [dbSync]
  | true => simp [dbSync, imp_iff_not_or]

theorem syncCoalesce_unsynced (ho : o ∈ (s.syncCoalesce colls op ret ok).unsynced) :
    o ∈ s.unsynced := by
  cases (syncCoalesce_cases colls s op ret ok).1 with
  | uncounted _ _ _ hunsynced => exact hunsynced ▸ ho
  | alone _ _ _ _ _ _ hunsynced =>
    rcases hunsynced with hunsynced | hunsynced
    · exact hunsynced ▸ ho
    · rw [hunsynced] at ho
      exact (mem_dbSync.mp ho).1
  | released _ _ _ _ _ _ _ hunsynced =>
    rw [hunsynced] at ho
    exact (mem_dbSync.mp ho).1
  | parked _ _ _ _ _ _ _ _ hunsynced => exact hunsynced ▸ ho

theorem syncCoalesce_synced (hbefore : o ∈ s.unsynced)
    (hafter : o ∉ (s.syncCoalesce colls op ret ok).unsynced) :
    op.type.doesSync = true ∧ o.coll = op.coll ∧ ok = true := by
  have hsynced : o ∉ (s.dbSync op.coll op.type.kind ok).unsynced →
      o.coll = op.coll ∧ ok = true := by
    intro hnot
    rw [mem_dbSync, not_and, not_not] at hnot
    exact ⟨(hnot hbefore).2.1, (hnot hbefore).1⟩
  cases (syncCoalesce_cases colls s op ret ok).1 with
  | uncounted _ _ _ hunsynced => exact absurd (hunsynced ▸ hbefore) hafter
  | alone hsync _ _ _ _ _ hunsynced =>
    rcases hunsynced with hunsynced | hunsynced
    · exact absurd (hunsynced ▸ hbefore) hafter
    · rw [hunsynced] at hafter
      exact ⟨hsync, hsynced hafter⟩
  | released hsync _ _ _ _ _ _ hunsynced =>
    rw [hunsynced] at hafter
    exact ⟨hsync, hsynced hafter⟩
  | parked _ _ _ _ _ _ _ _ hunsynced => exact absurd (hunsynced ▸ hbefore) hafter

variable {p : MetaOp × RetCode}

theorem mem_leaving (hparked : s.ParkedHome)
    (hp : p ∈ s.leaving colls op ret) : p.1.type.kind = op.type.kind := by
  unfold leaving at hp
  dsimp only at hp
  split at hp
  · split at hp
    · rcases mem_cons.mp hp with rfl | hp
      · rfl
      · exact (hparked _ _ p hp).1
    · exact absurd hp not_mem_nil
  · obtain rfl := mem_singleton.mp hp
    rfl

theorem leaving_synced (hparked : s.ParkedHome)
    (hp : p ∈ s.leaving colls op ret) (hflag : p.1.sync = true)
    (henabled : (colls p.1.coll).metaSyncEnabled = true) (hsync : op.type.doesSync = true)
    (hcoll : p.1.coll = op.coll) : p.1 ∉ (s.syncCoalesce colls op ret true).unsynced := by
  cases (syncCoalesce_cases colls s op ret true).1 with
  | uncounted hnot _ _ _ =>
    -- the operation itself has no sync flag, and so it leaves alone
    have hop : op.sync = false := by
      rcases hnot with hnot | hnot
      · rw [hsync] at hnot
        cases hnot
      · exact hnot
    rw [leaving, hop, Bool.and_false, Bool.false_and] at hp
    obtain rfl := mem_singleton.mp hp
    rw [hflag] at hop
    cases hop
  | alone _ _ hdisabled _ _ _ _ =>
    rw [hcoll, hdisabled] at henabled
    cases henabled
  | released _ _ _ _ _ _ _ hunsynced =>
    rw [hunsynced, mem_dbSync, not_and, not_not]
    intro _
    exact ⟨rfl, hcoll, mem_leaving hparked hp⟩
  | parked _ _ _ _ _ _ _ hdone _ =>
    have hnone : (s.leaving colls op ret).map (fun p => (⟨p.1, p.2, .completed⟩ : Finished)) =
        [] := by
      apply (append_right_inj s.completion).mp
      rw [← @syncCoalesce_completion colls s op ret true, hdone, append_nil]
    rw [map_eq_nil_iff.mp hnone] at hp
    exact absurd hp not_mem_nil

end

section
variable {colls : Nat → Collection} {s s' : SyncState} {op : MetaOp}

theorem EachOnce.le_one (h : EachOnce s) (op : MetaOp) : s.places op ≤ 1 := by
  rw [h.places op]
  exact nodup_iff_count_le_one.mp h.nodup op

theorem EachOnce.of_inService (h : EachOnce s) {r : Option RetCode} (hop : (op, r) ∈ s.inService) :
    op ∉ s.queue ∧ op ∉ (s.inService.erase (op, r)).map Prod.fst ∧
      op ∉ s.completion.map Finished.op ∧ op ∈ s.posted := by
  have hone := h.le_one op
  have hplaces := h.places op
  have hcount := count_map_erase hop op
  rw [count_singleton_self] at hcount
  unfold SyncState.places at hone hplaces
  refine ⟨?_, ?_, ?_, count_pos_iff.mp (by omega)⟩
  · exact count_eq_zero.mp (by omega)
  · exact count_eq_zero.mp (by omega)
  · exact count_eq_zero.mp (by omega)

theorem EachOnce.of_not_posted (h : EachOnce s) (hop : op ∉ s.posted) :
    op ∉ s.queue ∧ op ∉ s.inService.map Prod.fst ∧ op ∉ s.completion.map Finished.op := by
  have hplaces := h.places op
  rw [count_eq_zero.mpr hop] at hplaces
  unfold SyncState.places at hplaces
  refine ⟨?_, ?_, ?_⟩
  · exact count_eq_zero.mp (by omega)
  · exact count_eq_zero.mp (by omega)
  · exact count_eq_zero.mp (by omega)

def Ordered (s : SyncState) : Prop := EachOnce s ∧ Served s

theorem ordered_init : Ordered init := ⟨eachOnce_init, fun _ hop => absurd hop not_mem_nil⟩

theorem step_served (h : EachOnce s) (hserved : Served s) {e : SyncEvent}
    (hstep : step colls s e = some s') : Served s' := by
  cases Stepped.of_step hstep with
  | @post op hnew =>
    intro o ho
    obtain ⟨hposted, hqueue, hservice⟩ := hserved o (by simpa [enqueue] using ho)
    have hne : o ≠ op := by
      rintro rfl
      exact hnew hposted
    simp [enqueue, hposted, hqueue, hservice, hne]
  | convert hnew =>
    obtain ⟨hqueue, hservice, -⟩ := h.of_not_posted hnew
    intro o ho
    rcases mem_cons.mp ho with rfl | ho
    · have hin : (o, none) ∉ s.inService := fun hmem => hservice (mem_map_of_mem hmem)
      simp [hqueue, hin]
    · obtain ⟨hposted, hqueue, hservice⟩ := hserved o ho
      simp [hposted, hqueue, hservice]
  | dequeue hqueue =>
    intro o ho
    obtain ⟨hposted, hnot, hservice⟩ := hserved o (by simpa using ho)
    rw [hqueue, mem_cons, not_or] at hnot
    simp [hposted, hnot, hservice]
  | @returned op ret hin =>
    obtain ⟨hnotqueued, honce, -, hposted⟩ := h.of_inService hin
    have hold : ∀ o ∈ s.unsynced, o ∈ s.posted ∧ o ∉ s.queue ∧
        (o, none) ∉ s.inService.erase (op, none) ++ [(op, some ret)] := by
      intro o ho
      obtain ⟨hposted, hqueue, hservice⟩ := hserved o ho
      simp [hposted, hqueue, mt mem_of_mem_erase hservice]
    intro o ho
    split at ho
    · rcases mem_cons.mp ho with rfl | ho
      · have hout : (o, none) ∉ s.inService.erase (o, none) :=
          fun hmem => honce (mem_map_of_mem hmem)
        simp [hposted, hnotqueued, hout]
      · exact hold o ho
    · exact hold o ho
  | @again op hin =>
    intro o ho
    obtain ⟨hposted, hqueue, hservice⟩ := hserved o (by simpa [enqueue] using ho)
    have hne : o ≠ op := by
      rintro rfl
      exact hservice hin
    simp [enqueue, hposted, hqueue, hne, mt mem_of_mem_erase hservice]
  | @coalesce op ret ok hin =>
    intro o ho
    obtain ⟨-, hq, hi, hp⟩ := syncCoalesce_cases colls
      { s with inService := s.inService.erase (op, some ret) } op ret ok
    obtain ⟨hposted, hqueue, hservice⟩ := hserved o (syncCoalesce_unsynced
      (s := { s with inService := s.inService.erase (op, some ret) }) ho)
    rw [hq, hi, hp]
    exact ⟨hposted, hqueue, mt mem_of_mem_erase hservice⟩
  | canceled hin =>
    intro o ho
    obtain ⟨hposted, hqueue, hservice⟩ := hserved o ho
    exact ⟨hposted, mt mem_of_mem_erase hqueue, hservice⟩
  | missed hnot => exact hserved

theorem step_ordered (colls : Nat → Collection) (s : SyncState) (e : SyncEvent) (s' : SyncState)
    (h : Ordered s) (hstep : step colls s e = some s') : Ordered s' :=
  ⟨step_eachOnce colls s e s' h.1 hstep, step_served h.1 h.2 hstep⟩

theorem Durable.of_service (h : Durable colls s) (hdone : s'.completion = s.completion)
    (hunsynced : ∀ o ∈ s'.unsynced, o ∈ s.unsynced ∨ o ∉ s.completion.map Finished.op) :
    Durable colls s' := by
  intro f hf hok hflag henabled hmem
  rw [hdone] at hf
  rcases hunsynced f.op hmem with hmem | hmem
  · exact h f hf hok hflag henabled hmem
  · exact hmem (mem_map_of_mem hf)

theorem coalesce_durable_iff (hparked : s.ParkedHome) (h : Durable colls s) {ret : RetCode}
    {ok : Bool} : Durable colls (s.syncCoalesce colls op ret ok) ↔
      Synced colls s (.coalesce op ret ok) := by
  constructor
  · intro h' p hp hok hflag henabled hbefore
    apply syncCoalesce_synced hbefore
    refine h' ⟨p.1, p.2, .completed⟩ ?_ hok hflag henabled
    rw [syncCoalesce_completion]
    exact mem_append_right _ (mem_map_of_mem hp)
  · intro hsynced f hf hok hflag henabled hafter
    have hbefore := syncCoalesce_unsynced hafter
    rw [syncCoalesce_completion] at hf
    rcases mem_append.mp hf with hf | hf
    · exact h f hf hok hflag henabled hbefore
    · obtain ⟨p, hp, rfl⟩ := mem_map.mp hf
      obtain ⟨hsync, hcoll, rfl⟩ := hsynced p hp hok hflag henabled hbefore
      exact leaving_synced hparked hp hflag henabled hsync hcoll hafter

/-- A step keeps what was reported durable just if it syncs. -/
theorem step_durable_iff (colls : Nat → Collection) (s : SyncState) (e : SyncEvent)
    (s' : SyncState) (hI : Ordered s) (h : Durable colls s) (hstep : step colls s e = some s') :
    Durable colls s' ↔ Synced colls s e := by
  cases Stepped.of_step hstep with
  | post hnew =>
    refine iff_of_true (h.of_service (by simp [enqueue]) fun o ho => .inl ?_) trivial
    simpa [enqueue] using ho
  | convert hnew =>
    refine iff_of_true (h.of_service rfl fun o ho => ?_) trivial
    rcases mem_cons.mp ho with rfl | ho
    · exact .inr (hI.1.of_not_posted hnew).2.2
    · exact .inl ho
  | dequeue hqueue =>
    exact iff_of_true (h.of_service (by simp) fun o ho => .inl (by simpa using ho)) trivial
  | returned hin =>
    obtain ⟨-, -, hdone, -⟩ := hI.1.of_inService hin
    refine iff_of_true (h.of_service rfl fun o ho => ?_) trivial
    split at ho
    · rcases mem_cons.mp ho with rfl | ho
      · exact .inr hdone
      · exact .inl ho
    · exact .inl ho
  | again hin =>
    refine iff_of_true (h.of_service (by simp [enqueue]) fun o ho => .inl ?_) trivial
    simpa [enqueue] using ho
  | @coalesce op ret ok hin =>
    have hparked : ParkedHome { s with inService := s.inService.erase (op, some ret) } :=
      hI.1.parked
    exact coalesce_durable_iff hparked h
  | canceled hin =>
    refine iff_of_true (fun f hf hok hflag henabled hmem => ?_) trivial
    rcases mem_append.mp hf with hf | hf
    · exact h f hf hok hflag henabled hmem
    · -- it has not been serviced
      obtain rfl := mem_singleton.mp hf
      exact (hI.2 _ hmem).2.1 hin
  | missed hnot => exact iff_of_true h trivial

end

end Pvfs.Trove.SyncState

namespace Pvfs.Trove

open Pvfs.Lib SyncState

/-- **When synced metadata is durable.**  In a run over any collections, watermarks and results of
Berkeley DB, every successful operation that owes a sync is completed after a successful sync
of the database of its own collection that follows its update, exactly if each step that
completes such an operation takes it along with one that does sync, of the same collection,
and the sync succeeds (or the update is covered by an earlier one). -/
theorem durable_iff (colls : Nat → Collection) (es : List SyncEvent) :
    Throughout (step colls) (Durable colls) init es ↔
      EachStep (step colls) (Synced colls) init es :=
  throughout_iff_eachStep (step_ordered colls) (step_durable_iff colls) ordered_init
    (fun _ hf => absurd hf List.not_mem_nil) es

def syncingCollections : Nat → Collection := fun _ => ⟨true, 0, 1⟩

/-- An operation is released by the sync of another collection, by a sync that fails, and a
`DSPACE_REMOVE_LIST` is not synced at all. -/
theorem synced_metadata_lost :
    ¬ Throughout (step syncingCollections) (Durable syncingCollections) init
        (parkThenPass (setattrOp 0 0) (setattrOp 1 1)) ∧
      ¬ Throughout (step syncingCollections) (Durable syncingCollections) init
        [.post (setattrOp 0 0), .dequeue, .serve (setattrOp 0 0) (.returned (.ok ())),
          .coalesce (setattrOp 0 0) (.ok ()) false] ∧
      ¬ Throughout (step syncingCollections) (Durable syncingCollections) init
        [.post ⟨0, .dspaceRemoveList, 0, 0, true, false⟩, .dequeue,
          .serve ⟨0, .dspaceRemoveList, 0, 0, true, false⟩ (.returned (.ok ())),
          .coalesce ⟨0, .dspaceRemoveList, 0, 0, true, false⟩ (.ok ()) true] := by
  refine ⟨fun h => ?_, fun h => ?_, fun h => ?_⟩
  · exact h.last rfl ⟨setattrOp 0 0, .ok (), .completed⟩ (.tail _ (.head _)) rfl rfl rfl (.head _)
  · exact h.last rfl ⟨setattrOp 0 0, .ok (), .completed⟩ (.head _) rfl rfl rfl (.head _)
  · exact h.last rfl ⟨⟨0, .dspaceRemoveList, 0, 0, true, false⟩, .ok (), .completed⟩ (.head _)
      rfl rfl rfl (.head _)

end Pvfs.Trove
