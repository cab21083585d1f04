import Mathlib.Data.Finset.Card
import Pvfs.Lib.Steps
import Pvfs.Server.Discipline

/-! # Administrative mode

Changes of mode stand in a queue of their own. One to administrative mode waits until
`sched_count` says that no request is left, is put on the ready queue then, and takes
effect when it is tested for; meanwhile requests that modify the file system are turned
away. So no such request is left when the mode has changed, whatever else goes on.

The front of the mode queue is put on the ready queue whenever the count comes down to
zero, in whatever state it is: a change of mode is reported again and again. All other
elements are reported once. -/

namespace Pvfs.Server

open Scheduler Lib List

variable {s s' : Scheduler} {id i : ReqSchedId} {h : Handle} {e e' : Element} {n : Nat}

/-- Only management requests modify. -/
def NoModification (s : Scheduler) : Prop :=
  ∀ h, ∀ e ∈ s.reqSchedTable h, e.declared = .modify → e.op.isMgmtOp = true

def linkedIds (s : Scheduler) : Finset ReqSchedId :=
  {i ∈ Finset.range s.nextId | (s.listHead i).isSome}

/-- The queues and counters of a scheduler are consistent. -/
structure Governed (s : Scheduler) : Prop where
  wf : s.Wf
  nodup : s.readyQueue.Nodup
  /-- `sched_count` is the number of requests in the queues. -/
  count : s.schedCount = (linkedIds s).card
  timers : ∀ e ∈ s.timerQueue, e.state = .timing ∧ e.id ∉ s.readyQueue
  modes : ∀ e ∈ s.modeQueue, e.state ≠ .timing
  special : ((s.modeQueue ++ s.timerQueue).map Element.id).Nodup
  /-- Only the front of the mode queue is ever made ready. -/
  waiting : ∀ e ∈ s.modeQueue.tail, e.state = .queued
  ready : ∀ e ∈ s.modeQueue, e.id ∈ s.readyQueue → e.state ≠ .queued
  admin : s.currentMode = .admin → NoModification s
  toAdmin : ∀ e ∈ s.modeQueue, e.mode = .admin → e.state ≠ .queued → NoModification s

theorem governed_start : Governed reqSchedInitialize where
  wf := wf_start
  nodup := nodup_nil
  count := rfl
  timers := by simp [reqSchedInitialize]
  modes := by simp [reqSchedInitialize]
  special := nodup_nil
  waiting := by simp [reqSchedInitialize]
  ready := by simp [reqSchedInitialize]
  admin := by simp [reqSchedInitialize]
  toAdmin := by simp [reqSchedInitialize]

/-! ## Counting requests -/

theorem mem_linkedIds (hs : s.Wf) : i ∈ linkedIds s ↔ (s.listHead i).isSome = true := by
  simp only [linkedIds, Finset.mem_filter, Finset.mem_range, and_iff_right_iff_imp]
  intro hi
  obtain ⟨h, hh⟩ := Option.isSome_iff_exists.mp hi
  obtain ⟨e, he, rfl⟩ := hs.found i h hh
  exact (hs.fresh h e he).2

theorem card_linkedIds_enqueue (hid : e.id = s.nextId) :
    (linkedIds (enqueue s e)).card = (linkedIds s).card + 1 := by
  have hset : linkedIds (enqueue s e) = insert s.nextId (linkedIds s) := by
    ext i
    simp only [linkedIds, enqueue, setQueue, hid, Finset.mem_filter, Finset.mem_range,
      Finset.mem_insert, Nat.lt_succ_iff_lt_or_eq]
    by_cases hi : i = s.nextId <;> simp [hi]
  rw [hset]
  simp [linkedIds]

theorem Governed.count_special (hs : Governed s) (hnext : s'.nextId = s.nextId + 1)
    (hhead : s'.listHead = s.listHead) (hcount : s'.schedCount = s.schedCount) :
    s'.schedCount = (linkedIds s').card := by
  have hnew : s.listHead s.nextId = none := hs.wf.nextId_unlinked
  have hset : linkedIds s' = linkedIds s := by
    ext i
    simp only [linkedIds, hnext, hhead, Finset.mem_filter, Finset.mem_range,
      Nat.lt_succ_iff_lt_or_eq]
    refine ⟨fun h => ⟨h.1.resolve_right ?_, h.2⟩, fun h => ⟨.inl h.1, h.2⟩⟩
    rintro rfl
    simp [hnew] at h
  rw [hcount, hset, hs.count]

theorem card_linkedIds_leaveQueue (hs : s.Wf) (hh : s.listHead id = some h) :
    ((linkedIds (leaveQueue s h id n)).card : Int) = (linkedIds s).card - 1 := by
  have hmem : id ∈ linkedIds s := (mem_linkedIds hs).mpr (by simp [hh])
  have hset : linkedIds (leaveQueue s h id n) = (linkedIds s).erase id := by
    ext i
    by_cases hi : i = id <;> simp [linkedIds, leaveQueue, addReady, setQueue, hi]
  have hpos : 0 < (linkedIds s).card := Finset.card_pos.mpr ⟨id, hmem⟩
  rw [hset, Finset.card_erase_of_mem hmem]
  omega

theorem Governed.noModification (hs : Governed s) (hzero : s.schedCount = 0) : NoModification s := by
  intro h e he
  have hmem : e.id ∈ linkedIds s := (mem_linkedIds hs.wf).mpr (by simp [hs.wf.linked h e he])
  have hcard := hs.count
  rw [hzero] at hcard
  have hnone : (linkedIds s).card = 0 := by exact_mod_cast hcard.symm
  rw [Finset.card_eq_zero] at hnone
  simp [hnone] at hmem

/-! ## What each change does -/

theorem noModification_enter {op : ServerOp} {a : AccessType} (hs : NoModification s)
    (hadmin : reqSchedInAdminMode s = true) (ht : turnedAway s op a = false) :
    NoModification (enqueue s (newElement s op h a)) := by
  intro h' e' he' hmod
  obtain he' | ⟨-, rfl⟩ := of_mem_enqueue he'
  · exact hs h' e' he' hmod
  · have ha : a = .modify := hmod
    have hop : op.isMgmtOp = true := by simpa [turnedAway, hadmin, ha] using ht
    exact hop

section
variable (hs : Governed s)
include hs

theorem Governed.head (he : e ∈ s.modeQueue) (hst : e.state ≠ .queued) :
    s.modeQueue.head? = some e := by
  have hwait := hs.waiting
  cases hq : s.modeQueue with
  | nil => simp [hq] at he
  | cons next rest =>
    rw [hq] at he hwait
    obtain rfl | he := mem_cons.mp he
    · rfl
    · exact absurd (hwait e he) hst

theorem Governed.enter {op : ServerOp} {a : AccessType} (ht : turnedAway s op a = false) :
    Governed (enqueue s (newElement s op h a)) where
  wf := keeps_wf.enter op h a hs.wf ht trivial
  nodup := hs.nodup
  count := by
    rw [card_linkedIds_enqueue rfl, Int.natCast_add, ← hs.count]
    rfl
  timers := hs.timers
  modes := hs.modes
  special := hs.special
  waiting := hs.waiting
  ready := hs.ready
  admin hmode := by
    have hadmin : s.currentMode = .admin := hmode
    exact noModification_enter (hs.admin hadmin) (by simp [reqSchedInAdminMode, hadmin]) ht
  toAdmin e he hmode hst := by
    refine noModification_enter (hs.toAdmin e he hmode hst) ?_ ht
    simp [reqSchedInAdminMode, hs.head he hst, hmode]

theorem Governed.drop {mq tq : List Element} {rq : List ReqSchedId} (hmq : mq.Sublist s.modeQueue)
    (htq : tq.Sublist s.timerQueue) (hrq : rq.Sublist s.readyQueue) :
    Governed { s with modeQueue := mq, timerQueue := tq, readyQueue := rq } where
  wf := by
    refine hs.wf.congr rfl rfl rfl (fun _ h => hrq.subset h) fun e' he' => ⟨e', ?_, rfl⟩
    exact (hmq.append htq).subset he'
  nodup := hs.nodup.sublist hrq
  count := hs.count
  timers e he := by
    obtain ⟨hst, hout⟩ := hs.timers e (htq.subset he)
    exact ⟨hst, fun hin => hout (hrq.subset hin)⟩
  modes e he := hs.modes e (hmq.subset he)
  special := hs.special.sublist ((hmq.append htq).map _)
  waiting e he := hs.waiting e (hmq.tail.subset he)
  ready e he hin := hs.ready e (hmq.subset he) (hrq.subset hin)
  admin := hs.admin
  toAdmin e he := hs.toAdmin e (hmq.subset he)

theorem Governed.addTimer {q : List Element} (hid : e.id = s.nextId) (hst : e.state = .timing)
    (hq : q.Perm (e :: s.timerQueue)) :
    Governed { s with nextId := s.nextId + 1, timerQueue := q } where
  wf := keeps_wf.addTimer e q hs.wf hid hst hq
  nodup := hs.nodup
  count := hs.count_special rfl rfl rfl
  timers e' he' := by
    obtain rfl | he' := mem_cons.mp (hq.subset he')
    · refine ⟨hst, fun hin => ?_⟩
      exact Nat.lt_irrefl _ (hid ▸ (hs.wf.ready _ hin).1)
    · exact hs.timers e' he'
  modes := hs.modes
  special := by
    have hperm : ((s.modeQueue ++ q).map Element.id).Perm
        (e.id :: (s.modeQueue ++ s.timerQueue).map Element.id) := by
      exact ((hq.append_left s.modeQueue).trans perm_middle).map Element.id
    rw [hperm.nodup_iff, nodup_cons]
    refine ⟨fun hin => ?_, hs.special⟩
    obtain ⟨e', he', hid'⟩ := mem_map.mp hin
    exact Nat.ne_of_lt (hs.wf.special e' he').2 (hid'.trans hid)
  waiting := hs.waiting
  ready := hs.ready
  admin := hs.admin
  toAdmin := hs.toAdmin

theorem Governed.enqueueMode {mode current : ServerMode} {st : ReqState} (hst : st ≠ .timing)
    (hwait : st = .queued ∨ s.modeQueue = []) (hcurrent : current = .admin → NoModification s)
    (hmode : mode = .admin → st ≠ .queued → NoModification s)
    (hwf : (enqueueMode s (modeElement s mode st)).Wf) :
    Governed { enqueueMode s (modeElement s mode st) with currentMode := current } where
  wf := hwf.congr rfl rfl rfl (fun _ h => h) fun e' he' => ⟨e', he', rfl⟩
  nodup := hs.nodup
  count := hs.count_special rfl rfl rfl
  timers := hs.timers
  modes e he := by
    rw [Server.enqueueMode, mem_append, mem_singleton] at he
    obtain he | rfl := he
    · exact hs.modes e he
    · exact hst
  special := by
    have hperm : ((s.modeQueue ++ [modeElement s mode st] ++ s.timerQueue).map Element.id).Perm
        (s.nextId :: (s.modeQueue ++ s.timerQueue).map Element.id) := by
      rw [append_assoc]
      exact perm_middle.map Element.id
    refine hperm.nodup_iff.mpr (nodup_cons.mpr ⟨fun hin => ?_, hs.special⟩)
    obtain ⟨e', he', hid'⟩ := mem_map.mp hin
    exact Nat.ne_of_lt (hs.wf.special e' he').2 hid'
  waiting e he := by
    simp only [Server.enqueueMode] at he
    cases hq : s.modeQueue with
    | nil => simp [hq] at he
    | cons next rest =>
      simp only [hq, cons_append, tail_cons, mem_append, mem_singleton] at he
      obtain he | rfl := he
      · exact hs.waiting e (by simpa [hq] using he)
      · exact hwait.resolve_right (by simp [hq])
  ready e he hin := by
    rw [Server.enqueueMode, mem_append, mem_singleton] at he
    obtain he | rfl := he
    · exact hs.ready e he hin
    · exact absurd (hs.wf.ready _ hin).1 (Nat.lt_irrefl _)
  admin := hcurrent
  toAdmin e he := by
    rw [Server.enqueueMode, mem_append, mem_singleton] at he
    obtain he | rfl := he
    · exact hs.toAdmin e he
    · exact hmode

theorem Governed.readyMode {next : Element} {rest : List Element} (hq : s.modeQueue = next :: rest)
    (hzero : s.schedCount = 0) (hout : next.id ∉ s.readyQueue) :
    Governed (readyMode s next rest) := by
  have hspecial := hs.special
  rw [hq, cons_append, map_cons, nodup_cons] at hspecial
  have hne : ∀ e ∈ rest ++ s.timerQueue, e.id ≠ next.id := by
    intro e he heq
    exact hspecial.1 (heq ▸ mem_map_of_mem he)
  refine ⟨hs.wf.readyMode hq, ?_, hs.count, ?_, ?_, ?_, ?_, ?_, hs.admin, ?_⟩
  · simp only [Server.readyMode, addReady]
    exact nodup_append.mpr ⟨hs.nodup, nodup_singleton _, by
      rintro i hi j hj rfl
      exact hout (mem_singleton.mp hj ▸ hi)⟩
  · intro e he
    obtain ⟨hst, hnot⟩ := hs.timers e he
    refine ⟨hst, fun hin => ?_⟩
    simp only [Server.readyMode, addReady, mem_append, mem_singleton] at hin
    exact hin.elim hnot (hne e (mem_append_right _ he))
  · intro e he
    obtain rfl | he := mem_cons.mp he
    · exact fun h => by cases h
    · exact hs.modes e (by rw [hq]; exact mem_cons_of_mem _ he)
  · simp only [Server.readyMode, cons_append, map_cons]
    exact nodup_cons.mpr hspecial
  · intro e he
    exact hs.waiting e (by rw [hq]; exact he)
  · intro e he hin
    obtain rfl | he := mem_cons.mp he
    · exact fun h => by cases h
    · simp only [Server.readyMode, addReady, mem_append, mem_singleton] at hin
      obtain hin | hin := hin
      · exact hs.ready e (by rw [hq]; exact mem_cons_of_mem _ he) hin
      · exact absurd hin (hne e (mem_append_left _ he))
  · exact fun _ _ _ _ => hs.noModification hzero

theorem Governed.leaveQueue (hh : s.listHead id = some h)
    (hqueued : ∀ e ∈ (without id (s.reqSchedTable h)).take n, e.state = .queued)
    (hwf : (leaveQueue s h id n).Wf) : Governed (leaveQueue s h id n) := by
  have hready : ∀ i, i ∈ (Server.leaveQueue s h id n).readyQueue ↔
      i ∈ s.readyQueue ∨ ∃ e ∈ (without id (s.reqSchedTable h)).take n, e.id = i := by
    intro i
    simp only [Server.leaveQueue, addReady, setQueue, mem_append, mem_map]
  -- the ones that are woken are linked to a queue, as special operations are not
  have hspecial : ∀ e ∈ s.modeQueue ++ s.timerQueue,
      e.id ∈ (Server.leaveQueue s h id n).readyQueue → e.id ∈ s.readyQueue := by
    intro e he hin
    obtain hin | ⟨e0, he0, heq⟩ := (hready e.id).mp hin
    · exact hin
    · exact absurd heq (hs.wf.ne_special (Wf.of_mem_woken he0).1 he)
  have hkeep : NoModification s → NoModification (Server.leaveQueue s h id n) := by
    intro hno h' e' he' hmod
    obtain ⟨e, he, -, ⟨rfl, -⟩ | ⟨rfl, -⟩⟩ := hs.wf.of_mem_leaveQueue hh he'
    · exact hno h' e he hmod
    · exact hno h' e' he hmod
  refine ⟨hwf, ?_, ?_, ?_, hs.modes, hs.special, hs.waiting, ?_, ?_, ?_⟩
  · simp only [Server.leaveQueue, addReady]
    refine nodup_append.mpr ⟨hs.nodup, ?_, ?_⟩
    · exact ((hs.wf.nodup h).sublist (filter_sublist.map _)).sublist
        ((take_sublist _ _).map _)
    · rintro i hi j hj rfl
      obtain ⟨e, he, rfl⟩ := mem_map.mp hj
      have hact := (hs.wf.ready e.id hi).2 h e (Wf.of_mem_woken he).1 rfl
      rw [Element.not_active_of_queued (hqueued e he)] at hact
      cases hact
  · rw [card_linkedIds_leaveQueue hs.wf hh, ← hs.count]
    rfl
  · intro e he
    obtain ⟨hst, hout⟩ := hs.timers e he
    exact ⟨hst, fun hin => hout (hspecial e (mem_append_right _ he) hin)⟩
  · exact fun e he hin => hs.ready e he (hspecial e (mem_append_left _ he) hin)
  · exact fun hmode => hkeep (hs.admin hmode)
  · exact fun e he hmode hst => hkeep (hs.toAdmin e he hmode hst)

section
variable (he : s.lookup id = some e) (hready : e.state = .readyToSchedule ∨ id ∈ s.readyQueue)
include he hready

theorem Governed.of_ready (hh : s.listHead id = none) : e ∈ s.modeQueue ∧ e.state ≠ .queued := by
  obtain ⟨hmem, rfl⟩ := lookup_special hh he
  obtain hmem | hmem := mem_append.mp hmem
  · refine ⟨hmem, ?_⟩
    obtain hst | hin := hready
    · rw [hst]
      exact fun h => by cases h
    · exact hs.ready e hmem hin
  · obtain ⟨hst, hout⟩ := hs.timers e hmem
    obtain hst' | hin := hready
    · rw [hst] at hst'
      cases hst'
    · exact absurd hin hout

theorem Governed.not_queued_of_ready :
    ∀ e' ∈ s.modeQueue, e'.id = e.id → e' = e ∧ e.state ≠ .queued := by
  intro e' he' hid'
  cases hh : s.listHead id with
  | none =>
    obtain ⟨hmem, hst⟩ := hs.of_ready he hready hh
    refine ⟨?_, hst⟩
    exact inj_on_of_nodup_map hs.special (mem_append_left _ he')
      (mem_append_left _ hmem) hid'
  | some h =>
    obtain ⟨hmem, -⟩ := lookup_linked hh he
    exact absurd hid'.symm (hs.wf.ne_special hmem (mem_append_left _ he'))

theorem Governed.letRoll : Governed (letRoll s e) := by
  have hnot := hs.not_queued_of_ready he hready
  have hkeep : NoModification s → NoModification (Server.letRoll s e) := by
    intro hno h e' he' hmod
    obtain ⟨e0, he0, ⟨-, rfl⟩ | ⟨-, rfl⟩⟩ := mem_roll he'
    · exact hno h e0 he0 hmod
    · exact hno h e' he0 hmod
  refine ⟨keeps_wf.roll hs.wf he hready, hs.nodup.erase _, hs.count, ?_, ?_, ?_, ?_, ?_, ?_, ?_⟩
  · intro e' he'
    obtain ⟨hst, hout⟩ := hs.timers e' he'
    exact ⟨hst, fun hin => hout (mem_of_mem_erase hin)⟩
  · intro e' he'
    obtain ⟨e0, he0, ⟨-, rfl⟩ | ⟨-, rfl⟩⟩ := mem_roll he'
    · exact fun h => by cases h
    · exact hs.modes e' he0
  · simp only [Server.letRoll, map_append, map_id_roll]
    rw [← map_append]
    exact hs.special
  · -- the one that goes ahead has been ready, so it is not among those that wait
    intro e' he'
    simp only [Server.letRoll, roll, ← map_tail] at he'
    obtain ⟨e0, he0, ⟨hid, rfl⟩ | ⟨-, rfl⟩⟩ := mem_roll he'
    · obtain ⟨rfl, hst⟩ := hnot e0 (mem_of_mem_tail he0) hid
      exact absurd (hs.waiting e0 he0) hst
    · exact hs.waiting e' he0
  · intro e' he' hin
    obtain ⟨e0, he0, ⟨-, rfl⟩ | ⟨-, rfl⟩⟩ := mem_roll he'
    · exact fun h => by cases h
    · exact hs.ready e' he0 (mem_of_mem_erase hin)
  · intro hmode
    apply hkeep
    simp only [Server.letRoll] at hmode
    split at hmode
    · rename_i hchange
      cases hh : s.listHead id with
      | none =>
        obtain ⟨hmem, hst⟩ := hs.of_ready he hready hh
        exact hs.toAdmin e hmem hmode hst
      | some h =>
        rw [(hs.wf.handle h e (lookup_linked hh he).1).2] at hchange
        cases hchange
    · exact hs.admin hmode
  · intro e' he' hmode hst
    apply hkeep
    obtain ⟨e0, he0, ⟨hid, rfl⟩ | ⟨-, rfl⟩⟩ := mem_roll he'
    · obtain ⟨rfl, hst⟩ := hnot e0 he0 hid
      exact hs.toAdmin e0 he0 hmode hst
    · exact hs.toAdmin e' he0 hmode hst

end

theorem Governed.notReady (id : ReqSchedId) (e : Element) : Governed (notReady s id e) := by
  unfold Server.notReady
  split
  · exact hs.drop (Sublist.refl _) (Sublist.refl _) erase_sublist
  · exact hs

theorem Governed.leaveSpecial (id : ReqSchedId) : Governed (leaveSpecial s id) :=
  hs.drop filter_sublist filter_sublist (Sublist.refl _)

end

theorem keeps_governed : Keeps Governed (fun _ _ _ => True) (fun _ => True) where
  enter _ _ _ hs ht _ := hs.enter ht
  addTimer _ _ hs hid hst hq := hs.addTimer hid hst hq
  dropTimer _ hs hq := hs.drop (Sublist.refl _) hq (Sublist.refl _)
  addMode mode _ hs :=
    hs.enqueueMode (by simp) (.inl rfl) hs.admin (fun _ h => absurd rfl h)
      (keeps_wf.addMode mode trivial hs.wf)
  setMode mode _ hs hq hzero := by
    have hno : mode = .admin → NoModification _ := fun h => hs.noModification (hzero h)
    refine hs.enqueueMode (by simp) (.inr hq) hno (fun h _ => hno h) ?_
    exact (keeps_wf.setMode mode trivial hs.wf hq hzero).congr rfl rfl rfl (fun _ h => h)
      fun e he => ⟨e, he, rfl⟩
  readyMode hs hq hzero hout := hs.readyMode hq hzero hout
  unpostSpecial hs _ _ _ _ := (hs.notReady _ _).leaveSpecial _
  unpost {s id e h} hs he hst _ hh := by
    have hwf := keeps_wf.unpost hs.wf he hst trivial hh
    refine (hs.notReady id e).leaveQueue (by rw [notReady_listHead]; exact hh) ?_ hwf
    rw [notReady_table]
    exact hs.wf.unpost_woken_queued
  releaseSpecial hs _ _ _ := hs.leaveSpecial _
  release hs he _ hh :=
    hs.leaveQueue hh (hs.wf.blocks _).woken_queued (keeps_wf.release hs.wf he trivial hh)
  roll hs he hready := hs.letRoll he hready

end Pvfs.Server
