import Pvfs.Server.AdminMode

/-! # Each element completes once

A request or a timer is reported complete at most once, by the post that lets it go ahead
at once or by a later test, and is put on the ready queue at most once. For a fixed
identifier that is no change of mode, `Due` says that a report of it may still come:
no call makes it due again, and a call that reports it finds it due and leaves it not so. -/

namespace Pvfs.Server

open Scheduler Lib List

variable {s s' s₁ s₂ : Scheduler} {id : ReqSchedId} {h : Handle} {e e' : Element} {n : Nat}
  {D : Prop} {ids ids₁ ids₂ : List ReqSchedId}

def NotMode (s : Scheduler) (id : ReqSchedId) : Prop := ∀ e ∈ s.modeQueue, e.id ≠ id

/-- The identifier may still be reported: it has not been handed out, or its request has not
been scheduled, or it is on the ready queue, or it is a timer that has not gone off. -/
def Due (s : Scheduler) (id : ReqSchedId) : Prop :=
  s.nextId ≤ id ∨ (∃ h, ∃ e ∈ s.reqSchedTable h, e.id = id ∧ e.state ≠ .scheduled) ∨
    id ∈ s.readyQueue ∨ ∃ e ∈ s.timerQueue, e.id = id

def Unplaced (s : Scheduler) (id : ReqSchedId) : Prop :=
  s.nextId ≤ id ∨ ∃ h, ∃ e ∈ s.reqSchedTable h, e.id = id ∧ e.state = .queued

/-- A request comes into the ready queue at most once. -/
def PlacedOnce (s : Scheduler) (id : ReqSchedId) : Prop :=
  s.placed.count id ≤ 1 ∧ (Unplaced s id → id ∉ s.placed)

/-! ## What each change does to one identifier -/

theorem Due.of_enqueue (hid : e.id = s.nextId) (hd : Due (enqueue s e) id) : Due s id := by
  obtain hn | ⟨h, e', he', rfl, hst⟩ | hin | ht := hd
  · exact .inl (Nat.le_of_succ_le hn)
  · obtain he' | ⟨-, rfl⟩ := of_mem_enqueue he'
    · exact .inr (.inl ⟨h, e', he', rfl, hst⟩)
    · exact .inl (Nat.le_of_eq hid.symm)
  · exact .inr (.inr (.inl hin))
  · exact .inr (.inr (.inr ht))

variable {i : ReqSchedId}

theorem Due.of_leaveQueue (hs : s.Wf) (hh : s.listHead id = some h)
    (hqueued : ∀ e ∈ (without id (s.reqSchedTable h)).take n, e.state = .queued)
    (hd : Due (leaveQueue s h id n) i) : Due s i := by
  have hwoken : ∀ e ∈ (without id (s.reqSchedTable h)).take n, e.id = i → Due s i := by
    intro e he hid
    refine .inr (.inl ⟨h, e, (Wf.of_mem_woken he).1, hid, ?_⟩)
    rw [hqueued e he]
    exact fun h => by cases h
  obtain hn | ⟨h', e', he', rfl, hst⟩ | hin | ht := hd
  · exact .inl hn
  · obtain ⟨e, he, -, ⟨rfl, -, htake⟩ | ⟨rfl, -⟩⟩ := hs.of_mem_leaveQueue hh he'
    · exact hwoken e htake rfl
    · exact .inr (.inl ⟨h', e', he, rfl, hst⟩)
  · simp only [leaveQueue, addReady, setQueue, mem_append, mem_map] at hin
    obtain hin | ⟨e, he, hid⟩ := hin
    · exact .inr (.inr (.inl hin))
    · exact hwoken e he hid
  · exact .inr (.inr (.inr ht))

theorem Due.of_letRoll (hd : Due (letRoll s e) id) : Due s id := by
  obtain hn | ⟨h, e', he', rfl, hst⟩ | hin | ht := hd
  · exact .inl hn
  · obtain ⟨e0, he0, ⟨-, rfl⟩ | ⟨-, rfl⟩⟩ := mem_roll he'
    · exact absurd rfl hst
    · exact .inr (.inl ⟨h, e', he0, rfl, hst⟩)
  · exact .inr (.inr (.inl (mem_of_mem_erase hin)))
  · exact .inr (.inr (.inr ht))

theorem not_due_letRoll (hs : Governed s) (he : e ∈ s.reqSchedTable h) :
    ¬ Due (letRoll s e) e.id := by
  rintro (hn | ⟨h', e', he', hid', hst⟩ | hin | ⟨e', he', hid'⟩)
  · exact absurd (hs.wf.fresh h e he).2 (Nat.not_lt.mpr hn)
  · obtain ⟨e0, he0, ⟨-, rfl⟩ | ⟨hne, rfl⟩⟩ := mem_roll he'
    · exact hst rfl
    · exact hne hid'
  · exact (hs.nodup.mem_erase_iff.mp hin).1 rfl
  · exact hs.wf.ne_special he (mem_append_right _ he') hid'.symm

variable {q : List Element}

theorem not_due_timer (hs : Governed s) (he : e ∈ s.timerQueue)
    (hq : ∀ e' ∈ q, e'.id ≠ e.id) : ¬ Due { s with timerQueue := q } e.id := by
  have hsp := mem_append_right s.modeQueue he
  rintro (hn | ⟨h, e', he', hid', -⟩ | hin | ⟨e', he', hid'⟩)
  · exact absurd (hs.wf.special e hsp).2 (Nat.not_lt.mpr hn)
  · exact hs.wf.ne_special he' hsp hid'
  · exact (hs.timers e he).2 hin
  · exact hq e' he' hid'

theorem PlacedOnce.leaveQueue (hs : s.Wf) (hh : s.listHead id = some h)
    (hqueued : ∀ e ∈ (without id (s.reqSchedTable h)).take n, e.state = .queued)
    (hp : PlacedOnce s i) : PlacedOnce (leaveQueue s h id n) i := by
  have hplaced : (Server.leaveQueue s h id n).placed =
      s.placed ++ ((without id (s.reqSchedTable h)).take n).map Element.id := rfl
  have hnodup : (((without id (s.reqSchedTable h)).take n).map Element.id).Nodup :=
    ((hs.nodup h).sublist (filter_sublist.map _)).sublist ((take_sublist _ _).map _)
  by_cases hi : i ∈ ((without id (s.reqSchedTable h)).take n).map Element.id
  · -- woken now, so it was waiting and waits no longer
    obtain ⟨e, he, rfl⟩ := mem_map.mp hi
    have hold := (Wf.of_mem_woken he).1
    have hout : e.id ∉ s.placed := hp.2 (.inr ⟨h, e, hold, rfl, hqueued e he⟩)
    refine ⟨?_, ?_⟩
    · rw [hplaced, count_append, count_eq_zero.mpr hout, Nat.zero_add]
      exact nodup_iff_count_le_one.mp hnodup _
    · rintro (hn | ⟨h', e', he', hid', hst⟩)
      · exact absurd (hs.fresh h e hold).2 (Nat.not_lt.mpr hn)
      · obtain ⟨e0, -, -, ⟨rfl, -⟩ | ⟨rfl, hnone⟩⟩ := hs.of_mem_leaveQueue hh he'
        · cases hst
        · exact absurd hid'.symm (hnone e he)
  · refine ⟨?_, ?_⟩
    · rw [hplaced, count_append, count_eq_zero.mpr hi]
      exact hp.1
    · intro hu
      rw [hplaced, mem_append, not_or]
      refine ⟨hp.2 ?_, hi⟩
      obtain hn | ⟨h', e', he', hid', hst⟩ := hu
      · exact .inl hn
      · obtain ⟨e0, he0, -, ⟨rfl, -⟩ | ⟨rfl, -⟩⟩ := hs.of_mem_leaveQueue hh he'
        · cases hst
        · exact .inr ⟨h', e', he0, hid', hst⟩

theorem PlacedOnce.mono (hp : PlacedOnce s id) (hplaced : s'.placed = s.placed)
    (hu : Unplaced s' id → Unplaced s id) : PlacedOnce s' id := by
  rw [PlacedOnce, hplaced]
  exact ⟨hp.1, fun h => hp.2 (hu h)⟩

/-- What is known of one request along a run. -/
structure Tracked (id : ReqSchedId) (D : Prop) (s : Scheduler) : Prop where
  governed : Governed s
  notMode : NotMode s id
  due : Due s id → D

section
variable (hs : Tracked id D s)
include hs

theorem Tracked.enqueueMode {mode current : ServerMode} {st : ReqState} (hne : s.nextId ≠ id)
    (hg : Governed { enqueueMode s (modeElement s mode st) with currentMode := current }) :
    Tracked id D { enqueueMode s (modeElement s mode st) with currentMode := current } where
  governed := hg
  notMode e he := by
    rw [Server.enqueueMode, mem_append, mem_singleton] at he
    obtain he | rfl := he
    · exact hs.notMode e he
    · exact hne
  due hd := hs.due (hd.imp_left Nat.le_of_succ_le)

theorem Tracked.drop {mq tq : List Element} {rq : List ReqSchedId} (hmq : mq.Sublist s.modeQueue)
    (htq : tq.Sublist s.timerQueue) (hrq : rq.Sublist s.readyQueue) :
    Tracked id D { s with modeQueue := mq, timerQueue := tq, readyQueue := rq } where
  governed := hs.governed.drop hmq htq hrq
  notMode e he := hs.notMode e (hmq.subset he)
  due hd := by
    apply hs.due
    obtain hn | ht | hin | ⟨e, he, hid⟩ := hd
    · exact .inl hn
    · exact .inr (.inl ht)
    · exact .inr (.inr (.inl (hrq.subset hin)))
    · exact .inr (.inr (.inr ⟨e, htq.subset he, hid⟩))

theorem Tracked.notReady (i : ReqSchedId) (e : Element) : Tracked id D (notReady s i e) := by
  unfold Server.notReady
  split
  · exact hs.drop (Sublist.refl _) (Sublist.refl _) erase_sublist
  · exact hs

theorem Tracked.leaveQueue (hh : s.listHead i = some h)
    (hqueued : ∀ e ∈ (without i (s.reqSchedTable h)).take n, e.state = .queued)
    (hwf : (leaveQueue s h i n).Wf) : Tracked id D (leaveQueue s h i n) where
  governed := hs.governed.leaveQueue hh hqueued hwf
  notMode := hs.notMode
  due hd := hs.due (hd.of_leaveQueue hs.governed.wf hh hqueued)

end

/-- **No change makes an identifier due again.** -/
theorem keeps_tracked : Keeps (Tracked id D) (fun _ _ _ => True) (fun s => s.nextId ≠ id) where
  enter op h a hs ht _ :=
    ⟨hs.governed.enter ht, hs.notMode, fun hd => hs.due (hd.of_enqueue rfl)⟩
  addTimer e q hs hid hst hq := by
    refine ⟨hs.governed.addTimer hid hst hq, hs.notMode, fun hd => hs.due ?_⟩
    obtain hn | ht | hin | ⟨e', he', hid'⟩ := hd
    · exact .inl (Nat.le_of_succ_le hn)
    · exact .inr (.inl ht)
    · exact .inr (.inr (.inl hin))
    · obtain rfl | he' := mem_cons.mp (hq.subset he')
      · exact .inl (Nat.le_of_eq (hid.symm.trans hid'))
      · exact .inr (.inr (.inr ⟨e', he', hid'⟩))
  dropTimer _ hs hq := hs.drop (Sublist.refl _) hq (Sublist.refl _)
  addMode mode hne hs := hs.enqueueMode hne (keeps_governed.addMode mode trivial hs.governed)
  setMode mode hne hs hq hzero :=
    hs.enqueueMode hne (keeps_governed.setMode mode trivial hs.governed hq hzero)
  readyMode {s next rest} hs hq hzero hout := by
    have hne : next.id ≠ id := hs.notMode next (by simp [hq])
    refine ⟨hs.governed.readyMode hq hzero hout, ?_, fun hd => hs.due ?_⟩
    · intro e he
      obtain rfl | he := mem_cons.mp he
      · exact hne
      · exact hs.notMode e (by rw [hq]; exact mem_cons_of_mem _ he)
    · obtain hn | ht | hin | ht := hd
      · exact .inl hn
      · exact .inr (.inl ht)
      · simp only [readyMode, addReady, mem_append, mem_singleton] at hin
        exact .inr (.inr (.inl (hin.resolve_right hne.symm)))
      · exact .inr (.inr (.inr ht))
  unpostSpecial hs _ _ _ _ :=
    (hs.notReady _ _).drop filter_sublist filter_sublist (Sublist.refl _)
  unpost {s i e h} hs he hst _ hh := by
    have hwf := keeps_wf.unpost hs.governed.wf he hst trivial hh
    refine (hs.notReady i e).leaveQueue (by rw [notReady_listHead]; exact hh) ?_ hwf
    rw [notReady_table]
    exact hs.governed.wf.unpost_woken_queued
  releaseSpecial hs _ _ _ :=
    hs.drop filter_sublist filter_sublist (Sublist.refl _)
  release hs he _ hh :=
    hs.leaveQueue hh (hs.governed.wf.blocks _).woken_queued
      (keeps_wf.release hs.governed.wf he trivial hh)
  roll {s i e} hs he hready := by
    refine ⟨hs.governed.letRoll he hready, ?_, fun hd => hs.due hd.of_letRoll⟩
    intro e' he'
    obtain ⟨e0, he0, ⟨-, rfl⟩ | ⟨-, rfl⟩⟩ := mem_roll he'
    · exact hs.notMode e0 he0
    · exact hs.notMode e' he0

theorem keeps_placedOnce : Keeps (fun s => Tracked id True s ∧ PlacedOnce s id) (fun _ _ _ => True)
    (fun s => s.nextId ≠ id) where
  enter op h a hs ht _ := by
    refine ⟨keeps_tracked.enter op h a hs.1 ht trivial, hs.2.mono rfl fun hu => ?_⟩
    obtain hn | ⟨h', e', he', hid, hst⟩ := hu
    · exact .inl (Nat.le_of_succ_le hn)
    · obtain he' | ⟨-, rfl⟩ := of_mem_enqueue he'
      · exact .inr ⟨h', e', he', hid, hst⟩
      · exact .inl (Nat.le_of_eq hid)
  addTimer e q hs hid hst hq :=
    ⟨keeps_tracked.addTimer e q hs.1 hid hst hq,
      hs.2.mono rfl fun hu => hu.imp_left Nat.le_of_succ_le⟩
  dropTimer q hs hq := ⟨keeps_tracked.dropTimer q hs.1 hq, hs.2.mono rfl fun hu => hu⟩
  addMode mode hne hs :=
    ⟨keeps_tracked.addMode mode hne hs.1, hs.2.mono rfl fun hu => hu.imp_left Nat.le_of_succ_le⟩
  setMode mode hne hs hq hzero :=
    ⟨keeps_tracked.setMode mode hne hs.1 hq hzero,
      hs.2.mono rfl fun hu => hu.imp_left Nat.le_of_succ_le⟩
  readyMode {s next rest} hs hq hzero hout := by
    have hne : next.id ≠ id := hs.1.notMode next (by simp [hq])
    have hplaced : (readyMode s next rest).placed = s.placed ++ [next.id] := rfl
    refine ⟨keeps_tracked.readyMode hs.1 hq hzero hout, ?_, fun hu => ?_⟩
    · rw [hplaced, count_append]
      simpa [hne] using hs.2.1
    · rw [hplaced, mem_append, mem_singleton]
      exact not_or.mpr ⟨hs.2.2 hu, hne.symm⟩
  unpostSpecial {s i e} hs he hst _ hh := by
    refine ⟨keeps_tracked.unpostSpecial hs.1 he hst trivial hh, hs.2.mono ?_ fun hu => ?_⟩
    · unfold Server.notReady; split <;> rfl
    · simpa only [Unplaced, leaveSpecial, notReady_table, notReady_nextId] using hu
  unpost {s i e h} hs he hst _ hh := by
    refine ⟨keeps_tracked.unpost hs.1 he hst trivial hh, ?_⟩
    have hwf := hs.1.governed.wf
    refine (hs.2.leaveQueue hwf hh (hwf.unpost_woken_queued (e := e))).mono ?_ ?_
    · simp only [leaveQueue, addReady, setQueue, notReady_table, notReady_placed]
    · intro hu
      simpa only [Unplaced, leaveQueue, addReady, setQueue, notReady_table, notReady_nextId] using hu
  releaseSpecial hs he _ hh :=
    ⟨keeps_tracked.releaseSpecial hs.1 he trivial hh, hs.2.mono rfl fun hu => hu⟩
  release hs he _ hh :=
    ⟨keeps_tracked.release hs.1 he trivial hh,
      hs.2.leaveQueue hs.1.governed.wf hh (hs.1.governed.wf.blocks _).woken_queued⟩
  roll hs he hready := by
    refine ⟨keeps_tracked.roll hs.1 he hready, hs.2.mono rfl fun hu => hu.imp_right ?_⟩
    rintro ⟨h, e', he', hid, hst⟩
    obtain ⟨e0, he0, ⟨-, rfl⟩ | ⟨-, rfl⟩⟩ := mem_roll he'
    · cases hst
    · exact ⟨h, e', he0, hid, hst⟩

/-! ## What each call reports -/

/-- The reports `ids` on the way from `s` to `s'`, as far as one identifier is concerned. -/
structure Reports (id : ReqSchedId) (s : Scheduler) (ids : List ReqSchedId) (s' : Scheduler) :
    Prop where
  once : ids.count id ≤ 1
  due : id ∈ ids → Due s id
  after : Due s' id → Due s id ∧ id ∉ ids

theorem Reports.silent (hids : id ∉ ids) (hdue : Due s' id → Due s id) : Reports id s ids s' where
  once := (count_eq_zero.mpr hids).trans_le (Nat.zero_le 1)
  due hin := absurd hin hids
  after hd := ⟨hdue hd, hids⟩

theorem Reports.single (hdue : Due s id) (hafter : ¬ Due s' id) : Reports id s [id] s' where
  once := by simp
  due _ := hdue
  after hd := absurd hd hafter

theorem Reports.trans (h1 : Reports id s ids₁ s₁) (h2 : Reports id s₁ ids₂ s₂) :
    Reports id s (ids₁ ++ ids₂) s₂ where
  once := by
    rw [count_append]
    by_cases hin : id ∈ ids₂
    · have hout := (h1.after (h2.due hin)).2
      rw [count_eq_zero.mpr hout, Nat.zero_add]
      exact h2.once
    · rw [count_eq_zero.mpr hin]
      exact h1.once
  due hin := by
    obtain hin | hin := mem_append.mp hin
    · exact h1.due hin
    · exact (h1.after (h2.due hin)).1
  after hd := by
    obtain ⟨hd1, hout2⟩ := h2.after hd
    obtain ⟨hd0, hout1⟩ := h1.after hd1
    exact ⟨hd0, fun hin => (mem_append.mp hin).elim hout1 hout2⟩

theorem reports_letRoll (hs : Tracked id D s) (he : s.lookup i = some e)
    (hready : e.state = .readyToSchedule ∨ i ∈ s.readyQueue) : Reports id s [i] (letRoll s e) := by
  by_cases hi : i = id
  · subst hi
    cases hh : s.listHead i with
    | none =>
      obtain ⟨hmem, -⟩ := hs.governed.of_ready he hready hh
      exact absurd (lookup_special hh he).2 (hs.notMode e hmem)
    | some h =>
      obtain ⟨hmem, rfl⟩ := lookup_linked hh he
      refine Reports.single ?_ (not_due_letRoll hs.governed hmem)
      obtain hst | hin := hready
      · exact .inr (.inl ⟨h, e, hmem, rfl, by rw [hst]; exact fun h => by cases h⟩)
      · exact .inr (.inr (.inl hin))
  · exact Reports.silent (fun hin => hi (mem_singleton.mp hin).symm) Due.of_letRoll

theorem Due.of_dropTimer (hq : q.Sublist s.timerQueue)
    (hd : Due { s with timerQueue := q } id) : Due s id := by
  obtain hn | ht | hin | ⟨e, he, hid⟩ := hd
  · exact .inl hn
  · exact .inr (.inl ht)
  · exact .inr (.inr (.inl hin))
  · exact .inr (.inr (.inr ⟨e, hq.subset he, hid⟩))

theorem Governed.timer_of_timing (hs : Governed s) (he : s.lookup i = some e)
    (hst : e.state = .timing) : e ∈ s.timerQueue ∧ e.id = i := by
  cases hh : s.listHead i with
  | none =>
    obtain ⟨hmem, hid⟩ := lookup_special hh he
    obtain hmem | hmem := mem_append.mp hmem
    · exact absurd hst (hs.modes e hmem)
    · exact ⟨hmem, hid⟩
  | some h =>
    obtain hact | hq := (hs.wf.blocks h).active_or_queued e (lookup_linked hh he).1
    · simp [Element.active, hst] at hact
    · rw [hst] at hq
      cases hq

theorem reports_tested (h : Tested s ids s') (hs : Tracked id D s) : Reports id s ids s' := by
  induction h with
  | same s => exact Reports.silent (by simp) fun hd => hd
  | rolled he hready => exact reports_letRoll hs he hready
  | @expired s i e he hst =>
    obtain ⟨hmem, rfl⟩ := hs.governed.timer_of_timing he hst
    by_cases hi : e.id = id
    · subst hi
      refine Reports.single (.inr (.inr (.inr ⟨e, hmem, rfl⟩))) ?_
      exact not_due_timer hs.governed hmem fun e' he' => (mem_without.mp he').2
    · exact Reports.silent (fun hin => hi (mem_singleton.mp hin).symm)
        (Due.of_dropTimer filter_sublist)
  | trans h1 h2 ih1 ih2 => exact (ih1 hs).trans (ih2 (keeps_tracked.tested h1 hs))

theorem reports_timers (hs : Governed s) (n : Nat) :
    Reports id s ((s.timerQueue.take n).map Element.id)
      { s with timerQueue := s.timerQueue.drop n } := by
  have hnodup : (s.timerQueue.map Element.id).Nodup :=
    hs.special.sublist ((sublist_append_right _ _).map _)
  by_cases hin : id ∈ (s.timerQueue.take n).map Element.id
  · obtain ⟨e, he, rfl⟩ := mem_map.mp hin
    have hmem := mem_of_mem_take he
    refine ⟨?_, fun _ => .inr (.inr (.inr ⟨e, hmem, rfl⟩)), fun hd => ?_⟩
    · exact nodup_iff_count_le_one.mp (hnodup.sublist ((take_sublist _ _).map _)) _
    · refine absurd hd (not_due_timer hs hmem fun e' he' heq => ?_)
      rw [← take_append_drop n s.timerQueue, map_append] at hnodup
      exact (nodup_append.mp hnodup).2.2 _ hin _ (mem_map_of_mem he') heq.symm
  · exact Reports.silent hin (Due.of_dropTimer (drop_sublist _ _))

theorem not_due_enqueue (hs : Governed s) (hid : e.id = s.nextId) (hst : e.state = .scheduled) :
    ¬ Due (enqueue s e) e.id := by
  rintro (hn | ⟨h, e', he', hid', hst'⟩ | hin | ⟨e', he', hid'⟩)
  · rw [hid] at hn
    exact Nat.not_succ_le_self _ hn
  · obtain he' | ⟨-, rfl⟩ := of_mem_enqueue he'
    · exact Nat.ne_of_lt (hs.wf.fresh h e' he').2 (hid'.trans hid)
    · exact hst' hst
  · exact Nat.ne_of_lt (hs.wf.ready _ hin).1 hid
  · exact Nat.ne_of_lt (hs.wf.special e' (mem_append_right _ he')).2 (hid'.trans hid)

theorem reports_post {op : ServerOp} {a : AccessType} {p : SchedPolicy} (hs : Tracked id D s)
    (hpos : id ≠ 0) :
    Reports id s (reqSchedPost s op h a p).1.reported (reqSchedPost s op h a p).2 := by
  have hsame : Reports id s [] s := Reports.silent (by simp) fun hd => hd
  unfold reqSchedPost
  split
  · exact hsame
  · cases p with
    | bypass => exact Reports.silent (by simpa [PostResult.reported] using hpos) fun hd => hd
    | schedule =>
      dsimp only
      split
      · rename_i hst
        by_cases hid : s.nextId = id
        · subst hid
          exact Reports.single (.inl (Nat.le_refl _)) (not_due_enqueue hs.governed rfl hst)
        · refine Reports.silent (fun hin => ?_) (Due.of_enqueue rfl)
          exact hid (mem_singleton.mp hin).symm
      · exact Reports.silent (by simp [PostResult.reported]) (Due.of_enqueue rfl)

theorem changeMode_reported {mode : ServerMode} {r : PostResult}
    (h : reqSchedChangeMode s mode = some (r, s')) : ∀ i ∈ r.reported, i = s.nextId := by
  intro i hi
  obtain ⟨rfl, -⟩ | ⟨rfl, -⟩ := changeMode_cases h
  · exact mem_singleton.mp hi
  · cases hi

/-- **A call reports an identifier only if it is due, and then it is due no longer.** -/
theorem reports_call {c : Call} (hs : Tracked id True s) (hpos : id ≠ 0)
    (hmode : ∀ mode, c = .changeMode mode → s.nextId ≠ id) (h : s.call c = some (ids, s')) :
    Reports id s ids s' := by
  have hdue : Due s' id → Due s id :=
    (keeps_tracked.call
      ⟨hs.governed, hs.notMode, fun hd => hd⟩ (fun _ _ _ _ _ => trivial)
      (fun _ _ _ _ => trivial) hmode h).due
  cases c with
  | post op hd a p =>
    obtain ⟨rfl, rfl⟩ := h
    exact reports_post hs hpos
  | postTimer msecs now =>
    obtain ⟨rfl, rfl⟩ := h
    refine Reports.silent ?_ hdue
    unfold reqSchedPostTimer
    split
    · simpa [PostResult.reported] using hpos
    · simp [PostResult.reported]
  | changeMode mode =>
    simp only [Scheduler.call, Option.map_eq_some_iff, Prod.mk.injEq] at h
    obtain ⟨⟨r, s₁⟩, hr, rfl, rfl⟩ := h
    refine Reports.silent (fun hin => ?_) hdue
    exact hmode mode rfl (changeMode_reported hr id hin).symm
  | unpost i | release i =>
    simp only [Scheduler.call, Option.map_eq_some_iff, Prod.mk.injEq] at h
    obtain ⟨-, -, rfl, -⟩ := h
    exact Reports.silent (by simp) hdue
  | test i now =>
    simp only [Scheduler.call, Option.map_eq_some_iff, Prod.mk.injEq] at h
    obtain ⟨⟨r, s₁⟩, hr, rfl, rfl⟩ := h
    exact reports_tested (.of_test hr) hs
  | testsome is now =>
    simp only [Scheduler.call, Option.map_eq_some_iff, Prod.mk.injEq] at h
    obtain ⟨⟨ok, done, s₁⟩, hr, rfl, rfl⟩ := h
    exact reports_tested (.of_testsome hr) hs
  | testworld incount now =>
    simp only [Scheduler.call, reqSchedTestworld, Option.map_eq_some_iff, Prod.mk.injEq] at h
    obtain ⟨⟨ready, s₁⟩, hr, rfl, rfl⟩ := h
    exact (reports_timers hs.governed _).trans
      (reports_tested (.of_rollReady hr) (keeps_tracked.dropTimer _ hs (drop_sublist _ _)))

/-! ## Whole runs -/

/-- The scheduler with a record of its run: what it reported complete, and the identifiers it
gave to changes of mode. -/
structure Recorded where
  sched : Scheduler
  reported : List ReqSchedId
  changes : List ReqSchedId

def Recorded.start : Recorded := ⟨reqSchedInitialize, [], []⟩

def recordedStep (r : Recorded) (c : Call) : Option Recorded :=
  (r.sched.call c).map fun (ids, s') =>
    { sched := s'
      reported := r.reported ++ ids
      changes := match c with
        | .changeMode _ => r.changes ++ [r.sched.nextId]
        | _ => r.changes }

/-- What the scheduler promises about administrative mode and about completion. -/
structure Isolated (r : Recorded) : Prop where
  /-- In administrative mode no request that modifies the file system is scheduled, but for
      management operations. -/
  admin : r.sched.currentMode = .admin → ∀ h, ∀ e ∈ r.sched.reqSchedTable h,
    e.state = .scheduled → e.declared = .modify → e.op.isMgmtOp = true
  /-- While a change to that mode is scheduled, there is none in any queue. -/
  toAdmin : ∀ e ∈ r.sched.modeQueue, e.mode = .admin → e.state = .scheduled →
    NoModification r.sched
  placed : ∀ id ∉ r.changes, r.sched.placed.count id ≤ 1
  /-- Identifier 0 stands for requests that have no element. -/
  reported : ∀ id ∉ r.changes, id ≠ 0 → r.reported.count id ≤ 1

structure Recorded.Inv (r : Recorded) : Prop where
  governed : Governed r.sched
  tracked : ∀ id ∉ r.changes, (Tracked id True r.sched ∧ PlacedOnce r.sched id) ∧
    (id ≠ 0 → r.reported.count id ≤ 1 ∧ (Due r.sched id → id ∉ r.reported))

theorem Recorded.inv_start : Recorded.start.Inv where
  governed := governed_start
  tracked id _ := by
    refine ⟨⟨⟨governed_start, fun e he => absurd he not_mem_nil, fun _ => trivial⟩, ?_⟩, ?_⟩
    · exact ⟨Nat.zero_le 1, fun _ => not_mem_nil⟩
    · exact fun _ => ⟨Nat.zero_le 1, fun _ => not_mem_nil⟩

/-- Every call keeps the record right. -/
theorem Recorded.Inv.step {r r' : Recorded} {c : Call} (hr : r.Inv) (h : recordedStep r c = some r') :
    r'.Inv := by
  obtain ⟨⟨ids, s'⟩, hcall, rfl⟩ := Option.map_eq_some_iff.mp h
  refine ⟨keeps_governed.call hr.governed (fun _ _ _ _ _ => trivial) (fun _ _ _ _ => trivial)
    (fun _ _ => trivial) hcall, fun id hid => ?_⟩
  have hold : id ∉ r.changes ∧ ∀ mode, c = .changeMode mode → r.sched.nextId ≠ id := by
    cases c with
    | changeMode mode =>
      simp only [mem_append, mem_singleton, not_or] at hid
      exact ⟨hid.1, fun _ _ heq => hid.2 heq.symm⟩
    | _ => exact ⟨hid, fun _ hc => by cases hc⟩
  obtain ⟨htracked, hcount⟩ := hr.tracked id hold.1
  refine ⟨keeps_placedOnce.call htracked (fun _ _ _ _ _ => trivial) (fun _ _ _ _ => trivial) hold.2
    hcall, fun hpos => ?_⟩
  have hrep := reports_call htracked.1 hpos hold.2 hcall
  obtain ⟨hone, hnot⟩ := hcount hpos
  refine ⟨?_, fun hd => ?_⟩
  · rw [count_append]
    by_cases hin : id ∈ ids
    · rw [count_eq_zero.mpr (hnot (hrep.due hin)), Nat.zero_add]
      exact hrep.once
    · rw [count_eq_zero.mpr hin]
      exact hone
  · obtain ⟨hd0, hout⟩ := hrep.after hd
    exact fun hin => (mem_append.mp hin).elim (hnot hd0) hout

theorem Recorded.Inv.isolated {r : Recorded} (hr : r.Inv) : Isolated r where
  admin hmode h e he _ := hr.governed.admin hmode h e he
  toAdmin e he hmode hst := hr.governed.toAdmin e he hmode (by rw [hst]; exact fun h => by cases h)
  placed id hid := (hr.tracked id hid).1.2.1
  reported id hid hpos := ((hr.tracked id hid).2 hpos).1

/-- **Administrative mode is isolated and elements complete once**, along every run of calls. -/
theorem scheduler_isolated (calls : List Call) :
    Throughout recordedStep Isolated Recorded.start calls :=
  (Throughout.of_step (I := Recorded.Inv) (fun _ _ _ hr h => hr.step h) Recorded.inv_start
    calls).mono fun _ hr => hr.isolated

/-- A change to administrative mode that has been scheduled is put on the ready queue and
reported a second time when the next request is released; and a change to normal mode is
scheduled beside a request. -/
theorem change_of_mode_reported_twice :
    (exec recordedStep Recorded.start [.changeMode .admin, .post .getattr 7 .readonly .schedule,
      .release 2, .testworld 10 ⟨0, 0⟩]).map (fun r => r.reported) = some [1, 2, 1] ∧
    (exec recordedStep Recorded.start [.post .setattr 7 .modify .schedule,
      .changeMode .normal]).map (fun r =>
        ((r.sched.reqSchedTable 7).map Element.state, r.sched.modeQueue.map Element.state)) =
      some ([.scheduled], [.scheduled]) := by
  constructor <;> rfl

end Pvfs.Server
