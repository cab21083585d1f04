import Pvfs.Lib.Steps
import Pvfs.Server.Discipline

/-! # The ready queue, and why no assertion fails

While nobody asks for a change of mode, the ready queue holds exactly the requests that
are marked ready, each of them once. The reason is the shape of the queues: whoever is
woken was waiting, so was not on the ready queue, and whoever is released was running, so
is not on it any more. -/

namespace Pvfs.Server

open List hiding lookup
open Scheduler Lib

variable {s : Scheduler} {id i : ReqSchedId} {h : Handle} {e : Element} {n : Nat}

/-- A call made as the interface asks: the identifiers are of requests that are still there,
and what is released has been scheduled (or was let past the scheduler). -/
def Call.proper (s : Scheduler) : Call → Bool
  | .post _ _ _ _ => true
  | .postTimer _ _ => true
  | .changeMode _ => true
  | .unpost id => (s.lookup id).isSome
  | .release id => id = 0 || (s.lookup id).any fun e => e.state = .scheduled
  | .test id _ => (s.lookup id).isSome
  | .testsome ids _ => ids.Nodup && ids.all fun id => (s.lookup id).isSome
  | .testworld _ _ => true

def Call.keepsMode : Call → Bool
  | .changeMode _ => false
  | _ => true

/-- A step of a run of proper calls that leave the mode alone. -/
def requestStep (s : Scheduler) (c : Call) : Option Scheduler :=
  if c.keepsMode && c.proper s then (s.call c).map Prod.snd else none

def Marked (s : Scheduler) (id : ReqSchedId) : Prop :=
  ∃ h, ∃ e ∈ s.reqSchedTable h, e.id = id ∧ e.state = .readyToSchedule

/-- The ready queue is made up of the requests that are marked so. -/
structure ReadyExact (s : Scheduler) : Prop where
  wf : s.Wf
  noMode : s.modeQueue = []
  timers : ∀ e ∈ s.timerQueue, e.state = .timing
  exact : ∀ id, id ∈ s.readyQueue ↔ Marked s id
  nodup : s.readyQueue.Nodup

theorem readyExact_start : ReadyExact reqSchedInitialize where
  wf := wf_start
  noMode := rfl
  timers := by simp [reqSchedInitialize]
  exact := by simp [reqSchedInitialize, Marked]
  nodup := by simp [reqSchedInitialize]

/-! ## How the marks change -/

theorem marked_enqueue (he : e.state ≠ .readyToSchedule) : Marked (enqueue s e) i ↔ Marked s i := by
  constructor
  · rintro ⟨h, e', he', hid, hst⟩
    obtain he' | ⟨-, rfl⟩ := of_mem_enqueue he'
    · exact ⟨h, e', he', hid, hst⟩
    · exact absurd hst he
  · rintro ⟨h, e', he', hid, hst⟩
    exact ⟨h, e', mem_enqueue he', hid, hst⟩

theorem marked_leaveQueue (hs : s.Wf) (hh : s.listHead id = some h) :
    Marked (leaveQueue s h id n) i ↔
      (i ≠ id ∧ Marked s i) ∨ ∃ e ∈ (without id (s.reqSchedTable h)).take n, e.id = i := by
  constructor
  · rintro ⟨h', e', he', rfl, hst⟩
    obtain ⟨e, he, hne, ⟨rfl, -, htake⟩ | ⟨rfl, -⟩⟩ := hs.of_mem_leaveQueue hh he'
    · exact .inr ⟨e, htake, rfl⟩
    · exact .inl ⟨hne, h', e', he, rfl, hst⟩
  · rintro (⟨hne, h', e, he, rfl, hst⟩ | ⟨e, he, rfl⟩)
    · -- a request that was marked is still there, and stays marked if it is woken again
      obtain he' | ⟨he', -⟩ := mem_leaveQueue he hne
      · exact ⟨h', e, he', rfl, hst⟩
      · exact ⟨h', _, he', rfl, rfl⟩
    · refine ⟨h, e.withState .readyToSchedule, ?_, rfl, rfl⟩
      rw [leaveQueue_table, if_pos rfl]
      exact mem_append_left _ (mem_map_of_mem he)

theorem marked_letRoll : Marked (letRoll s e) i ↔ i ≠ e.id ∧ Marked s i := by
  constructor
  · rintro ⟨h, e', he', rfl, hst⟩
    obtain ⟨e0, he0, ⟨-, rfl⟩ | ⟨hne, rfl⟩⟩ := mem_roll he'
    · cases hst
    · exact ⟨hne, h, e', he0, rfl, hst⟩
  · rintro ⟨hne, h, e', he', rfl, hst⟩
    exact ⟨h, e', mem_map.mpr ⟨e', he', if_neg hne⟩, rfl, hst⟩

theorem Scheduler.Wf.marked_iff (hs : s.Wf) (hh : s.listHead id = some h)
    (he : s.lookup id = some e) : Marked s id ↔ e.state = .readyToSchedule := by
  obtain ⟨hmem, hid⟩ := lookup_linked hh he
  constructor
  · rintro ⟨h', e', he', hid', hst⟩
    have hlook := hs.lookup_mem he'
    rw [hid', he] at hlook
    cases hlook
    exact hst
  · exact fun hst => ⟨h, e, hmem, hid, hst⟩

/-! ## The invariant -/

theorem ReadyExact.leave (hwf : s.Wf) (hmode : s.modeQueue = [])
    (htimers : ∀ e ∈ s.timerQueue, e.state = .timing)
    (hexact : ∀ i, i ∈ s.readyQueue ↔ i ≠ id ∧ Marked s i) (hnodup : s.readyQueue.Nodup)
    (hh : s.listHead id = some h)
    (hqueued : ∀ e ∈ (without id (s.reqSchedTable h)).take n, e.state = .queued)
    (hwf' : (leaveQueue s h id n).Wf) : ReadyExact (leaveQueue s h id n) where
  wf := hwf'
  noMode := hmode
  timers := htimers
  exact i := by
    rw [marked_leaveQueue hwf hh, ← hexact, ← mem_map, ← mem_append]
    rfl
  nodup := by
    simp only [leaveQueue, addReady]
    rw [nodup_append]
    refine ⟨hnodup, ?_, ?_⟩
    · exact ((hwf.nodup h).sublist (filter_sublist.map _)).sublist ((take_sublist _ _).map _)
    · rintro a ha b hb rfl
      obtain ⟨e, he, rfl⟩ := mem_map.mp hb
      obtain ⟨-, h', e', he', hid', hst⟩ := (hexact e.id).mp ha
      have hlook := hwf.lookup_mem he'
      rw [hid', hwf.lookup_mem (Wf.of_mem_woken he).1] at hlook
      cases hlook
      rw [hqueued e he] at hst
      cases hst

theorem notReady_readyQueue (hs : ReadyExact s) (hh : s.listHead id = some h)
    (he : s.lookup id = some e) :
    ∀ i, i ∈ (notReady s id e).readyQueue ↔ i ≠ id ∧ Marked s i := by
  intro i
  have hmark := hs.wf.marked_iff hh he
  unfold notReady
  split
  · rw [hs.nodup.mem_erase_iff, hs.exact i]
  · rename_i hst
    rw [hs.exact i]
    refine ⟨fun hm => ⟨?_, hm⟩, And.right⟩
    rintro rfl
    exact hst (hmark.mp hm)

def ReleasesScheduled (_ : Scheduler) (c : Call) (e : Element) : Prop :=
  ∀ id, c = .release id → e.state = .scheduled

theorem keeps_readyExact : Keeps ReadyExact ReleasesScheduled (fun _ => False) where
  enter {s} op h a hs hno _ := by
    have hst : (newElement s op h a).state ≠ .readyToSchedule := by
      rcases admission_cases op a (s.reqSchedTable h) with ⟨-, heq⟩ | ⟨-, -, -, heq⟩ |
        ⟨-, -, -, -, heq⟩ | ⟨-, -, -, heq⟩ | ⟨-, -, heq⟩ <;> simp [newElement, heq]
    exact ⟨keeps_wf.enter op h a hs.wf hno trivial, hs.noMode, hs.timers,
      fun i => (hs.exact i).trans (marked_enqueue hst).symm, hs.nodup⟩
  addTimer e q hs hid hst hq := by
    refine ⟨keeps_wf.addTimer e q hs.wf hid hst hq, hs.noMode, fun e' he' => ?_, hs.exact, hs.nodup⟩
    obtain rfl | he' := mem_cons.mp (hq.subset he')
    · exact hst
    · exact hs.timers e' he'
  dropTimer q hs hq :=
    ⟨keeps_wf.dropTimer q hs.wf hq, hs.noMode, fun e' he' => hs.timers e' (hq.subset he'),
      hs.exact, hs.nodup⟩
  addMode _ hM := hM.elim
  setMode _ hM := hM.elim
  readyMode hs hq _ _ := by
    rw [hs.noMode] at hq
    cases hq
  unpostSpecial {s id e} hs he hst _ hh := by
    -- without changes of mode the only special operations are timers, which are never ready
    obtain ⟨hmem, -⟩ := lookup_special hh he
    rw [hs.noMode] at hmem
    have hnr : notReady s id e = s := by simp [notReady, hs.timers e hmem]
    have hwf := keeps_wf.unpostSpecial hs.wf he hst trivial hh
    rw [hnr] at hwf ⊢
    exact ⟨hwf, by simp [leaveSpecial, hs.noMode, without],
      fun e' he' => hs.timers e' (mem_without.mp he').1, hs.exact, hs.nodup⟩
  unpost {s id e h} hs he hst _ hh := by
    have hwf := keeps_wf.unpost hs.wf he hst trivial hh
    have hqueues : (notReady s id e).modeQueue = s.modeQueue ∧
        (notReady s id e).timerQueue = s.timerQueue := by
      unfold notReady; split <;> exact ⟨rfl, rfl⟩
    refine ReadyExact.leave (hs.wf.notReady id e) (by rw [hqueues.1]; exact hs.noMode)
      (by rw [hqueues.2]; exact hs.timers) ?_ ?_ (by rw [notReady_listHead]; exact hh) ?_ hwf
    · intro i
      rw [notReady_readyQueue hs hh he i]
      simp only [Marked, notReady_table]
    · unfold notReady
      split
      · exact hs.nodup.erase id
      · exact hs.nodup
    · rw [notReady_table]
      exact hs.wf.unpost_woken_queued
  releaseSpecial {s id e} hs he hR hh := by
    obtain ⟨hmem, -⟩ := lookup_special hh he
    rw [hs.noMode, nil_append] at hmem
    have hst := hs.timers e hmem
    rw [hR id rfl] at hst
    cases hst
  release {s id e h} hs he hR hh := by
    refine ReadyExact.leave hs.wf hs.noMode hs.timers ?_ hs.nodup hh (hs.wf.blocks h).woken_queued
      (keeps_wf.release hs.wf he trivial hh)
    intro i
    rw [hs.exact i]
    refine ⟨fun hm => ⟨?_, hm⟩, And.right⟩
    rintro rfl
    have hst := (hs.wf.marked_iff hh he).mp hm
    rw [hR i rfl] at hst
    cases hst
  roll {s id e} hs he hr := by
    refine ⟨keeps_wf.roll hs.wf he hr, by simp [letRoll, roll, hs.noMode], hs.timers, fun i => ?_,
      hs.nodup.erase _⟩
    rw [marked_letRoll, ← hs.exact i]
    exact hs.nodup.mem_erase_iff

/-! ## No assertion fails -/

theorem lookup_isSome_iff : (s.lookup i).isSome = true ↔
    match s.listHead i with
    | some h => ∃ e ∈ s.reqSchedTable h, e.id = i
    | none => ∃ e ∈ s.modeQueue ++ s.timerQueue, e.id = i := by
  unfold lookup
  cases s.listHead i <;> simp [find?_isSome, or_and_right, exists_or]

variable {q : List Element}

theorem exists_roll {j : ReqSchedId} (h : ∃ e ∈ q, e.id = i) :
    ∃ e ∈ roll j q, e.id = i := by
  obtain ⟨e, he, rfl⟩ := h
  refine ⟨_, mem_map_of_mem he, ?_⟩
  split <;> rfl

theorem lookup_letRoll (hi : (s.lookup i).isSome = true) :
    ((letRoll s e).lookup i).isSome = true := by
  rw [lookup_isSome_iff] at hi ⊢
  have hhead : (letRoll s e).listHead i = s.listHead i := rfl
  rw [hhead]
  cases hh : s.listHead i with
  | some h => simp only [hh] at hi; exact exists_roll hi
  | none =>
    simp only [hh] at hi
    obtain ⟨e', he', hid⟩ := hi
    obtain he' | he' := mem_append.mp he'
    · obtain ⟨e1, he1, hid1⟩ := exists_roll ⟨e', he', hid⟩
      exact ⟨e1, mem_append_left _ he1, hid1⟩
    · exact ⟨e', mem_append_right _ he', hid⟩

theorem lookup_dropTimer (hi : (s.lookup i).isSome = true) (hne : i ≠ id) :
    (({ s with timerQueue := without id s.timerQueue } : Scheduler).lookup i).isSome = true := by
  rw [lookup_isSome_iff] at hi ⊢
  cases hh : s.listHead i with
  | some h => simp only [hh] at hi; exact hi
  | none =>
    simp only [hh] at hi
    obtain ⟨e', he', hid⟩ := hi
    obtain he' | he' := mem_append.mp he'
    · exact ⟨e', mem_append_left _ he', hid⟩
    · exact ⟨e', mem_append_right _ (mem_without.mpr ⟨he', hid ▸ hne⟩), hid⟩

theorem reqSchedTest_total (now : Timeval) (hid : (s.lookup id).isSome = true) :
    ∃ r s', reqSchedTest s id now = some (r, s') ∧
      ∀ j, j ≠ id → (s.lookup j).isSome = true → (s'.lookup j).isSome = true := by
  obtain ⟨e, he⟩ := Option.isSome_iff_exists.mp hid
  unfold reqSchedTest
  simp only [he]
  cases e.state with
  | scheduled | queued => exact ⟨_, _, rfl, fun j _ hj => hj⟩
  | readyToSchedule => exact ⟨_, _, rfl, fun j _ hj => lookup_letRoll hj⟩
  | timing =>
    dsimp only
    split
    · exact ⟨_, _, rfl, fun j hne hj => lookup_dropTimer hj hne⟩
    · exact ⟨_, _, rfl, fun j _ hj => hj⟩

theorem reqSchedTestsome_total {now : Timeval} {ids : List ReqSchedId} (hnodup : ids.Nodup)
    (hids : ∀ id ∈ ids, (s.lookup id).isSome = true) :
    (reqSchedTestsome now ids s).isSome = true := by
  induction ids generalizing s with
  | nil => rfl
  | cons id ids ih =>
    rw [nodup_cons] at hnodup
    obtain ⟨r, s', hr, hkeep⟩ := reqSchedTest_total now (hids id (by simp))
    have hrest : (reqSchedTestsome now ids s').isSome = true := by
      refine ih hnodup.2 fun j hj => hkeep j ?_ (hids j (mem_cons_of_mem _ hj))
      rintro rfl
      exact hnodup.1 hj
    simp only [reqSchedTestsome, hr]
    cases r with
    | einval => rfl
    | notYet => exact hrest
    | done => simpa using hrest

theorem rollReady_total (hs : ReadyExact s) (n : Nat) : (rollReady n s).isSome = true := by
  induction n generalizing s with
  | zero => rfl
  | succ n ih =>
    unfold rollReady
    cases hq : s.readyQueue with
    | nil => rfl
    | cons id rest =>
      have hin : id ∈ s.readyQueue := by simp [hq]
      obtain ⟨h, e, he, hid, -⟩ := (hs.exact id).mp hin
      have hlook : s.lookup id = some e := hid ▸ hs.wf.lookup_mem he
      simp only [hlook, Option.isSome_map]
      exact ih (keeps_readyExact.roll hs hlook (.inr hin))

theorem scheduleModeChange_of_nil (hq : s.modeQueue = []) :
    reqSchedScheduleModeChange s = some s := by simp [reqSchedScheduleModeChange, hq]

variable {c : Call}

/-- **No assertion fails**, and no freed element is looked at, when the scheduler is called as
its interface asks. -/
theorem ReadyExact.call_isSome (hs : ReadyExact s) (hmode : c.keepsMode = true)
    (hc : c.proper s = true) : (s.call c).isSome = true := by
  cases c with
  | post op h a p | postTimer msecs now => rfl
  | changeMode mode => cases hmode
  | unpost id =>
    obtain ⟨e, he⟩ := Option.isSome_iff_exists.mp hc
    simp only [Scheduler.call, Option.isSome_map, reqSchedUnpost, he]
    split
    · rfl
    · rw [scheduleModeChange_of_nil, Option.map_some, Option.isSome_some]
      -- a request that is taken out does not touch the mode queue, which is empty
      have hnone : ∀ s1 : Scheduler, s1.modeQueue = s.modeQueue →
          (leaveSpecial s1 id).modeQueue = [] := by
        intro s1 h1
        simp only [leaveSpecial, h1, hs.noMode, without, filter_nil]
      cases s.listHead id with
      | none => exact hnone _ (by split <;> rfl)
      | some h => dsimp only [leaveQueue, addReady, setQueue]; split <;> exact hs.noMode
  | release id =>
    simp only [Scheduler.call, Option.isSome_map, reqSchedRelease]
    split
    · rfl
    · rename_i hne
      simp only [Call.proper, hne, decide_false, Bool.false_or, Option.any_eq_true] at hc
      obtain ⟨e, he, -⟩ := hc
      simp only [he]
      cases hh : s.listHead id with
      | none =>
        rw [scheduleModeChange_of_nil]
        · rfl
        · simp [leaveSpecial, hs.noMode, without]
      | some h =>
        have hasserts : ((without id (s.reqSchedTable h)).take
            (wokenByRelease (without id (s.reqSchedTable h)))).tail.all
            (fun e => e.state = .queued) = true := by
          rw [all_eq_true]
          intro e he
          simpa using (hs.wf.blocks h).woken_queued e (mem_of_mem_tail he)
        simp only [hasserts, if_true]
        rw [scheduleModeChange_of_nil]
        · rfl
        · exact hs.noMode
  | test id now =>
    obtain ⟨r, s', hr, -⟩ := reqSchedTest_total now hc
    simp [Scheduler.call, hr]
  | testsome ids now =>
    simp only [Call.proper, Bool.and_eq_true, decide_eq_true_eq, all_eq_true] at hc
    simp only [Scheduler.call, Option.isSome_map]
    exact reqSchedTestsome_total hc.1 hc.2
  | testworld incount now =>
    simp only [Scheduler.call, reqSchedTestworld, Option.isSome_map]
    exact rollReady_total (keeps_readyExact.dropTimer _ hs (drop_sublist _ _)) _

theorem releasesScheduled_of_proper (hc : c.proper s = true)
    (hcall : c = .unpost id ∨ (c = .release id ∧ id ≠ 0)) (he : s.lookup id = some e) :
    ReleasesScheduled s c e := by
  rintro j rfl
  obtain hcall | ⟨hcall, hne⟩ := hcall
  · cases hcall
  · cases hcall
    simpa [Call.proper, hne, he] using hc

/-- Every call keeps the ready queue exact. -/
theorem ReadyExact.step {s' : Scheduler} (hs : ReadyExact s)
    (h : requestStep s c = some s') : ReadyExact s' := by
  unfold requestStep at h
  split at h
  · rename_i hc
    rw [Bool.and_eq_true] at hc
    obtain ⟨⟨ids, s1⟩, hcall, rfl⟩ := Option.map_eq_some_iff.mp h
    refine keeps_readyExact.call hs ?_ (fun id e hid he => releasesScheduled_of_proper hc.2 hid he)
      (fun mode hm => ?_) hcall
    · rintro op h a rfl - id hid
      cases hid
    · rw [hm] at hc
      cases hc.1
  · cases h

structure Disciplined (s : Scheduler) : Prop where
  /-- Requests scheduled or ready, then requests queued, and never a queued one in front. -/
  blocks : ∀ h, Blocks (s.reqSchedTable h)
  /-- No request is let go before an earlier one on the same handle: identifiers are handed
      out in the order of posting. -/
  order : ∀ h, ∀ e ∈ s.reqSchedTable h, ∀ e' ∈ s.reqSchedTable h, e'.id < e.id →
    e.active = true → e'.active = true
  ready : ∀ id, id ∈ s.readyQueue ↔ ∃ e, s.lookup id = some e ∧ e.state = .readyToSchedule
  once : s.readyQueue.Nodup
  /-- Whatever call comes next, none of its assertions fails. -/
  asserts : ∀ c : Call, c.keepsMode = true → c.proper s = true → (s.call c).isSome = true

theorem Blocks.order (hq : Blocks q)
    (hsorted : (q.map Element.id).Pairwise (· < ·)) {e e' : Element} (he : e ∈ q) (he' : e' ∈ q)
    (hlt : e'.id < e.id) (hact : e.active = true) : e'.active = true := by
  obtain ⟨run, wait, rfl, hrun, hwait, -⟩ := hq
  rw [map_append, pairwise_append] at hsorted
  obtain he' | he' := mem_append.mp he'
  · exact hrun e' he'
  · -- a request that waits stands behind all that run, so an earlier one cannot
    obtain he | he := mem_append.mp he
    · have hgt := hsorted.2.2 _ (mem_map_of_mem he) _ (mem_map_of_mem he')
      exact absurd hgt (Nat.lt_asymm hlt)
    · rw [Element.not_active_of_queued (hwait e he)] at hact
      cases hact

theorem ReadyExact.disciplined (hs : ReadyExact s) : Disciplined s where
  blocks := hs.wf.blocks
  order h _ he _ he' := (hs.wf.blocks h).order (hs.wf.sorted h) he he'
  ready id := by
    rw [hs.exact id]
    constructor
    · rintro ⟨h, e, he, rfl, hst⟩
      exact ⟨e, hs.wf.lookup_mem he, hst⟩
    · rintro ⟨e, he, hst⟩
      cases hh : s.listHead id with
      | some h => exact (hs.wf.marked_iff hh he).mpr hst
      | none =>
        obtain ⟨hmem, -⟩ := lookup_special hh he
        rw [hs.noMode] at hmem
        rw [hs.timers e hmem] at hst
        cases hst
  once := hs.nodup
  asserts _ hmode hc := hs.call_isSome hmode hc

/-- **Queue discipline.**  Along every run of posts, timers, tests, releases and unposts that
are made as the interface asks, the queues keep their shape and order, the ready queue
holds just the requests marked ready, and no assertion fails. -/
theorem scheduler_disciplined (calls : List Call) :
    Throughout requestStep Disciplined reqSchedInitialize calls :=
  (Throughout.of_step (I := ReadyExact) (fun _ _ _ hs h => hs.step h) readyExact_start
    calls).mono fun _ hs => hs.disciplined

end Pvfs.Server
