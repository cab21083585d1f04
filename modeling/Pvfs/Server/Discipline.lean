import Pvfs.Server.Queues
import Mathlib.Data.List.Nodup

/-! # The discipline of the request queues

Every call of the scheduler is put together from a few changes: a request enters a queue
or leaves it, a special operation comes or goes, a ready request is let go ahead.
`Keeps I R M` says that each of these changes keeps `I`, given `R` of the call and the
element it puts in or takes out, and `M` if the server's mode may change; `Keeps.call` says
that then every call keeps `I`.

The first invariant proved with it is the shape of the queues: in each, the requests that
run or may run stand before the ones that wait, and if any wait then some run. -/

namespace Pvfs.Server

open Scheduler List Option Server
open Lib (Timeval)

variable {s s' : Scheduler} {I : Scheduler → Prop} {R : Scheduler → Call → Element → Prop}
  {M : Scheduler → Prop} {ids : List ReqSchedId} {n : Nat}

/-! ## Calls, change by change -/

/-- What `unpost` does to the ready queue before it takes an element out. -/
def notReady (s : Scheduler) (id : ReqSchedId) (e : Element) : Scheduler :=
  if e.state = .readyToSchedule then { s with readyQueue := s.readyQueue.erase id } else s

section
variable (s) (id : ReqSchedId) (e : Element)

theorem notReady_table :
    (notReady s id e).reqSchedTable = s.reqSchedTable := by unfold notReady; split <;> rfl

theorem notReady_listHead :
    (notReady s id e).listHead = s.listHead := by unfold notReady; split <;> rfl

theorem notReady_nextId :
    (notReady s id e).nextId = s.nextId := by unfold notReady; split <;> rfl

theorem notReady_placed :
    (notReady s id e).placed = s.placed := by unfold notReady; split <;> rfl

end

/-- **What tests can do**, one after the other: nothing, let a ready request go ahead, or take a
timer out of its queue. -/
inductive Tested : Scheduler → List ReqSchedId → Scheduler → Prop where
  | same (s : Scheduler) : Tested s [] s
  | rolled {s : Scheduler} {id : ReqSchedId} {e : Element} (he : s.lookup id = some e)
    (hready : e.state = .readyToSchedule ∨ id ∈ s.readyQueue) : Tested s [id] (letRoll s e)
  | expired {s : Scheduler} {id : ReqSchedId} {e : Element} (he : s.lookup id = some e)
    (hst : e.state = .timing) : Tested s [id] { s with timerQueue := without id s.timerQueue }
  | trans {s s₁ s₂ : Scheduler} {ids₁ ids₂ : List ReqSchedId} (h₁ : Tested s ids₁ s₁)
    (h₂ : Tested s₁ ids₂ s₂) : Tested s (ids₁ ++ ids₂) s₂

variable {now : Timeval}

theorem Tested.of_test {id : ReqSchedId} {r : TestResult}
    (h : reqSchedTest s id now = some (r, s')) :
    Tested s (if r = .done then [id] else []) s' := by
  unfold reqSchedTest at h
  cases he : s.lookup id with
  | none => simp [he] at h
  | some e =>
    simp only [he] at h
    cases hst : e.state with
    | scheduled | queued =>
      rw [hst] at h
      cases h
      exact .same _
    | readyToSchedule =>
      rw [hst] at h
      cases h
      exact .rolled he (.inl hst)
    | timing =>
      simp only [hst] at h
      split at h
      · cases h
        exact .expired he hst
      · cases h
        exact .same _

theorem Tested.of_testsome {is ids : List ReqSchedId} {ok : Bool}
    (h : reqSchedTestsome now is s = some (ok, ids, s')) : Tested s ids s' := by
  induction is generalizing s ids ok with
  | nil =>
    cases h
    exact .same _
  | cons id is ih =>
    simp only [reqSchedTestsome] at h
    cases ht : reqSchedTest s id now with
    | none => simp [ht] at h
    | some x =>
      obtain ⟨res, s1⟩ := x
      have hone := Tested.of_test ht
      simp only [ht] at h
      cases res with
      | einval =>
        cases h
        exact hone
      | notYet => exact hone.trans (ih h)
      | done =>
        obtain ⟨⟨ok', done, s2⟩, hrest, heq⟩ := map_eq_some_iff.mp h
        cases heq
        exact hone.trans (ih hrest)

theorem Tested.of_rollReady (h : rollReady n s = some (ids, s')) : Tested s ids s' := by
  induction n generalizing s ids with
  | zero =>
    cases h
    exact .same _
  | succ n ih =>
    simp only [rollReady] at h
    cases hq : s.readyQueue with
    | nil =>
      rw [hq] at h
      cases h
      exact .same _
    | cons id rest =>
      cases he : s.lookup id with
      | none => simp [hq, he] at h
      | some e =>
        simp only [hq, he] at h
        obtain ⟨⟨ids', s1⟩, hrest, heq⟩ := map_eq_some_iff.mp h
        cases heq
        exact (Tested.rolled he (.inr (by simp [hq]))).trans (ih hrest)

theorem changeMode_cases {mode : ServerMode} {r : PostResult}
    (h : reqSchedChangeMode s mode = some (r, s')) :
    (r = .proceed s.nextId ∧ s.modeQueue = [] ∧ (mode = .admin → s.schedCount = 0) ∧
      s' = { enqueueMode s (modeElement s mode .scheduled) with currentMode := mode }) ∨
    (r = .wait s.nextId ∧ s' = enqueueMode s (modeElement s mode .queued)) := by
  unfold reqSchedChangeMode at h
  split at h
  · rename_i hq
    cases mode with
    | normal =>
      cases h
      exact .inl ⟨rfl, hq, nofun, rfl⟩
    | admin =>
      dsimp only at h
      split at h
      · split at h
        · rename_i hzero
          cases h
          exact .inl ⟨rfl, hq, fun _ => hzero, rfl⟩
        · cases h
          exact .inr ⟨rfl, rfl⟩
      · cases h
  · cases h
    exact .inr ⟨rfl, rfl⟩

/-- Every way in which a call changes the scheduler keeps `I`. -/
structure Keeps (I : Scheduler → Prop) (R : Scheduler → Call → Element → Prop)
    (M : Scheduler → Prop) : Prop where
  enter : ∀ {s} op h a, I s → turnedAway s op a = false →
    R s (.post op h a .schedule) (newElement s op h a) → I (enqueue s (newElement s op h a))
  addTimer : ∀ {s} e q, I s → e.id = s.nextId → e.state = .timing →
    q.Perm (e :: s.timerQueue) → I { s with nextId := s.nextId + 1, timerQueue := q }
  dropTimer : ∀ {s} q, I s → List.Sublist q s.timerQueue → I { s with timerQueue := q }
  addMode : ∀ {s} mode, M s → I s → I (enqueueMode s (modeElement s mode .queued))
  setMode : ∀ {s} mode, M s → I s → s.modeQueue = [] → (mode = .admin → s.schedCount = 0) →
    I { enqueueMode s (modeElement s mode .scheduled) with currentMode := mode }
  readyMode : ∀ {s next rest}, I s → s.modeQueue = next :: rest → s.schedCount = 0 →
    next.id ∉ s.readyQueue → I (readyMode s next rest)
  unpostSpecial : ∀ {s id e}, I s → s.lookup id = some e → e.state ≠ .scheduled →
    R s (.unpost id) e →
    s.listHead id = none → I (leaveSpecial (notReady s id e) id)
  unpost : ∀ {s id e h}, I s → s.lookup id = some e → e.state ≠ .scheduled →
    R s (.unpost id) e →
    s.listHead id = some h → I (leaveQueue (notReady s id e) h id
      (if e.state = .readyToSchedule then wokenByUnpost (without id (s.reqSchedTable h)) else 0))
  releaseSpecial : ∀ {s id e}, I s → s.lookup id = some e → R s (.release id) e →
    s.listHead id = none → I (leaveSpecial s id)
  release : ∀ {s id e h}, I s → s.lookup id = some e → R s (.release id) e → s.listHead id = some h →
    I (leaveQueue s h id (wokenByRelease (without id (s.reqSchedTable h))))
  roll : ∀ {s id e}, I s → s.lookup id = some e → e.state = .readyToSchedule ∨ id ∈ s.readyQueue →
    I (letRoll s e)

namespace Keeps

variable (hI : Keeps I R M)
include hI

theorem tested (h : Tested s ids s') (hs : I s) : I s' := by
  induction h with
  | same s => exact hs
  | rolled he hready => exact hI.roll hs he hready
  | expired he hst => exact hI.dropTimer _ hs filter_sublist
  | trans h1 h2 ih1 ih2 => exact ih2 (ih1 hs)

theorem reqSchedChangeMode {mode : ServerMode} {r : PostResult} (hM : M s) (hs : I s)
    (h : reqSchedChangeMode s mode = some (r, s')) : I s' := by
  obtain ⟨-, hq, hzero, rfl⟩ | ⟨-, rfl⟩ := changeMode_cases h
  · exact hI.setMode mode hM hs hq hzero
  · exact hI.addMode mode hM hs

theorem reqSchedScheduleModeChange (hs : I s) (h : Server.reqSchedScheduleModeChange s = some s') :
    I s' := by
  unfold Server.reqSchedScheduleModeChange at h
  cases hq : s.modeQueue with
  | nil =>
    simp only [hq, Option.some.injEq] at h
    exact h ▸ hs
  | cons next rest =>
    simp only [hq] at h
    split at h
    · rename_i hzero
      split at h
      · cases h
      · rename_i hout
        cases h
        exact hI.readyMode hs hq hzero hout
    · cases h
      exact hs

variable {id : ReqSchedId}

theorem reqSchedUnpost {b : Bool} (hs : I s)
    (hR : ∀ e, s.lookup id = some e → e.state ≠ .scheduled → R s (.unpost id) e)
    (h : Server.reqSchedUnpost s id = some (b, s')) : I s' := by
  unfold Server.reqSchedUnpost at h
  cases he : s.lookup id with
  | none => simp [he] at h
  | some e =>
    by_cases hst : e.state = .scheduled
    · simp only [he, hst, if_true, Option.some.injEq, Prod.mk.injEq] at h
      exact h.2 ▸ hs
    · simp only [he, hst, if_false, map_eq_some_iff, Prod.mk.injEq] at h
      obtain ⟨s1, hmode, -, rfl⟩ := h
      refine hI.reqSchedScheduleModeChange ?_ hmode
      cases hh : s.listHead id with
      | none => exact hI.unpostSpecial hs he hst (hR e he hst) hh
      | some hd => exact hI.unpost hs he hst (hR e he hst) hh

theorem reqSchedRelease (hs : I s)
    (hR : ∀ e, id ≠ 0 → s.lookup id = some e → R s (.release id) e)
    (h : Server.reqSchedRelease s id = some s') : I s' := by
  unfold Server.reqSchedRelease at h
  by_cases hid : id = 0
  · simp only [hid, if_true, Option.some.injEq] at h
    exact h ▸ hs
  · cases he : s.lookup id with
    | none => simp [hid, he] at h
    | some e =>
      cases hh : s.listHead id with
      | none =>
        simp only [hid, he, hh, if_false] at h
        exact hI.reqSchedScheduleModeChange (hI.releaseSpecial hs he (hR e hid he) hh) h
      | some hd =>
        simp only [hid, he, hh, if_false] at h
        split at h
        · exact hI.reqSchedScheduleModeChange (hI.release hs he (hR e hid he) hh) h
        · cases h

/-- **What every change keeps, every call keeps.** -/
theorem call {c : Call} (hs : I s)
    (hE : ∀ op h a, c = .post op h a .schedule → turnedAway s op a = false →
      R s c (newElement s op h a))
    (hR : ∀ id e, c = .unpost id ∨ (c = .release id ∧ id ≠ 0) → s.lookup id = some e → R s c e)
    (hM : ∀ mode, c = .changeMode mode → M s) (h : s.call c = some (ids, s')) : I s' := by
  cases c with
  | post op hd a p =>
    obtain ⟨-, rfl⟩ := h
    unfold reqSchedPost
    cases ht : turnedAway s op a with
    | true => exact hs
    | false =>
      cases p with
      | bypass => exact hs
      | schedule => exact hI.enter op hd a hs ht (hE op hd a rfl ht)
  | postTimer msecs now =>
    obtain ⟨-, rfl⟩ := h
    unfold reqSchedPostTimer
    split
    · exact hs
    · apply hI.addTimer ⟨.invalid, s.nextId, .timing, 0, timerExpiry now msecs, .readonly,
        .readonly, false, .normal⟩ _ hs rfl rfl
      refine perm_middle.trans ?_
      rw [takeWhile_append_dropWhile]
  | changeMode mode =>
    simp only [Scheduler.call, map_eq_some_iff, Prod.mk.injEq] at h
    obtain ⟨⟨r, s1⟩, hr, -, rfl⟩ := h
    exact hI.reqSchedChangeMode (hM mode rfl) hs hr
  | unpost id =>
    simp only [Scheduler.call, map_eq_some_iff, Prod.mk.injEq] at h
    obtain ⟨⟨r, s1⟩, hr, -, rfl⟩ := h
    exact hI.reqSchedUnpost hs (fun e he _ => hR id e (.inl rfl) he) hr
  | release id =>
    simp only [Scheduler.call, map_eq_some_iff, Prod.mk.injEq] at h
    obtain ⟨s1, hr, -, rfl⟩ := h
    exact hI.reqSchedRelease hs (fun e hne he => hR id e (.inr ⟨rfl, hne⟩) he) hr
  | test id now =>
    simp only [Scheduler.call, map_eq_some_iff, Prod.mk.injEq] at h
    obtain ⟨⟨r, s1⟩, hr, -, rfl⟩ := h
    exact hI.tested (.of_test hr) hs
  | testsome ids' now =>
    simp only [Scheduler.call, map_eq_some_iff, Prod.mk.injEq] at h
    obtain ⟨⟨ok, done, s1⟩, hr, -, rfl⟩ := h
    exact hI.tested (.of_testsome hr) hs
  | testworld incount now =>
    simp only [Scheduler.call, reqSchedTestworld, map_eq_some_iff, Prod.mk.injEq] at h
    obtain ⟨⟨ready, s1⟩, hr, -, rfl⟩ := h
    exact hI.tested (.of_rollReady hr) (hI.dropTimer _ hs (drop_sublist _ _))

end Keeps

/-! ## Elements and where they are found -/

namespace Scheduler

/-- Ids are new, and every element is in the queue of its handle. -/
structure Wf (s : Scheduler) : Prop where
  pos : 0 < s.nextId
  fresh : ∀ h, ∀ e ∈ s.reqSchedTable h, 0 < e.id ∧ e.id < s.nextId
  handle : ∀ h, ∀ e ∈ s.reqSchedTable h, e.handle = h ∧ e.modeChange = false
  sorted : ∀ h, ((s.reqSchedTable h).map Element.id).Pairwise (· < ·)
  linked : ∀ h, ∀ e ∈ s.reqSchedTable h, s.listHead e.id = some h
  found : ∀ id h, s.listHead id = some h → ∃ e ∈ s.reqSchedTable h, e.id = id
  special : ∀ e ∈ s.modeQueue ++ s.timerQueue, s.listHead e.id = none ∧ e.id < s.nextId
  ready : ∀ id ∈ s.readyQueue, id < s.nextId ∧
    ∀ h, ∀ e ∈ s.reqSchedTable h, e.id = id → e.active = true
  blocks : ∀ h, Blocks (s.reqSchedTable h)

theorem wf_start : reqSchedInitialize.Wf where
  pos := Nat.one_pos
  fresh := by simp [reqSchedInitialize]
  handle := by simp [reqSchedInitialize]
  sorted := by simp [reqSchedInitialize]
  linked := by simp [reqSchedInitialize]
  found := by simp [reqSchedInitialize]
  special := by simp [reqSchedInitialize]
  ready := by simp [reqSchedInitialize]
  blocks := fun _ => Blocks.nil

variable {id : ReqSchedId} {h : Handle} {e e' : Element}

theorem lookup_linked (hh : s.listHead id = some h) (he : s.lookup id = some e) :
    e ∈ s.reqSchedTable h ∧ e.id = id := by
  simp only [lookup, hh] at he
  exact ⟨mem_of_find?_eq_some he, by simpa using find?_some he⟩

theorem lookup_special (hh : s.listHead id = none) (he : s.lookup id = some e) :
    e ∈ s.modeQueue ++ s.timerQueue ∧ e.id = id := by
  simp only [lookup, hh] at he
  exact ⟨mem_of_find?_eq_some he, by simpa using find?_some he⟩

/-! ## What the changes do to the queues -/

theorem of_mem_enqueue (he' : e' ∈ (enqueue s e).reqSchedTable h) :
    e' ∈ s.reqSchedTable h ∨ (h = e.handle ∧ e' = e) := by
  simp only [enqueue, setQueue] at he'
  split at he'
  · subst h
    rw [mem_append, mem_singleton] at he'
    exact he'.imp_right fun h => ⟨rfl, h⟩
  · exact .inl he'

theorem mem_enqueue (he' : e' ∈ s.reqSchedTable h) : e' ∈ (enqueue s e).reqSchedTable h := by
  simp only [enqueue, setQueue]
  split
  · subst h
    exact mem_append_left _ he'
  · exact he'

theorem leaveQueue_table (s : Scheduler) (h : Handle) (id : ReqSchedId) (n : Nat) (h' : Handle) :
    (leaveQueue s h id n).reqSchedTable h' =
      if h' = h then wake n (without id (s.reqSchedTable h)) else s.reqSchedTable h' := rfl

theorem mem_leaveQueue {h' : Handle} (he : e ∈ s.reqSchedTable h') (hne : e.id ≠ id) :
    e ∈ (leaveQueue s h id n).reqSchedTable h' ∨
      (e.withState .readyToSchedule ∈ (leaveQueue s h id n).reqSchedTable h' ∧
        e ∈ (without id (s.reqSchedTable h)).take n) := by
  rw [leaveQueue_table]
  split
  · subst h'
    have hin : e ∈ without id (s.reqSchedTable h) := mem_without.mpr ⟨he, hne⟩
    rw [← take_append_drop n (without id (s.reqSchedTable h)), mem_append] at hin
    obtain hin | hin := hin
    · exact .inr ⟨mem_append_left _ (mem_map_of_mem hin), hin⟩
    · exact .inl (mem_append_right _ hin)
  · exact .inl he

namespace Wf

section
variable (hs : s.Wf)
include hs

theorem nodup (h : Handle) : ((s.reqSchedTable h).map Element.id).Nodup :=
  (hs.sorted h).imp Nat.ne_of_lt

theorem eq_of_id (he : e ∈ s.reqSchedTable h) (he' : e' ∈ s.reqSchedTable h) (hid : e.id = e'.id) :
    e = e' :=
  inj_on_of_nodup_map (hs.nodup h) he he' hid

theorem lookup_mem (he : e ∈ s.reqSchedTable h) : s.lookup e.id = some e := by
  have hh := hs.linked h e he
  cases hf : s.lookup e.id with
  | none =>
    simp only [lookup, hh] at hf
    have := find?_eq_none.mp hf e he
    simp at this
  | some e' =>
    obtain ⟨hmem, hid⟩ := lookup_linked hh hf
    rw [hs.eq_of_id hmem he hid]

theorem ne_special (he : e ∈ s.reqSchedTable h) (he' : e' ∈ s.modeQueue ++ s.timerQueue) :
    e.id ≠ e'.id := by
  intro heq
  have h1 := hs.linked h e he
  rw [heq, (hs.special e' he').1] at h1
  cases h1

theorem nextId_unlinked : s.listHead s.nextId = none := by
  cases hh : s.listHead s.nextId with
  | none => rfl
  | some h =>
    obtain ⟨e, he, hid⟩ := hs.found _ h hh
    exact absurd (hid ▸ (hs.fresh h e he).2) (Nat.lt_irrefl _)

theorem congr (hnext : s'.nextId = s.nextId) (hhead : s'.listHead = s.listHead)
    (htable : s'.reqSchedTable = s.reqSchedTable) (hready : ∀ id ∈ s'.readyQueue, id ∈ s.readyQueue)
    (hspecial : ∀ e' ∈ s'.modeQueue ++ s'.timerQueue, ∃ e ∈ s.modeQueue ++ s.timerQueue, e'.id = e.id) :
    s'.Wf where
  pos := hnext ▸ hs.pos
  fresh := by rw [htable, hnext]; exact hs.fresh
  handle := by rw [htable]; exact hs.handle
  sorted := by rw [htable]; exact hs.sorted
  linked := by rw [htable, hhead]; exact hs.linked
  found := by rw [htable, hhead]; exact hs.found
  special e' he' := by
    obtain ⟨e, he, hid⟩ := hspecial e' he'
    rw [hhead, hnext, hid]
    exact hs.special e he
  ready id hid := by rw [htable, hnext]; exact hs.ready id (hready id hid)
  blocks := by rw [htable]; exact hs.blocks

theorem addSpecial (mq tq : List Element)
    (hq : ∀ e ∈ mq ++ tq, e.id = s.nextId ∨ e ∈ s.modeQueue ++ s.timerQueue) :
    Wf { s with nextId := s.nextId + 1, modeQueue := mq, timerQueue := tq } where
  pos := Nat.succ_pos _
  fresh h e he := ⟨(hs.fresh h e he).1, Nat.lt_succ_of_lt (hs.fresh h e he).2⟩
  handle := hs.handle
  sorted := hs.sorted
  linked := hs.linked
  found := hs.found
  special e he := by
    obtain hid | he := hq e he
    · rw [hid]
      exact ⟨hs.nextId_unlinked, Nat.lt_succ_self _⟩
    · exact ⟨(hs.special e he).1, Nat.lt_succ_of_lt (hs.special e he).2⟩
  ready id hid := ⟨Nat.lt_succ_of_lt (hs.ready id hid).1, (hs.ready id hid).2⟩
  blocks := hs.blocks

theorem enqueue (hid : e.id = s.nextId) (hmode : e.modeChange = false)
    (hb : Blocks (s.reqSchedTable e.handle ++ [e])) : (enqueue s e).Wf := by
  have hold : ∀ {h e'}, e' ∈ s.reqSchedTable h → e'.id ≠ e.id := by
    intro h e' he' heq
    exact absurd (hs.fresh h e' he').2 (by rw [heq, hid]; exact Nat.lt_irrefl _)
  refine ⟨Nat.succ_pos _, ?_, ?_, ?_, ?_, ?_, ?_, ?_, ?_⟩
  · intro h e' he'
    obtain he' | ⟨-, rfl⟩ := of_mem_enqueue he'
    · exact ⟨(hs.fresh h e' he').1, Nat.lt_succ_of_lt (hs.fresh h e' he').2⟩
    · rw [hid]
      exact ⟨hs.pos, Nat.lt_succ_self _⟩
  · intro h e' he'
    obtain he' | ⟨rfl, rfl⟩ := of_mem_enqueue he'
    · exact hs.handle h e' he'
    · exact ⟨rfl, hmode⟩
  · intro h
    simp only [Server.enqueue, setQueue]
    split
    · subst h
      rw [map_append, pairwise_append]
      refine ⟨hs.sorted _, by simp, ?_⟩
      intro i hi j hj
      obtain ⟨e', he', rfl⟩ := mem_map.mp hi
      rw [mem_singleton.mp hj, hid]
      exact (hs.fresh _ e' he').2
    · exact hs.sorted h
  · intro h e' he'
    obtain he' | ⟨rfl, rfl⟩ := of_mem_enqueue he'
    · simp only [Server.enqueue, if_neg (hold he')]
      exact hs.linked h e' he'
    · simp [Server.enqueue]
  · intro i h hi
    by_cases heq : i = e.id
    · simp only [Server.enqueue, if_pos heq, Option.some.injEq] at hi
      subst hi
      exact ⟨e, by simp [Server.enqueue, setQueue], heq.symm⟩
    · simp only [Server.enqueue, if_neg heq] at hi
      obtain ⟨e', he', hid'⟩ := hs.found i h hi
      refine ⟨e', ?_, hid'⟩
      simp only [Server.enqueue, setQueue]
      split
      · subst h
        exact mem_append_left _ he'
      · exact he'
  · intro e' he'
    have hsp := hs.special e' he'
    have hne : e'.id ≠ e.id := by rw [hid]; exact Nat.ne_of_lt hsp.2
    simp only [Server.enqueue, if_neg hne]
    exact ⟨hsp.1, Nat.lt_succ_of_lt hsp.2⟩
  · intro i hi
    refine ⟨Nat.lt_succ_of_lt (hs.ready i hi).1, fun h e' he' hid' => ?_⟩
    obtain he' | ⟨-, rfl⟩ := of_mem_enqueue he'
    · exact (hs.ready i hi).2 h e' he' hid'
    · rw [← hid', hid] at hi
      exact absurd (hs.ready _ hi).1 (Nat.lt_irrefl _)
  · intro h
    simp only [Server.enqueue, setQueue]
    split
    · subst h
      exact hb
    · exact hs.blocks h

end

theorem of_mem_woken (he : e ∈ (without id (s.reqSchedTable h)).take n) :
    e ∈ s.reqSchedTable h ∧ e.id ≠ id :=
  mem_without.mp (mem_of_mem_take he)

variable (hs : s.Wf)
include hs

theorem of_mem_leaveQueue {h' : Handle} (hh : s.listHead id = some h)
    (he' : e' ∈ (leaveQueue s h id n).reqSchedTable h') :
    ∃ e ∈ s.reqSchedTable h', e.id ≠ id ∧
      ((e' = e.withState .readyToSchedule ∧ h' = h ∧ e ∈ (without id (s.reqSchedTable h)).take n) ∨
        (e' = e ∧ ∀ e0 ∈ (without id (s.reqSchedTable h)).take n, e0.id ≠ e.id)) := by
  rw [leaveQueue_table] at he'
  split at he'
  · subst h'
    obtain ⟨e, he, rfl⟩ | he' := mem_wake he'
    · exact ⟨e, (of_mem_woken he).1, (of_mem_woken he).2, .inl ⟨rfl, rfl, he⟩⟩
    · obtain ⟨hold, hne⟩ := mem_without.mp (mem_of_mem_drop he')
      refine ⟨e', hold, hne, .inr ⟨rfl, fun e0 he0 heq => ?_⟩⟩
      have hnodup : ((without id (s.reqSchedTable h)).map Element.id).Nodup :=
        (hs.nodup h).sublist (filter_sublist.map _)
      rw [← take_append_drop n (without id (s.reqSchedTable h)), map_append] at hnodup
      exact (nodup_append.mp hnodup).2.2 _ (mem_map_of_mem he0) _
        (mem_map_of_mem he') heq
  · rename_i hne
    have hlink := hs.linked h' e' he'
    refine ⟨e', he', ?_, .inr ⟨rfl, fun e0 he0 heq => ?_⟩⟩
    · rintro rfl
      rw [hlink] at hh
      exact hne (Option.some.inj hh)
    · have hlink0 := hs.linked h e0 (of_mem_woken he0).1
      rw [heq, hlink] at hlink0
      exact hne (Option.some.inj hlink0)

theorem unpost_woken_queued :
    ∀ e' ∈ (without id (s.reqSchedTable h)).take (if e.state = .readyToSchedule then
      wokenByUnpost (without id (s.reqSchedTable h)) else 0), e'.state = .queued := by
  split
  · exact (hs.blocks h).woken_queued
  · simp

theorem leaveQueue (hh : s.listHead id = some h)
    (hb : Blocks (wake n (without id (s.reqSchedTable h)))) : (leaveQueue s h id n).Wf := by
  refine ⟨hs.pos, ?_, ?_, ?_, ?_, ?_, ?_, ?_, ?_⟩
  · intro h' e' he'
    obtain ⟨e, he, -, ⟨rfl, -⟩ | ⟨rfl, -⟩⟩ := hs.of_mem_leaveQueue hh he'
    · exact hs.fresh h' e he
    · exact hs.fresh h' e' he
  · intro h' e' he'
    obtain ⟨e, he, -, ⟨rfl, -⟩ | ⟨rfl, -⟩⟩ := hs.of_mem_leaveQueue hh he'
    · exact hs.handle h' e he
    · exact hs.handle h' e' he
  · intro h'
    rw [leaveQueue_table]
    split
    · subst h'
      rw [map_id_wake]
      exact (hs.sorted _).sublist (filter_sublist.map _)
    · exact hs.sorted h'
  · intro h' e' he'
    obtain ⟨e, he, hne, hor⟩ := hs.of_mem_leaveQueue hh he'
    have hid : e'.id = e.id := by obtain ⟨rfl, -⟩ | ⟨rfl, -⟩ := hor <;> rfl
    simp only [Server.leaveQueue, hid, if_neg hne]
    exact hs.linked h' e he
  · intro i h' hi
    by_cases heq : i = id
    · simp [Server.leaveQueue, heq] at hi
    · simp only [Server.leaveQueue, if_neg heq] at hi
      obtain ⟨e, he, rfl⟩ := hs.found i h' hi
      rw [leaveQueue_table]
      split
      · subst h'
        have hi : e.id ∈ (wake n (without id (s.reqSchedTable h))).map Element.id := by
          rw [map_id_wake]
          exact mem_map_of_mem (mem_without.mpr ⟨he, heq⟩)
        obtain ⟨e', he', hid'⟩ := mem_map.mp hi
        exact ⟨e', he', hid'⟩
      · exact ⟨e, he, rfl⟩
  · intro e' he'
    have hsp := hs.special e' he'
    refine ⟨?_, hsp.2⟩
    simp only [Server.leaveQueue]
    split
    · rfl
    · exact hsp.1
  · intro i hi
    have hready : i ∈ s.readyQueue ∨ ∃ e ∈ (without id (s.reqSchedTable h)).take n, e.id = i := by
      simp only [Server.leaveQueue, addReady, mem_append, List.mem_map] at hi
      exact hi
    refine ⟨?_, ?_⟩
    · obtain hi | ⟨e, he, rfl⟩ := hready
      · exact (hs.ready i hi).1
      · exact (hs.fresh h e (of_mem_woken he).1).2
    · intro h' e' he' hid'
      obtain ⟨e, he, -, ⟨rfl, -⟩ | ⟨rfl, hnone⟩⟩ := hs.of_mem_leaveQueue hh he'
      · exact active_withState_ready e
      · obtain hi | ⟨e0, he0, hid0⟩ := hready
        · exact (hs.ready i hi).2 h' e' he hid'
        · exact absurd (hid0.trans hid'.symm) (hnone e0 he0)
  · intro h'
    rw [leaveQueue_table]
    split
    · exact hb
    · exact hs.blocks h'

theorem letRoll (hact : ∀ h, ∀ e' ∈ s.reqSchedTable h, e'.id = e.id → e'.active = true) :
    (Server.letRoll s e).Wf := by
  have hmem : ∀ {h e'}, e' ∈ (Server.letRoll s e).reqSchedTable h →
      ∃ e0 ∈ s.reqSchedTable h, e'.id = e0.id ∧ e'.handle = e0.handle ∧
        e'.modeChange = e0.modeChange ∧ (e0.active = true → e'.active = true) := by
    intro h e' he'
    obtain ⟨e0, he0, ⟨-, rfl⟩ | ⟨-, rfl⟩⟩ := mem_roll he'
    · exact ⟨e0, he0, rfl, rfl, rfl, fun _ => rfl⟩
    · exact ⟨e', he0, rfl, rfl, rfl, fun h => h⟩
  have hids : ∀ h, ((Server.letRoll s e).reqSchedTable h).map Element.id =
      (s.reqSchedTable h).map Element.id := fun h => map_id_roll e.id _
  refine ⟨hs.pos, ?_, ?_, ?_, ?_, ?_, ?_, ?_, ?_⟩
  · intro h e' he'
    obtain ⟨e0, he0, hid, -⟩ := hmem he'
    exact hid ▸ hs.fresh h e0 he0
  · intro h e' he'
    obtain ⟨e0, he0, -, hhd, hmc, -⟩ := hmem he'
    rw [hhd, hmc]
    exact hs.handle h e0 he0
  · intro h
    rw [hids]
    exact hs.sorted h
  · intro h e' he'
    obtain ⟨e0, he0, hid, -⟩ := hmem he'
    rw [hid]
    exact hs.linked h e0 he0
  · intro i h hi
    obtain ⟨e0, he0, rfl⟩ := hs.found i h hi
    have hin : e0.id ∈ ((Server.letRoll s e).reqSchedTable h).map Element.id := by
      rw [hids]
      exact mem_map_of_mem he0
    obtain ⟨e', he', hid'⟩ := mem_map.mp hin
    exact ⟨e', he', hid'⟩
  · intro e' he'
    have hsp : ∃ e0 ∈ s.modeQueue ++ s.timerQueue, e'.id = e0.id := by
      rw [mem_append] at he'
      obtain he' | he' := he'
      · obtain ⟨e0, he0, ⟨-, rfl⟩ | ⟨-, rfl⟩⟩ := mem_roll he'
        · exact ⟨e0, mem_append_left _ he0, rfl⟩
        · exact ⟨e', mem_append_left _ he0, rfl⟩
      · exact ⟨e', mem_append_right _ he', rfl⟩
    obtain ⟨e0, he0, hid⟩ := hsp
    rw [hid]
    exact hs.special e0 he0
  · intro i hi
    have hold := hs.ready i (mem_of_mem_erase hi)
    refine ⟨hold.1, fun h e' he' hid' => ?_⟩
    obtain ⟨e0, he0, hid, -, -, hkeep⟩ := hmem he'
    exact hkeep (hold.2 h e0 he0 (hid ▸ hid'))
  · exact fun h => (hs.blocks h).roll (hact h)

theorem active_of_ready (he : s.lookup id = some e)
    (hready : e.state = .readyToSchedule ∨ id ∈ s.readyQueue) :
    ∀ h, ∀ e' ∈ s.reqSchedTable h, e'.id = e.id → e'.active = true := by
  intro h e' he' hid'
  have hid : e.id = id := by
    cases hh : s.listHead id with
    | none => exact (lookup_special hh he).2
    | some hd => exact (lookup_linked hh he).2
  obtain hst | hin := hready
  · have hlook := hs.lookup_mem he'
    rw [hid', hid, he] at hlook
    cases hlook
    simp [Element.active, hst]
  · exact (hs.ready id hin).2 h e' he' (hid'.trans hid)

theorem notReady (id : ReqSchedId) (e : Element) : (Server.notReady s id e).Wf := by
  unfold Server.notReady
  split
  · exact hs.congr rfl rfl rfl (fun _ h => mem_of_mem_erase h) (fun e' he' => ⟨e', he', rfl⟩)
  · exact hs

theorem leaveSpecial (id : ReqSchedId) : (leaveSpecial s id).Wf := by
  refine hs.congr rfl rfl rfl (fun _ h => h) (fun e' he' => ⟨e', ?_, rfl⟩)
  obtain he' | he' := mem_append.mp he'
  · exact mem_append_left _ (mem_without.mp he').1
  · exact mem_append_right _ (mem_without.mp he').1

theorem readyMode {next : Element} {rest : List Element} (hq : s.modeQueue = next :: rest) :
    (readyMode s next rest).Wf := by
  have hnext : next ∈ s.modeQueue ++ s.timerQueue := by simp [hq]
  refine ⟨hs.pos, hs.fresh, hs.handle, hs.sorted, hs.linked, hs.found, ?_, ?_, hs.blocks⟩
  · intro e' he'
    have : ∃ e0 ∈ s.modeQueue ++ s.timerQueue, e'.id = e0.id := by
      simp only [Server.readyMode, addReady, cons_append, mem_cons] at he'
      obtain rfl | he' := he'
      · exact ⟨next, hnext, rfl⟩
      · exact ⟨e', by rw [hq]; exact mem_cons_of_mem _ he', rfl⟩
    obtain ⟨e0, he0, hid⟩ := this
    rw [hid]
    exact hs.special e0 he0
  · intro i hi
    simp only [Server.readyMode, addReady, mem_append, mem_singleton] at hi
    obtain hi | rfl := hi
    · exact hs.ready i hi
    · exact ⟨(hs.special next hnext).2, fun h e' he' hid' =>
        absurd hid' (hs.ne_special he' hnext)⟩

end Wf

/-- **The shape of the queues is kept by every change.** -/
theorem keeps_wf : Keeps Wf (fun _ _ _ => True) (fun _ => True) where
  enter op h a hs _ _ := hs.enqueue rfl rfl ((hs.blocks h).admission rfl)
  addTimer e q hs hid _ hq := by
    refine hs.addSpecial _ q fun e' he' => ?_
    obtain he' | he' := mem_append.mp he'
    · exact .inr (mem_append_left _ he')
    · obtain rfl | he' := mem_cons.mp (hq.subset he')
      · exact .inl hid
      · exact .inr (mem_append_right _ he')
  dropTimer q hs hq := hs.congr rfl rfl rfl (fun _ h => h) fun e' he' => ⟨e', by
    obtain he' | he' := mem_append.mp he'
    · exact mem_append_left _ he'
    · exact mem_append_right _ (hq.subset he'), rfl⟩
  addMode mode _ hs := hs.addSpecial _ _ fun e' he' => by
    rw [append_assoc, mem_append, mem_append, mem_singleton] at he'
    obtain he' | rfl | he' := he'
    · exact .inr (mem_append_left _ he')
    · exact .inl rfl
    · exact .inr (mem_append_right _ he')
  setMode mode _ hs hq _ := by
    refine (hs.addSpecial [modeElement _ mode .scheduled] _ fun e' he' => ?_).congr
      rfl rfl rfl (fun _ h => h) (fun e' he' => ⟨e', by simpa [enqueueMode, hq] using he', rfl⟩)
    rw [singleton_append, mem_cons] at he'
    obtain rfl | he' := he'
    · exact .inl rfl
    · exact .inr (mem_append_right _ he')
  readyMode hs hq _ _ := hs.readyMode hq
  unpostSpecial hs _ _ _ _ := (hs.notReady _ _).leaveSpecial _
  unpost {s id e h} hs he hst _ hh := by
    apply (hs.notReady id e).leaveQueue (by rw [notReady_listHead]; exact hh)
    rw [notReady_table]
    split
    · exact (hs.blocks h).leave
    · rename_i hnr
      refine (hs.blocks h).leave_waiting fun e' he' hid' => ?_
      obtain ⟨hmem, hid⟩ := lookup_linked hh he
      rw [hs.eq_of_id he' hmem (hid'.trans hid.symm)]
      obtain hact | hq := (hs.blocks h).active_or_queued e hmem
      · simp [Element.active, hnr, hst] at hact
      · exact hq
  releaseSpecial hs _ _ _ := hs.leaveSpecial _
  release hs _ _ hh := hs.leaveQueue hh (hs.blocks _).leave
  roll hs he hr := hs.letRoll (hs.active_of_ready he hr)

/-- **Facts about the queues alone.**  A property that reads only the queues is kept by every
change if it is kept when a request enters, leaves and wakes others, or goes ahead. -/
theorem keeps_of_table {P : Scheduler → Prop} {R : Scheduler → Call → Element → Prop}
    (hcongr : ∀ {s s'}, P s → s'.reqSchedTable = s.reqSchedTable → P s')
    (henter : ∀ {s} op h a, s.Wf → P s → R s (.post op h a .schedule) (newElement s op h a) →
      P (enqueue s (newElement s op h a)))
    (hleave : ∀ {s c id e h n}, s.Wf → P s → s.lookup id = some e → R s c e →
      s.listHead id = some h → (n = 0 ∨ ∃ b, n = woken b (without id (s.reqSchedTable h))) →
      P (leaveQueue s h id n))
    (hroll : ∀ {s e}, s.Wf → P s →
      (∀ h, ∀ e' ∈ s.reqSchedTable h, e'.id = e.id → e'.active = true) → P (letRoll s e)) :
    Keeps (fun s => s.Wf ∧ P s) R (fun _ => True) where
  enter op h a hs ht hR := ⟨keeps_wf.enter op h a hs.1 ht trivial, henter op h a hs.1 hs.2 hR⟩
  addTimer e q hs hid hst hq := ⟨keeps_wf.addTimer e q hs.1 hid hst hq, hcongr hs.2 rfl⟩
  dropTimer q hs hq := ⟨keeps_wf.dropTimer q hs.1 hq, hcongr hs.2 rfl⟩
  addMode mode _ hs := ⟨keeps_wf.addMode mode trivial hs.1, hcongr hs.2 rfl⟩
  setMode mode _ hs hnil hcount :=
    ⟨keeps_wf.setMode mode trivial hs.1 hnil hcount, hcongr hs.2 rfl⟩
  readyMode hs hq hzero hout := ⟨keeps_wf.readyMode hs.1 hq hzero hout, hcongr hs.2 rfl⟩
  unpostSpecial {s id e} hs he hst hR hh := by
    refine ⟨keeps_wf.unpostSpecial hs.1 he hst trivial hh, hcongr hs.2 ?_⟩
    unfold notReady
    split <;> rfl
  unpost {s id e h} hs he hst hR hh := by
    refine ⟨keeps_wf.unpost hs.1 he hst trivial hh, ?_⟩
    have hn : ∀ n, n = (if e.state = .readyToSchedule then
        wokenByUnpost (without id (s.reqSchedTable h)) else 0) →
        n = 0 ∨ ∃ b, n = woken b (without id (s.reqSchedTable h)) := by
      rintro n rfl
      split
      · exact .inr ⟨false, rfl⟩
      · exact .inl rfl
    refine hcongr (hleave hs.1 hs.2 he hR hh (hn _ rfl)) ?_
    unfold notReady
    split <;> rfl
  releaseSpecial hs he _ hh := ⟨keeps_wf.releaseSpecial hs.1 he trivial hh, hcongr hs.2 rfl⟩
  release hs he hR hh :=
    ⟨keeps_wf.release hs.1 he trivial hh, hleave hs.1 hs.2 he hR hh (.inr ⟨true, rfl⟩)⟩
  roll hs he hr := ⟨keeps_wf.roll hs.1 he hr, hroll hs.1 hs.2 (hs.1.active_of_ready he hr)⟩

end Scheduler

end Pvfs.Server
