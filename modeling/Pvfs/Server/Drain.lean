import Pvfs.Server.Completion
import Pvfs.Server.ReadyQueue

/-! # The scheduler does not get stuck

From wherever a run has led, releasing the requests that are scheduled and testing for those
that are ready empties all queues: every request in a queue waits for requests before it, and
the first ones never wait. When no request is left, and only then, a change to administrative
mode is let through at once. -/

namespace Pvfs.Server

open Scheduler Lib List

variable {s : Scheduler} {h : Handle} {e : Element} {c : Call}

/-- A call that goes on with a request that is there. -/
def Call.serves : Call → Bool
  | .release _ => true
  | .test _ _ => true
  | _ => false

/-- Releasing what is scheduled and testing for what is ready can empty all queues. -/
def Drains (s : Scheduler) : Prop :=
  ∃ calls s', (∀ c ∈ calls, c.serves = true) ∧ exec requestStep s calls = some s' ∧
    ∀ h, s'.reqSchedTable h = []

theorem Drains.of_step {s' : Scheduler} (hc : c.serves = true) (h : requestStep s c = some s')
    (hd : Drains s') : Drains s := by
  obtain ⟨calls, s'', hcalls, hrun, hempty⟩ := hd
  refine ⟨c :: calls, s'', ?_, ?_, hempty⟩
  · simpa [hc] using hcalls
  · simpa [exec, h] using hrun

section
variable (hs : ReadyExact s) (he : e ∈ s.reqSchedTable h)
include hs he

theorem ReadyExact.release_scheduled (hst : e.state = .scheduled) :
    ∃ n, requestStep s (.release e.id) = some (leaveQueue s h e.id n) := by
  have hlook := hs.wf.lookup_mem he
  have hid : e.id ≠ 0 := (hs.wf.fresh h e he).1.ne'
  set q := without e.id (s.reqSchedTable h) with hq
  have hall : ((q.take (wokenByRelease q)).tail.all fun e => e.state = .queued) = true :=
    all_eq_true.mpr fun e' he' => decide_eq_true
      ((hs.wf.blocks h).woken_queued e' (mem_of_mem_tail he'))
  refine ⟨wokenByRelease q, ?_⟩
  have hmode := scheduleModeChange_of_nil (s := leaveQueue s h e.id (wokenByRelease q)) hs.noMode
  simp only [requestStep, Call.keepsMode, Call.proper, call, reqSchedRelease, hid, hlook,
    hs.wf.linked h e he, ← hq, hall, hmode]
  simp [hst]

theorem ReadyExact.test_ready (hst : e.state = .readyToSchedule) :
    requestStep s (.test e.id ⟨0, 0⟩) = some (letRoll s e) := by
  have hlook := hs.wf.lookup_mem he
  simp [requestStep, Call.keepsMode, Call.proper, call, reqSchedTest, hlook, hst]

end

theorem ReadyExact.drains (hs : ReadyExact s) : Drains s := by
  -- by induction on the number of requests in the queues: the first of a queue can go ahead
  induction hn : (linkedIds s).card using Nat.strongRecOn generalizing s with
  | ind n ih =>
  have hrelease : ∀ {s : Scheduler} {h e}, ReadyExact s → (linkedIds s).card = n →
      e ∈ s.reqSchedTable h → e.state = .scheduled → Drains s := by
    intro s h e hs hn he hst
    obtain ⟨m, hstep⟩ := hs.release_scheduled he hst
    have hcard := card_linkedIds_leaveQueue (n := m) hs.wf (hs.wf.linked h e he)
    exact .of_step rfl hstep (ih _ (by omega) (hs.step hstep) rfl)
  by_cases hempty : ∀ h, s.reqSchedTable h = []
  · exact ⟨[], s, by simp, rfl, hempty⟩
  obtain ⟨h, hq⟩ := not_forall.mp hempty
  obtain ⟨run, wait, hrw, hrun, -, hnil⟩ := hs.wf.blocks h
  obtain ⟨e, rest, rfl⟩ := exists_cons_of_ne_nil (l := run) fun hr => hq (by simp [hrw, hr, hnil hr])
  have he : e ∈ s.reqSchedTable h := by simp [hrw]
  have hact := hrun e mem_cons_self
  by_cases hst : e.state = .scheduled
  · exact hrelease hs hn he hst
  have hready : e.state = .readyToSchedule := by simpa [Element.active, hst] using hact
  have hstep := hs.test_ready he hready
  exact .of_step rfl hstep (hrelease (e := e.withState .scheduled) (h := h)
    (hs.step hstep) hn (mem_map.mpr ⟨e, he, by simp⟩) rfl)

/-- **No request waits for ever on its own account**: from every state of a run there is a way on
in which all of them are scheduled and released. -/
theorem scheduler_drains (calls : List Call) :
    Throughout requestStep Drains reqSchedInitialize calls :=
  (Throughout.of_step (I := ReadyExact) (fun _ _ _ hs h => hs.step h) readyExact_start
    calls).mono fun _ hs => hs.drains

theorem Governed.linkedIds_eq_empty (hs : Governed s) :
    linkedIds s = ∅ ↔ ∀ h, s.reqSchedTable h = [] := by
  refine ⟨fun hnone h => eq_nil_iff_forall_not_mem.mpr fun e he => ?_, fun hnone => ?_⟩
  · have hmem := (mem_linkedIds (i := e.id) hs.wf).mpr (by rw [hs.wf.linked h e he]; rfl)
    rw [hnone] at hmem
    cases hmem
  · refine Finset.eq_empty_of_forall_notMem fun i hi => ?_
    obtain ⟨h, hh⟩ := Option.isSome_iff_exists.mp ((mem_linkedIds hs.wf).mp hi)
    obtain ⟨e, he, -⟩ := hs.wf.found i h hh
    rw [hnone h] at he
    cases he

/-- A change to administrative mode that finds the queue of mode changes empty (none waits, and none
has been let through and not been released) is let through exactly when no request is left, and the
assertion on `sched_count` does not fail. -/
def AdminModeWhenIdle (s : Scheduler) : Prop :=
  s.modeQueue = [] → ∃ r s', reqSchedChangeMode s .admin = some (r, s') ∧
    (r = .proceed s.nextId ↔ ∀ h, s.reqSchedTable h = [])

/-- **Administrative mode comes at once when the server is idle**, and at no other time, along
every run of calls. -/
theorem admin_mode_when_idle (calls : List Call) :
    Throughout recordedStep (fun r => AdminModeWhenIdle r.sched) Recorded.start calls := by
  refine (Throughout.of_step (I := Recorded.Inv) (fun _ _ _ hr h => hr.step h) Recorded.inv_start
    calls).mono fun r hr hmode => ?_
  have hcount := hr.governed.count
  have hempty := hr.governed.linkedIds_eq_empty
  rw [← Finset.card_eq_zero] at hempty
  rw [reqSchedChangeMode, if_pos hmode]
  simp only [← hempty, if_pos (show r.sched.schedCount > -1 by omega)]
  by_cases hzero : r.sched.schedCount = 0
  · exact ⟨_, _, if_pos hzero, iff_of_true rfl (by omega)⟩
  · exact ⟨_, _, if_neg hzero, iff_of_false (fun h => by cases h) (by omega)⟩

end Pvfs.Server
