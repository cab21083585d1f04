import Pvfs.Lib.Steps
import Mathlib.Data.List.Basic

/-! # Cancelling a network operation (thread-mgr.c)

`PINT_thread_mgr_bmi_cancel` may not run while the network thread is inside `BMI_testcontext`:
it waits until `bmi_test_flag` is clear. The network thread in turn waits, before the next
test, until no cancel call waits. Both wait for one condition variable, and a signal wakes one
of those that wait.

What happens between locking and unlocking `bmi_test_mutex` is one step, and so is each time a
thread that was woken has the mutex again. An event that signals says who wakes up. -/

namespace Pvfs.Job

open Pvfs.Lib List Option

/-- Where the network thread is: outside, waiting for the condition variable, woken up and about to
lock the mutex, in `BMI_testcontext`, or at its end. -/
inductive NetworkThread where
  | away
  | waiting
  | woken
  | testing
  | ended
deriving DecidableEq

inductive CallState where
  | asleep
  | woken
  | returned
deriving DecidableEq

/-- A call of `PINT_thread_mgr_bmi_cancel` that has waited, for an operation and its user pointer. -/
structure CancelCall where
  op : Nat × Nat
  state : CallState
deriving DecidableEq

def CancelCall.pending (c : CancelCall) : Bool := decide (c.state ≠ .returned)

structure ThreadMgr where
  bmiTestFlag : Bool
  bmiTestCancelWaiter : Nat
  /-- `stat_bmi_id_array` and `stat_bmi_user_ptr_array`, up to `bmi_test_count` -/
  tested : List (Nat × Nat)
  thread : NetworkThread
  calls : List CancelCall
deriving DecidableEq

inductive Sleeper where
  | thread
  | call (i : Nat)
deriving DecidableEq

namespace ThreadMgr

def init : ThreadMgr := ⟨false, 0, [], .away, []⟩

/-- Who waits on the condition variable. -/
def Asleep (s : ThreadMgr) : Sleeper → Prop
  | .thread => s.thread = .waiting
  | .call i => ∃ op, s.calls[i]? = some ⟨op, .asleep⟩

instance (s : ThreadMgr) (w : Sleeper) : Decidable (s.Asleep w) :=
  match w with
  | .thread => inferInstanceAs (Decidable (_ = _))
  | .call i =>
    match h : s.calls[i]? with
    | some ⟨op, .asleep⟩ => isTrue ⟨op, h⟩
    | some ⟨_, .woken⟩ | some ⟨_, .returned⟩ | none => isFalse (by rintro ⟨_, h'⟩; simp [h] at h')

def wake (s : ThreadMgr) : Sleeper → ThreadMgr
  | .thread => { s with thread := .woken }
  | .call i =>
    match s.calls[i]? with
    | some c => { s with calls := s.calls.set i ⟨c.op, .woken⟩ }
    | none => s

/-- `pthread_cond_signal`: one of those who wait wakes up, if anyone does. -/
def signal (s : ThreadMgr) : Option Sleeper → Option ThreadMgr
  | some w => if s.Asleep w then some (s.wake w) else none
  | none => if s.thread ≠ .waiting ∧ ∀ c ∈ s.calls, c.state ≠ .asleep then some s else none

/-- A cancel call behind its loop: an operation that is done already needs no cancel. -/
def cancelOp (s : ThreadMgr) (op : Nat × Nat) (wakes : Option Sleeper) : Option ThreadMgr :=
  if op ∈ s.tested then (if wakes = none then some s else none) else s.signal wakes

/-- What the threads do under the mutex. -/
inductive Event where
  /-- the network thread locks the mutex before a test, for the first time or woken up -/
  | enter
  /-- `BMI_testcontext` returns with these operations, or fails -/
  | finish (tested : List (Nat × Nat)) (failed : Bool) (wakes : Option Sleeper)
  /-- `bmi_thread_running` is clear -/
  | stop
  /-- `PINT_thread_mgr_bmi_cancel` is called and locks the mutex -/
  | cancel (op : Nat × Nat) (wakes : Option Sleeper)
  /-- a call that was woken has the mutex again -/
  | resume (i : Nat) (wakes : Option Sleeper)

def Event.wakes : Event → Option Sleeper
  | .finish _ _ wakes | .cancel _ wakes | .resume _ wakes => wakes
  | _ => none

def step (s : ThreadMgr) : Event → Option ThreadMgr
  | .enter =>
    if s.thread = .away ∨ s.thread = .woken then
      if s.bmiTestCancelWaiter ≠ 0 then some { s with thread := .waiting }
      else some { s with thread := .testing, bmiTestFlag := true, tested := [] }
    else none
  | .finish tested failed wakes =>
    if s.thread = .testing then
      { s with
        thread := if failed then .ended else .away
        bmiTestFlag := false
        tested := tested }.signal wakes
    else none
  | .stop => if s.thread = .away then some { s with thread := .ended } else none
  | .cancel op wakes =>
    if s.bmiTestFlag then
      if wakes = none then
        some { s with
          bmiTestCancelWaiter := s.bmiTestCancelWaiter + 1
          calls := s.calls ++ [⟨op, .asleep⟩] }
      else none
    else s.cancelOp op wakes
  | .resume i wakes =>
    match s.calls[i]? with
    | some ⟨op, .woken⟩ =>
      if s.bmiTestFlag then some { s with calls := s.calls.set i ⟨op, .asleep⟩ }
      else
        { s with
          bmiTestCancelWaiter := s.bmiTestCancelWaiter - 1
          calls := s.calls.set i ⟨op, .returned⟩ }.cancelOp op wakes
    | _ => none

/-- No thread that is there wakes the sleeper up, whatever they do; only a new call might. -/
def Stalled (s : ThreadMgr) (w : Sleeper) : Prop :=
  s.Asleep w ∧ ∀ es s', (∀ e ∈ es, ∀ op wakes, e ≠ .cancel op wakes) → exec step s es = some s' →
    s'.Asleep w

/-- A test that returns does not report an operation that a waiting call is about to cancel, and a
signal does not wake the network thread while a call waits. -/
def Careful (s : ThreadMgr) (e : Event) : Prop :=
  (match e with
    | .finish tested _ _ => ∀ c ∈ s.calls, c.state = .asleep → c.op ∉ tested
    | _ => True) ∧
  (e.wakes = some .thread → ∀ c ∈ s.calls, c.state ≠ .asleep)

instance (s : ThreadMgr) (e : Event) : Decidable (s.Careful e) := by
  unfold Careful
  cases e <;> infer_instance

/-- The flag and the counter say what the threads are doing. -/
structure Settled (s : ThreadMgr) : Prop where
  flag : s.bmiTestFlag = true ↔ s.thread = .testing
  waiter : s.bmiTestCancelWaiter = s.calls.countP CancelCall.pending
  woken : ∀ c ∈ s.calls, c.state = .woken → s.bmiTestFlag = false
  useful : s.bmiTestFlag = false → ∀ c ∈ s.calls, c.state ≠ .returned → c.op ∉ s.tested

/-- Whoever waits while no test is going on is still to be signalled by a call that was woken. -/
structure Served (s : ThreadMgr) : Prop extends Settled s where
  served : s.bmiTestFlag = false → (s.thread = .waiting ∨ ∃ c ∈ s.calls, c.state = .asleep) →
    ∃ c ∈ s.calls, c.state = .woken

section
variable {s s' : ThreadMgr} {i : Nat} {c : CancelCall}

theorem countP_set_call {op : Nat × Nat} {st : CallState} (h : s.calls[i]? = some ⟨op, st⟩)
    (hst : st ≠ .returned) (st' : CallState) :
    (s.calls.set i ⟨op, st'⟩).countP CancelCall.pending + 1 =
      s.calls.countP CancelCall.pending + if st' = .returned then 0 else 1 := by
  obtain ⟨hlt, hget⟩ := List.getElem?_eq_some_iff.mp h
  have hpos : 0 < s.calls.countP CancelCall.pending :=
    countP_pos_iff.mpr ⟨_, mem_of_getElem? h, by simpa [CancelCall.pending] using hst⟩
  rw [countP_set hlt, hget]
  cases st' <;> simp [CancelCall.pending, hst] <;> omega

theorem Settled.signal {wakes : Option Sleeper} (h : Settled s) (hflag : s.bmiTestFlag = false)
    (hw : wakes = some .thread → ∀ c ∈ s.calls, c.state ≠ .asleep)
    (hs : s.signal wakes = some s') : Served s' := by
  match wakes with
  | none =>
    obtain ⟨⟨hthread, hcalls⟩, hs⟩ := ite_none_right_eq_some.mp hs
    cases hs
    refine ⟨h, fun _ hsleep => ?_⟩
    rcases hsleep with hsleep | ⟨c, hc, hsleep⟩
    · exact absurd hsleep hthread
    · exact absurd hsleep (hcalls c hc)
  | some .thread =>
    obtain ⟨hthread, hs⟩ := ite_none_right_eq_some.mp hs
    cases hs
    refine ⟨{ h with flag := by simp [wake, hflag] }, fun _ hsleep => ?_⟩
    rcases hsleep with hsleep | ⟨c, hc, hsleep⟩
    · cases hsleep
    · exact absurd hsleep (hw rfl c hc)
  | some (.call i) =>
    obtain ⟨⟨op, hget⟩, hs⟩ := ite_none_right_eq_some.mp hs
    simp only [wake, hget, Option.some.injEq] at hs
    subst hs
    have hmem := mem_of_getElem? hget
    have hlt := (List.getElem?_eq_some_iff.mp hget).1
    refine ⟨⟨h.flag, ?_, fun _ _ _ => hflag, fun _ c hc hret => ?_⟩, fun _ _ =>
      ⟨⟨op, .woken⟩, mem_set hlt _, rfl⟩⟩
    · exact h.waiter.trans (Nat.succ.inj (countP_set_call hget (by simp) .woken)).symm
    · rcases mem_or_eq_of_mem_set hc with hc | rfl
      · exact h.useful hflag c hc hret
      · exact h.useful hflag ⟨op, .asleep⟩ hmem (by simp)

/-- A careful step leaves no caller behind. -/
theorem Served.step {e : Event} (h : Served s) (hC : s.Careful e) (hs : s.step e = some s') :
    Served s' := by
  obtain ⟨hC, hw⟩ := hC
  match e with
  | .enter =>
    obtain ⟨hthread, hs⟩ := ite_none_right_eq_some.mp hs
    have hflag : s.bmiTestFlag = false := by
      have hiff := h.flag
      rcases hthread with ht | ht <;> simpa [ht] using hiff
    split at hs
    next hwaiter =>
      cases hs
      refine ⟨{ h.toSettled with flag := by simp [hflag] }, fun _ _ => ?_⟩
      -- a call that has not returned is awake, or is waited for by one that is
      rw [h.waiter] at hwaiter
      obtain ⟨c, hc, hret⟩ := countP_pos_iff.mp (Nat.pos_of_ne_zero hwaiter)
      cases hstate : c.state with
      | asleep => exact h.served hflag (.inr ⟨c, hc, hstate⟩)
      | woken => exact ⟨c, hc, hstate⟩
      | returned => simp [CancelCall.pending, hstate] at hret
    next hwaiter =>
      cases hs
      have hret : ∀ c ∈ s.calls, c.state = .returned := by
        have hzero := h.waiter.symm.trans (not_not.mp hwaiter)
        simpa [CancelCall.pending] using countP_eq_zero.mp hzero
      refine ⟨⟨by simp, h.waiter, fun c hc hwoken => ?_, fun hf => by cases hf⟩, fun hf => by cases hf⟩
      exact absurd (hret c hc) (by simp [hwoken])
  | .finish tested failed wakes =>
    obtain ⟨hthread, hs⟩ := ite_none_right_eq_some.mp hs
    have hsettled : Settled { s with
        thread := if failed then .ended else .away, bmiTestFlag := false, tested := tested } := by
      refine ⟨by cases failed <;> simp, h.waiter, fun _ _ _ => rfl, fun _ c hc hret => ?_⟩
      cases hstate : c.state with
      | asleep => exact hC c hc hstate
      | woken =>
        have hf := h.woken c hc hstate
        simp [h.flag.mpr hthread] at hf
      | returned => exact absurd hstate hret
    exact hsettled.signal rfl hw hs
  | .stop =>
    obtain ⟨hthread, hs⟩ := ite_none_right_eq_some.mp hs
    cases hs
    refine ⟨{ h.toSettled with flag := by simpa [hthread] using h.flag }, fun hf hsleep => ?_⟩
    exact h.served hf (hsleep.imp_left fun ht => by cases ht)
  | .cancel op wakes =>
    simp only [ThreadMgr.step] at hs
    split at hs
    next hflag =>
      obtain ⟨-, hs⟩ := ite_none_right_eq_some.mp hs
      cases hs
      refine ⟨⟨h.flag, by simp [h.waiter, CancelCall.pending], fun c hc hwoken => ?_, fun hf => by simp [hflag] at hf⟩,
        fun hf => by simp [hflag] at hf⟩
      rcases mem_append.mp hc with hc | hc
      · exact h.woken c hc hwoken
      · rw [mem_singleton.mp hc] at hwoken
        cases hwoken
    next hflag =>
      rw [cancelOp] at hs
      split at hs
      · obtain ⟨-, hs⟩ := ite_none_right_eq_some.mp hs
        cases hs
        exact h
      · exact h.toSettled.signal (by simpa using hflag) hw hs
  | .resume i wakes =>
    simp only [ThreadMgr.step] at hs
    split at hs
    next op hget =>
      have hmem := mem_of_getElem? hget
      have hflag := h.woken _ hmem rfl
      rw [if_neg (by simp [hflag]), cancelOp, if_neg (h.useful hflag _ hmem (by simp))] at hs
      have hkept : ∀ c ∈ s.calls.set i ⟨op, .returned⟩, c.state ≠ .returned → c ∈ s.calls := by
        intro c hc hret
        rcases mem_or_eq_of_mem_set hc with hc | rfl
        · exact hc
        · exact absurd rfl hret
      have hcount := countP_set_call hget (by simp) .returned
      have hsettled : Settled { s with
          bmiTestCancelWaiter := s.bmiTestCancelWaiter - 1, calls := s.calls.set i ⟨op, .returned⟩ } := by
        refine ⟨h.flag, ?_, fun _ _ _ => hflag, fun _ c hc hret => h.useful hflag c (hkept c hc hret) hret⟩
        rw [h.waiter]
        exact Nat.sub_eq_of_eq_add hcount.symm
      exact hsettled.signal hflag (fun ht c hc hsleep =>
        hw ht c (hkept c hc (by simp [hsleep])) hsleep) hs
    next => cases hs

theorem Served.not_stalled (h : Served s) (w : Sleeper) : ¬ s.Stalled w := by
  rintro ⟨hasleep, hnever⟩
  -- after a signal that chooses the sleeper, it does not sleep
  have hwoken : ∀ s1 : ThreadMgr, s1.Asleep w → s1.signal (some w) = some (s1.wake w) ∧
      ¬ (s1.wake w).Asleep w := by
    intro s1 hw
    refine ⟨if_pos hw, ?_⟩
    cases w with
    | thread => simp [wake, Asleep]
    | call i =>
      obtain ⟨op, hget⟩ := hw
      simp [wake, Asleep, hget, List.getElem?_set_self (List.getElem?_eq_some_iff.mp hget).1]
  cases hflag : s.bmiTestFlag with
  | true =>
    -- the test that is going on comes to its end
    have hthread := h.flag.mp hflag
    have hw : Asleep { s with thread := .away, bmiTestFlag := false, tested := [] } w := by
      cases w with
      | thread => simp [Asleep, hthread] at hasleep
      | call i => exact hasleep
    obtain ⟨hsignal, hnot⟩ := hwoken _ hw
    refine hnot (hnever [.finish [] false (some w)] _ (by simp) ?_)
    simp [exec, ThreadMgr.step, hthread, hsignal]
  | false =>
    -- a call that was woken leaves with a signal
    obtain ⟨⟨op, st⟩, hc, rfl⟩ := h.served hflag (by
      cases w with
      | thread => exact .inl hasleep
      | call i =>
        obtain ⟨op, hget⟩ := hasleep
        exact .inr ⟨_, mem_of_getElem? hget, rfl⟩)
    obtain ⟨i, hget⟩ := getElem?_of_mem hc
    have hw : Asleep { s with
        bmiTestCancelWaiter := s.bmiTestCancelWaiter - 1, calls := s.calls.set i ⟨op, .returned⟩ } w := by
      cases w with
      | thread => exact hasleep
      | call j =>
        obtain ⟨op', hj⟩ := hasleep
        have hne : i ≠ j := by
          rintro rfl
          simp [hget] at hj
        exact ⟨op', by rw [getElem?_set_ne hne]; exact hj⟩
    obtain ⟨hsignal, hnot⟩ := hwoken _ hw
    refine hnot (hnever [.resume i (some w)] _ (by simp) ?_)
    simp [exec, ThreadMgr.step, hget, hflag, cancelOp, h.useful hflag _ hc (by simp)] at hsignal ⊢
    exact hsignal

end

/-- **Cancelling does not stall** in a run whose steps are careful. -/
theorem cancel_never_stalls {es : List Event} (h : EachStep step Careful init es) :
    Throughout step (fun s => ∀ w, ¬ s.Stalled w) init es := by
  have hinit : Served init := ⟨⟨by decide, rfl, by simp [init], by simp [init]⟩, by simp [init]⟩
  exact (Throughout.of_eachStep (fun s e s' hs hC hstep => hs.step hC hstep) hinit h).mono
    fun s hs => hs.not_stalled

/-- Two calls wait for a test, and are served before the next one. -/
theorem cancel_never_stalls_two :
    Throughout step (fun s => ∀ w, ¬ s.Stalled w) init
      [.enter, .cancel (1, 0) none, .cancel (2, 0) none, .finish [(3, 0)] false (some (.call 0)),
        .enter, .resume 0 (some (.call 1)), .resume 1 (some .thread), .enter] :=
  cancel_never_stalls (by decide +kernel)

/-- The operation that a call is to cancel is done when the test it waited for returns. The network
thread, which is faster, waits for the call; the call leaves without a signal. -/
theorem done_operation_stalls : ¬ ∀ es : List Event,
    Throughout step (fun s => ∀ w, ¬ s.Stalled w) init es := by
  intro h
  refine (h [.enter, .cancel (1, 0) none, .finish [(1, 0)] false (some (.call 0)), .enter,
    .resume 0 none]).last rfl .thread ⟨rfl, fun es s' hes hrun => ?_⟩
  -- nobody is left who could take a step
  cases es with
  | nil =>
    cases hrun
    rfl
  | cons e es =>
    obtain ⟨s₁, hstep, -⟩ := bind_eq_some_iff.mp hrun
    match e with
    | .enter | .finish .. | .stop => cases hstep
    | .cancel op wakes => exact absurd rfl (hes _ (by simp) op wakes)
    | .resume 0 _ | .resume (_ + 1) _ => cases hstep

end ThreadMgr

end Pvfs.Job
