import Pvfs.Common.MsgpairRounds

/-! # What a message pair array promises

When the rounds agree the counter is the number of operations that are out, and a message is sent
again only when it failed. What goes wrong otherwise: a message that may not be tried again is sent
along with one that may, and is not counted; and the error of a message that is complete is
forgotten when another one is tried again. -/

namespace Pvfs.Common

open List

/-! ## Accounting -/

namespace Msg

/-- A message is sent a bounded number of times, and again only after it failed with an error of the
network, without a response, and if that is wanted. -/
structure SentWell (retryLimit : Nat) (m : Msg) : Prop where
  atMost : m.sendings.length ≤ retryLimit + 1
  again : ∀ x ∈ m.sendings.tail, m.retryFlag = true ∧ isBmi x.failed = true ∧ x.answered = false

/-- What is known of a message that is to be sent. -/
structure Due (retryLimit : Nat) (m : Msg) : Prop where
  few : m.sendings.length ≤ m.retryCount
  limit : m.retryCount ≤ retryLimit
  unanswered : m.answered = false
  cause : m.sendings = [] ∨ (m.retryFlag = true ∧ isBmi m.opStatus = true)

/-- What is known of a message under way. -/
structure Pending (retryLimit : Nat) (m : Msg) : Prop where
  few : m.sendings.length ≤ m.retryCount + 1
  limit : m.retryCount ≤ retryLimit
  unanswered : m.opStatus ≠ 0 → m.answered = false

variable {retryLimit : Nat} {m : Msg}

theorem SentWell.sent (h : m.SentWell retryLimit) (hdue : m.Due retryLimit) :
    m.sent.SentWell retryLimit := by
  unfold Msg.sent
  constructor
  · rw [length_append]
    have hfew := hdue.few
    have hlimit := hdue.limit
    simp only [length_singleton]
    omega
  · intro x hx
    rcases hdue.cause with hnil | hcause
    · rw [hnil] at hx
      cases hx
    · cases hs : m.sendings with
      | nil =>
        rw [hs] at hx
        cases hx
      | cons y rest =>
        rw [hs, cons_append] at hx
        rcases mem_append.mp hx with hx | hx
        · apply h.again
          rw [hs]
          exact hx
        · rw [mem_singleton.mp hx]
          exact ⟨hcause.1, hcause.2, hdue.unanswered⟩

theorem Due.post (hdue : m.Due retryLimit) (h : m.SentWell retryLimit) (count i : Nat) (l : Bool)
    {o : PostOutcome} (ho : o.Regular) :
    (m.post count i l o).msgs.SentWell retryLimit ∧ (m.post count i l o).msgs.Pending retryLimit := by
  have hsent := h.sent hdue
  have hfew : m.sent.sendings.length ≤ m.retryCount + 1 := by
    unfold Msg.sent
    rw [length_append]
    exact Nat.succ_le_succ hdue.few
  unfold Msg.post
  cases hr : o.recv with
  | testFailed => exact absurd hr ho.2
  | failed error =>
    exact ⟨{ h with }, Nat.le_succ_of_le hdue.few, hdue.limit, fun _ => hdue.unanswered⟩
  | pending =>
    cases o.send with
    | pending | done | failed error =>
      exact ⟨{ hsent with }, hfew, hdue.limit, fun _ => hdue.unanswered⟩

theorem Pending.again (h : m.Pending retryLimit) (hc : m.Chosen retryLimit) :
    Due retryLimit { m with retryCount := m.retryCount + 1 } :=
  ⟨h.few, hc.2.2.2, h.unanswered (isBmi_ne_zero hc.2.2.1), .inr ⟨hc.2.1, hc.2.2.1⟩⟩

end Msg

namespace MsgArray

variable {s s' : MsgArray}

/-- The operations of a message agree: none fails when the response has come, and the response does not
come when one has failed. -/
def Agrees (s : MsgArray) : Event → Prop
  | .completed tag error => ∀ (j : Nat) (m : Msg), s.msgs[j]? = some m → (j = tag ∨ j + s.count = tag) →
      (error ≠ none → m.answered = false) ∧ (j = tag → error = none → m.opStatus = 0)
  | _ => True

theorem forall_fin_iff {P : Nat → Msg → Prop} (msgs : List Msg) :
    (∀ j : Fin msgs.length, P j (msgs.get j)) ↔ ∀ (j : Nat) (m : Msg), msgs[j]? = some m → P j m := by
  constructor
  · intro h j m hj
    obtain ⟨hlt, rfl⟩ := List.getElem?_eq_some_iff.mp hj
    exact h ⟨j, hlt⟩
  · intro h j
    exact h j _ (getElem?_eq_getElem j.2)

instance {P : Nat → Msg → Prop} [∀ j m, Decidable (P j m)] (msgs : List Msg) :
    Decidable (∀ (j : Nat) (m : Msg), msgs[j]? = some m → P j m) :=
  decidable_of_iff _ (forall_fin_iff msgs)

instance (o : PostOutcome) : Decidable o.Regular := inferInstanceAs (Decidable (_ ∧ _))

instance (m : Msg) (a : Answer) : Decidable (m.Fine a) := inferInstanceAs (Decidable (_ ∨ _))

instance (s : MsgArray) (e : Event) : Decidable (s.Even e) := by
  cases e <;> unfold Even <;> infer_instance

instance (s : MsgArray) (e : Event) : Decidable (s.Agrees e) := by
  cases e <;> unfold Agrees <;> infer_instance

/-- What is known of each message in each stage. -/
structure Tracked (s : MsgArray) : Prop where
  sent : ∀ m ∈ s.msgs, m.SentWell s.retryLimit
  due : s.stage = .post ∨ s.stage = .postRetry →
    s.compCt < 2 ∨ ∀ m ∈ s.msgs, m.complete = false → m.Due s.retryLimit
  pending : s.stage = .wait ∨ s.stage = .completionFn →
    ∀ m ∈ s.msgs, m.complete = false → m.Pending s.retryLimit

theorem Tracked.post (h : s.Tracked) (hstage : s.stage = .post) {o : Nat → PostOutcome}
    (ho : s.Even (.post o)) : (s.msgpairarrayPost o).Tracked := by
  rcases msgpairarrayPost_cases ho with heq | ⟨r, errorCode, hgo, hposted, heq⟩
  · rw [heq]
    exact { h with }
  · have hdue := (h.due (.inl hstage)).resolve_left (by omega)
    have hmsgs : ∀ m ∈ r.msgs, m.SentWell s.retryLimit ∧
        (m.complete = false → m.Pending s.retryLimit) := by
      intro m' hm'
      obtain ⟨j, hj⟩ := mem_iff_getElem?.mp hm'
      obtain ⟨m, hm, hcase⟩ := hposted.get hj
      have hmem := mem_of_getElem? hm
      rw [Nat.zero_add] at hcase
      rcases hcase with ⟨hc, rfl⟩ | ⟨hopen, l', rfl, _⟩
      · exact ⟨h.sent _ hmem, fun hopen => absurd (hopen.symm.trans hc) Bool.noConfusion⟩
      · obtain ⟨hwell, hpend⟩ := (hdue m hmem hopen).post (h.sent m hmem) s.count j l' (ho j m hm hopen)
        exact ⟨hwell, fun _ => hpend⟩
    rw [heq]
    exact ⟨fun m hm => (hmsgs m hm).1, fun hs => absurd hs (not_posting _).1, fun _ m hm => (hmsgs m hm).2⟩

theorem Tracked.completed (h : s.Tracked) (hstage : s.stage = .wait) {tag : Nat}
    (htag : tag < 2 * s.count) {error : Option Nat} (hagrees : s.Agrees (.completed tag error)) :
    (s.completed tag error).Tracked := by
  obtain ⟨msgs, cancelled, errorCode, fault, heq, hnoted⟩ := completed_spec htag error
  have hmsgs : ∀ m ∈ msgs, m.SentWell s.retryLimit ∧ (m.complete = false → m.Pending s.retryLimit) := by
    intro m' hm'
    obtain ⟨j, hj⟩ := mem_iff_getElem?.mp hm'
    obtain ⟨m, hm, hcase⟩ := hnoted.get hj
    have hmem := mem_of_getElem? hm
    have hsent := h.sent m hmem
    have hpending := h.pending (.inl hstage) m hmem
    rcases hcase with ⟨_, rfl⟩ | ⟨hrecv, rfl⟩ | ⟨hsend, rfl⟩
    · exact ⟨hsent, hpending⟩
    · -- the receive: a response that comes finds no error
      obtain ⟨hfails, hcomes⟩ := hagrees j m hm (.inl hrecv)
      refine ⟨{ hsent with }, fun hopen => { hpending hopen with unanswered := fun hop => ?_ }⟩
      unfold Msg.recvDone at hop ⊢
      cases error with
      | none => exact absurd (by simp [Msg.noteRecv, Msg.save, status, hcomes hrecv rfl]) hop
      | some e => simp [hfails (by simp)]
    · -- the send: when it fails there is no response
      obtain ⟨hfails, _⟩ := hagrees j m hm (.inr hsend)
      refine ⟨{ hsent with }, fun hopen => { hpending hopen with unanswered := fun hop => ?_ }⟩
      cases error with
      | none =>
        apply (hpending hopen).unanswered
        intro hzero
        exact hop (by simp [Msg.noteSend, Msg.save, status, hzero])
      | some e => exact hfails (by simp)
  rw [heq]
  exact ⟨fun m hm => (hmsgs m hm).1, fun hs => absurd hs (not_posting _).1, fun _ m hm => (hmsgs m hm).2⟩

theorem Tracked.answers (h : s.Tracked) (hcounted : s.Counted) (hstage : s.stage = .completionFn)
    {a : Nat → Answer} (heven : s.Even (.answers a)) : (s.msgpairarrayCompletionFn a).Tracked := by
  have hthrough := hcounted.through hstage
  have hstages : ∀ code, ¬ (next code = .wait ∨ next code = .completionFn) :=
    fun code => not_or.mpr ⟨(next_ne code).1, (next_ne code).2.1⟩
  -- the loops change neither what was sent nor whether a message is tried again
  have hlooked : ∀ m ∈ (lookAll a 0 ⟨0, 0, none, false⟩ s.msgs).1, m.SentWell s.retryLimit := by
    intro m' hm'
    obtain ⟨j, hj⟩ := mem_iff_getElem?.mp hm'
    obtain ⟨m, hm, hlooks⟩ := (looksAll_lookAll ..).get hj
    have hsent := h.sent m (mem_of_getElem? hm)
    cases hlooks with
    | same heq => exact heq ▸ hsent
    | settled _ _ _ heq | left _ _ _ heq => exact heq ▸ { hsent with }
  rcases completionFn_cases heven with heq | ⟨_, _, heq⟩ | ⟨_, hall, heq, hchoice⟩
  · rw [heq]
    exact { h with }
  · rw [heq]
    refine ⟨hlooked, fun _ => .inl ?_, fun hs => absurd hs (hstages _)⟩
    dsimp only
    omega
  · have hchosen : ∀ m ∈ (chooseAll s.retryLimit 0 0 (lookAll a 0 ⟨0, 0, none, false⟩ s.msgs).1).1,
        m.SentWell s.retryLimit := by
      intro m' hm'
      obtain ⟨j, hj⟩ := mem_iff_getElem?.mp hm'
      obtain ⟨m, hm, hcase⟩ := chooseAll_get hj
      have hsent := hlooked m (mem_of_getElem? hm)
      rcases hcase with ⟨_, rfl⟩ | ⟨_, rfl⟩
      · exact { hsent with }
      · exact hsent
    rw [heq]
    refine ⟨hchosen, fun _ => ?_, fun hs => absurd hs (hstages _)⟩
    rcases hchoice with hyes | ⟨_, hzero⟩
    · right
      intro m' hm' hopen
      obtain ⟨j, hj⟩ := mem_iff_getElem?.mp hm'
      obtain ⟨m, hm, hcase⟩ := chooseAll_get hj
      have hmem := mem_of_getElem? hm
      rcases hcase with ⟨hc, rfl⟩ | ⟨hnot, rfl⟩
      · obtain ⟨hget, _⟩ := (hall.get hm).resolve_left (by rw [hc.1]; exact Bool.noConfusion)
        exact (h.pending (.inr hstage) m (mem_of_getElem? hget) hc.1).again hc
      · exact absurd (hyes _ hmem hopen) hnot
    · left
      dsimp only
      rw [hzero]
      decide

/-- Every step keeps track of the messages. -/
theorem Tracked.step (h : s.Tracked) (hcounted : s.Counted) {e : Event} (heven : s.Even e)
    (hagrees : s.Agrees e) (hstep : s.step e = some s') : s'.Tracked := by
  cases steps_of_step hstep with
  | post hstage => exact h.post hstage heven
  | completed hstage htag => exact h.completed hstage (hcounted.range _ htag) hagrees
  | answers hstage => exact h.answers hcounted hstage heven
  | postRetry hstage => exact ⟨h.sent, fun _ => h.due (.inr hstage), fun hs => by simp at hs⟩
  | complete hstage => exact absurd hstage hcounted.regular

theorem tracked_msgpairarrayInit (retryLimit : Nat) (msgs : List Msg) :
    (msgpairarrayInit retryLimit msgs).Tracked := by
  have hmsgs : ∀ m ∈ (msgpairarrayInit retryLimit msgs).msgs,
      m.sendings = [] ∧ m.retryCount = 0 ∧ m.answered = false := by
    intro m hm
    obtain ⟨m0, _, rfl⟩ := mem_map.mp hm
    exact ⟨rfl, rfl, rfl⟩
  refine ⟨fun m hm => ?_, fun _ => .inr fun m hm _ => ?_, fun hs => by simp [msgpairarrayInit] at hs⟩
  · obtain ⟨hnil, _, _⟩ := hmsgs m hm
    exact ⟨by simp [hnil], by simp [hnil]⟩
  · obtain ⟨hnil, hcount, hanswered⟩ := hmsgs m hm
    exact ⟨by simp [hnil], by simp [hcount], hanswered, .inl hnil⟩

/-- What the machine promises: while it waits its counter is the number of operations that are out, at
its end none is out, and no message is sent too often or without a cause. -/
structure Accounted (s : MsgArray) : Prop where
  waits : s.stage = .wait → s.compCt = s.outstanding.length
  done : s.stage = .done → s.outstanding = []
  sent : ∀ m ∈ s.msgs, m.SentWell s.retryLimit

/-- **Accounting, in every run whose rounds agree.** -/
theorem msgpairarray_accounted (retryLimit : Nat) (msgs : List Msg) (es : List Event)
    (hes : Lib.EachStep step (fun s e => s.Even e ∧ s.Agrees e) (msgpairarrayInit retryLimit msgs) es) :
    Lib.Throughout step Accounted (msgpairarrayInit retryLimit msgs) es := by
  have hboth : Lib.Throughout step (fun s => s.Counted ∧ s.Tracked) (msgpairarrayInit retryLimit msgs) es :=
    Lib.Throughout.of_eachStep
      (fun _ _ _ h hc hstep => ⟨h.1.step hc.1 hstep, h.2.step h.1 hc.1 hc.2 hstep⟩)
      ⟨counted_msgpairarrayInit retryLimit msgs, tracked_msgpairarrayInit retryLimit msgs⟩ hes
  apply hboth.mono
  intro s ⟨hcounted, htracked⟩
  refine ⟨hcounted.waits, fun hs => hcounted.idle ?_, htracked.sent⟩
  rw [hs]
  exact Stage.noConfusion

/-- A message that has not been sent. -/
def message (retryFlag compFn : Bool) : Msg where
  retryFlag := retryFlag
  compFn := compFn
  retryCount := 0
  complete := false
  encoded := false
  opStatus := 0
  recvStatus := 0
  sendStatus := 0
  recvId := false
  sendId := false
  sendings := []
  answered := false
  result := none

def allPending : Event := .post fun _ => ⟨none, .pending, .pending⟩

def allServed : Event := .answers fun _ => ⟨.response 0, 0⟩

/-- The network failed: `BMI_EPERM`, which is one more than the number, as in every `code`. -/
def lost : Option Nat := some (2 ^ 30 + 2 ^ 7)

/-- One message is lost, is sent again and is answered. -/
def retriedRun : List Event :=
  [allPending, .completed 1 none, .completed 0 lost, allServed, .run, allPending, .completed 1 none,
    .completed 0 none, allServed]

theorem msgpairarray_accounted_retried :
    Lib.Throughout step Accounted (msgpairarrayInit 1 [message true true]) retriedRun :=
  msgpairarray_accounted 1 [message true true] retriedRun (by decide +kernel)

/-- Two messages are lost, of which only the first may be tried again: both are posted, but only one is
counted. -/
def mixedRun : List Event :=
  [allPending, .completed 0 lost, .completed 1 lost, .completed 2 lost, .completed 3 lost, allServed,
    .run, allPending, .completed 2 none, .completed 0 none, allServed]

/-- **The machine ends while two operations are out**, and it has sent again what may not be sent
again. -/
theorem msgpairarray_ends_early :
    ∃ s, Lib.exec step (msgpairarrayInit 1 [message true true, message false true]) mixedRun = some s ∧
      s.stage = .done ∧ s.errorCode = 0 ∧ s.outstanding = [1, 3] ∧
      (s.msgs.map fun m => m.sendings.length) = [2, 2] ∧ (s.msgs.map fun m => m.answered) = [true, false] ∧
      ¬ s.Accounted := by
  refine ⟨_, rfl, rfl, rfl, rfl, rfl, rfl, fun h => ?_⟩
  have hnil := h.done rfl
  cases hnil

end MsgArray

end Pvfs.Common
