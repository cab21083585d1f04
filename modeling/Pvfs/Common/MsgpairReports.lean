import Pvfs.Common.MsgpairPromises

/-! # What a message pair array reports

When nothing of an answer gets lost the machine returns success only if every message was answered
and every answer was good. A message is not looked at again once it is complete, and a round that
has something to try again starts with the code 0, so a bad answer counts only in the last round. -/

namespace Pvfs.Common

open List

/-- The message has been answered, and the answer was no error. -/
def Msg.Good (m : Msg) : Prop := m.answered = true ∧ m.result = some 0

theorem Msg.post_out (m : Msg) (count i : Nat) (l : Bool) {o : PostOutcome} (ho : o.Regular)
    (hop : (m.post count i l o).msgs.opStatus = 0) : i ∈ (m.post count i l o).tags := by
  unfold Msg.post at hop ⊢
  cases hr : o.recv with
  | testFailed => exact absurd hr ho.2
  | failed error =>
    rw [hr] at hop
    exact absurd hop (code_ne_zero error)
  | pending =>
    cases o.send with
    | pending | done | failed error => simp

theorem Msg.post_complete (m : Msg) (count i : Nat) (l : Bool) (o : PostOutcome) :
    (m.post count i l o).msgs.complete = m.complete := by
  unfold Msg.post
  cases o.recv with
  | testFailed | failed error => rfl
  | pending =>
    cases o.send with
    | pending | done | failed error => rfl

theorem chooseAll_code_ne {retryLimit : Nat} {compCt errorCode : Int} {msgs : List Msg}
    (h : errorCode ≠ 0 ∨ ∃ m ∈ msgs, m.Failed) :
    (chooseAll retryLimit compCt errorCode msgs).2.2 ≠ 0 := by
  induction msgs generalizing compCt errorCode with
  | nil =>
    rcases h with h | ⟨_, hm, _⟩
    · exact h
    · cases hm
  | cons m rest ih =>
    have hrest : errorCode ≠ 0 ∨ m.Failed ∨ ∃ m ∈ rest, m.Failed := by
      refine h.imp_right fun ⟨m1, hm1, hf⟩ => ?_
      rcases mem_cons.mp hm1 with rfl | hmem
      · exact .inl hf
      · exact .inr ⟨m1, hmem, hf⟩
    unfold chooseAll
    split
    next hc =>
      apply ih
      rcases hrest with hcode | hf | hf
      · exact .inl hcode
      · exact absurd (hf.1.symm.trans hc) Bool.noConfusion
      · exact .inr hf
    next =>
      split
      next =>
        apply ih
        left
        split
        next => decide
        next => decide
      next =>
        apply ih
        rcases hrest with hcode | hf | hf
        · rw [if_neg hcode]
          exact .inl hcode
        · left
          split
          next => exact hf.2
          next hcode => exact hcode
        · exact .inr hf

namespace MsgArray

variable {s s' : MsgArray}

/-- No answer gets lost: a response that no completion function looks at can be decoded, and when a
message is tried again the completion functions of this round are content. -/
def Heard (s : MsgArray) : Event → Prop
  | .answers a => ∀ (j : Nat) (m : Msg), s.msgs[j]? = some m → m.complete = false → m.opStatus = 0 →
      (m.compFn = false → (a j).decoded.status ≠ none) ∧
      (m.compFn = true → (∃ m ∈ s.msgs, m.Chosen s.retryLimit) → (a j).compFn = 0)
  | _ => True

/-- Messages that are complete have been answered well. -/
structure Remembered (s : MsgArray) : Prop where
  due : s.stage = .post ∨ s.stage = .postRetry →
    s.compCt < 2 ∨ ∀ m ∈ s.msgs, m.complete = true → m.Good
  kept : s.stage = .wait ∨ s.stage = .completionFn → ∀ m ∈ s.msgs, m.complete = true → m.Good
  waits : s.stage = .wait ∨ s.stage = .completionFn → ∀ (j : Nat) (m : Msg), s.msgs[j]? = some m →
    m.complete = false → m.opStatus = 0 → m.answered = true ∨ j ∈ s.outstanding
  done : s.stage = .done → s.errorCode = 0 → ∀ m ∈ s.msgs, m.Good

theorem Remembered.post (h : s.Remembered) (hstage : s.stage = .post) {o : Nat → PostOutcome}
    (ho : s.Even (.post o)) : (s.msgpairarrayPost o).Remembered := by
  rcases msgpairarrayPost_cases ho with heq | ⟨r, errorCode, hgo, hposted, heq⟩
  · rw [heq]
    exact { h with }
  · have hgood := (h.due (.inl hstage)).resolve_left (by omega)
    have hkept : ∀ m ∈ r.msgs, m.complete = true → m.Good := by
      intro m' hm' hc
      obtain ⟨j, hj⟩ := mem_iff_getElem?.mp hm'
      obtain ⟨m, hm, hcase⟩ := hposted.get hj
      rcases hcase with ⟨_, rfl⟩ | ⟨hopen, l', rfl, _⟩
      · exact hgood _ (mem_of_getElem? hm) hc
      · rw [Msg.post_complete, hopen] at hc
        cases hc
    have hout : ∀ (j : Nat) (m : Msg), r.msgs[j]? = some m → m.complete = false → m.opStatus = 0 →
        m.answered = true ∨ j ∈ s.outstanding ++ r.tags := by
      intro j m' hj hopen' hop
      right
      obtain ⟨m, hm, hcase⟩ := hposted.get hj
      rw [Nat.zero_add] at hcase
      rcases hcase with ⟨hc, rfl⟩ | ⟨hopen, l', rfl, htags⟩
      · exact absurd (hc.symm.trans hopen') Bool.noConfusion
      · apply mem_append_right
        exact htags _ (m.post_out s.count j l' (ho j m hm hopen) hop)
    rw [heq]
    exact ⟨fun hs => absurd hs (not_posting _).1, fun _ => hkept, fun _ => hout,
      fun hs => absurd hs (not_posting _).2⟩

theorem Remembered.completed (h : s.Remembered) (hstage : s.stage = .wait) {tag : Nat}
    (htag : tag < 2 * s.count) (error : Option Nat) : (s.completed tag error).Remembered := by
  obtain ⟨msgs, cancelled, errorCode, fault, heq, hnoted⟩ := completed_spec htag error
  have hkept : ∀ m ∈ msgs, m.complete = true → m.Good := by
    intro m' hm' hc
    obtain ⟨j, hj⟩ := mem_iff_getElem?.mp hm'
    obtain ⟨m, hm, hcase⟩ := hnoted.get hj
    have hgood := h.kept (.inl hstage) m (mem_of_getElem? hm)
    rcases hcase with ⟨_, rfl⟩ | ⟨_, rfl⟩ | ⟨_, rfl⟩
    · exact hgood hc
    · refine ⟨?_, (hgood hc).2⟩
      unfold Msg.recvDone
      simp [(hgood hc).1]
    · exact hgood hc
  have hout : ∀ (j : Nat) (m : Msg), msgs[j]? = some m → m.complete = false → m.opStatus = 0 →
      m.answered = true ∨ j ∈ s.outstanding.erase tag := by
    intro j m' hj hopen hop
    obtain ⟨m, hm, hcase⟩ := hnoted.get hj
    have hbefore := h.waits (.inl hstage) j m hm
    rcases hcase with ⟨hne, rfl⟩ | ⟨_, rfl⟩ | ⟨hsend, rfl⟩
    · exact (hbefore hopen hop).imp_right (mem_erase_of_ne hne).mpr
    · -- the receive of this message: it came, or it failed
      left
      unfold Msg.recvDone at hop ⊢
      cases error with
      | none => simp
      | some e =>
        simp only [Msg.noteRecv, Msg.save, status] at hop
        split at hop
        next => exact absurd hop (code_ne_zero e)
        next hne => exact absurd hop hne
    · have hlt : j < s.msgs.length := (List.getElem?_eq_some_iff.mp hm).1
      have hzero : m.opStatus = 0 := by
        by_contra hne
        simp only [Msg.noteSend, Msg.save, if_neg hne] at hop
        exact hne hop
      exact (hbefore hopen hzero).imp_right (mem_erase_of_ne (by omega)).mpr
  rw [heq]
  exact ⟨fun hs => absurd hs (not_posting _).1, fun _ => hkept, fun _ => hout,
    fun hs => absurd hs (not_posting _).2⟩

theorem Remembered.answers (h : s.Remembered) (hcounted : s.Counted) (hstage : s.stage = .completionFn)
    {a : Nat → Answer} (heven : s.Even (.answers a)) (hheard : s.Heard (.answers a)) :
    (s.msgpairarrayCompletionFn a).Remembered := by
  have hthrough := hcounted.through hstage
  have hidle : s.outstanding = [] := hcounted.idle (by rw [hstage]; exact Stage.noConfusion)
  have hanswered : ∀ (j : Nat) (m : Msg), s.msgs[j]? = some m → m.complete = false → m.opStatus = 0 →
      m.answered = true := by
    intro j m hj hopen hop
    refine (h.waits (.inr hstage) j m hj hopen hop).resolve_right ?_
    rw [hidle]
    exact not_mem_nil
  have hstages : ∀ code, ¬ (next code = .wait ∨ next code = .completionFn) :=
    fun code => not_or.mpr ⟨(next_ne code).1, (next_ne code).2.1⟩
  rcases completionFn_cases heven with heq | ⟨hfault, hzero, heq⟩ | ⟨⟨m0, hm0, hfailed⟩, _, heq, hchoice⟩
  · rw [heq]
    exact { h with }
  · rw [heq]
    refine ⟨fun _ => .inl ?_, fun hs => absurd hs (hstages _), fun hs => absurd hs (hstages _), ?_⟩
    · dsimp only
      omega
    · intro _ hcode m' hm'
      obtain ⟨j, hj⟩ := mem_iff_getElem?.mp hm'
      obtain ⟨m, hm, hc, hcase⟩ := (looksAll_lookAll ..).good hfault hzero hcode hj
      rcases hcase with rfl | ⟨hopen, hop, hsame, hresult⟩
      · exact h.kept (.inr hstage) _ (mem_of_getElem? hm) hc
      · refine ⟨hsame.trans (hanswered j m hm hopen hop), hresult ?_⟩
        rw [Nat.zero_add]
        cases hfn : m.compFn with
        | true => exact .inl rfl
        | false => exact .inr ((hheard j m hm hopen hop).1 hfn)
  · have hcode : (chooseAll s.retryLimit 0 0 (lookAll a 0 ⟨0, 0, none, false⟩ s.msgs).1).2.2 ≠ 0 :=
      chooseAll_code_ne (.inr ⟨m0, (looksAll_lookAll ..).mem_of_failed hfailed hm0, hfailed⟩)
    rw [heq]
    refine ⟨fun _ => ?_, fun hs => absurd hs (hstages _), fun hs => absurd hs (hstages _),
      fun _ hz => absurd hz hcode⟩
    rcases hchoice with hyes | ⟨_, hct⟩
    · right
      have hagain : ∃ m ∈ s.msgs, m.Chosen s.retryLimit :=
        ⟨m0, hm0, hyes m0 ((looksAll_lookAll ..).mem_of_failed hfailed hm0) hfailed.1⟩
      have hfine := (heven ⟨m0, hm0, hfailed⟩).1
      intro m' hm' hc
      obtain ⟨j, hj⟩ := mem_iff_getElem?.mp hm'
      obtain ⟨m1, hm1, hcase⟩ := chooseAll_get hj
      rcases hcase with ⟨hchosen, rfl⟩ | ⟨_, rfl⟩
      · exact absurd (hchosen.1.symm.trans hc) Bool.noConfusion
      obtain ⟨m, hm, hlooks⟩ := (looksAll_lookAll ..).get hm1
      rw [Nat.zero_add] at hlooks
      cases hlooks with
      | same heq => exact h.kept (.inr hstage) _ (mem_of_getElem? (heq ▸ hm)) hc
      | settled hopen hop _ heq =>
        refine ⟨heq ▸ hanswered j m hm hopen hop, heq ▸ ?_⟩
        split
        next hfn => exact congrArg some ((hheard j m hm hopen hop).2 hfn hagain)
        next hfn => rw [(hfine j m hm hopen hop).resolve_left hfn, Decoded.status]
      | left hopen _ _ heq =>
        rw [heq] at hc
        exact absurd (hopen.symm.trans hc) Bool.noConfusion
    · left
      dsimp only
      rw [hct]
      decide

/-- No step forgets an answer. -/
theorem Remembered.step (h : s.Remembered) (hcounted : s.Counted) {e : Event} (heven : s.Even e)
    (hheard : s.Heard e) (hstep : s.step e = some s') : s'.Remembered := by
  cases steps_of_step hstep with
  | post hstage => exact h.post hstage heven
  | completed hstage htag => exact h.completed hstage (hcounted.range _ htag) _
  | answers hstage => exact h.answers hcounted hstage heven hheard
  | postRetry hstage =>
    exact ⟨fun _ => h.due (.inr hstage), fun hs => by simp at hs, fun hs => by simp at hs,
      Stage.noConfusion⟩
  | complete hstage => exact absurd hstage hcounted.regular

theorem remembered_msgpairarrayInit (retryLimit : Nat) (msgs : List Msg) :
    (msgpairarrayInit retryLimit msgs).Remembered := by
  refine ⟨fun _ => .inr fun m hm hc => ?_, fun hs => by simp [msgpairarrayInit] at hs,
    fun hs => by simp [msgpairarrayInit] at hs, Stage.noConfusion⟩
  obtain ⟨_, _, rfl⟩ := mem_map.mp hm
  cases hc

/-- Success means that every message was answered, and every answer was good. -/
def Reported (s : MsgArray) : Prop := s.stage = .done → s.errorCode = 0 → ∀ m ∈ s.msgs, m.Good

/-- **Failures are reported, in every run whose rounds agree and that loses no answer.** -/
theorem msgpairarray_reported (retryLimit : Nat) (msgs : List Msg) (es : List Event)
    (hes : Lib.EachStep step (fun s e => s.Even e ∧ s.Heard e) (msgpairarrayInit retryLimit msgs) es) :
    Lib.Throughout step Reported (msgpairarrayInit retryLimit msgs) es := by
  have hboth : Lib.Throughout step (fun s => s.Counted ∧ s.Remembered)
      (msgpairarrayInit retryLimit msgs) es :=
    Lib.Throughout.of_eachStep
      (fun _ _ _ h hc hstep => ⟨h.1.step hc.1 hstep, h.2.step h.1 hc.1 hc.2 hstep⟩)
      ⟨counted_msgpairarrayInit retryLimit msgs, remembered_msgpairarrayInit retryLimit msgs⟩ hes
  exact hboth.mono fun s h => h.2.done

instance (s : MsgArray) : (e : Event) → Decidable (s.Heard e)
  | .answers _ => inferInstanceAs (Decidable (∀ (j : Nat) (m : Msg), s.msgs[j]? = some m → _))
  | .run | .post _ | .completed .. => inferInstanceAs (Decidable True)

/-- The second of two messages is lost, and is sent again; `first` is what the completion function of
the first one returns. -/
def secondLost (first : Int) : List Event :=
  [allPending, .completed 2 none, .completed 0 none, .completed 3 none, .completed 1 lost,
    .answers fun j => ⟨.response 0, if j = 0 then first else 0⟩, .run, allPending, .completed 3 none,
    .completed 1 none, allServed]

theorem msgpairarray_reported_secondLost :
    Lib.Throughout step Reported (msgpairarrayInit 1 [message true true, message true true])
      (secondLost 0) :=
  msgpairarray_reported 1 [message true true, message true true] (secondLost 0) (by decide +kernel)

/-- **The error of the first message is forgotten** when the second one is tried again. -/
theorem msgpairarray_forgets :
    ∃ s, Lib.exec step (msgpairarrayInit 1 [message true true, message true true]) (secondLost (-5)) =
        some s ∧ s.stage = .done ∧ s.errorCode = 0 ∧
      (s.msgs.map fun m => m.result) = [some (-5), some 0] ∧ ¬ s.Reported := by
  refine ⟨_, rfl, rfl, rfl, rfl, fun h => ?_⟩
  have hgood := (h rfl rfl _ mem_cons_self).2
  cases hgood

end MsgArray

end Pvfs.Common
