import Pvfs.Flow.ReadOrder

/-! # The runs of a read flow

A run in which nothing goes wrong keeps the order as long as every step is sound, and the first
step that is not sound breaks it. -/

namespace Pvfs.Flow.FlowData

open List

variable {α : Type} {plan : Plan α} {n : Nat} {f g : FlowData α} {i k : Nat}

/-! ## Runs -/

/-- No error, and no cancellation. -/
def Event.Calm : Event → Prop
  | .run r => ∀ error, r ≠ .failed error
  | .callback _ errorCode => errorCode = 0
  | .cancel => False
  | .storage _ => True

/-- What a step has to meet for the order to be kept: the conditions of `SoundSend` on the loop that it
takes a turn of. -/
def Sound (f : FlowData α) : Event → Prop
  | .run r =>
    match f.stack with
    | .sendLoop i :: _ => f.SoundSend i r
    | _ => True
  | _ => True

instance (f : FlowData α) (e : Event) : Decidable (f.Sound e) := by
  unfold Sound
  split
  · split <;> infer_instance
  · infer_instance

variable {rest : List Frame} {r : Posting}

theorem sound_run (hstack : f.stack = .sendLoop i :: rest) :
    f.Sound (.run r) ↔ f.SoundSend i r := by
  simp only [Sound, hstack]

theorem Active.withDisk (h : f.Active plan n) (d : Disk α) : Active plan n { f with disk := d } :=
  { h with
    numbering := { h.numbering with }
    src := fun j hj => { h.src j hj with }
    dest := fun j hj => { h.dest j hj with }
    idle := fun j hj hj' => { h.idle j hj hj' with } }

theorem callback_bmi (hlive : f.complete = false) (hends : f.endpoints = .troveBmi) :
    f.callback (.bmi i) 0 = { f with ops := f.ops.erase (.bmi i) }.bmiSendCallbackFn i 0 false := by
  unfold FlowData.callback
  rw [if_neg (by simp [hlive])]
  unfold bmiCallback
  rw [hends]

theorem callback_trove (hlive : f.complete = false) (hends : f.endpoints = .troveBmi) :
    f.callback (.trove i k) 0 =
      ({ f with ops := f.ops.erase (.trove i k) }.moved i k).troveReadCallbackFn i k 0 := by
  have hcallback : ∀ g : FlowData α, g.endpoints = .troveBmi →
      g.troveCallback i k 0 = g.troveReadCallbackFn i k 0 := by
    intro g hg
    unfold troveCallback
    rw [hg]
  unfold FlowData.callback
  rw [if_neg (by simp [hlive])]
  exact hcallback _ hends

theorem Active.callback (h : f.Active plan n) (hstack : f.stack = []) {op : Op} (hop : op ∈ f.ops) :
    Kept plan n (f.callback op 0) := by
  have hcalls : Calls n f.stack := by
    rw [hstack]
    exact .nil
  have hno : ∀ q, .sendLoop q ∉ f.stack := by
    intro q
    rw [hstack]
    exact not_mem_nil
  cases op with
  | bmi i =>
    rw [callback_bmi h.live h.endpoints]
    refine h.sendDone hop hcalls ?_
    intro _ hsrc _ j hj
    by_contra hge
    exact h.waiting hno hj (Nat.le_of_not_lt hge) hsrc
  | trove i k =>
    rw [callback_trove h.live h.endpoints]
    exact .inl (h.readDone hop fun _ => hcalls)

variable {fr : Frame}

theorem Active.runFrame (h : f.Active plan n) (hstack : f.stack = fr :: rest)
    (hr : ∀ error, r ≠ .failed error) (hsound : f.Sound (.run r)) :
    Kept plan n ({ f with stack := rest }.runFrame r fr) := by
  rcases h.frames with hcalls | ⟨i, k, rest', -, -, hst, -⟩
  · rw [hstack] at hcalls
    cases hcalls with
    | start hle => exact h.start hstack r
    | loop hcalls =>
      exact h.sendNext hstack hr ((sound_run hstack).mp hsound)
  · rw [hstack] at hst
    cases hst
    exact .inl (h.postRead hstack hr)

theorem Finished.runFrame (h : f.Finished plan n) (hstack : f.stack = fr :: rest)
    (hsound : f.Sound (.run r)) : Finished plan n ({ f with stack := rest }.runFrame r fr) := by
  have hcalls := h.frames
  rw [hstack] at hcalls
  cases hcalls with
  | start hle => exact h.start r
  | loop hcalls =>
    exact h.sendNext r hstack ((sound_run hstack).mp hsound)

/-- Every sound step keeps the invariant. -/
theorem Kept.step (h : Kept plan n f) {e : Event} (hcalm : e.Calm) (hsound : f.Sound e)
    (hstep : f.step e = some g) : Kept plan n g := by
  cases steps_of_step hstep with
  | run hstack =>
    cases h with
    | inl h => exact h.runFrame hstack hcalm hsound
    | inr h => exact .inr (h.runFrame hstack hsound)
  | callback hstack hop hready =>
    cases hcalm
    cases h with
    | inl h => exact h.callback hstack hop
    | inr h =>
      rw [h.ops] at hop
      exact absurd hop not_mem_nil
  | cancel => cases hcalm
  | storage hdisk => exact h.imp (fun h => h.withDisk _) fun h => { h with }

section

attribute [local simp] fpMultiqueuePost new push

theorem active_fpMultiqueuePost (plan : Plan α) (n : Nat) (dataSync : Bool) :
    Active plan n (fpMultiqueuePost .troveBmi n dataSync plan) where
  endpoints := rfl
  buffers := rfl
  noError := rfl
  noFault := rfl
  live := rfl
  exact := by
    refine ⟨nodup_nil, ?_, ?_⟩
    · intro i
      exact iff_of_false not_mem_nil Bool.noConfusion
    · intro i k
      exact iff_of_false not_mem_nil (Item.not_posted_of_nil rfl)
  pending := rfl
  remaining := rfl
  reqDone := by simp
  le := Nat.le_refl _
  sent := rfl
  whole := by simp
  lastPosted := by simp
  initial := by simp
  numbering :=
    { seqs := fun _ h => nomatch h
      inj := fun _ _ h => nomatch h
      last := by simp
      used := fun _ h => nomatch h }
  empty := rfl
  srcNodup := nodup_nil
  destNodup := nodup_nil
  disjoint := by simp
  src := by simp
  dest := by simp
  idle := fun _ _ _ => ⟨rfl, rfl, rfl, by simp⟩
  cover := by simp
  fresh := fun _ _ => rfl
  frames := .inl (.start (Nat.zero_le n))
  loops := by simp
  work := by simp
  busy := by simp [started]
  blocked := by simp

end

/-! ## The order of a read flow -/

/-- **Read flows send only loaded buffers, in order**: what has been sent is the first part of the
request, every buffer with all its bytes; the flow is complete only when all of it is sent and
nothing is out, and is complete when there is nothing more to come; and no assertion fails, so that
it is marked as complete once. -/
structure InOrder (plan : Plan α) (f : FlowData α) : Prop where
  sent : f.sent <+: plan.loaded
  complete : f.complete = true → f.sent = plan.loaded ∧ f.ops = []
  progress : f.stack = [] → f.ops = [] → f.complete = true
  noFault : f.fault = false

theorem Reading.exists_reading (h : f.Reading plan n) (hcalls : Calls n f.stack) (hi : i ∈ f.srcList) :
    ∃ k, .trove i k ∈ f.ops := by
  have hload := h.src i hi
  have hchained := hload.chained
  rw [hcalls.posOf] at hchained
  have hcount := hload.count
  rw [hchained.count, countP_pos_iff] at hcount
  obtain ⟨d, hd, hnone⟩ := hcount
  obtain ⟨k, hk⟩ := mem_iff_getElem?.mp hd
  rw [Option.isNone_iff_eq_none.mp hnone] at hk
  have hlt : k < (f.items i).resultChain.length := by
    rw [hchained.length_chain, ← hchained.length]
    exact (List.getElem?_eq_some_iff.mp hk).1
  obtain ⟨e, he⟩ := hchained.exists_entry (hchained.length_chain ▸ hlt)
  refine ⟨k, (h.exact.trove i k).mpr ⟨e, he, ?_⟩⟩
  by_contra hp
  have hmoved := hchained.moved he (by simpa using hp) hlt
  rw [hk] at hmoved
  cases hmoved

theorem Active.exists_op (h : f.Active plan n) (hn : 0 < n) (hstack : f.stack = []) : f.ops ≠ [] := by
  have hcalls : Calls n f.stack := by
    rw [hstack]
    exact .nil
  have hsrc : f.srcList ≠ [] → f.ops ≠ [] := by
    intro hne
    obtain ⟨i, hi⟩ := exists_mem_of_ne_nil _ hne
    obtain ⟨k, hk⟩ := h.exists_reading hcalls hi
    exact ne_nil_of_mem hk
  have hdest : ∀ i ∈ f.destList, f.ops ≠ [] := by
    intro i hi
    by_cases hlt : (f.items i).seq < f.nextSeqToSend
    · exact ne_nil_of_mem ((h.exact.bmi i).mpr ((h.dest i hi).posted.mpr hlt))
    · refine hsrc (h.waiting ?_ hi (Nat.le_of_not_lt hlt))
      intro q
      rw [hstack]
      exact not_mem_nil
  cases hreq : f.reqProcDone with
  | true =>
    rcases h.work hreq with hne | hne
    · exact hsrc hne
    · obtain ⟨i, hi⟩ := exists_mem_of_ne_nil _ hne
      exact hdest i hi
  | false =>
    have hbusy := h.busy hreq 0 (by rw [hstack]; exact hn)
    rcases hbusy with hi | hi
    · exact hsrc (ne_nil_of_mem hi)
    · exact hdest 0 hi

theorem Kept.inOrder (h : Kept plan n f) (hn : 0 < n) : f.InOrder plan := by
  cases h with
  | inl h =>
    refine ⟨?_, ?_, ?_, h.noFault⟩
    · rw [h.sent]
      exact plan.take_isPrefix_loaded h.whole
    · intro hcomplete
      exact absurd (h.live.symm.trans hcomplete) Bool.noConfusion
    · intro hstack hops
      exact absurd hops (h.exists_op hn hstack)
  | inr h =>
    have hsent : f.sent = plan.loaded := by rw [h.sent, h.all]; rfl
    exact ⟨hsent ▸ prefix_refl _, fun _ => ⟨hsent, h.ops⟩, fun _ _ => h.complete, h.noFault⟩

/-! ## Where the order breaks -/

theorem load_sent : (f.load i).sent = f.sent := by
  have hite : ∀ (c : Prop) [Decidable c] (a b : FlowData α), a.sent = f.sent → b.sent = f.sent →
      (if c then a else b).sent = f.sent := by
    intro c _ a b ha hb
    split
    next => exact ha
    next => exact hb
  unfold load
  rw [taken_eq]
  exact hite _ _ _ (hite _ _ _ rfl rfl) rfl

theorem sendDone_sent {initialCallFlag : Bool} : (f.sendDone i initialCallFlag).sent = f.sent := by
  unfold sendDone reuse
  simp only [apply_ite FlowData.sent, load_sent, markComplete, returnOne, unlink, onItem, ite_self]

theorem sendNext_sent (hseq : (f.items (f.scan i)).seq = f.nextSeqToSend)
    (hused : (f.items (f.scan i)).bufferUsed ≠ 0) (herror : f.errorCode = 0)
    (hr : ∀ error, r ≠ .failed error) :
    (f.sendNext i r).sent = f.sent ++ [(f.items (f.scan i)).data] := by
  cases r with
  | pending =>
    rw [sendNext_pending hseq hused]
    rfl
  | immediate =>
    rw [sendNext_immediate hseq hused, bmiSendCallbackFn_ok (f := f.handed (f.scan i)) herror,
      sendDone_sent]
    rfl
  | failed error => exact absurd rfl (hr error)

theorem scan_of_nil (hnil : f.destList = []) : f.scan i = i := by
  unfold scan
  rw [hnil]
  rfl

theorem sendNext_fault (hseq : (f.items (f.scan i)).seq = f.nextSeqToSend)
    (hused : (f.items (f.scan i)).bufferUsed = 0) : (f.sendNext i r).fault = true := by
  unfold sendNext
  rw [if_pos hseq, if_pos hused]

theorem InOrder.of_sendNext (horder : InOrder plan (f.sendNext i r))
    (hseq : (f.items (f.scan i)).seq = f.nextSeqToSend) (herror : f.errorCode = 0)
    (hr : ∀ error, r ≠ .failed error) :
    (f.items (f.scan i)).bufferUsed ≠ 0 ∧
      f.sent ++ [(f.items (f.scan i)).data] <+: plan.loaded := by
  have hused : (f.items (f.scan i)).bufferUsed ≠ 0 := by
    intro hused
    exact absurd (horder.noFault.symm.trans (sendNext_fault hseq hused)) Bool.noConfusion
  exact ⟨hused, sendNext_sent hseq hused herror hr ▸ horder.sent⟩

theorem not_mem_loaded {d : List (Option (List α))} (hnone : none ∈ d) : d ∉ plan.loaded := by
  intro hmem
  obtain ⟨p, -, rfl⟩ := mem_map.mp hmem
  simp at hnone

theorem Active.not_inOrder_of_resend (h : f.Active plan n) (hstack : f.stack = .sendLoop i :: rest)
    (hr : ∀ error, r ≠ .failed error) (hnil : f.destList = [])
    (hseq : (f.items i).seq = f.nextSeqToSend) :
    ¬ InOrder plan ({ f with stack := rest }.sendNext i r) := by
  have hscan : f.scan i = i := scan_of_nil hnil
  have hbuffer : (f.items i).buffer = true := by
    apply h.loops
    rw [hstack]
    exact mem_cons_self
  intro horder
  obtain ⟨hused, hsent⟩ := horder.of_sendNext (hscan.symm ▸ hseq) h.noError hr
  change (f.items (f.scan i)).bufferUsed ≠ 0 at hused
  change f.sent ++ [(f.items (f.scan i)).data] <+: plan.loaded at hsent
  rw [hscan] at hused hsent
  by_cases hsrc : i ∈ f.srcList
  · have hload := h.src i hsrc
    have hcount := hload.count
    rw [hload.chained.count, countP_pos_iff] at hcount
    obtain ⟨d, hd, hnone⟩ := hcount
    rw [Option.isNone_iff_eq_none.mp hnone] at hd
    exact not_mem_loaded hd (hsent.subset (mem_append_right _ (mem_singleton.mpr rfl)))
  · have hdest : i ∉ f.destList := by
      rw [hnil]
      exact not_mem_nil
    rcases (h.idle i hsrc hdest).stale hbuffer with hlt | hpiece
    · exact Nat.lt_irrefl _ (hseq ▸ hlt)
    · rw [h.numbering.used i hbuffer, hpiece] at hused
      exact hused rfl

theorem Reading.lt_length_loaded (h : f.Reading plan n) (hi : i ∈ f.destList) :
    (f.items i).seq < plan.loaded.length := by
  have hpiece := (h.dest i hi).nonempty
  have hlt := plan.lt_length hpiece
  have hwhole : ∀ s < (f.items i).seq + 1, plan.pieceAt s ≠ [] := by
    intro s hs
    rcases Nat.lt_succ_iff_lt_or_eq.mp hs with hs | hs
    · exact plan.pieceAt_ne_nil (by omega)
    · rw [hs]
      exact hpiece
  have hle := (plan.take_isPrefix_loaded hwhole).length_le
  rw [length_map, length_take] at hle
  omega

theorem Reading.length_sent (h : f.Reading plan n) : f.sent.length = f.nextSeqToSend := by
  rw [h.sent, length_map, length_take]
  apply Nat.min_eq_left
  by_contra hlt
  exact h.whole plan.pieces.length (Nat.lt_of_not_le hlt) (plan.pieceAt_eq_nil (Nat.le_refl _))

theorem load_complete (hbuffer : (f.items i).buffer = true) (hnil : f.next = [])
    (hpend : f.destPending = 0) (hsrc : f.srcList = []) (hempty : f.emptyList = [])
    (hdest : f.destList.Nodup) : ((f.reuse i).load i).complete = true := by
  have hsrc' : f.srcList.erase i = [] := by
    rw [hsrc]
    rfl
  have hempty' : f.emptyList.erase i = [] := by
    rw [hempty]
    rfl
  rw [reuse_of_buffer hbuffer, load_of_nil (f := f.unlink i) hnil ?_ hdest.not_mem_erase hempty']
  · rw [if_pos ⟨hpend, hsrc'⟩]
    rfl
  · change i ∉ f.srcList.erase i
    rw [hsrc']
    exact not_mem_nil

theorem sendDone_complete (hpend : f.destPending = 1) (hsrc : f.srcList = [])
    (hbuffer : (f.items i).buffer = true) (hempty : f.emptyList = []) (hdest : f.destList.Nodup)
    (hlast : (f.destLastPosted = true ∧ f.initialPosts = 0) ∨
      (f.destLastPosted = false ∧ f.reqProcDone = false ∧ f.next = [])) :
    (f.sendDone i false).complete = true := by
  have hzero : f.destPending - 1 = 0 := by omega
  unfold FlowData.sendDone
  rcases hlast with ⟨hl, hposts⟩ | ⟨hl, hreq, hnil⟩
  · rw [if_pos ⟨hposts, hzero, hl, hsrc⟩]
    rfl
  · rw [if_neg (by simp [hl]), if_neg (by simp [hreq])]
    exact load_complete hbuffer hnil hzero hsrc hempty
      hdest

theorem Reading.sendNext_complete (h : f.Reading plan n)
    (hseq : (f.items (f.scan i)).seq = f.nextSeqToSend) (hmem : f.scan i ∈ f.destList)
    (hpend : f.destPending = 0) (hsrc : f.srcList = [])
    (hlast : f.destLastPosted = true ∨ (f.reqProcDone = false ∧ f.next = [])) (rest : List Frame) :
    ({ f with stack := rest }.sendNext i .immediate).complete = true := by
  have hload := h.dest _ hmem
  have hused := h.used_ne_zero hmem
  have hnext : { f with stack := rest }.sendNext i .immediate =
      (handed { f with stack := rest } (f.scan i)).bmiSendCallbackFn (f.scan i) 0 false :=
    sendNext_immediate hseq hused
  have hdone := bmiSendCallbackFn_ok (f := handed { f with stack := rest } (f.scan i)) (i := f.scan i)
    h.noError false
  rw [hnext, hdone]
  refine sendDone_complete ?_ hsrc ?_ h.empty h.destNodup ?_
  · rw [hpend]
    rfl
  · rw [unpostBmi_items, if_pos rfl]
    exact hload.buffer
  · change (f.destLastPosted || (f.items (f.scan i)).last) = true ∧
        (if (f.items (f.scan i)).last then 0 else f.initialPosts) = 0 ∨
      (f.destLastPosted || (f.items (f.scan i)).last) = false ∧ f.reqProcDone = false ∧ f.next = []
    rcases hlast with hl | ⟨hreq, hnil⟩
    · left
      rw [h.initial hl, hl, ite_self]
      exact ⟨rfl, rfl⟩
    · right
      rw [h.not_last hreq, h.not_lastPosted hreq]
      exact ⟨rfl, hreq, hnil⟩

theorem Active.not_inOrder_of_waiting (h : f.Active plan n) (hfound : f.destList = [] →
      (f.items i).seq ≠ f.nextSeqToSend) (hpend : f.destPending = 0) (hsrc : f.srcList = [])
    (hlast : f.destLastPosted = true ∨ (f.reqProcDone = false ∧ f.next = [])) {j : Nat}
    (hj : j ∈ f.destList) (hlt : f.nextSeqToSend < (f.items j).seq) (rest : List Frame) :
    ¬ InOrder plan ({ f with stack := rest }.sendNext i .immediate) := by
  have hloaded := h.lt_length_loaded hj
  have hseq : (f.items (f.scan i)).seq = f.nextSeqToSend := by
    by_contra hne
    -- the buffer with the next number is in no queue
    have hpiece : plan.pieceAt f.nextSeqToSend ≠ [] := by
      apply plan.pieceAt_ne_nil
      have hle := length_filter_le (fun p => !p.isEmpty) plan.pieces
      rw [Plan.loaded, length_map] at hloaded
      omega
    have hltNext := h.numbering.seqs j (h.dest j hj).buffer
    obtain ⟨q, hq, hqseq⟩ := h.cover _ (Nat.le_refl _) (by omega) hpiece
    rw [hsrc] at hq
    exact scan_ne hne q (hq.resolve_left not_mem_nil) hqseq
  have hmem := scan_mem hfound hseq
  have hsent : ({ f with stack := rest }.sendNext i .immediate).sent =
      f.sent ++ [(f.items (f.scan i)).data] :=
    sendNext_sent hseq (h.used_ne_zero hmem) h.noError
      fun _ => Posting.noConfusion
  intro horder
  have hall := (horder.complete (h.sendNext_complete hseq hmem hpend hsrc hlast rest)).1
  rw [← hall, hsent, length_append, h.length_sent, length_singleton] at hloaded
  omega

theorem Active.not_inOrder (h : f.Active plan n) (hstack : f.stack = .sendLoop i :: rest)
    (hr : ∀ error, r ≠ .failed error) (hunsound : ¬ f.SoundSend i r) :
    ¬ InOrder plan ({ f with stack := rest }.sendNext i r) := by
  by_cases hfound : f.destList = [] → (f.items i).seq ≠ f.nextSeqToSend
  · intro horder
    apply hunsound
    refine ⟨hfound, ?_⟩
    intro hrun hpend hsrc hlast j hj
    by_contra hlt
    subst hrun
    exact h.not_inOrder_of_waiting hfound hpend hsrc hlast hj (Nat.lt_of_not_le hlt) rest horder
  · rw [Classical.not_imp, not_not] at hfound
    exact h.not_inOrder_of_resend hstack hr hfound.1 hfound.2

theorem Finished.not_inOrder (h : f.Finished plan n) (hr : ∀ error, r ≠ .failed error)
    (hunsound : ¬ f.SoundSend i r) : ¬ InOrder plan ({ f with stack := rest }.sendNext i r) := by
  have hnot : ¬ (f.destList = [] → (f.items i).seq ≠ f.nextSeqToSend) := by
    intro hfound
    exact hunsound ⟨hfound, fun _ _ _ _ j hj => Nat.le_of_lt (h.dest j hj)⟩
  rw [Classical.not_imp, not_not] at hnot
  obtain ⟨hnil, hseq⟩ := hnot
  intro horder
  have hsent : f.sent ++ [(f.items (f.scan i)).data] <+: plan.loaded :=
    (horder.of_sendNext ((scan_of_nil hnil).symm ▸ hseq) h.noError hr).2
  have hall : f.sent = plan.loaded := by rw [h.sent, h.all]; rfl
  have hle := hsent.length_le
  rw [hall, length_append, length_singleton] at hle
  omega

/-- **A step that is not sound breaks the order.** -/
theorem Kept.breaks (h : Kept plan n f) {e : Event} (hcalm : e.Calm) (hunsound : ¬ f.Sound e)
    (hstep : f.step e = some g) : ¬ g.InOrder plan := by
  cases steps_of_step hstep with
  | callback | cancel | storage => exact absurd trivial hunsound
  | @run r fr rest hstack =>
    have hloop : ∃ i, fr = .sendLoop i := by
      cases fr with
      | sendLoop i => exact ⟨i, rfl⟩
      | _ => simp [Sound, hstack] at hunsound
    obtain ⟨i, rfl⟩ := hloop
    rw [sound_run hstack] at hunsound
    cases h with
    | inl h => exact h.not_inOrder hstack hcalm hunsound
    | inr h => exact h.not_inOrder hcalm hunsound

/-- **A run of a read flow in which nothing goes wrong sends the buffers in order just when each of its
steps is sound**, whichever reads and sends complete at once, and whenever and in whichever order
the others do. -/
theorem read_flow_inOrder_iff (plan : Plan α) (n : Nat) (hn : 0 < n) (dataSync : Bool)
    (es : List Event) (hcalm : ∀ e ∈ es, e.Calm) :
    Lib.Throughout step (InOrder plan) (fpMultiqueuePost .troveBmi n dataSync plan) es ↔
      Lib.EachStep step Sound (fpMultiqueuePost .troveBmi n dataSync plan) es :=
  Lib.throughout_iff_of_breaks (I := Kept plan n) (fun _ h => h.inOrder hn)
    (fun _ _ _ hcalm h hsound hstep => h.step hcalm hsound hstep)
    (fun _ _ _ hcalm h hunsound hstep => h.breaks hcalm hunsound hstep)
    (.inl (active_fpMultiqueuePost plan n dataSync)) hcalm

def twoPieces : Plan Nat := ⟨[[[1]], [[2]]], by decide, by decide⟩

/-- Both buffers are read, and the second one is loaded first; the first is sent at once. -/
def secondFirst : List Event :=
  [.run .pending, .run .pending, .run .pending, .run .pending, .run .pending,
    .callback (.trove 1 0) 0, .run .pending, .callback (.trove 0 0) 0, .run .immediate, .run .pending,
    .run .pending, .callback (.bmi 1) 0]

theorem read_flow_inOrder_secondFirst :
    Lib.Throughout step (InOrder twoPieces) (fpMultiqueuePost .troveBmi 2 false twoPieces)
      secondFirst := by
  refine (read_flow_inOrder_iff twoPieces 2 (by decide) false secondFirst ?_).mpr ?_
  · simp [secondFirst, Event.Calm]
  · decide +kernel

def threePieces : Plan Nat := ⟨[[[1]], [[2]], [[3]]], by decide, by decide⟩

/-- The first buffer is read and sent at once, takes the second piece, and is sent again while this
is being read. -/
def sentUnread : List Event :=
  [.run .pending, .run .immediate, .run .immediate, .run .pending, .run .pending]

def emptyEnd : Plan Nat := ⟨[[[1]], [[2]], []], by decide, by decide⟩

/-- The second buffer is loaded and waits; the first one is sent at once, finds nothing left to read,
and marks the flow as complete. -/
def forgotten : List Event :=
  [.run .pending, .run .pending, .run .pending, .run .pending, .run .pending,
    .callback (.trove 1 0) 0, .run .pending, .callback (.trove 0 0) 0, .run .immediate]

/-- Everything completes at once: the loop of a flow that is complete sends a buffer without bytes. -/
def allAtOnce : List Event := List.replicate 6 (.run .immediate)

/-- A piece is sent unread, a loaded piece is forgotten, and a flow faults. -/
theorem read_flow_out_of_order :
    (∃ f, Lib.exec step (fpMultiqueuePost .troveBmi 2 false threePieces) sentUnread = some f ∧
      f.sent = [[some [1]], [none]] ∧ ¬ f.InOrder threePieces) ∧
    (∃ f, Lib.exec step (fpMultiqueuePost .troveBmi 2 false emptyEnd) forgotten = some f ∧
      (f.complete = true ∧ f.sent = [[some [1]]]) ∧ ¬ f.InOrder emptyEnd) ∧
    (∃ f, Lib.exec step (fpMultiqueuePost .troveBmi 2 false emptyEnd) allAtOnce = some f ∧
      f.fault = true ∧ ¬ f.InOrder emptyEnd) := by
  -- where the runs end
  have hunread : (Lib.exec step (fpMultiqueuePost .troveBmi 2 false threePieces) sentUnread).map sent =
      some [[some [1]], [none]] := by decide +kernel
  have hforgotten : (Lib.exec step (fpMultiqueuePost .troveBmi 2 false emptyEnd) forgotten).map
      (fun f => (f.complete, f.sent)) = some (true, [[some [1]]]) := by decide +kernel
  have hfault : (Lib.exec step (fpMultiqueuePost .troveBmi 2 false emptyEnd) allAtOnce).map fault =
      some true := by decide +kernel
  refine ⟨?_, ?_, ?_⟩
  · obtain ⟨f, hrun, hsent⟩ := Option.map_eq_some_iff.mp hunread
    refine ⟨f, hrun, hsent, fun horder => ?_⟩
    have hpre := horder.sent
    rw [hsent] at hpre
    exact absurd hpre (by decide)
  · obtain ⟨f, hrun, hend⟩ := Option.map_eq_some_iff.mp hforgotten
    rw [Prod.mk.injEq] at hend
    refine ⟨f, hrun, hend, fun horder => ?_⟩
    have hall := (horder.complete hend.1).1
    rw [hend.2] at hall
    exact absurd hall (by decide)
  · obtain ⟨f, hrun, hend⟩ := Option.map_eq_some_iff.mp hfault
    exact ⟨f, hrun, hend, fun horder => absurd (horder.noFault.symm.trans hend) Bool.noConfusion⟩

end Pvfs.Flow.FlowData
