import Pvfs.Flow.ReadFlow

/-! # The run of a read flow

The functions of the protocol take the steps of `Pvfs.Flow.ReadFlow`. Two things go wrong when
sends complete at once. `trove_read_callback_fn` looks for the next buffer in the destination
queue, and when that is empty goes on with the buffer that it sent last: by then this one may be
loading again, under the number that is looked for. And the flow is marked as complete when no
operation is out and nothing is left of the request, although a loaded buffer may still wait in the
destination queue. `Sound` rules out just these two. -/

namespace Pvfs.Flow.FlowData

open List Function Piece

variable {α : Type} {plan : Plan α} {n : Nat} {f g : FlowData α} {i k : Nat}

/-- The invariant of a read flow. -/
def Kept (plan : Plan α) (n : Nat) (f : FlowData α) : Prop := f.Active plan n ∨ f.Finished plan n

theorem Calls.afterOne {stack : List Frame} (h : Calls n stack) :
    Calls n (FlowData.afterOne stack) := by
  cases h with
  | nil => exact .nil
  | start h => exact .start h
  | loop h => exact h

/-! ## Taking the next piece -/

/-- A buffer that has taken the next piece. -/
def takenItem (f : FlowData α) (i : Nat) : Item α :=
  { (f.items i).take f.next with
    seq := f.nextSeq
    bufferUsed := size f.next
    last := (f.items i).last || f.remaining.tail.isEmpty }

/-- The next piece is taken into a buffer. -/
def taken (f : FlowData α) (i : Nat) : FlowData α :=
  { f with
    items := update f.items i (f.takenItem i)
    remaining := f.remaining.tail
    totalBytesProcessed := f.totalBytesProcessed + size f.next
    nextSeq := f.nextSeq + 1
    reqProcDone := f.reqProcDone || f.remaining.tail.isEmpty
    initialPosts :=
      if f.remaining.tail.isEmpty && f.totalBytesProcessed + size f.next == 0 then 0
      else f.initialPosts
    destLastPosted := f.destLastPosted ||
      (f.remaining.tail.isEmpty && f.totalBytesProcessed + size f.next == 0) }

theorem taken_eq (f : FlowData α) (i : Nat) :
    (((f.linkSrc i).processRequest i).stamp i (size f.next)).noteDone i =
      { f.taken i with srcList := f.srcList ++ [i] } := by
  simp only [noteDone, stamp, processRequest, linkSrc, onItem, done, next, update_idem,
    update_self]
  rfl

theorem load_of_ne_nil (hne : f.next ≠ []) (hreq : f.reqProcDone = false)
    (htotal : f.totalBytesProcessed + size f.next ≠ 0) :
    f.load i = { f with
      items := update f.items i (f.takenItem i)
      srcList := f.srcList ++ [i]
      remaining := f.remaining.tail
      totalBytesProcessed := f.totalBytesProcessed + size f.next
      nextSeq := f.nextSeq + 1
      reqProcDone := f.remaining.tail.isEmpty
      stack := .postReads i 0 f.next.length :: f.stack } := by
  have hzero : (f.totalBytesProcessed + size f.next == 0) = false := by simpa using htotal
  unfold load
  rw [if_neg hne, taken_eq, taken, hzero, Bool.and_false, Bool.or_false, hreq]
  rfl

theorem load_of_nil (hnil : f.next = []) (hsrc : i ∉ f.srcList) (hdest : i ∉ f.destList)
    (hempty : f.emptyList = []) :
    f.load i = if f.destPending = 0 ∧ f.srcList = [] then (f.taken i).markComplete.returnOne
      else (f.taken i).lastPosted := by
  have hleft : (f.srcList ++ [i]).erase i = f.srcList := by
    rw [erase_append_right _ hsrc, erase_cons_head, append_nil]
  unfold load
  rw [if_pos hnil, taken_eq]
  simp only [unlink, taken, hleft, erase_of_not_mem hdest, hempty, erase_nil]

section
variable (h : f.Reading plan n) (it : Item α) (hbuffer : it.buffer = true)
  (hcount : it.resultChainCount = 0) (hunposted : it.postedId = false) (hlast : it.last = false)
include hbuffer hcount hunposted hlast

theorem takes_takenItem :
    f.Takes (takenItem { f with items := update f.items i it } i) := by
  have hit : update f.items i it i = it := update_self ..
  have hchained : (it.take f.next).Chained f.next 0 := Item.chained_take hcount
  refine ⟨?_, rfl, rfl, ?_, ?_, ?_⟩ <;> unfold takenItem <;> dsimp only <;> rw [hit]
  · exact hbuffer
  · rw [hlast, Bool.false_or]
  · exact hunposted
  · exact { hchained with }

include h

theorem Reading.load (hsrc : i ∉ f.srcList) (hdest : i ∉ f.destList) (hreq : f.reqProcDone = false)
    (hcalls : Calls n f.stack) (hi : i < started n f.stack)
    (hbusy : ∀ j < started n f.stack, j ≠ i → j ∈ f.srcList ∨ j ∈ f.destList)
    (hblocked : (∀ q, .sendLoop q ∉ f.stack) → ∀ j ∈ f.destList, (f.items j).seq ≠ f.nextSeqToSend)
    (hwait : f.destPending = 0 → f.srcList = [] → f.next = [] → f.destList = []) :
    Kept plan n ({ f with items := update f.items i it }.load i) := by
  have ht : f.Takes (takenItem { f with items := update f.items i it } i) :=
    takes_takenItem it hbuffer hcount hunposted hlast
  by_cases hne : f.next = []
  · have hread := h.load_empty ht hsrc hdest hreq hcalls hi hne (f.totalBytesProcessed + size f.next)
    have htail : f.remaining.tail.isEmpty = true := h.tail_of_nil hne
    rw [load_of_nil (f := { f with items := update f.items i it }) hne hsrc hdest h.empty]
    simp only [taken, update_idem, htail, Bool.or_true]
    by_cases hdone : f.destPending = 0 ∧ f.srcList = []
    · obtain ⟨hops, hall⟩ := hread.all_sent rfl hdone.2 (hwait hdone.1 hdone.2 hne)
      right
      rw [if_pos hdone]
      exact
        { endpoints := h.endpoints
          buffers := h.buffers
          noError := h.noError
          noFault := by
            simp [markComplete, returnOne, h.noFault, h.live]
          complete := rfl
          ops := hops
          srcEmpty := hdone.2
          reqDone := rfl
          dest := by
            intro j hj
            rw [show f.destList = [] from hwait hdone.1 hdone.2 hne] at hj
            cases hj
          sent := h.sent
          all := hall
          frames := hcalls.afterOne }
    · left
      rw [if_neg hdone]
      exact
        { hread with
          work := by
            intro _
            by_cases hs : f.srcList = []
            · right
              obtain ⟨j, hj⟩ := hread.exists_sending fun hp => hdone ⟨hp, hs⟩
              exact ne_nil_of_mem (hread.sending hj).1
            · exact .inl hs
          busy := fun hfalse => nomatch hfalse
          blocked := by
            intro hno j hj
            show (update f.items i _ j).seq ≠ f.nextSeqToSend
            rw [update_of_not_mem hdest hj]
            exact hblocked hno j hj }
  · have htotal : f.totalBytesProcessed + size f.next ≠ 0 := by
      rw [h.next_eq] at hne ⊢
      have hpos := plan.size_pos hne
      omega
    left
    rw [load_of_ne_nil (f := { f with items := update f.items i it }) hne hreq htotal]
    rw [update_idem]
    exact h.load_piece ht hsrc hdest hreq hcalls hi hne hbusy hblocked _

end

/-! ## Callbacks -/

theorem bmiSendCallbackFn_ok (herror : f.errorCode = 0) (initialCallFlag : Bool) :
    f.bmiSendCallbackFn i 0 initialCallFlag = (f.unpostBmi i).sendDone i initialCallFlag := by
  unfold bmiSendCallbackFn
  rw [if_neg (by simp [herror]), if_neg (by simp [herror])]

theorem troveReadCallbackFn_ok (herror : f.errorCode = 0) :
    (f.moved i k).troveReadCallbackFn i k 0 =
      { f with items :=
          update f.items i (((f.items i).move k).setPosted k false) }.readDone i := by
  have hnot : ¬ ((0 : Int) ≠ 0 ∨ (f.moved i k).errorCode ≠ 0) := by
    rw [not_or, not_not, not_not]
    exact ⟨rfl, herror⟩
  unfold troveReadCallbackFn
  rw [if_neg hnot]
  simp only [unpostTrove, moved, onItem, update_self, update_idem]

theorem troveReadCallbackFn_immediate (hnew : .trove i k ∉ f.ops) :
    (f.moved i k).troveReadCallbackFn i k 0 =
      ({ f.postTrove i k with ops := (f.postTrove i k).ops.erase (.trove i k) }.moved i
        k).troveReadCallbackFn i k 0 := by
  have hsame : ({ f.postTrove i k with
      ops := (f.postTrove i k).ops.erase (.trove i k) }.moved i k).unpostTrove i k =
      (f.moved i k).unpostTrove i k := by
    simp only [unpostTrove, moved, postTrove, onItem, update_self, update_idem,
      Item.setPosted_move_setPosted, erase_append_right _ hnew, erase_cons_head,
      append_nil]
  unfold troveReadCallbackFn
  rw [hsame]
  rfl

theorem reuse_of_buffer (h : (f.items i).buffer = true) : f.reuse i = f.unlink i := if_pos h

theorem Reading.dest_erase_nil (h : f.Reading plan n) (hop : .bmi i ∈ f.ops) (hone : f.destPending = 1)
    (hsent : ∀ j ∈ f.destList, (f.items j).seq < f.nextSeqToSend) : f.destList.erase i = [] := by
  have hzero : (f.ops.erase (.bmi i)).countP Op.isBmi = 0 := by
    have hpending := h.pending
    rw [countP_isBmi_erase_bmi hop] at hpending
    omega
  rw [eq_nil_iff_forall_not_mem]
  intro j hj
  obtain ⟨hji, hj⟩ := h.destNodup.mem_erase_iff.mp hj
  have hopj : Op.bmi j ∈ f.ops := (h.exact.bmi j).mpr ((h.dest j hj).posted.mpr (hsent j hj))
  have hleft : Op.bmi j ∈ f.ops.erase (.bmi i) := by
    refine (mem_erase_of_ne ?_).mpr hopj
    intro heq
    cases heq
    exact hji rfl
  exact countP_eq_zero.mp hzero _ hleft rfl

theorem Reading.lastPosted_of_nil (h : f.Reading plan n) (hreq : f.reqProcDone = true)
    (hsrc : f.srcList = []) (hdest : f.destList = []) : f.destLastPosted = true := by
  refine h.lastPosted.mpr ⟨hreq, ?_⟩
  by_contra hnot
  rw [not_or] at hnot
  obtain ⟨hpiece, hne⟩ := hnot
  have hle := h.le
  obtain ⟨j, hj, -⟩ := h.cover (f.nextSeq - 1) (by omega) (by omega) hpiece
  rw [hsrc, hdest] at hj
  simp at hj

/-- Nothing loaded is left behind when the last piece is gone. -/
def NoneWaits (f : FlowData α) : Prop :=
  f.srcList = [] → f.destLastPosted = true ∨ (f.reqProcDone = false ∧ f.next = []) →
    ∀ j ∈ f.destList, (f.items j).seq < f.nextSeqToSend

theorem Active.sendDone (h : f.Active plan n) (hop : .bmi i ∈ f.ops) (hcalls : Calls n f.stack)
    (hwaits : f.destPending = 1 → f.NoneWaits) :
    Kept plan n ({ f with ops := f.ops.erase (.bmi i) }.bmiSendCallbackFn i 0 false) := by
  obtain ⟨hdest, hsent⟩ := h.sending hop
  have hload := h.dest i hdest
  have hread := h.send_done hop hcalls
  have hsrc : f.srcList.erase i = f.srcList :=
    erase_of_not_mem fun hsrc => h.disjoint i hsrc hdest
  have hsame : ∀ j, (update f.items i { f.items i with postedId := false }
      j).SameNumber (f.items j) :=
    Item.SameNumber.update ⟨rfl, rfl, rfl, rfl⟩
  have hblocked : (∀ q, .sendLoop q ∉ f.stack) → ∀ j ∈ f.destList.erase i,
      (update f.items i { f.items i with postedId := false } j).seq ≠ f.nextSeqToSend := by
    intro hno j hj
    rw [(hsame j).seq]
    exact h.blocked hno j (mem_of_mem_erase hj)
  have hit : update f.items i { f.items i with postedId := false } i =
      { f.items i with postedId := false } := update_self ..
  rw [bmiSendCallbackFn_ok (f := { f with ops := f.ops.erase (.bmi i) }) h.noError]
  unfold FlowData.sendDone
  simp only [Bool.false_eq_true, if_false, unpostBmi, onItem]
  split
  next hdone =>
    -- the flow is complete
    obtain ⟨_, hpend, hlast, hnil⟩ := hdone
    have hone : f.destPending = 1 := by omega
    have hall := hwaits hone hnil (.inl hlast)
    have hreq : f.reqProcDone = true := (h.lastPosted.mp hlast).1
    obtain ⟨hops, hpieces⟩ := hread.all_sent hreq (hsrc.trans hnil) (h.dest_erase_nil hop hone hall)
    right
    exact
      { endpoints := h.endpoints
        buffers := h.buffers
        noError := h.noError
        noFault := by simp [markComplete, returnOne, h.noFault, h.live]
        complete := rfl
        ops := hops
        srcEmpty := hnil
        reqDone := hreq
        dest := fun j hj => (hsame j).seq ▸ hall j hj
        sent := h.sent
        all := hpieces
        frames := hcalls.afterOne }
  next hdone =>
    rw [hit]
    split
    next hreq =>
      -- the buffer is not used again
      rw [if_pos hload.buffer]
      left
      exact
        { hread with
          work := by
            intro _
            by_contra hnone
            rw [not_or, not_not, not_not] at hnone
            obtain ⟨hnil, hnil'⟩ := hnone
            have hlast := hread.lastPosted_of_nil hreq hnil hnil'
            have hpend := hread.pending
            rw [(hread.all_sent hreq hnil hnil').1] at hpend
            exact hdone ⟨h.initial hlast, hpend, hlast, hsrc.symm.trans hnil⟩
          busy := fun hfalse => absurd (hreq.symm.trans hfalse) Bool.noConfusion
          blocked := hblocked }
    next hreq =>
      -- it takes the next piece
      have hreq : f.reqProcDone = false := by simpa using hreq
      have hkept := hread.load { f.items i with postedId := false } hload.buffer
        hload.count rfl (h.not_last hreq i) ?_ ?_ hreq hcalls (h.lt_started hload.buffer) ?_ hblocked ?_
      · rw [update_idem] at hkept
        rw [reuse_of_buffer]
        · exact hkept
        · dsimp only
          rw [hit]
          exact hload.buffer
      · rw [hsrc]
        exact fun hmem => h.disjoint i hmem hdest
      · exact h.destNodup.not_mem_erase
      · intro j hj hji
        rw [hsrc]
        exact (h.busy hreq j hj).imp_right (mem_erase_of_ne hji).mpr
      · intro hpend hnil hnext
        have hone : f.destPending = 1 := by
          dsimp only at hpend
          omega
        exact h.dest_erase_nil hop hone (hwaits hone (hsrc.symm.trans hnil) (.inr ⟨hreq, hnext⟩))

theorem Active.readDone (h : f.Active plan n) (hop : .trove i k ∈ f.ops)
    (hcalls : (f.items i).resultChainCount ≤ 1 → Calls n f.stack) :
    Active plan n
      (({ f with ops := f.ops.erase (.trove i k) }.moved i k).troveReadCallbackFn i k 0) := by
  rw [troveReadCallbackFn_ok (f := { f with ops := f.ops.erase (.trove i k) }) h.noError]
  have hit : update f.items i (((f.items i).move k).setPosted k false) i =
      ((f.items i).move k).setPosted k false := update_self ..
  by_cases hmore : 1 < (f.items i).resultChainCount
  · have hactive := h.read_done hop hmore
    unfold FlowData.readDone
    rw [if_pos (by dsimp only; rw [hit]; exact hmore)]
    simp only [onItem, update_self, update_idem]
    exact hactive
  · have hlast : (f.items i).resultChainCount ≤ 1 := Nat.le_of_not_lt hmore
    have hactive := h.read_last hop hlast (hcalls hlast)
    unfold FlowData.readDone
    rw [if_neg (by dsimp only; rw [hit]; exact hmore)]
    simp only [resetChain, onItem, unlink, linkDest, push, update_self, update_idem]
    exact hactive

theorem Active.read_immediate (h : (f.postTrove i k).Active plan n) (hnew : .trove i k ∉ f.ops)
    (hcalls : (f.items i).resultChainCount ≤ 1 → Calls n f.stack) :
    Active plan n ((f.moved i k).troveReadCallbackFn i k 0) := by
  rw [troveReadCallbackFn_immediate hnew]
  refine h.readDone (mem_append_right _ (mem_singleton.mpr rfl)) fun hcount => hcalls ?_
  rw [postTrove_items, if_pos rfl] at hcount
  exact hcount

variable {rest : List Frame}
variable {r : Posting}

theorem Active.postRead (h : f.Active plan n) {m : Nat}
    (hstack : f.stack = .postReads i k m :: rest) (hr : ∀ error, r ≠ .failed error) :
    Active plan n ({ f with stack := rest }.postRead i k m r) := by
  have hpost := h.post_read hstack
  cases r with
  | pending => exact hpost
  | failed error => exact absurd rfl (hr error)
  | immediate =>
    obtain ⟨hcalls, hsrc, rfl, hlt⟩ := h.frame hstack
    have hpos : FlowData.posOf f.stack i (f.items i).resultChain.length = k := by
      rw [hstack]
      exact if_pos rfl
    have hchained := (h.src i hsrc).chained
    rw [hpos] at hchained
    obtain ⟨e, he⟩ := hchained.exists_entry (by rw [← hchained.length_chain]; exact hlt)
    have hunposted : e.postedId = false := (hchained.ahead he (Nat.le_refl k)).1
    refine Active.read_immediate hpost ?_ ?_
    · intro hop
      obtain ⟨e', he', hp⟩ := (h.exact.trove i k).mp hop
      rw [he] at he'
      cases he'
      exact absurd (hunposted.symm.trans hp) Bool.noConfusion
    · -- a frame that is left has an entry to read, so this is not the last one
      intro hcount
      split
      next hmore =>
        obtain ⟨e', he'⟩ := hchained.exists_entry (by rw [← hchained.length_chain]; exact hmore)
        obtain ⟨p, hp, hposted⟩ := Item.posted_setPosted_same he
        have hlt := hchained.post.one_lt_count hp hposted (Nat.succ_ne_self k)
          (hchained.ahead he' (Nat.le_succ k)).2
        exact absurd hlt (Nat.not_lt.mpr hcount)
      next => exact hcalls

/-! ## The loop that sends -/

theorem bmiSendCallbackFn_immediate (hnew : .bmi i ∉ f.ops) :
    f.bmiSendCallbackFn i 0 false =
      { f.postBmi i with ops := (f.postBmi i).ops.erase (.bmi i) }.bmiSendCallbackFn i 0 false := by
  have hsame : { f.postBmi i with ops := (f.postBmi i).ops.erase (.bmi i) }.unpostBmi i =
      f.unpostBmi i := by
    simp only [unpostBmi, postBmi, onItem, update_self, update_idem,
      erase_append_right _ hnew, erase_cons_head, append_nil]
  unfold bmiSendCallbackFn
  simp only [Bool.false_eq_true, and_false, if_false]
  rw [hsame]
  rfl

theorem scan_mem (hempty : f.destList = [] → (f.items i).seq ≠ f.nextSeqToSend)
    (hseq : (f.items (f.scan i)).seq = f.nextSeqToSend) : f.scan i ∈ f.destList := by
  unfold scan at hseq ⊢
  cases hfind : f.destList.find? fun j => (f.items j).seq = f.nextSeqToSend with
  | some j =>
    exact mem_of_find?_eq_some hfind
  | none =>
    rw [hfind] at hseq
    cases hlast : f.destList.getLast? with
    | some j =>
      exact mem_of_getLast? hlast
    | none =>
      rw [hlast, Option.getD_none] at hseq
      exact absurd hseq (hempty (getLast?_eq_none_iff.mp hlast))

theorem scan_ne (hseq : (f.items (f.scan i)).seq ≠ f.nextSeqToSend) :
    ∀ j ∈ f.destList, (f.items j).seq ≠ f.nextSeqToSend := by
  intro j hj hnext
  apply hseq
  unfold scan
  cases hfind : f.destList.find? fun j => (f.items j).seq = f.nextSeqToSend with
  | some q =>
    have hq := find?_some hfind
    simpa using hq
  | none =>
    have hnone := find?_eq_none.mp hfind j hj
    exact absurd hnext (by simpa using hnone)

theorem Active.pop (h : f.Active plan n) (hstack : f.stack = .sendLoop i :: rest)
    (hblocked : ∀ j ∈ f.destList, (f.items j).seq ≠ f.nextSeqToSend) :
    Active plan n { f with stack := rest } := by
  have hold := h.calls hstack (by simp)
  have hstarted : started n f.stack = started n rest := by rw [hstack]; rfl
  have hread := h.restack (hstack ▸ hold) hold.of_loop (hstack ▸ fun _ => mem_cons_of_mem _)
    (Nat.le_of_eq hstarted) f.initialPosts h.initial
  exact
    { hread with
      work := h.work
      busy := hstarted ▸ h.busy
      blocked := fun _ => hblocked }

/-- `trove_read_callback_fn` does not go on with the buffer that it sent last, and no loaded buffer is
forgotten. -/
structure SoundSend (f : FlowData α) (i : Nat) (r : Posting) : Prop where
  found : f.destList = [] → (f.items i).seq ≠ f.nextSeqToSend
  noneWaits : r = .immediate → f.destPending = 0 → f.srcList = [] →
    f.destLastPosted = true ∨ (f.reqProcDone = false ∧ f.next = []) →
    ∀ j ∈ f.destList, (f.items j).seq ≤ f.nextSeqToSend

instance (f : FlowData α) (i : Nat) (r : Posting) : Decidable (f.SoundSend i r) :=
  decidable_of_iff
    ((f.destList = [] → (f.items i).seq ≠ f.nextSeqToSend) ∧
      (r = .immediate → f.destPending = 0 → f.srcList = [] →
        f.destLastPosted = true ∨ (f.reqProcDone = false ∧ f.next = []) →
        ∀ j ∈ f.destList, (f.items j).seq ≤ f.nextSeqToSend))
    ⟨fun h => ⟨h.1, h.2⟩, fun h => ⟨h.found, h.noneWaits⟩⟩

section
variable (hseq : (f.items (f.scan i)).seq = f.nextSeqToSend)
  (hused : (f.items (f.scan i)).bufferUsed ≠ 0)
include hseq hused

theorem sendNext_pending : f.sendNext i .pending = (f.handed (f.scan i)).postBmi (f.scan i) := by
  unfold sendNext
  rw [if_pos hseq, if_neg hused]
  simp only [noteSend, postBmi_items, if_true]
  rfl

theorem sendNext_immediate :
    f.sendNext i .immediate = (f.handed (f.scan i)).bmiSendCallbackFn (f.scan i) 0 false := by
  unfold sendNext
  rw [if_pos hseq, if_neg hused]
  rfl

end

theorem Active.send_immediate (h : (f.postBmi i).Active plan n) (hnew : .bmi i ∉ f.ops)
    (hcalls : Calls n f.stack) (hwaits : f.destPending = 1 → f.NoneWaits) :
    Kept plan n (f.bmiSendCallbackFn i 0 false) := by
  rw [bmiSendCallbackFn_immediate hnew]
  refine h.sendDone (mem_append_right _ (mem_singleton.mpr rfl)) hcalls ?_
  intro hone hsrc hlast j hj
  have hseq : ((f.postBmi i).items j).seq = (f.items j).seq := by
    rw [postBmi_items]
    split
    next hji => rw [hji]
    next => rfl
  rw [hseq]
  exact hwaits hone hsrc hlast j hj

theorem Active.sendNext (h : f.Active plan n) (hstack : f.stack = .sendLoop i :: rest)
    (hr : ∀ error, r ≠ .failed error) (hsound : f.SoundSend i r) :
    Kept plan n ({ f with stack := rest }.sendNext i r) := by
  by_cases hseq : (f.items (f.scan i)).seq = f.nextSeqToSend
  · have hmem := scan_mem hsound.found hseq
    have hload := h.dest _ hmem
    have hpost := h.post_send hstack hmem hseq
    have hcalls := hpost.calls rfl (by simp)
    have hused := h.used_ne_zero hmem
    cases r with
    | failed error => exact absurd rfl (hr error)
    | pending =>
      left
      rw [sendNext_pending (f := { f with stack := rest }) hseq hused]
      exact hpost
    | immediate =>
      rw [sendNext_immediate (f := { f with stack := rest }) hseq hused]
      refine Active.send_immediate hpost ?_ hcalls ?_
      · intro hop
        have hlt := hload.posted.mp ((h.exact.bmi _).mp hop)
        exact Nat.lt_irrefl _ (hseq ▸ hlt)
      · intro hone hsrc hlast j hj
        change f.destPending + 1 = 1 at hone
        change (f.destLastPosted || (f.items (f.scan i)).last) = true ∨ _ at hlast
        apply Nat.lt_succ_of_le
        cases hl : (f.items (f.scan i)).last with
        | true =>
          -- no number is behind the last one
          have hlastSeq := ((h.numbering.last _).mp hl).2.2
          have hlt := h.numbering.seqs j (h.dest j hj).buffer
          rw [← hlastSeq, hseq] at hlt
          exact Nat.le_of_lt_succ hlt
        | false =>
          rw [hl, Bool.or_false] at hlast
          exact hsound.noneWaits rfl (by omega) hsrc hlast j hj
  · left
    have hnext : { f with stack := rest }.sendNext i r = { f with stack := rest } := if_neg hseq
    rw [hnext]
    exact h.pop hstack (scan_ne hseq)

/-! ## The loop that starts the buffers -/

theorem unpostBmi_of_unposted (h : (f.items i).postedId = false) : f.unpostBmi i = f := by
  have hit : ({ f.items i with postedId := false } : Item α) = f.items i := by
    rw [← h]
  simp only [unpostBmi, onItem, hit, update_eq_self]

theorem Reading.unused (h : f.Reading plan n) (hi : started n f.stack ≤ i) :
    i ∉ f.srcList ∧ i ∉ f.destList ∧ (f.items i).buffer = false := by
  have hbuffer := h.fresh i hi
  refine ⟨?_, ?_, hbuffer⟩
  · intro hsrc
    exact absurd ((h.src i hsrc).buffer.symm.trans hbuffer) Bool.noConfusion
  · intro hdest
    exact absurd ((h.dest i hdest).buffer.symm.trans hbuffer) Bool.noConfusion

theorem Active.dest_nil (h : f.Active plan n) (hno : ∀ q, .sendLoop q ∉ f.stack)
    (hpend : f.destPending = 0) (hsrc : f.srcList = []) : f.destList = [] := by
  rw [eq_nil_iff_forall_not_mem]
  intro j hj
  by_cases hlt : (f.items j).seq < f.nextSeqToSend
  · have hop : Op.bmi j ∈ f.ops := (h.exact.bmi j).mpr ((h.dest j hj).posted.mpr hlt)
    have hpos : 0 < f.ops.countP Op.isBmi := countP_pos_iff.mpr ⟨_, hop, rfl⟩
    have hpending := h.pending
    omega
  · exact h.waiting hno hj (Nat.le_of_not_lt hlt) hsrc

theorem sendDone_initial (hlast : f.destLastPosted = false) (hbuffer : (f.items i).buffer = false) :
    f.sendDone i true =
      if f.reqProcDone then { f with initialPosts := f.initialPosts - 1 }
      else { f with
        initialPosts := f.initialPosts - 1
        items := update f.items i { f.items i with buffer := true } }.load i := by
  unfold FlowData.sendDone
  simp only [hlast, hbuffer, reuse, Bool.false_eq_true, false_and, and_false, if_false, if_true]
  rfl

theorem Active.start (h : f.Active plan n) (hstack : f.stack = [.start i]) (r : Posting) :
    Kept plan n ({ f with stack := [] }.runFrame r (.start i)) := by
  have hno : ∀ q, .sendLoop q ∉ f.stack := by
    intro q
    rw [hstack]
    simp
  have hold := h.calls hstack (by simp)
  have hle : i ≤ n := by
    cases hold with
    | start hle => exact hle
  have hstarted : started n f.stack = i := by rw [hstack]; rfl
  unfold runFrame
  dsimp only
  split
  next hend =>
    left
    exact
      { h.restack (hstack ▸ hold) .nil (by simp) (hstarted ▸ hle) _ h.initial with
        work := h.work
        busy := by
          intro hreq j hj
          refine h.busy hreq j ?_
          rcases hend with hlast | hge
          · exact absurd ((h.not_lastPosted hreq).symm.trans hlast) Bool.noConfusion
          · rw [hstarted]
            rw [h.buffers] at hge
            exact Nat.lt_of_lt_of_le hj hge
        blocked := fun _ => h.blocked hno }
  next hmore =>
    rw [not_or, h.buffers, Nat.not_le] at hmore
    obtain ⟨hlast, hlt⟩ := hmore
    obtain ⟨hsrc, hdest, hbuffer⟩ := h.unused (Nat.le_of_eq hstarted)
    have hidle := h.idle i hsrc hdest
    have hread := h.restack (hstack ▸ hold) (.start hlt) (by simp) (hstarted ▸ Nat.le_succ i)
      (f.initialPosts - 1) fun hl => absurd hl hlast
    change Kept plan n (bmiSendCallbackFn { f with stack := [.start (i + 1)] } i 0 true)
    rw [bmiSendCallbackFn_ok (f := { f with stack := [.start (i + 1)] }) h.noError,
      unpostBmi_of_unposted (f := { f with stack := [.start (i + 1)] }) hidle.unposted,
      sendDone_initial (f := { f with stack := [.start (i + 1)] }) (by simpa using hlast) hbuffer]
    split
    next hreq =>
      left
      exact
        { hread with
          work := h.work
          busy := fun hfalse => absurd (hreq.symm.trans hfalse) Bool.noConfusion
          blocked := fun _ => h.blocked hno }
    next hreq =>
      have hreq : f.reqProcDone = false := by simpa using hreq
      refine hread.load { f.items i with buffer := true } rfl hidle.count hidle.unposted
        (h.not_last hreq i) hsrc hdest hreq (.start hlt) (Nat.lt_succ_self i) ?_ (fun _ => h.blocked hno)
        fun hpend hnil _ => h.dest_nil hno hpend hnil
      intro j hj hji
      apply h.busy hreq
      rw [hstarted]
      exact Nat.lt_of_le_of_ne (Nat.le_of_lt_succ hj) hji

/-! ## After the end -/

theorem Finished.sendNext (h : f.Finished plan n) (r : Posting)
    (hstack : f.stack = .sendLoop i :: rest) (hsound : f.SoundSend i r) :
    Finished plan n ({ f with stack := rest }.sendNext i r) := by
  have hseq : (f.items (f.scan i)).seq ≠ f.nextSeqToSend := by
    intro hseq
    have hlt := h.dest _ (scan_mem hsound.found hseq)
    exact Nat.lt_irrefl _ (hseq ▸ hlt)
  have hnext : { f with stack := rest }.sendNext i r = { f with stack := rest } := if_neg hseq
  have hcalls := h.frames
  rw [hstack] at hcalls
  rw [hnext]
  cases hcalls with
  | loop hcalls => exact { h with frames := hcalls }

theorem Finished.start (h : f.Finished plan n) (r : Posting) :
    Finished plan n ({ f with stack := [] }.runFrame r (.start i)) := by
  unfold runFrame
  dsimp only
  split
  next => exact { h with frames := .nil }
  next hmore =>
    rw [not_or, h.buffers, Nat.not_le] at hmore
    obtain ⟨hlast, hlt⟩ := hmore
    have hseq : ∀ j ∈ f.destList,
        (update f.items i { f.items i with postedId := false } j).seq < f.nextSeqToSend := by
      intro j hj
      have hsame : ∀ j, (update f.items i { f.items i with postedId := false }
          j).SameNumber (f.items j) :=
        Item.SameNumber.update ⟨rfl, rfl, rfl, rfl⟩
      rw [(hsame j).seq]
      exact h.dest j hj
    change Finished plan n (bmiSendCallbackFn { f with stack := [.start (i + 1)] } i 0 true)
    rw [bmiSendCallbackFn_ok (f := { f with stack := [.start (i + 1)] }) h.noError]
    -- there is nothing left of the request, so the call returns
    unfold FlowData.sendDone
    simp only [unpostBmi, onItem, if_true]
    rw [if_neg (fun hdone => hlast hdone.2.2.1), if_pos h.reqDone]
    split
    next =>
      exact
        { h with
          srcEmpty := by
            rw [h.srcEmpty]
            rfl
          dest := fun j hj => hseq j (mem_of_mem_erase hj)
          frames := .start hlt }
    next => exact { h with dest := hseq, frames := .start hlt }

end Pvfs.Flow.FlowData
