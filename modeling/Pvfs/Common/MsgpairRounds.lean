import Pvfs.Common.Msgpairarray

/-! # The rounds of a message pair array

`comp_ct` is set from the messages that `msgpairarray_completion_fn` chooses for another try, while
`msgpairarray_post` posts every message that is not complete. The two agree when either all messages
that failed in a round may be tried again or none, and no answered message is left behind. -/

namespace Pvfs.Common

open List Stage Msg

/-- How many messages are still to be exchanged. -/
def incomplete (msgs : List Msg) : Nat := msgs.countP fun m => !m.complete

/-- The request could be encoded and its receive posted. -/
def PostOutcome.Regular (o : PostOutcome) : Prop := o.encode = none ∧ o.recv ≠ .testFailed

theorem code_ne_zero (error : Nat) : code error ≠ 0 := by
  unfold code
  omega

theorem isBmi_ne_zero {opStatus : Int} (h : isBmi opStatus = true) : opStatus ≠ 0 := by
  intro hzero
  rw [hzero] at h
  exact absurd h (by decide)

variable {i : Nat}
variable {rest : List Msg}

theorem forall_get_tail {P : Nat → Msg → Prop} {m : Msg}
    (h : ∀ j m', (m :: rest)[j]? = some m' → P (i + j) m') :
    ∀ j m', rest[j]? = some m' → P (i + 1 + j) m' := by
  intro j m' hj
  have hnext := h (j + 1) m' hj
  rwa [show i + (j + 1) = i + 1 + j from by omega] at hnext

/-! ## Posting -/

/-- Of the two operations of a message each is through or under way. -/
theorem Msg.post_tags (m : Msg) (count i : Nat) (l : Bool) {o : PostOutcome} (ho : o.Regular) :
    (m.post count i l o).through + (m.post count i l o).tags.length = 2 ∧
      ∀ t ∈ (m.post count i l o).tags, t = i ∨ t = count + i := by
  unfold post
  cases hr : o.recv with
  | failed error => exact ⟨rfl, by simp⟩
  | testFailed => exact absurd hr ho.2
  | pending =>
    cases o.send with
    | pending | done | failed error => exact ⟨rfl, by simp⟩

variable {msgs : List Msg} {m' : Msg} {j : Nat}

section
variable {count : Nat} {o : Nat → PostOutcome}

/-- What a round of posts has done from message `i` on. -/
structure PostedAll (count : Nat) (o : Nat → PostOutcome) (i : Nat) (msgs : List Msg)
    (r : Round (List Msg)) : Prop where
  error : r.error = none
  counted : r.through + r.tags.length = 2 * incomplete msgs
  length : r.msgs.length = msgs.length
  range : ∀ t ∈ r.tags, (i ≤ t ∧ t < i + msgs.length) ∨ (count + i ≤ t ∧ t < count + i + msgs.length)
  get : ∀ {j : Nat} {m' : Msg}, r.msgs[j]? = some m' → ∃ m : Msg, msgs[j]? = some m ∧
    ((m.complete = true ∧ m' = m) ∨
      (m.complete = false ∧ ∃ l, m' = (m.post count (i + j) l (o (i + j))).msgs ∧
        ∀ t ∈ (m.post count (i + j) l (o (i + j))).tags, t ∈ r.tags))

/-- A round posts every open message. -/
theorem postAll_posted (msgs : List Msg) (i : Nat) (l : Bool)
    (ho : ∀ j m, msgs[j]? = some m → m.complete = false → (o (i + j)).Regular) :
    PostedAll count o i msgs (postAll count o i l msgs) := by
  induction msgs generalizing i l with
  | nil => exact ⟨rfl, rfl, rfl, by simp [postAll], by simp [postAll]⟩
  | cons m rest ih =>
    have hrest : ∀ l, PostedAll count o (i + 1) rest (postAll count o (i + 1) l rest) := by
      intro l
      exact ih (i + 1) l (forall_get_tail (P := fun j m => m.complete = false → (o j).Regular) ho)
    have hnext : ∀ j, i + (j + 1) = i + 1 + j := by omega
    unfold postAll
    cases hm : m.complete with
    | true =>
      obtain ⟨herror, hcounted, hlength, hrange, hget⟩ := hrest l
      refine ⟨herror, ?_, congrArg Nat.succ hlength, fun t ht => ?_, fun {j m'} hj => ?_⟩
      · rw [incomplete, countP_cons_of_neg (by simp [hm])]
        exact hcounted
      · have h := hrange t ht
        rw [length_cons]
        omega
      · cases j with
        | zero => exact ⟨m, rfl, .inl ⟨hm, (Option.some.inj hj).symm⟩⟩
        | succ j =>
          rw [hnext]
          exact hget hj
    | false =>
      have hreg : (o i).Regular := ho 0 m rfl hm
      have hencode : (if m.encoded then none else (o i).encode) = none := by
        rw [hreg.1, ite_self]
      simp only [Bool.false_eq_true, if_false, hencode]
      obtain ⟨hthrough, htags⟩ := m.post_tags count i (l || !m.encoded) hreg
      obtain ⟨herror, hcounted, hlength, hrange, hget⟩ :=
        hrest (m.post count i (l || !m.encoded) (o i)).localEncAndAlloc
      refine ⟨herror, ?_, congrArg Nat.succ hlength, fun t ht => ?_, fun {j m'} hj => ?_⟩
      · dsimp only
        rw [incomplete, countP_cons_of_pos (by simp [hm]), length_append]
        rw [incomplete] at hcounted
        omega
      · rw [length_cons]
        rcases mem_append.mp ht with ht | ht
        · have h := htags t ht
          omega
        · have h := hrange t ht
          omega
      · cases j with
        | zero =>
          exact ⟨m, rfl, .inr ⟨hm, _, (Option.some.inj hj).symm, fun t ht => mem_append_left _ ht⟩⟩
        | succ j =>
          obtain ⟨m0, hm0, hcase⟩ := hget hj
          rw [hnext]
          refine ⟨m0, hm0, hcase.imp_right fun ⟨hopen, l', hm', htags⟩ => ⟨hopen, l', hm', ?_⟩⟩
          exact fun t ht => mem_append_right _ (htags t ht)

end

/-! ## Looking at the answers -/

/-- The message has a completion function, or a good answer. -/
def Msg.Fine (m : Msg) (a : Answer) : Prop := m.compFn = true ∨ a.decoded = .response 0

/-- The message is open and has an error. -/
def Msg.Failed (m : Msg) : Prop := m.complete = false ∧ m.opStatus ≠ 0

instance (m : Msg) : Decidable m.Failed := by
  unfold Msg.Failed
  infer_instance

/-- What the first loop of `msgpairarray_completion_fn` can do with a message. -/
inductive Msg.Looks (m : Msg) (a : Answer) (l : Looking) : Looked → Prop where
  /-- the message failed -/
  | failed (hop : m.opStatus ≠ 0) : Looks m a l (.next m { l with needRetry := l.needRetry + 1 })
  /-- its completion function is called -/
  | compFn (hop : m.opStatus = 0) (hfn : m.compFn = true) :
    Looks m a l (.next { m.settle with opStatus := a.compFn, result := some a.compFn }
      { l with errorCode := if a.compFn ≠ 0 then a.compFn else l.errorCode
               respP := a.decoded.status.or l.respP })
  /-- the server has no error -/
  | served (hop : m.opStatus = 0) (hfn : m.compFn = false)
    (hresp : a.decoded.status.or l.respP = some 0) :
    Looks m a l (.next { m.settle with opStatus := a.decoded.opStatus, result := a.decoded.status }
      { l with respP := some 0 })
  /-- the server has an error -/
  | refused {status : Int} (hop : m.opStatus = 0) (hfn : m.compFn = false)
    (hresp : a.decoded.status.or l.respP = some status) (hstatus : status ≠ 0) :
    Looks m a l (.leave { m with opStatus := a.decoded.opStatus, result := a.decoded.status }
      { l with errorCode := status, respP := some status })
  /-- there is no response -/
  | missing (hop : m.opStatus = 0) (hfn : m.compFn = false)
    (hresp : a.decoded.status.or l.respP = none) : Looks m a l (.leave m { l with fault := true })

/-- `look` does what `Looks` allows. -/
theorem Msg.looks_look (m : Msg) (a : Answer) (l : Looking) : m.Looks a l (m.look a l) := by
  unfold look
  split
  next hop => exact .failed hop
  next hop =>
    have hop : m.opStatus = 0 := not_not.mp hop
    split
    next hfn => exact .compFn hop hfn
    next hfn =>
      have hfn : m.compFn = false := Bool.eq_false_iff.mpr hfn
      cases hresp : a.decoded.status.or l.respP with
      | none => exact .missing hop hfn hresp
      | some status =>
        dsimp only
        split
        next hstatus => exact .refused hop hfn hresp hstatus
        next hstatus =>
          rw [not_not.mp hstatus] at hresp ⊢
          exact .served hop hfn hresp

variable {a : Nat → Answer}

/-- The loop over the answers, one message after the other. -/
inductive LooksAll (a : Nat → Answer) : Nat → Looking → List Msg → List Msg × Looking → Prop where
  | nil {i l} : LooksAll a i l [] ([], l)
  | skip {i l m rest r} (hc : m.complete = true) (h : LooksAll a (i + 1) l rest r) :
    LooksAll a i l (m :: rest) (m :: r.1, r.2)
  | next {i l l' m m' rest r} (hopen : m.complete = false) (hlook : m.Looks (a i) l (.next m' l'))
    (h : LooksAll a (i + 1) l' rest r) : LooksAll a i l (m :: rest) (m' :: r.1, r.2)
  | leave {i l l' m m' rest} (hopen : m.complete = false) (hlook : m.Looks (a i) l (.leave m' l')) :
    LooksAll a i l (m :: rest) (m' :: rest, l')

theorem looksAll_lookAll (msgs : List Msg) (i : Nat) (l : Looking) :
    LooksAll a i l msgs (lookAll a i l msgs) := by
  induction msgs generalizing i l with
  | nil => exact .nil
  | cons m rest ih =>
    unfold lookAll
    split
    next hc => exact .skip hc (ih (i + 1) l)
    next hopen =>
      have hlook := m.looks_look (a i) l
      have hopen : m.complete = false := Bool.eq_false_iff.mpr hopen
      cases hl : m.look (a i) l with
      | next m' l' => exact .next hopen (hl ▸ hlook) (ih (i + 1) l')
      | leave m' l' => exact .leave hopen (hl ▸ hlook)

/-- What the loop has counted, and done to each message. -/
structure LookedAll (msgs : List Msg) (l : Looking) (r : List Msg × Looking) : Prop where
  noFault : r.2.fault = l.fault
  needRetry : r.2.needRetry = l.needRetry + msgs.countP fun m => decide m.Failed
  get : ∀ {j : Nat} {m' : Msg}, r.1[j]? = some m' →
    m'.complete = true ∨ (msgs[j]? = some m' ∧ m'.Failed)

theorem LookedAll.cons {m m0 : Msg} {l l' : Looking} {r : List Msg × Looking}
    (h : LookedAll rest l' r) (hfault : l'.fault = l.fault)
    (hm0 : (m0.complete = true ∧ ¬ m.Failed ∧ l'.needRetry = l.needRetry) ∨
      (m0 = m ∧ m.Failed ∧ l'.needRetry = l.needRetry + 1)) : LookedAll (m :: rest) l (m0 :: r.1, r.2) := by
  refine ⟨h.noFault.trans hfault, ?_, fun {j m'} hj => ?_⟩
  · rw [h.needRetry, countP_cons]
    rcases hm0 with ⟨_, hf, hn⟩ | ⟨_, hf, hn⟩
    · simp [hf, hn]
    · simp only [hf, hn, decide_true, if_true]
      omega
  · cases j with
    | zero =>
      cases hj
      exact hm0.imp And.left fun ⟨heq, hf, _⟩ => ⟨by rw [heq]; rfl, heq ▸ hf⟩
    | succ j => exact h.get hj

/-- What the look at an answer can do to a message. -/
inductive Msg.LooksTo (m : Msg) (a : Answer) (m' : Msg) : Prop where
  | same (heq : m' = m)
  | settled (hopen : m.complete = false) (hop : m.opStatus = 0) (opStatus : Int)
    (heq : m' = { m.settle with
      opStatus := opStatus, result := if m.compFn then some a.compFn else a.decoded.status })
  | left (hopen : m.complete = false) (hop : m.opStatus = 0) (opStatus : Int)
    (heq : m' = { m with opStatus := opStatus, result := a.decoded.status })

namespace LooksAll

variable {l : Looking} {r : List Msg × Looking}
variable (h : LooksAll a i l msgs r)
include h

theorem needRetry_le : r.2.needRetry ≤ l.needRetry + msgs.countP fun m => decide m.Failed := by
  induction h with
  | nil => exact Nat.le_refl _
  | skip hc h ih => exact Nat.le_trans ih (by rw [countP_cons]; omega)
  | next hopen hlook h ih =>
    rw [countP_cons]
    cases hlook with
    | failed hop =>
      rw [if_pos (decide_eq_true ⟨hopen, hop⟩)]
      dsimp only at ih ⊢
      omega
    | compFn | served =>
      dsimp only at ih ⊢
      omega
  | leave hopen hlook =>
    cases hlook with
    | refused | missing => exact Nat.le_add_right ..

/-- If all answers are good, the loop gets to its end. -/
theorem fine
    (ha : ∀ (j : Nat) (m : Msg), msgs[j]? = some m → m.complete = false → m.opStatus = 0 →
      m.Fine (a (i + j))) : LookedAll msgs l r := by
  let P (j : Nat) (m : Msg) : Prop := m.complete = false → m.opStatus = 0 → m.Fine (a j)
  induction h with
  | nil => exact ⟨rfl, rfl, by simp⟩
  | @skip _ _ m _ _ hc h ih =>
    have hnot : ¬ m.Failed := fun hf => absurd (hc.symm.trans hf.1) Bool.noConfusion
    exact (ih (forall_get_tail (P := P) ha)).cons rfl (.inl ⟨hc, hnot, rfl⟩)
  | next hopen hlook h ih =>
    have hrest := ih (forall_get_tail (P := P) ha)
    cases hlook with
    | failed hop => exact hrest.cons rfl (.inr ⟨rfl, ⟨hopen, hop⟩, rfl⟩)
    | compFn hop | served hop => exact hrest.cons rfl (.inl ⟨rfl, fun hf => hf.2 hop, rfl⟩)
  | @leave i _ _ _ _ _ hopen hlook =>
    -- with a fine answer the loop goes on
    cases hlook with
    | refused hop hfn hresp hstatus =>
      have hserved : (a i).decoded = .response 0 := (ha 0 _ rfl hopen hop).resolve_left (by simp [hfn])
      rw [hserved] at hresp
      cases hresp
      exact absurd rfl hstatus
    | missing hop hfn hresp =>
      have hserved : (a i).decoded = .response 0 := (ha 0 _ rfl hopen hop).resolve_left (by simp [hfn])
      rw [hserved] at hresp
      cases hresp

/-- What the loop can do to one message. -/
theorem get (hj : r.1[j]? = some m') : ∃ m, msgs[j]? = some m ∧ m.LooksTo (a (i + j)) m' := by
  induction h generalizing j with
  | nil => cases hj
  | @skip i _ _ _ _ hc h ih =>
    cases j with
    | zero =>
      cases hj
      exact ⟨_, rfl, .same rfl⟩
    | succ j =>
      rw [show i + (j + 1) = i + 1 + j by omega]
      exact ih hj
  | @next i _ _ _ _ _ _ hopen hlook h ih =>
    cases j with
    | zero =>
      cases hj
      cases hlook with
      | failed => exact ⟨_, rfl, .same rfl⟩
      | compFn hop hfn => exact ⟨_, rfl, .settled hopen hop _ (by rw [if_pos hfn]; rfl)⟩
      | served hop hfn => exact ⟨_, rfl, .settled hopen hop _ (by simp [hfn]; rfl)⟩
    | succ j =>
      rw [show i + (j + 1) = i + 1 + j by omega]
      exact ih hj
  | leave hopen hlook =>
    cases j with
    | zero =>
      cases hj
      cases hlook with
      | refused hop => exact ⟨_, rfl, .left hopen hop _ rfl⟩
      | missing => exact ⟨_, rfl, .same rfl⟩
    | succ j => exact ⟨m', hj, .same rfl⟩

theorem length : r.1.length = msgs.length := by
  induction h with
  | nil | leave => rfl
  | skip _ _ ih | next _ _ _ ih => exact congrArg Nat.succ ih

theorem mem_of_failed {m : Msg} (hfailed : m.Failed) (hm : m ∈ msgs) : m ∈ r.1 := by
  obtain ⟨j, hj⟩ := mem_iff_getElem?.mp hm
  have hlt : j < r.1.length := by
    rw [h.length]
    exact (List.getElem?_eq_some_iff.mp hj).1
  obtain ⟨m0, hm0, hlooks⟩ := h.get (List.getElem?_eq_getElem hlt)
  cases hj.symm.trans hm0
  cases hlooks with
  | same heq => exact heq ▸ getElem_mem hlt
  | settled _ hop | left _ hop => exact absurd hop hfailed.2

theorem mono : l.needRetry ≤ r.2.needRetry ∧ (r.2.errorCode = 0 → l.errorCode = 0) := by
  induction h with
  | nil => exact ⟨Nat.le_refl _, id⟩
  | skip hc h ih => exact ih
  | next hopen hlook h ih =>
    cases hlook with
    | failed => exact ⟨Nat.le_of_succ_le ih.1, ih.2⟩
    | compFn =>
      refine ⟨ih.1, fun h => ?_⟩
      have hzero := ih.2 h
      dsimp only at hzero
      split at hzero
      next hne => exact absurd hzero hne
      next => exact hzero
    | served => exact ih
  | leave hopen hlook =>
    cases hlook with
    | refused _ _ _ hstatus => exact ⟨Nat.le_refl _, fun h => absurd h hstatus⟩
    | missing => exact ⟨Nat.le_refl _, id⟩

/-- A round without a retry and without an error has settled everything. -/
theorem good (hfault : r.2.fault = false) (hretry : r.2.needRetry = 0) (hcode : r.2.errorCode = 0)
    (hj : r.1[j]? = some m') :
    ∃ m, msgs[j]? = some m ∧ m'.complete = true ∧ (m' = m ∨ (m.complete = false ∧ m.opStatus = 0 ∧
      m'.answered = m.answered ∧
      ((m.compFn = true ∨ (a (i + j)).decoded.status ≠ none) → m'.result = some 0))) := by
  induction h generalizing j with
  | nil => cases hj
  | @skip i _ _ _ _ hc h ih =>
    cases j with
    | zero =>
      cases hj
      exact ⟨_, rfl, hc, .inl rfl⟩
    | succ j =>
      rw [show i + (j + 1) = i + 1 + j by omega]
      exact ih hfault hretry hcode hj
  | @next i _ _ _ _ _ _ hopen hlook h ih =>
    cases j with
    | succ j =>
      rw [show i + (j + 1) = i + 1 + j by omega]
      exact ih hfault hretry hcode hj
    | zero =>
      cases hj
      obtain ⟨hle, hzero⟩ := h.mono
      cases hlook with
      | failed =>
        dsimp only at hretry hle
        omega
      | compFn hop =>
        refine ⟨_, rfl, rfl, .inr ⟨hopen, hop, rfl, fun _ => congrArg some ?_⟩⟩
        have hzero := hzero hcode
        dsimp only at hzero
        split at hzero
        next hne => exact absurd hzero hne
        next hz => exact not_not.mp hz
      | served hop hfn hresp =>
        refine ⟨_, rfl, rfl, .inr ⟨hopen, hop, rfl, fun h => ?_⟩⟩
        obtain ⟨status, hstatus⟩ := Option.ne_none_iff_exists'.mp (h.resolve_left (by simp [hfn]))
        rw [Nat.add_zero] at hstatus
        rw [hstatus] at hresp
        exact hstatus.trans hresp
  | leave hopen hlook =>
    cases hlook with
    | refused _ _ _ hstatus => exact absurd hcode hstatus
    | missing => exact absurd hfault Bool.noConfusion

end LooksAll

/-! ## Choosing -/

section
variable {retryLimit : Nat} {compCt errorCode : Int}

/-- Which messages are chosen for another try, and what is kept of the others. -/
theorem chooseAll_get (hj : (chooseAll retryLimit compCt errorCode msgs).1[j]? = some m') :
    ∃ m, msgs[j]? = some m ∧ ((m.Chosen retryLimit ∧ m' = { m with retryCount := m.retryCount + 1 }) ∨
      (¬ m.Chosen retryLimit ∧ m' = m)) := by
  induction msgs generalizing compCt errorCode j with
  | nil => simp [chooseAll] at hj
  | cons m rest ih =>
    unfold chooseAll at hj
    cases j with
    | succ j =>
      split at hj
      next => exact ih hj
      next =>
        split at hj
        next => exact ih hj
        next => exact ih hj
    | zero =>
      refine ⟨m, rfl, ?_⟩
      split at hj
      next hm =>
        refine .inr ⟨fun h => ?_, (Option.some.inj hj).symm⟩
        exact absurd (hm.symm.trans h.1) Bool.noConfusion
      next =>
        split at hj
        next hc => exact .inl ⟨hc, (Option.some.inj hj).symm⟩
        next hc => exact .inr ⟨hc, (Option.some.inj hj).symm⟩

/-- Two operations are expected for each message that is chosen. -/
theorem chooseAll_compCt (msgs : List Msg) :
    (chooseAll retryLimit compCt errorCode msgs).2.1 =
      compCt + 2 * msgs.countP fun m => decide (m.Chosen retryLimit) := by
  induction msgs generalizing compCt errorCode with
  | nil => simp [chooseAll]
  | cons m rest ih =>
    unfold chooseAll
    rw [countP_cons]
    split
    next hm =>
      have hnot : ¬ m.Chosen retryLimit := fun h => absurd (hm.symm.trans h.1) Bool.noConfusion
      simp only [hnot, decide_false, Bool.false_eq_true, if_false, Nat.add_zero]
      exact ih
    next =>
      split
      next hc =>
        simp only [hc, decide_true, if_true]
        rw [ih]
        omega
      next hc =>
        simp only [hc, decide_false, Bool.false_eq_true, if_false, Nat.add_zero]
        exact ih

theorem incomplete_chooseAll (msgs : List Msg) :
    incomplete (chooseAll retryLimit compCt errorCode msgs).1 = incomplete msgs := by
  unfold incomplete
  induction msgs generalizing compCt errorCode with
  | nil => rfl
  | cons m rest ih =>
    unfold chooseAll
    rw [countP_cons]
    split
    next => rw [countP_cons, ih]
    next =>
      split
      next => rw [countP_cons, ih]
      next => rw [countP_cons, ih]

end

/-- A receive has completed. -/
def Msg.recvDone (error : Option Nat) (m : Msg) : Msg :=
  { m.noteRecv (status error) with answered := m.answered || error.isNone }

/-! ## The counter -/

namespace MsgArray

variable {s s' : MsgArray} {tag : Nat}

/-- The rounds agree: no message fails outside of its operations, and when a message failed, no answer
stops the look at the others, and the messages that failed may all be tried again, or none of
them. -/
def Even (s : MsgArray) : Event → Prop
  | .post o => ∀ (j : Nat) (m : Msg), s.msgs[j]? = some m → m.complete = false → (o j).Regular
  | .answers a => (∃ m ∈ s.msgs, m.Failed) →
      (∀ (j : Nat) (m : Msg), s.msgs[j]? = some m → m.complete = false → m.opStatus = 0 →
        m.Fine (a j)) ∧
      ((∀ m ∈ s.msgs, m.Failed → m.Chosen s.retryLimit) ∨
        ∀ m ∈ s.msgs, m.Failed → ¬ m.Chosen s.retryLimit)
  | _ => True

/-- The completion counter is the number of jobs under way. -/
structure Counted (s : MsgArray) : Prop where
  waits : s.stage = .wait → s.compCt = s.outstanding.length
  idle : s.stage ≠ .wait → s.outstanding = []
  due : s.stage = .post ∨ s.stage = .postRetry → s.compCt < 2 ∨ s.compCt = 2 * incomplete s.msgs
  through : s.stage = .completionFn → s.compCt = 0
  range : ∀ t ∈ s.outstanding, t < 2 * s.count
  regular : s.stage ≠ .complete

theorem next_cases (errorCode : Int) :
    next errorCode = .postRetry ∨ next errorCode = .post ∨ next errorCode = .done := by
  unfold next
  split
  next => exact .inl rfl
  next =>
    split
    next => exact .inr (.inl rfl)
    next => exact .inr (.inr rfl)

theorem next_ne (errorCode : Int) :
    next errorCode ≠ .wait ∧ next errorCode ≠ .completionFn ∧ next errorCode ≠ .complete := by
  rcases next_cases errorCode with h | h | h
  · simp [h]
  · simp [h]
  · simp [h]

theorem not_posting (p : Prop) [Decidable p] :
    ¬ ((if p then wait else .completionFn) = .post ∨
      (if p then wait else .completionFn) = .postRetry) ∧
    (if p then wait else .completionFn) ≠ .done := by
  split
  next => simp
  next => simp

variable {o : Nat → PostOutcome}

/-- A round faults, or posts all there is. -/
theorem msgpairarrayPost_cases (ho : s.Even (.post o)) :
    s.msgpairarrayPost o = { s with fault := true } ∨
    ∃ r errorCode, 2 ≤ s.compCt ∧ PostedAll s.count o 0 s.msgs r ∧ s.msgpairarrayPost o = { s with
      msgs := r.msgs, compCt := s.compCt - r.through, errorCode := errorCode,
      outstanding := s.outstanding ++ r.tags, cancelled := s.cancelled ++ r.cancelled,
      stage := if s.compCt - r.through ≠ 0 then .wait else .completionFn } := by
  have hposted : PostedAll s.count o 0 s.msgs (postAll s.count o 0 false s.msgs) :=
    postAll_posted s.msgs 0 false fun j m hj hm => (Nat.zero_add j).symm ▸ ho j m hj hm
  unfold msgpairarrayPost
  split
  next => exact .inl rfl
  next hgo =>
    simp only [hposted.error]
    split
    next hzero => exact .inr ⟨_, _, by omega, hposted, by rw [if_neg (not_not.mpr hzero)]⟩
    next hzero => exact .inr ⟨_, _, by omega, hposted, by rw [if_pos hzero]⟩

/-- A round of posts keeps the count. -/
theorem Counted.post (h : s.Counted) (hstage : s.stage = .post)
    (ho : s.Even (.post o)) : (s.msgpairarrayPost o).Counted := by
  have hidle : s.outstanding = [] := h.idle (by rw [hstage]; exact noConfusion)
  rcases msgpairarrayPost_cases ho with heq | ⟨r, errorCode, hgo, hposted, heq⟩
  · rw [heq]
    exact { h with }
  · have hct : s.compCt = 2 * incomplete s.msgs := (h.due (.inl hstage)).resolve_left (by omega)
    have hcounted := hposted.counted
    have hout : s.compCt - r.through = r.tags.length := by omega
    have hrange : ∀ t ∈ r.tags, t < 2 * r.msgs.length := by
      intro t ht
      have hr := hposted.range t ht
      rw [hposted.length]
      unfold count at hr
      omega
    rw [heq, hidle, nil_append]
    split
    next =>
      exact ⟨fun _ => hout, fun hs => absurd rfl hs, fun hs => by simp at hs, noConfusion, hrange,
        noConfusion⟩
    next hzero =>
      have hnil : r.tags = [] := by
        apply length_eq_zero_iff.mp
        omega
      exact ⟨noConfusion, fun _ => hnil, fun hs => by simp at hs, fun _ => not_not.mp hzero, hrange,
        noConfusion⟩

theorem note_eq (s : MsgArray) :
    s.note = { s with msgs := s.note.msgs, cancelled := s.note.cancelled } := by
  unfold note
  split
  next => rfl
  next => rfl

theorem msgpairarrayComplete_eq (htag : s.statusUserTag < 2 * s.count) :
    ∃ errorCode fault, s.msgpairarrayComplete = { s with
      msgs := s.note.msgs, cancelled := s.note.cancelled, compCt := s.compCt - 1,
      errorCode := errorCode, stage := if 0 < s.compCt - 1 then .wait else .completionFn,
      fault := fault } := by
  unfold msgpairarrayComplete
  rw [if_pos htag, note_eq]
  dsimp only
  split
  next => exact ⟨_, _, rfl⟩
  next => exact ⟨_, _, rfl⟩

/-- What a completion writes down, in its own message alone. -/
structure Noted (msgs : List Msg) (tag : Nat) (error : Option Nat) (msgs' : List Msg) : Prop where
  length : msgs'.length = msgs.length
  get : ∀ {j : Nat} {m' : Msg}, msgs'[j]? = some m' → ∃ m, msgs[j]? = some m ∧
    ((j ≠ tag ∧ m' = m) ∨ (j = tag ∧ m' = m.recvDone error) ∨
      (j + msgs.length = tag ∧ m' = m.noteSend (status error)))

theorem note_msgs (s : MsgArray) :
    s.note.msgs = if s.statusUserTag < s.count then
        s.msgs.modify s.statusUserTag (noteRecv s.errorCode)
      else s.msgs.modify (s.statusUserTag - s.count) (noteSend s.errorCode) := by
  unfold note
  split
  next => rfl
  next => rfl

theorem getElem?_modify_cases {g : Msg → Msg} (hj : (msgs.modify i g)[j]? = some m') :
    ∃ m, msgs[j]? = some m ∧ ((j ≠ i ∧ m' = m) ∨ (j = i ∧ m' = g m)) := by
  rw [getElem?_modify, Option.map_eq_map, Option.map_eq_some_iff] at hj
  obtain ⟨m, hm, hm'⟩ := hj
  refine ⟨m, hm, ?_⟩
  by_cases hij : i = j
  · rw [if_pos hij] at hm'
    exact .inr ⟨hij.symm, hm'.symm⟩
  · rw [if_neg hij] at hm'
    exact .inl ⟨Ne.symm hij, hm'.symm⟩

theorem noted_send (hsend : msgs.length ≤ tag) (error : Option Nat) :
    Noted msgs tag error (msgs.modify (tag - msgs.length) (noteSend (status error))) := by
  refine ⟨length_modify .., ?_⟩
  intro j m' hj
  obtain ⟨m, hm, hcase⟩ := getElem?_modify_cases hj
  refine ⟨m, hm, ?_⟩
  have hlt : j < msgs.length := (List.getElem?_eq_some_iff.mp hm).1
  rcases hcase with ⟨_, hm'⟩ | ⟨hji, hm'⟩
  · exact .inl ⟨by omega, hm'⟩
  · exact .inr (.inr ⟨by omega, hm'⟩)

theorem noted_recv (msgs : List Msg) (tag : Nat) (error : Option Nat) :
    Noted msgs tag error (msgs.modify tag (recvDone error)) := by
  refine ⟨length_modify .., ?_⟩
  intro j m' hj
  obtain ⟨m, hm, hcase⟩ := getElem?_modify_cases hj
  exact ⟨m, hm, hcase.imp_right .inl⟩

/-- What the completion of one operation changes. -/
theorem completed_spec (htag : tag < 2 * s.count) (error : Option Nat) :
    ∃ msgs cancelled errorCode fault,
      s.completed tag error = { s with
        msgs := msgs, cancelled := cancelled, outstanding := s.outstanding.erase tag,
        statusUserTag := tag, errorCode := errorCode, compCt := s.compCt - 1,
        stage := if 0 < s.compCt - 1 then .wait else .completionFn, fault := fault } ∧
      Noted s.msgs tag error msgs := by
  have hlength : (s.answer tag).count = s.count := length_modify ..
  unfold completed
  by_cases hanswer : tag < s.count ∧ error = none
  · rw [if_pos hanswer]
    obtain ⟨hrecv, rfl⟩ := hanswer
    obtain ⟨errorCode, fault, heq⟩ := msgpairarrayComplete_eq (s := { s.answer tag with
      outstanding := s.outstanding.erase tag, statusUserTag := tag, errorCode := status none })
      (by change tag < 2 * (s.answer tag).count; rw [hlength]; exact htag)
    refine ⟨_, _, errorCode, fault, heq, ?_⟩
    rw [note_msgs, if_pos (by change tag < (s.answer tag).count; rw [hlength]; exact hrecv)]
    have hmsgs : (s.answer tag).msgs.modify tag (noteRecv (status none)) =
        s.msgs.modify tag (recvDone none) := by
      apply ext_getElem?
      intro j
      unfold answer
      rw [getElem?_modify, getElem?_modify, getElem?_modify]
      cases s.msgs[j]? with
      | none => rfl
      | some m =>
        split
        next => simp [recvDone, noteRecv, save]
        next => rfl
    exact hmsgs ▸ noted_recv s.msgs tag none
  · rw [if_neg hanswer]
    obtain ⟨errorCode, fault, heq⟩ := msgpairarrayComplete_eq (s := { s with
      outstanding := s.outstanding.erase tag, statusUserTag := tag, errorCode := status error }) htag
    refine ⟨_, _, errorCode, fault, heq, ?_⟩
    rw [note_msgs]
    split
    next hrecv =>
      cases error with
      | none => exact absurd ⟨hrecv, rfl⟩ hanswer
      | some e =>
        have hsame : noteRecv (status (some e)) = recvDone (some e) := by
          funext m
          simp [recvDone, noteRecv, save]
        rw [hsame]
        exact noted_recv s.msgs tag (some e)
    next hsend => exact noted_send (Nat.le_of_not_lt hsend) error

/-- A completion keeps the count. -/
theorem Counted.completed (h : s.Counted) (hstage : s.stage = .wait) (htag : tag ∈ s.outstanding)
    (error : Option Nat) : (s.completed tag error).Counted := by
  obtain ⟨msgs, cancelled, errorCode, fault, heq, hnoted⟩ := completed_spec (h.range tag htag) error
  have hct := h.waits hstage
  have hlen := length_erase_of_mem htag
  have hpos : 0 < s.outstanding.length := length_pos_of_mem htag
  have hrange : ∀ t ∈ s.outstanding.erase tag, t < 2 * msgs.length := by
    intro t ht
    rw [hnoted.length]
    exact h.range t (mem_of_mem_erase ht)
  rw [heq]
  split
  next hmore =>
    refine ⟨fun _ => ?_, fun hs => absurd rfl hs, fun hs => by simp at hs, noConfusion, hrange,
      noConfusion⟩
    dsimp only
    omega
  next hlast =>
    have hnil : s.outstanding.erase tag = [] := by
      apply length_eq_zero_iff.mp
      omega
    refine ⟨noConfusion, fun _ => hnil, fun hs => by simp at hs, fun _ => ?_, hrange,
      noConfusion⟩
    dsimp only
    omega

/-- How the look at the answers can end. -/
theorem completionFn_cases (heven : s.Even (.answers a)) :
    let r := lookAll a 0 ⟨0, 0, none, false⟩ s.msgs
    s.msgpairarrayCompletionFn a = { s with fault := true } ∨
    (r.2.fault = false ∧ r.2.needRetry = 0 ∧ s.msgpairarrayCompletionFn a =
      { s with msgs := r.1, errorCode := r.2.errorCode, stage := next r.2.errorCode }) ∨
    (∃ m ∈ s.msgs, m.Failed) ∧ LookedAll s.msgs ⟨0, 0, none, false⟩ r ∧
      s.msgpairarrayCompletionFn a = { s with
        msgs := (chooseAll s.retryLimit 0 0 r.1).1
        compCt := (chooseAll s.retryLimit 0 0 r.1).2.1
        errorCode := (chooseAll s.retryLimit 0 0 r.1).2.2
        stage := next (chooseAll s.retryLimit 0 0 r.1).2.2 } ∧
      ((∀ m ∈ r.1, m.complete = false → m.Chosen s.retryLimit) ∨
        (∀ m ∈ r.1, ¬ m.Chosen s.retryLimit) ∧ (chooseAll s.retryLimit 0 0 r.1).2.1 = 0) := by
  intro r
  unfold msgpairarrayCompletionFn
  dsimp only
  split
  next => exact .inl rfl
  next hfault =>
    split
    next hzero => exact .inr (.inl ⟨Bool.eq_false_iff.mpr hfault, hzero, rfl⟩)
    next hretry =>
      have hloop := looksAll_lookAll (a := a) s.msgs 0 ⟨0, 0, none, false⟩
      have hle := hloop.needRetry_le
      have hpos : 0 < s.msgs.countP fun m => decide m.Failed := by
        dsimp only at hle
        omega
      obtain ⟨m0, hm0, hfailed⟩ := countP_pos_iff.mp hpos
      have hsome : ∃ m ∈ s.msgs, m.Failed := ⟨m0, hm0, of_decide_eq_true hfailed⟩
      obtain ⟨hfine, hchoice⟩ := heven hsome
      have hlooked : LookedAll s.msgs ⟨0, 0, none, false⟩ r :=
        hloop.fine fun j m hj hm hop => (Nat.zero_add j).symm ▸ hfine j m hj hm hop
      have hof : ∀ m ∈ r.1, m.complete = false → m ∈ s.msgs ∧ m.Failed := by
        intro m hm hopen
        obtain ⟨j, hj⟩ := mem_iff_getElem?.mp hm
        rcases hlooked.get hj with hc | ⟨hj', hf⟩
        · exact absurd (hopen.symm.trans hc) Bool.noConfusion
        · exact ⟨mem_of_getElem? hj', hf⟩
      refine .inr (.inr ⟨hsome, hlooked, rfl, ?_⟩)
      rcases hchoice with hall | hnone
      · exact .inl fun m hm hopen => hall m (hof m hm hopen).1 (hof m hm hopen).2
      · have hnone' : ∀ m ∈ r.1, ¬ m.Chosen s.retryLimit :=
          fun m hm hc => hnone m (hof m hm hc.1).1 (hof m hm hc.1).2 hc
        refine .inr ⟨hnone', ?_⟩
        rw [chooseAll_compCt, countP_eq_zero.mpr (by simpa using hnone')]
        rfl

/-- The look at the answers keeps the count. -/
theorem Counted.answers (h : s.Counted) (hstage : s.stage = .completionFn)
    (heven : s.Even (.answers a)) : (s.msgpairarrayCompletionFn a).Counted := by
  have hidle : s.outstanding = [] := h.idle (by rw [hstage]; exact noConfusion)
  -- the counter is all that matters, since nothing is out
  have hcounted : ∀ {msgs : List Msg} {compCt errorCode : Int},
      (compCt < 2 ∨ compCt = 2 * incomplete msgs) →
      Counted { s with msgs := msgs, compCt := compCt, errorCode := errorCode,
                       stage := next errorCode } := by
    intro msgs compCt errorCode hdue
    have hne := next_ne errorCode
    refine ⟨fun hs => absurd hs hne.1, fun _ => hidle, fun _ => hdue, fun hs => absurd hs hne.2.1, ?_,
      hne.2.2⟩
    intro t ht
    rw [hidle] at ht
    cases ht
  rcases completionFn_cases heven with heq | ⟨_, _, heq⟩ | ⟨_, _, heq, hchoice⟩
  · rw [heq]
    exact { h with }
  · rw [heq]
    refine hcounted (.inl ?_)
    rw [h.through hstage]
    decide
  · rw [heq]
    apply hcounted
    rcases hchoice with hall | ⟨_, hzero⟩
    · right
      have hcount : ∀ l : List Msg, (∀ m ∈ l, m.complete = false → m.Chosen s.retryLimit) →
          (l.countP fun m => decide (m.Chosen s.retryLimit)) = incomplete l := by
        intro l hl
        apply countP_congr
        intro m hm
        simp only [decide_eq_true_eq, Bool.not_eq_true']
        exact ⟨fun hc => hc.1, hl m hm⟩
      rw [chooseAll_compCt, incomplete_chooseAll, hcount _ hall, Int.zero_add]
    · left
      rw [hzero]
      decide

/-- So does every step. -/
theorem Counted.step (h : s.Counted) {e : Event} (heven : s.Even e) (hstep : s.step e = some s') :
    s'.Counted := by
  cases steps_of_step hstep with
  | post hstage => exact h.post hstage heven
  | completed hstage htag => exact h.completed hstage htag _
  | answers hstage => exact h.answers hstage heven
  | postRetry hstage =>
    have hidle : s.outstanding = [] := h.idle (by rw [hstage]; exact noConfusion)
    exact ⟨noConfusion, fun _ => hidle, fun _ => h.due (.inr hstage), noConfusion, h.range,
      noConfusion⟩
  | complete hstage => exact absurd hstage h.regular

theorem counted_msgpairarrayInit (retryLimit : Nat) (msgs : List Msg) :
    (msgpairarrayInit retryLimit msgs).Counted := by
  refine ⟨noConfusion, fun _ => rfl, fun _ => .inr ?_, noConfusion, by simp [msgpairarrayInit],
    noConfusion⟩
  have hall : incomplete (msgpairarrayInit retryLimit msgs).msgs = msgs.length := by
    unfold incomplete msgpairarrayInit
    rw [countP_map, countP_eq_length]
    intro m _
    rfl
  rw [hall]
  rfl

end MsgArray

end Pvfs.Common
