import Pvfs.Lib.Steps
import Mathlib.Data.List.Perm.Basic

/-! # Parallel jumps (state-machine-fns.c)

A machine that jumps in parallel has pushed a frame for each child, and a child is started with
each of them; the last child to end posts the job that wakes the parent up. The children are
counted before the first of them is started, so it does not matter which of them end at once.

What a child leaves on the parent's stack is its error code, in the entry that has the child's
current frame. A child that ends inside a machine nested in it, for which it has pushed a frame
of its own, has another frame there, and its error is lost. A child whose machine begins with a
jump to a nested machine is not started at all, and its parent waits for ever. The one parallel
jump of the source (list-attr.sm) starts children of neither kind. All children are started with
the one job status, and a child that has a parent never comes to the function that frees it. -/

namespace Pvfs.Common

open Lib List

/-- `struct PINT_frame_s`. -/
structure FrameEntry where
  taskId : Int
  frame : Nat
  error : Int

/-- The `struct PINT_smcb` of a child, with its address, whether `parent_smcb` is set, and the frame
it was given. -/
structure ChildSmcb where
  address : Nat
  hasParent : Bool
  frame : Nat

/-- A child that has ended, in its `own` frame or in one that it has pushed itself. -/
structure Ended where
  frame : Nat
  own : Bool
  errorCode : Int

/-- The parent's `struct PINT_smcb`, the jobs posted for it (`resumed`), and the `error_code` of the
job status that its children are started with. The rest is not in the source: the children that
are `waiting` or have `ended`, what the first states of the children found as `error_code`
(`seen`), and the control blocks that have been `allocated` and `freed`. -/
structure ParallelJump where
  frames : List FrameEntry
  childrenRunning : Int := 0
  resumed : Nat := 0
  errorCode : Int := 0
  waiting : List ChildSmcb := []
  ended : List Ended := []
  seen : List Int := []
  allocated : Nat := 0
  freed : List Nat := []

/-- The loop of `PINT_state_machine_terminate` over the parent's frames. -/
def recordError (myFrame : Nat) (errorCode : Int) : List FrameEntry → List FrameEntry
  | [] => []
  | f :: rest =>
    if f.frame = myFrame then { f with error := errorCode } :: rest
    else f :: recordError myFrame errorCode rest

/-- `PINT_state_machine_terminate`; `none` is a failed assertion. -/
def stateMachineTerminate (smcb : ChildSmcb) (own : Bool) (errorCode : Int) (j : ParallelJump) :
    Option ParallelJump :=
  let j := { j with ended := ⟨smcb.frame, own, errorCode⟩ :: j.ended }
  if smcb.hasParent then
    if j.childrenRunning > 0 then
      some { j with
        frames := if own then recordError smcb.frame errorCode j.frames else j.frames
        childrenRunning := j.childrenRunning - 1
        resumed := if j.childrenRunning - 1 ≤ 0 then j.resumed + 1 else j.resumed }
    else none
  -- the `terminate_fn` is `child_sm_frame_terminate`
  else some { j with freed := smcb.address :: j.freed }

/-- What starting a child comes to, with the `error_code` it leaves in the job status. -/
inductive Started where
  | terminated (own : Bool) (errorCode : Int)
  | deferred (errorCode : Int)
  /-- `SM_ERROR` of `PINT_state_machine_invoke`: the first state is a jump and no action of it is run -/
  | failed

/-- The second loop of `PINT_sm_start_child_frames`; `start` is what the machines do that the task
ids stand for. -/
def startChildren (start : FrameEntry → Int → Started) :
    List FrameEntry → ParallelJump → Option ParallelJump
  | [], j => some j
  | f :: rest, j =>
    let newSm : ChildSmcb := ⟨j.allocated, true, f.frame⟩
    let j' := { j with allocated := j.allocated + 1, seen := j.errorCode :: j.seen }
    match start f j.errorCode with
    | .terminated own errorCode =>
      (stateMachineTerminate newSm own errorCode { j' with errorCode }).bind
        (startChildren start rest)
    | .deferred errorCode =>
      startChildren start rest { j' with errorCode, waiting := newSm :: j.waiting }
    -- nobody looks at the answer
    | .failed => startChildren start rest { j with allocated := j.allocated + 1 }

/-- The entries above the parent's own frame. -/
def childFrames (myFrame : Nat) (frames : List FrameEntry) : List FrameEntry :=
  frames.takeWhile fun f => f.frame ≠ myFrame

/-- `PINT_sm_start_child_frames`, with `children_started`: the parent goes on at once if it is 0. -/
def startChildFrames (start : FrameEntry → Int → Started) (myFrame : Nat) (j : ParallelJump) :
    Option (Int × ParallelJump) :=
  let children := childFrames myFrame j.frames
  let j := { j with childrenRunning := j.childrenRunning + children.length, errorCode := 0 }
  (startChildren start children j).map fun j' => (j.childrenRunning, j')

/-- One of the children that were deferred ends. -/
def ParallelJump.complete (j : ParallelJump) (e : Nat × Bool × Int) : Option ParallelJump :=
  j.waiting[e.1]?.bind fun smcb =>
    stateMachineTerminate smcb e.2.1 e.2.2 { j with waiting := j.waiting.eraseIdx e.1 }

/-- The error that a frame has ended with. -/
def errorAt (frames : List FrameEntry) (p : Nat) : Option Int :=
  (frames.find? fun f => f.frame = p).map (·.error)

/-- Only the frame of the child that ends gets the error. -/
theorem errorAt_recordError (frames : List FrameEntry) (myFrame : Nat) (errorCode : Int) (p : Nat) :
    errorAt (recordError myFrame errorCode frames) p =
      if p = myFrame then (errorAt frames p).map fun _ => errorCode else errorAt frames p := by
  induction frames with
  | nil => simp [recordError, errorAt]
  | cons f rest ih =>
    unfold errorAt at ih ⊢
    rw [recordError]
    by_cases hf : f.frame = myFrame
    · by_cases hp : p = myFrame
      · simp [hf, hp]
      · simp [hf, hp, Ne.symm hp]
    · by_cases hp : f.frame = p
      · simp [hf, ← hp]
      · simpa [hf, hp] using ih

/-- The children have frames of their own, whose entries have no error. -/
def OwnEntries (myFrame : Nat) (frames : List FrameEntry) : Prop :=
  ((childFrames myFrame frames).map (·.frame)).Nodup ∧
    ∀ f ∈ childFrames myFrame frames, errorAt frames f.frame = some 0

/-- The frames of the children that the parent waits for: those that are running, and those that
are not started yet or never will be (`left`). -/
def ParallelJump.running (j : ParallelJump) (left : List Nat) : List Nat :=
  j.waiting.map (·.frame) ++ left

/-- How far a jump with `children` has come; what their entries hold if those are `distinct`. -/
structure Joining (distinct : Prop) (children left : List Nat) (j : ParallelJump) : Prop where
  shared : (j.ended.map (·.frame) ++ j.running left).Perm children
  counted : j.childrenRunning = (j.running left).length
  once : j.resumed = if (j.running left).length = 0 ∧ children ≠ [] then 1 else 0
  recorded : distinct → ∀ x ∈ j.ended,
    errorAt j.frames x.frame = some (if x.own then x.errorCode else 0)
  clean : distinct → ∀ p ∈ j.running left, errorAt j.frames p = some 0
  parent : ∀ smcb ∈ j.waiting, smcb.hasParent = true
  freed : j.freed = []

section
variable {distinct : Prop} {children left left' : List Nat} {j : ParallelJump}

theorem Joining.reorder {waiting : List ChildSmcb} {errorCode : Int} {seen : List Int}
    {allocated : Nat} (h : Joining distinct children left j)
    (hperm : (waiting.map (·.frame) ++ left').Perm (j.running left))
    (hparent : ∀ smcb ∈ waiting, smcb.hasParent = true) :
    Joining distinct children left' { j with waiting, errorCode, seen, allocated } where
  shared := (hperm.append_left _).trans h.shared
  counted := h.counted.trans (congrArg _ hperm.length_eq.symm)
  once := by
    rw [ParallelJump.running, hperm.length_eq]
    exact h.once
  recorded := h.recorded
  clean := fun hd p hp => h.clean hd p (hperm.mem_iff.mp hp)
  parent := hparent
  freed := h.freed

variable (hdistinct : distinct → children.Nodup)
include hdistinct

/-- A child that ends leaves the others to be waited for. -/
theorem Joining.terminate (smcb : ChildSmcb) (h : Joining distinct children (smcb.frame :: left) j)
    (hparent : smcb.hasParent = true) (own : Bool) (errorCode : Int) :
    ∃ j', stateMachineTerminate smcb own errorCode j = some j' ∧ Joining distinct children left j' := by
  have hperm : (j.running (smcb.frame :: left)).Perm (smcb.frame :: j.running left) := perm_middle
  have hrunning := hperm.mem_iff.mpr mem_cons_self
  have hcount := h.counted
  rw [hperm.length_eq, length_cons] at hcount
  -- the entries of the other frames are as they were
  have hother : ∀ p ≠ smcb.frame, errorAt (if own then recordError smcb.frame errorCode j.frames
      else j.frames) p = errorAt j.frames p := by
    intro p hp
    split
    · rw [errorAt_recordError, if_neg hp]
    · rfl
  have hnodup := fun hd => nodup_append.mp (h.shared.nodup_iff.mpr (hdistinct hd))
  refine ⟨{ j with
      ended := ⟨smcb.frame, own, errorCode⟩ :: j.ended
      frames := if own then recordError smcb.frame errorCode j.frames else j.frames
      childrenRunning := j.childrenRunning - 1
      resumed := if j.childrenRunning - 1 ≤ 0 then j.resumed + 1 else j.resumed }, ?_,
    (perm_middle.symm.trans (hperm.symm.append_left _)).trans h.shared, ?_, ?_, fun hd x hx => ?_,
    fun hd p hp => ?_, h.parent, h.freed⟩
  · simp only [stateMachineTerminate, hparent, if_true]
    exact if_pos (by omega)
  · change j.childrenRunning - 1 = (j.running left).length
    omega
  · have hne : children ≠ [] := ne_nil_of_mem (h.shared.subset (mem_append_right _ hrunning))
    have honce := h.once
    rw [hperm.length_eq, if_neg fun hzero => Nat.succ_ne_zero _ hzero.1] at honce
    change (if j.childrenRunning - 1 ≤ 0 then j.resumed + 1 else j.resumed) =
      if (j.running left).length = 0 ∧ children ≠ [] then 1 else 0
    rw [honce]
    exact if_congr ⟨fun hzero => ⟨by omega, hne⟩, fun hzero => by omega⟩ rfl rfl
  · rcases mem_cons.mp hx with rfl | hx
    · have hclean := h.clean hd _ hrunning
      cases own with
      | true => exact (errorAt_recordError ..).trans (by rw [if_pos rfl, hclean]; rfl)
      | false => exact hclean
    · refine (hother _ ?_).trans (h.recorded hd x hx)
      exact (hnodup hd).2.2 _ (mem_map_of_mem hx) _ hrunning
  · have hnew := (nodup_cons.mp (hperm.nodup_iff.mp (hnodup hd).2.1)).1
    exact (hother p (ne_of_mem_of_not_mem hp hnew)).trans
      (h.clean hd p (hperm.mem_iff.mpr (mem_cons_of_mem _ hp)))

/-- No machine that is started for these entries begins with a jump. -/
def Startable (start : FrameEntry → Int → Started) (l : List FrameEntry) : Prop :=
  ∀ f ∈ l, ∀ errorCode, start f errorCode ≠ .failed

/-- Children may end while others are being started. -/
theorem Joining.start_children (start : FrameEntry → Int → Started) {l : List FrameEntry}
    {lost : List Nat} (h : Joining distinct children (l.map (·.frame) ++ lost) j) :
    ∃ lost' j', startChildren start l j = some j' ∧ Joining distinct children lost' j' ∧
      (Startable start l → lost' = lost) := by
  induction l generalizing j lost with
  | nil => exact ⟨lost, j, rfl, h, fun _ => rfl⟩
  | cons f rest ih =>
    rw [startChildren]
    split
    next own errorCode hstart =>
      obtain ⟨j', hj', hjoin⟩ := Joining.terminate hdistinct ⟨j.allocated, true, f.frame⟩
        (h.reorder (Perm.refl _) h.parent) rfl own errorCode
      rw [hj']
      obtain ⟨lost', j'', hj'', hjoin'', hlost⟩ := ih hjoin
      exact ⟨lost', j'', hj'', hjoin'', fun hs => hlost (forall_mem_cons.mp hs).2⟩
    next errorCode hstart =>
      have hparent : ∀ smcb ∈ ⟨j.allocated, true, f.frame⟩ :: j.waiting, smcb.hasParent = true :=
        forall_mem_cons.mpr ⟨rfl, h.parent⟩
      obtain ⟨lost', j'', hj'', hjoin'', hlost⟩ := ih (h.reorder perm_middle.symm hparent)
      exact ⟨lost', j'', hj'', hjoin'', fun hs => hlost (forall_mem_cons.mp hs).2⟩
    next hstart =>
      -- the parent goes on counting this child
      obtain ⟨lost', j'', hj'', hjoin'', -⟩ := ih (h.reorder (perm_middle.append_left _) h.parent)
      exact ⟨lost', j'', hj'', hjoin'', fun hs => absurd hstart (hs f mem_cons_self _)⟩

/-- The completion of a child that was waited for. -/
theorem Joining.complete (h : Joining distinct children left j) {k : Nat}
    (hk : k < j.waiting.length) (r : Bool × Int) :
    ∃ j', j.complete (k, r) = some j' ∧ Joining distinct children left j' := by
  have hperm : ((j.waiting.eraseIdx k).map (·.frame) ++ j.waiting[k].frame :: left).Perm
      (j.running left) := by
    have hcons := (getElem_cons_eraseIdx_perm hk).map (·.frame)
    exact perm_middle.trans (hcons.append_right left)
  rw [ParallelJump.complete, getElem?_eq_getElem hk, Option.bind_some]
  have hparent : ∀ c ∈ j.waiting.eraseIdx k, c.hasParent = true :=
    fun c hc => h.parent c (mem_of_mem_eraseIdx hc)
  exact Joining.terminate hdistinct _ (h.reorder hperm hparent) (h.parent _ (getElem_mem hk)) r.1 r.2

omit hdistinct

/-- A jump can be started, and however its children end later, the parent is where `Joining` has it:
nobody is left over if every machine can be started. -/
theorem joining_exec (start : FrameEntry → Int → Started) (myFrame : Nat)
    (frames : List FrameEntry) :
    ∃ lost j₀, startChildFrames start myFrame { frames } =
        some (↑(childFrames myFrame frames).length, j₀) ∧
      (Startable start (childFrames myFrame frames) → lost = []) ∧
      ∀ events j, exec ParallelJump.complete j₀ events = some j →
        Joining (OwnEntries myFrame frames) ((childFrames myFrame frames).map (·.frame)) lost j := by
  have hbegin : Joining (OwnEntries myFrame frames) ((childFrames myFrame frames).map (·.frame))
      ((childFrames myFrame frames).map (·.frame) ++ [])
      { frames, childrenRunning := 0 + (childFrames myFrame frames).length } :=
    ⟨by simp [ParallelJump.running], by simp [ParallelJump.running], by simp [ParallelJump.running],
      by simp, fun hd => by simpa [ParallelJump.running] using hd.2, by simp, rfl⟩
  obtain ⟨lost, j₀, hj₀, hjoin, hlost⟩ := hbegin.start_children And.left start
  refine ⟨lost, j₀, ?_, hlost, fun events j hrun => ?_⟩
  · rw [startChildFrames, hj₀, Option.map_some, Int.zero_add]
  · refine Throughout.last (Throughout.of_step (fun j e j' h hstep => ?_) hjoin events) hrun
    obtain ⟨smcb, hk, -⟩ := Option.bind_eq_some_iff.mp hstep
    obtain ⟨j1, hj1, hjoin1⟩ := h.complete And.left (List.getElem?_eq_some_iff.mp hk).1 e.2
    cases hstep.symm.trans hj1
    exact hjoin1

end

/-- The parent is resumed once, by the last child to end, and then finds their error codes. -/
def ParallelJump.Joined (j : ParallelJump) (children : List Nat) : Prop :=
  j.resumed = (if j.waiting = [] ∧ children ≠ [] then 1 else 0) ∧
  (j.waiting = [] → (j.ended.map (·.frame)).Perm children ∧
    ∀ x ∈ j.ended, errorAt j.frames x.frame = some x.errorCode)

/-- **Children that can be started join their parent once**, whichever of them end at once and in
whatever order the others end later; and the parent finds their error codes just when those that
failed did so in the frame that they were started with. -/
theorem joined_iff_own_frame {start : FrameEntry → Int → Started} {myFrame : Nat}
    {frames : List FrameEntry} (hpushed : OwnEntries myFrame frames)
    (hstartable : Startable start (childFrames myFrame frames)) :
    ∃ j₀, startChildFrames start myFrame { frames } =
        some (↑(childFrames myFrame frames).length, j₀) ∧
      ∀ events j, exec ParallelJump.complete j₀ events = some j →
        (∀ k < j.waiting.length, ∀ r, (j.complete (k, r)).isSome) ∧
        (j.Joined ((childFrames myFrame frames).map (·.frame)) ↔
          (j.waiting = [] → ∀ x ∈ j.ended, x.own = true ∨ x.errorCode = 0)) := by
  obtain ⟨lost, j₀, hstart, hlost, hjoining⟩ := joining_exec start myFrame frames
  cases hlost hstartable
  refine ⟨j₀, hstart, fun events j hrun => ⟨fun k hk r => ?_, ?_⟩⟩
  · obtain ⟨j', hj', -⟩ := (hjoining events j hrun).complete And.left hk r
    rw [hj']
    rfl
  have h := hjoining events j hrun
  have hshared := h.shared
  have honce := h.once
  simp only [ParallelJump.running, append_nil, length_map, length_eq_zero_iff] at hshared honce
  have hcode : ∀ x ∈ j.ended, errorAt j.frames x.frame = some x.errorCode ↔
      x.own = true ∨ x.errorCode = 0 := by
    intro x hx
    rw [h.recorded hpushed x hx, Option.some_inj]
    split
    · next hown => simp [hown]
    · next hown => simp [hown, eq_comm]
  refine ⟨fun hjoined hwaiting x hx => (hcode x hx).mp ((hjoined.2 hwaiting).2 x hx),
    fun hends => ?_⟩
  refine ⟨honce, fun hwaiting => ⟨?_, fun x hx => (hcode x hx).mpr (hends hwaiting x hx)⟩⟩
  simpa [hwaiting] using hshared

/-- The first of two children ends at once. -/
theorem joined_two : ∃ j₀ j,
    startChildFrames (fun f _ => if f.frame = 1 then .terminated true (-5) else .deferred 0) 3
      { frames := [⟨0, 1, 0⟩, ⟨0, 2, 0⟩, ⟨0, 3, 0⟩] } = some (2, j₀) ∧
    exec ParallelJump.complete j₀ [(0, true, -7)] = some j ∧ j.resumed = 1 ∧ j.Joined [1, 2] := by
  obtain ⟨j₀, hstart, hrun⟩ := @joined_iff_own_frame
    (fun f _ => if f.frame = 1 then .terminated true (-5) else .deferred 0) 3
    [⟨0, 1, 0⟩, ⟨0, 2, 0⟩, ⟨0, 3, 0⟩] ⟨by decide, by decide⟩ fun f _ _ => by dsimp only; split <;> simp
  cases hstart
  exact ⟨_, _, rfl, rfl, rfl, (hrun [(0, true, -7)] _ rfl).2.mpr (by simp)⟩

/-- The error of a child that ends in a frame of its own is lost, and the parent of one that cannot
be started is never resumed. -/
theorem joined_nested_lost :
    (∃ j, startChildFrames (fun _ _ => .terminated false (-5)) 2
      { frames := [⟨0, 1, 0⟩, ⟨0, 2, 0⟩] } = some (1, j) ∧ j.waiting = [] ∧ ¬ j.Joined [1]) ∧
    ∃ j, startChildFrames (fun _ _ => .failed) 2
      { frames := [⟨0, 1, 0⟩, ⟨0, 2, 0⟩] } = some (1, j) ∧ j.waiting = [] ∧ j.resumed = 0 ∧
        ¬ j.Joined [1] :=
  ⟨⟨_, rfl, rfl, by simp [ParallelJump.Joined, errorAt, childFrames]⟩,
    _, rfl, rfl, rfl, by simp [ParallelJump.Joined]⟩

/-- Every child starts with a zero error code, and its control block is freed once. -/
def ParallelJump.Released (j : ParallelJump) : Prop :=
  (∀ e ∈ j.seen, e = 0) ∧ ∀ smcb < j.allocated, j.freed.count smcb = 1

theorem stateMachineTerminate_allocated {smcb : ChildSmcb} {own : Bool} {errorCode : Int}
    {j j' : ParallelJump} (h : stateMachineTerminate smcb own errorCode j = some j') :
    j'.allocated = j.allocated := by
  simp only [stateMachineTerminate] at h
  split at h
  · split at h <;> cases h
    rfl
  · cases h
    rfl

theorem startChildren_allocated {start : FrameEntry → Int → Started} {l : List FrameEntry}
    {j j' : ParallelJump} (h : startChildren start l j = some j') :
    j'.allocated = j.allocated + l.length := by
  induction l generalizing j with
  | nil =>
    cases h
    rfl
  | cons f rest ih =>
    rw [startChildren] at h
    split at h
    · obtain ⟨j1, hj1, h⟩ := Option.bind_eq_some_iff.mp h
      rw [ih h, stateMachineTerminate_allocated hj1, length_cons, Nat.add_right_comm]
      rfl
    · rw [ih h, length_cons, Nat.add_right_comm]
      rfl
    · rw [ih h, length_cons, Nat.add_right_comm]
      rfl

/-- **Whatever a jump starts is never released**: as soon as there is a child, the property fails. -/
theorem released_iff_no_child (start : FrameEntry → Int → Started) (myFrame : Nat)
    (frames : List FrameEntry) :
    ∃ started j₀, startChildFrames start myFrame { frames } = some (started, j₀) ∧
      ∀ events j, exec ParallelJump.complete j₀ events = some j → j.waiting = [] →
        (j.Released ↔ childFrames myFrame frames = []) := by
  obtain ⟨lost, j₀, hstart, hlost, hjoining⟩ := joining_exec start myFrame frames
  refine ⟨_, j₀, hstart, fun events j hrun _ => ⟨fun hreleased => ?_, fun hnil => ?_⟩⟩
  · have h := hjoining events j hrun
    by_contra hne
    have hone := hreleased.2 0 ?_
    · rw [h.freed] at hone
      cases hone
    obtain ⟨j1, hj1, heq⟩ := Option.map_eq_some_iff.mp hstart
    obtain rfl : j1 = j₀ := (Prod.mk.inj heq).2
    have hfirst := startChildren_allocated hj1
    have hall := (Throughout.of_step (I := fun x => x.allocated = _) (fun j e j' hj hstep => ?_) hfirst
      events).last hrun
    · rw [hall]
      exact Nat.add_pos_right _ (length_pos_iff.mpr hne)
    obtain ⟨smcb, -, hterm⟩ := Option.bind_eq_some_iff.mp hstep
    exact (stateMachineTerminate_allocated hterm).trans hj
  · -- nothing is started, and nothing can end
    simp only [startChildFrames, hnil, startChildren, Option.map_some, Option.some.injEq,
      Prod.mk.injEq] at hstart
    obtain ⟨-, rfl⟩ := hstart
    cases events with
    | nil =>
      cases hrun
      exact ⟨by simp, fun _ h => absurd h (Nat.not_lt_zero _)⟩
    | cons e es => cases hrun

/-- What was allocated for two children is never freed. -/
theorem not_released_two : ∃ j, startChildFrames (fun _ _ => .terminated true (-5)) 3
      { frames := [⟨0, 1, 0⟩, ⟨0, 2, 0⟩, ⟨0, 3, 0⟩] } = some (2, j) ∧ j.resumed = 1 ∧
    j.seen = [-5, 0] ∧ j.freed = [] ∧ ¬ j.Released :=
  ⟨_, rfl, rfl, rfl, rfl, fun h => absurd (h.2 0 (by decide)) (by decide)⟩

end Pvfs.Common
