import Pvfs.Server.Completion
import Pvfs.Server.Conflict
import Pvfs.Server.Migration

/-! # The handle that a migration target hands out

The handle of a new datafile is kept in one variable between the states of the machine
that created it, for all the machines of the server. The scheduler lets only one of them
at a time get as far as that: they are modifying operations on the null handle, and of
those only the first of a queue is ever scheduled. -/

namespace Pvfs.Server

open Scheduler Lib List TargetState MigrationServer Target

variable {s s' : Scheduler} {id : ReqSchedId} {h : Handle} {e e' : Element} {n : Nat} {b : Bool}

/-! ## Who runs behind the first -/

/-- Behind the first request of a queue there are only requests that wait, I/O and requests
marked read-only. -/
def Behind (s : Scheduler) : Prop :=
  ∀ h, ∀ e ∈ (s.reqSchedTable h).tail, e.state = .queued ∨ e.op = .io ∨ e.accessType = .readonly

theorem Behind.enter {op : ServerOp} {a : AccessType} (hs : Behind s) :
    Behind (enqueue s (newElement s op h a)) := by
  intro h' e he
  simp only [enqueue, setQueue] at he
  split at he
  · rename_i hh
    subst hh
    change e ∈ (s.reqSchedTable h' ++ [newElement s op h' a]).tail at he
    cases hq : s.reqSchedTable h' with
    | nil => simp [hq] at he
    | cons next rest =>
      rw [hq, cons_append, tail_cons, mem_append, mem_singleton] at he
      obtain he | rfl := he
      · exact hs h' e (by rw [hq]; exact he)
      · simp only [newElement, hq]
        rcases admission_cases op a (next :: rest) with ⟨hnil, -⟩ | ⟨-, hio, -, -⟩ |
          ⟨-, -, hro, -, heq⟩ | ⟨-, -, -, heq⟩ | ⟨-, -, heq⟩
        · cases hnil
        · exact .inr (.inl hio)
        · exact .inr (.inr (by rw [heq]; exact hro))
        · exact .inr (.inr (by rw [heq]))
        · exact .inl (by rw [heq])
  · exact hs h' e he

theorem behind_wake {q : List Element} (hn : n = 0 ∨ n = woken b q) (he' : e' ∈ (wake n q).tail) :
    e'.op = .io ∨ e'.accessType = .readonly ∨ e' ∈ q.tail := by
  cases q with
  | nil => simp [wake] at he'
  | cons next rest =>
    cases n with
    | zero => exact .inr (.inr (by simpa [wake] using he'))
    | succ m =>
      have hw : m + 1 = woken b (next :: rest) := hn.resolve_left (Nat.succ_ne_zero m)
      obtain ⟨e, he, rfl⟩ | he' := mem_wake he'
      · have hin : e ∈ (next :: rest).take (woken b (next :: rest)) := by
          rw [← hw]
          exact mem_cons_of_mem _ he
        obtain hio | hro | hone := woken_together b (next :: rest)
        · exact .inl (hio e hin)
        · exact .inr (.inl (hro e hin))
        · -- only the first is woken
          rw [← hw] at hone
          have hm : m = 0 := Nat.le_zero.mp (Nat.le_of_succ_le_succ hone)
          rw [hm] at he
          cases he
      · exact .inr (.inr (mem_of_mem_drop he'))

theorem keeps_behind : Keeps (fun s => s.Wf ∧ Behind s) (fun _ _ _ => True) (fun _ => True) := by
  apply keeps_of_table
  · intro s s' hs htable h e he
    exact hs h e (htable ▸ he)
  · exact fun op h a _ hs _ => hs.enter
  · intro s c id e h n hwf hs _ _ _ hn h' e' he'
    rw [leaveQueue_table] at he'
    split at he'
    · subst h'
      have hn' : ∃ b, n = 0 ∨ n = woken b (without id (s.reqSchedTable h)) :=
        hn.elim (fun h => ⟨true, .inl h⟩) (fun ⟨b, h⟩ => ⟨b, .inr h⟩)
      obtain ⟨b, hn'⟩ := hn'
      obtain hio | hro | hin := behind_wake hn' he'
      · exact .inr (.inl hio)
      · exact .inr (.inr hro)
      · have hsub : (without id (s.reqSchedTable h)).tail.Sublist (s.reqSchedTable h).tail :=
          filter_sublist.tail
        exact hs h e' (hsub.subset hin)
    · exact hs h' e' he'
  · intro s e hwf hs hact h e' he'
    simp only [letRoll, roll, ← map_tail] at he'
    obtain ⟨e0, he0, ⟨hid, rfl⟩ | ⟨-, rfl⟩⟩ := mem_roll he'
    · -- whoever goes ahead has not been waiting
      obtain hst | hor := hs h e0 he0
      · have hactive := hact h e0 (mem_of_mem_tail he0) hid
        rw [Element.not_active_of_queued hst] at hactive
        cases hactive
      · exact .inr hor
    · exact hs h e' he0

/-! ## The place of one request -/

/-- The request `id` is a migration in the queue of the null handle, and it has been scheduled
if `b` says so. -/
def Holds (s : Scheduler) (id : ReqSchedId) (b : Bool) : Prop :=
  ∃ e ∈ s.reqSchedTable 0, e.id = id ∧ e.op = .migrationPoster ∧ e.accessType = .modify ∧
    (b = true → e.state = .scheduled)

/-- **At most one migration is scheduled.** -/
theorem holds_unique {id' : ReqSchedId} (hs : Behind s) (h1 : Holds s id true)
    (h2 : Holds s id' true) : id = id' := by
  have hhead : ∀ {i}, Holds s i true → ∃ rest e, s.reqSchedTable 0 = e :: rest ∧ e.id = i := by
    rintro i ⟨e, he, hid, hop, hmod, hst⟩
    cases hq : s.reqSchedTable 0 with
    | nil => simp [hq] at he
    | cons next rest =>
      rw [hq] at he
      obtain rfl | he := mem_cons.mp he
      · exact ⟨rest, e, rfl, hid⟩
      · obtain hst' | hio | hro := hs 0 e (by rw [hq]; exact he)
        · rw [hst rfl] at hst'
          cases hst'
        · rw [hop] at hio
          cases hio
        · rw [hmod] at hro
          cases hro
  obtain ⟨rest, e, hq, rfl⟩ := hhead h1
  obtain ⟨rest', e', hq', rfl⟩ := hhead h2
  rw [hq] at hq'
  cases hq'
  rfl

theorem Holds.leaveQueue {i : ReqSchedId} (hs : Holds s id b) (hne : id ≠ i)
    (hqueued : ∀ e ∈ (without i (s.reqSchedTable h)).take n, e.state = .queued) :
    Holds (leaveQueue s h i n) id b := by
  obtain ⟨e, he, hid, hop, hmod, hst⟩ := hs
  obtain he' | ⟨he', hq⟩ := mem_leaveQueue (n := n) he (by rw [hid]; exact hne)
  · exact ⟨e, he', hid, hop, hmod, hst⟩
  · refine ⟨e.withState .readyToSchedule, he', hid, hop, hmod, fun hb => ?_⟩
    -- it has been woken, so it was not scheduled before
    have hwait := hqueued e hq
    rw [hst hb] at hwait
    cases hwait

theorem Holds.letRoll (hs : Holds s id b) : Holds (letRoll s e) id b := by
  obtain ⟨e0, he0, hid, hop, hmod, hst⟩ := hs
  refine ⟨_, mem_map_of_mem he0, ?_⟩
  split
  · exact ⟨hid, hop, hmod, fun _ => rfl⟩
  · exact ⟨hid, hop, hmod, hst⟩

theorem keeps_holds :
    Keeps (fun s => s.Wf ∧ Holds s id b) (fun _ _ e => e.id ≠ id) (fun _ => True) := by
  apply keeps_of_table
  · rintro s s' ⟨e, he, hrest⟩ htable
    exact ⟨e, htable ▸ he, hrest⟩
  · rintro s op h a - ⟨e, he, hrest⟩ -
    exact ⟨e, mem_enqueue he, hrest⟩
  · intro s c i e h n hwf hs he hne hh hn
    have hid : e.id = i := (lookup_linked hh he).2
    refine hs.leaveQueue (fun heq => hne (hid.trans heq.symm)) ?_
    obtain rfl | ⟨b, rfl⟩ := hn
    · simp
    · exact (hwf.blocks h).woken_queued
  · exact fun _ hs _ => hs.letRoll

theorem Holds.lt_nextId (hwf : s.Wf) (hs : Holds s id b) : 0 < id ∧ id < s.nextId := by
  obtain ⟨e, he, rfl, -⟩ := hs
  exact hwf.fresh 0 e he

variable {ids : List ReqSchedId}

theorem Holds.call {c : Call} (hwf : s.Wf) (hs : Holds s id b)
    (hspare : ∀ i, c = .unpost i ∨ c = .release i → i ≠ id) (hc : s.call c = some (ids, s')) :
    Holds s' id b := by
  refine (keeps_holds.call ⟨hwf, hs⟩ ?_ ?_ (fun _ _ => trivial) hc).2
  · intro op h a _ _ heq
    have hlt := (hs.lt_nextId hwf).2
    exact Nat.lt_irrefl _ (heq ▸ hlt)
  · intro i e hi he
    have hid : e.id = i := by
      cases hh : s.listHead i with
      | none => exact (lookup_special hh he).2
      | some h => exact (lookup_linked hh he).2
    rw [hid]
    exact hspare i (hi.imp_right And.left)

theorem Holds.reported {c : Call} (hg : Governed s) (hs : Holds s id false)
    (hspare : ∀ i, c = .unpost i ∨ c = .release i → i ≠ id) (hc : s.call c = some (ids, s'))
    (hin : id ∈ ids) : Holds s' id true := by
  obtain ⟨hpos, hlt⟩ := hs.lt_nextId hg.wf
  have hnot : NotMode s id := by
    obtain ⟨e, he, rfl, -⟩ := hs
    exact fun e' he' heq => hg.wf.ne_special he (mem_append_left _ he') heq.symm
  have hrep : Reports id s ids s' :=
    reports_call ⟨hg, hnot, fun _ => trivial⟩ (Nat.ne_of_gt hpos) (fun _ _ => Nat.ne_of_gt hlt) hc
  obtain ⟨e, he, hid, hop, hmod, -⟩ := hs.call hg.wf hspare hc
  refine ⟨e, he, hid, hop, hmod, fun _ => ?_⟩
  -- otherwise it would still be due
  by_contra hst
  exact (hrep.after (.inr (.inl ⟨0, e, he, hid, hst⟩))).2 hin

theorem holds_post (s : Scheduler) :
    let r := reqSchedPost s .migrationPoster 0 .modify .schedule
    r.1 = .eagain ∨ (r.1 = .proceed s.nextId ∧ Holds r.2 s.nextId true) ∨
      (r.1 = .wait s.nextId ∧ Holds r.2 s.nextId false) := by
  unfold reqSchedPost
  split
  · exact .inl rfl
  · refine .inr ?_
    have hmem : newElement s .migrationPoster 0 .modify ∈
        (enqueue s (newElement s .migrationPoster 0 .modify)).reqSchedTable 0 := by
      simp [enqueue, setQueue, newElement]
    have hmod : (newElement s .migrationPoster 0 .modify).accessType = .modify := by
      rcases admission_cases .migrationPoster .modify (s.reqSchedTable 0) with ⟨-, heq⟩ |
        ⟨-, -, -, heq⟩ | ⟨-, -, -, -, heq⟩ | ⟨-, -, hd, -⟩ | ⟨-, -, heq⟩
      all_goals first | simp [newElement, heq] | (cases hd <;> contradiction)
    dsimp only
    split
    · rename_i hst
      exact .inl ⟨rfl, _, hmem, rfl, rfl, hmod, fun _ => hst⟩
    · exact .inr ⟨rfl, _, hmem, rfl, rfl, hmod, fun hb => by cases hb⟩

/-! ## The machines -/

def TargetState.inQueue : TargetState → Bool
  | .reqSched | .cleanup | .terminated => false
  | _ => true

def TargetState.scheduled : TargetState → Bool
  | .permCheck | .createNewDatafile | .creating | .getDatafileAttribs
  | .setNewDatafileAttribs | .sendPositiveAck => true
  | _ => false

def TargetState.beforeCreation : TargetState → Bool
  | .reqSched | .waiting | .permCheck | .createNewDatafile => true
  | _ => false

/-- States in which `new_handle` is to be the handle that was created. -/
def TargetState.afterCreation : TargetState → Bool
  | .getDatafileAttribs | .setNewDatafileAttribs | .sendPositiveAck => true
  | _ => false

variable {sched sched' : Scheduler} {newHandle : Handle} {t t' : Target} {error : Int} {k : Nat}
  {targets : List Target} {c : Call} {ids : List ReqSchedId}

/-- What a target has of the scheduler in each state. -/
structure TargetOk (sched : Scheduler) (newHandle : Handle) (t : Target) : Prop where
  new : t.state = .reqSched → t.scheduledId = none
  place : ∀ id, t.scheduledId = some id → t.state.inQueue = true →
    Holds sched id (t.state ≠ .waiting)
  hasId : t.state.scheduled = true → ∃ id, t.scheduledId = some id
  before : t.state.beforeCreation = true → t.created = none
  creating : t.state = .creating → ∀ h, t.created = some h → newHandle = h
  after : t.state.afterCreation = true → t.created = some newHandle
  negative : t.state = .sendNegativeAck → t.errorCode ≠ 0
  ack : ∀ h, t.ack = some (0, h) → t.created = some h

namespace TargetState

variable {st : TargetState}

theorem next_ne_reqSched : st.next error ≠ .reqSched := by
  cases st <;> simp only [next] <;> (try split) <;> simp

theorem next_ne_waiting : st.next error ≠ .waiting := by
  cases st <;> simp only [next] <;> (try split) <;> simp

theorem inQueue_of_next (hpost : st ≠ .reqSched) (h : (st.next error).inQueue = true) :
    st.inQueue = true := by
  cases st with
  | reqSched => exact absurd rfl hpost
  | cleanup | terminated => cases h
  | _ => rfl

theorem scheduled_of_next (hpost : st ≠ .reqSched) (hwait : st ≠ .waiting)
    (h : (st.next error).scheduled = true) : st.scheduled = true := by
  cases st with
  | reqSched => exact absurd rfl hpost
  | waiting => exact absurd rfl hwait
  | permCheck | createNewDatafile | creating | getDatafileAttribs | setNewDatafileAttribs
  | sendPositiveAck => rfl
  | startFlow => simp only [next] at h; split at h <;> cases h
  | _ => cases h

theorem beforeCreation_of_next (h : (st.next error).beforeCreation = true) :
    st.beforeCreation = true := by
  cases st with
  | reqSched | waiting | permCheck | createNewDatafile => rfl
  | creating | getDatafileAttribs | setNewDatafileAttribs | sendPositiveAck | startFlow =>
    simp only [next] at h
    split at h <;> cases h
  | _ => cases h

theorem of_next_creating (h : st.next error = .creating) : st = .createNewDatafile := by
  cases st <;> simp only [next] at h <;> (try split at h) <;> first | rfl | cases h

theorem afterCreation_of_next (h : (st.next error).afterCreation = true) :
    st.afterCreation = true ∨ (st = .creating ∧ error = 0) := by
  cases st with
  | creating =>
    simp only [next] at h
    split at h
    · rename_i herr
      exact .inr ⟨rfl, herr⟩
    · cases h
  | getDatafileAttribs | setNewDatafileAttribs | sendPositiveAck => exact .inl rfl
  | reqSched | permCheck | createNewDatafile | startFlow =>
    simp only [next] at h
    split at h <;> cases h
  | _ => cases h

theorem scheduled_of_afterCreation (h : st.afterCreation = true) : st.scheduled = true := by
  cases st with
  | getDatafileAttribs | setNewDatafileAttribs | sendPositiveAck => rfl
  | _ => cases h

theorem inQueue_of_scheduled (h : st.scheduled = true) : st.inQueue = true := by
  cases st with
  | reqSched | cleanup | terminated => cases h
  | _ => rfl

theorem error_of_next_negative (h : st.next error = .sendNegativeAck) : error ≠ 0 := by
  rintro rfl
  cases st <;> cases h

end TargetState

theorem TargetOk.goto (ht : TargetOk sched newHandle t) (hpost : t.state ≠ .reqSched)
    (hwait : t.state ≠ .waiting) (hcreate : t.state = .creating → error = 0 → t.created ≠ none) :
    TargetOk sched newHandle (t.goto error) where
  new h := absurd h next_ne_reqSched
  place id hid hq := by
    have hhold := ht.place id hid (inQueue_of_next hpost hq)
    have hst : (t.goto error).state ≠ .waiting := next_ne_waiting
    simpa [hwait, hst] using hhold
  hasId h := ht.hasId (scheduled_of_next hpost hwait h)
  before h := ht.before (beforeCreation_of_next h)
  creating h h' hc := by
    have hst : t.state = .createNewDatafile := of_next_creating h
    have hnone : t.created = none := ht.before (by rw [hst]; rfl)
    rw [show (t.goto error).created = t.created from rfl, hnone] at hc
    cases hc
  after h := by
    obtain h | ⟨hst, herr⟩ := afterCreation_of_next h
    · exact ht.after h
    · obtain ⟨h', hh'⟩ := Option.ne_none_iff_exists'.mp (hcreate hst herr)
      rw [ht.creating hst h' hh']
      exact hh'
  negative h := error_of_next_negative h
  ack := ht.ack

def Target.sparedBy (t : Target) (c : Call) : Prop :=
  ∀ i, c = .unpost i ∨ c = .release i → t.state.inQueue = true → t.scheduledId ≠ some i

theorem TargetOk.call (hg : Governed sched) (ht : TargetOk sched newHandle t)
    (hspare : t.sparedBy c) (hc : sched.call c = some (ids, sched')) :
    TargetOk sched' newHandle t where
  new := ht.new
  place id hid hq := by
    refine (ht.place id hid hq).call hg.wf (fun i hi heq => ?_) hc
    exact hspare i hi hq (by rw [hid, heq])
  hasId := ht.hasId
  before := ht.before
  creating := ht.creating
  after := ht.after
  negative := ht.negative
  ack := ht.ack

theorem TargetOk.early (hst : t.state = .waiting ∨ t.state = .permCheck)
    (hid : t.scheduledId = some id) (hplace : Holds sched id (t.state ≠ .waiting))
    (hnone : t.created = none) (hack : ∀ h, t.ack = some (0, h) → t.created = some h) :
    TargetOk sched newHandle t where
  new h := by simp [h] at hst
  place id' hid' _ := by
    rw [hid] at hid'
    cases hid'
    exact hplace
  hasId _ := ⟨id, hid⟩
  before _ := hnone
  creating h := by simp [h] at hst
  after h := by obtain hst | hst := hst <;> rw [hst] at h <;> cases h
  negative h := by simp [h] at hst
  ack := hack

theorem TargetOk.resume (hg : Governed sched) (ht : TargetOk sched newHandle t)
    (hspare : t.sparedBy c) (hc : sched.call c = some (ids, sched')) :
    TargetOk sched' newHandle (t.resume ids) := by
  unfold Target.resume
  split
  · rename_i hcond
    obtain ⟨hst, hany⟩ := hcond
    obtain ⟨id, hid, hin⟩ := (Option.any_eq_true ..).mp hany
    have hnone : t.created = none := ht.before (by rw [hst]; rfl)
    have hstate : (t.goto 0).state = .permCheck := by simp [Target.goto, hst, TargetState.next]
    refine TargetOk.early (.inr hstate) hid ?_ hnone ht.ack
    have hhold : Holds sched id false := by
      simpa [hst] using ht.place id hid (by rw [hst]; rfl)
    rw [hstate]
    refine hhold.reported hg (fun i hi heq => ?_) hc (of_decide_eq_true hin)
    exact hspare i hi (by rw [hst]; rfl) (by rw [hid, heq])
  · exact ht.call hg hspare hc

/-! ## The server -/

structure TargetsOk (sched : Scheduler) (newHandle : Handle) (targets : List Target) : Prop where
  governed : Governed sched
  behind : Behind sched
  ok : ∀ t ∈ targets, TargetOk sched newHandle t
  distinct : ∀ {j j' : Nat} {t t' : Target} {id}, targets[j]? = some t → targets[j']? = some t' →
    t.state.inQueue = true → t'.state.inQueue = true → t.scheduledId = some id →
    t'.scheduledId = some id → j = j'

theorem behind_call (hs : TargetsOk sched newHandle targets) (hc : sched.call c = some (ids, sched')) :
    Governed sched' ∧ Behind sched' :=
  ⟨keeps_governed.call hs.governed (fun _ _ _ _ _ => trivial) (fun _ _ _ _ => trivial)
      (fun _ _ => trivial) hc,
    (keeps_behind.call ⟨hs.governed.wf, hs.behind⟩ (fun _ _ _ _ _ => trivial)
      (fun _ _ _ _ => trivial) (fun _ _ => trivial) hc).2⟩

/-- The scheduler has let the machine go on, and has not got the request back yet. -/
def Target.admitted (t : Target) : Bool :=
  t.scheduledId.isSome && t.state.inQueue && t.state ≠ .waiting

theorem TargetOk.admitted (ht : TargetOk sched newHandle t) (hst : t.state.scheduled = true) :
    t.admitted = true := by
  obtain ⟨id, hid⟩ := ht.hasId hst
  have hne : t.state ≠ .waiting := by rintro h; rw [h] at hst; cases hst
  simp [Target.admitted, hid, inQueue_of_scheduled hst, hne]

/-- **One machine at a time is scheduled.** -/
theorem TargetsOk.unique {j j' : Nat} (hs : TargetsOk sched newHandle targets)
    (hj : targets[j]? = some t) (hj' : targets[j']? = some t') (ht : t.admitted = true)
    (ht' : t'.admitted = true) : j = j' := by
  have hplace : ∀ {i : Nat} {t : Target}, targets[i]? = some t → t.admitted = true →
      t.state.inQueue = true ∧ ∃ id, t.scheduledId = some id ∧ Holds sched id true := by
    intro i t hi ht
    simp only [Target.admitted, Bool.and_eq_true, Option.isSome_iff_exists, decide_eq_true_eq] at ht
    obtain ⟨⟨⟨id, hid⟩, hq⟩, hne⟩ := ht
    exact ⟨hq, id, hid, by simpa [hne] using (hs.ok t (mem_of_getElem? hi)).place id hid hq⟩
  obtain ⟨hq, id, hid, hhold⟩ := hplace hj ht
  obtain ⟨hq', id', hid', hhold'⟩ := hplace hj' ht'
  have heq := holds_unique hs.behind hhold hhold'
  exact hs.distinct hj hj' hq hq' hid (heq ▸ hid')

theorem getElem?_set_cases {j : Nat} {u : Target} (h : (targets.set k t')[j]? = some u) :
    (j = k ∧ u = t') ∨ (j ≠ k ∧ targets[j]? = some u) := by
  rw [getElem?_set] at h
  split at h
  · rename_i hkj
    split at h
    · cases h
      exact .inl ⟨hkj.symm, rfl⟩
    · cases h
  · rename_i hkj
    exact .inr ⟨fun heq => hkj heq.symm, h⟩

section
variable (hs : TargetsOk sched newHandle targets)
include hs

variable {handle : Handle}

theorem TargetsOk.set (hk : targets[k]? = some t) (ht' : TargetOk sched handle t')
    (hother : ∀ j u, j ≠ k → targets[j]? = some u → TargetOk sched handle u)
    (hid : t'.scheduledId = t.scheduledId) (hq : t'.state.inQueue = true → t.state.inQueue = true) :
    TargetsOk sched handle (targets.set k t') where
  governed := hs.governed
  behind := hs.behind
  ok u hu := by
    obtain ⟨j, hj⟩ := getElem?_of_mem hu
    obtain ⟨-, rfl⟩ | ⟨hne, hj⟩ := getElem?_set_cases hj
    · exact ht'
    · exact hother j u hne hj
  distinct {j j' u u' id} hj hj' hq1 hq2 hid1 hid2 := by
    have hold : ∀ {i : Nat} {u : Target}, (targets.set k t')[i]? = some u → u.state.inQueue = true →
        u.scheduledId = some id →
        ∃ u0, targets[i]? = some u0 ∧ u0.state.inQueue = true ∧ u0.scheduledId = some id := by
      intro i u hi hqu hidu
      obtain ⟨rfl, rfl⟩ | ⟨-, hi⟩ := getElem?_set_cases hi
      · exact ⟨t, hk, hq hqu, hid ▸ hidu⟩
      · exact ⟨u, hi, hqu, hidu⟩
    obtain ⟨u1, hj1, hq1, hid1⟩ := hold hj hq1 hid1
    obtain ⟨u2, hj2, hq2, hid2⟩ := hold hj' hq2 hid2
    exact hs.distinct hj1 hj2 hq1 hq2 hid1 hid2

theorem TargetsOk.call_set (hc : sched.call c = some (ids, sched'))
    (ht' : TargetOk sched' newHandle t') (hspare : ∀ j u, j ≠ k → targets[j]? = some u → u.sparedBy c)
    (hnew : ∀ id, t'.state.inQueue = true → t'.scheduledId = some id → ∀ j u, j ≠ k →
      targets[j]? = some u → u.state.inQueue = true → u.scheduledId ≠ some id) :
    TargetsOk sched' newHandle (targets.set k t') := by
  obtain ⟨hgov, hbehind⟩ := behind_call hs hc
  refine ⟨hgov, hbehind, fun u hu => ?_, ?_⟩
  · obtain ⟨j, hj⟩ := getElem?_of_mem hu
    obtain ⟨-, rfl⟩ | ⟨hne, hj⟩ := getElem?_set_cases hj
    · exact ht'
    · exact (hs.ok u (mem_of_getElem? hj)).call hs.governed (hspare j u hne hj) hc
  · intro j j' u u' id hj hj' hq hq' hid hid'
    obtain ⟨rfl, rfl⟩ | ⟨hne, hj0⟩ := getElem?_set_cases hj
    · obtain ⟨rfl, -⟩ | ⟨hne', hj0'⟩ := getElem?_set_cases hj'
      · rfl
      · exact absurd hid' (hnew id hq hid j' u' hne' hj0' hq')
    · obtain ⟨rfl, rfl⟩ | ⟨-, hj0'⟩ := getElem?_set_cases hj'
      · exact absurd hid (hnew id hq' hid' j u hne hj0 hq)
      · exact hs.distinct hj0 hj0' hq hq' hid hid'

theorem TargetsOk.post (hk : targets[k]? = some t) (hst : t.state = .reqSched) :
    let r := reqSchedPost sched .migrationPoster 0 .modify .schedule
    TargetsOk r.2 newHandle (targets.set k (match r.1 with
      | .eagain => t.goto pvfsEagain
      | .proceed id => { t.goto 0 with scheduledId := some id }
      | .wait id => { t with state := .waiting, scheduledId := some id })) := by
  intro r
  have ht := hs.ok t (mem_of_getElem? hk)
  have hnone : t.created = none := ht.before (by rw [hst]; rfl)
  have hid : t.scheduledId = none := ht.new hst
  have hc : sched.call (.post .migrationPoster 0 .modify .schedule) = some (r.1.reported, r.2) := rfl
  have hspare : ∀ j u, j ≠ k → targets[j]? = some u →
      u.sparedBy (.post .migrationPoster 0 .modify .schedule) := by
    intro j u _ _ i hi
    obtain hi | hi := hi <;> cases hi
  -- whoever else is in the queue has been there before
  have hfresh : ∀ (j : Nat) (u : Target), targets[j]? = some u → u.state.inQueue = true →
      u.scheduledId ≠ some sched.nextId := by
    intro j u hj hq hu
    have hlt := (((hs.ok u (mem_of_getElem? hj)).place _ hu hq).lt_nextId hs.governed.wf).2
    exact Nat.lt_irrefl _ hlt
  obtain hr | ⟨hr, hhold⟩ | ⟨hr, hhold⟩ := holds_post sched
  · have hstate : (t.goto pvfsEagain).state = .sendNegativeAck := by
      simp [goto, hst, TargetState.next, pvfsEagain]
    have hno : ∀ id, (t.goto pvfsEagain).scheduledId ≠ some id := by simp [goto, hid]
    rw [hr]
    refine hs.call_set hc ⟨?_, fun id h => absurd h (hno id), ?_, ?_, ?_, ?_, fun _ => ?_, ht.ack⟩
      hspare fun id _ h => absurd h (hno id)
    · simp [hstate]
    · simp [hstate, scheduled]
    · simp [hstate, beforeCreation]
    · simp [hstate]
    · simp [hstate, afterCreation]
    · change pvfsEagain ≠ 0
      decide
  · have hstate : (t.goto 0).state = .permCheck := by simp [goto, hst, TargetState.next]
    rw [hr]
    refine hs.call_set hc (TargetOk.early (.inr hstate) rfl ?_ hnone ht.ack) hspare
      fun id _ h j u _ hj hq => ?_
    · simpa [hstate] using hhold
    · cases h
      exact hfresh j u hj hq
  · rw [hr]
    refine hs.call_set hc (TargetOk.early (.inl rfl) rfl ?_ hnone ht.ack) hspare
      fun id _ h j u _ hj hq => ?_
    · simpa using hhold
    · cases h
      exact hfresh j u hj hq

theorem TargetsOk.store (hk : targets[k]? = some t) (hst : t.state = .creating)
    (hnone : t.created = none) :
    TargetsOk sched handle (targets.set k { t with created := some handle }) := by
  have ht := hs.ok t (mem_of_getElem? hk)
  refine hs.set hk ?_ ?_ rfl fun h => h
  · refine ⟨ht.new, ht.place, ht.hasId, fun h => ?_, fun _ h hh => Option.some.inj hh, fun _ => rfl,
      ht.negative, fun h hh => ?_⟩
    · rw [show ({ t with created := some handle } : Target).state = .creating from hst] at h
      cases h
    · have hack := ht.ack h hh
      rw [hnone] at hack
      cases hack
  · -- nobody else has a handle in the variable
    intro j u hne hj
    have hu := hs.ok u (mem_of_getElem? hj)
    have hnot : ¬ u.state.scheduled = true := fun hsched =>
      hne (hs.unique hj hk (hu.admitted hsched) (ht.admitted (by rw [hst]; rfl)))
    refine { hu with creating := fun h => ?_, after := fun h => ?_ }
    · rw [h] at hnot
      exact absurd rfl hnot
    · exact absurd (scheduled_of_afterCreation h) hnot

theorem TargetsOk.release (hk : targets[k]? = some t) (hst : t.state = .release)
    (hid : t.scheduledId = some id) (hc : reqSchedRelease sched id = some sched') :
    TargetsOk sched' newHandle (targets.set k (t.goto error)) := by
  have ht := hs.ok t (mem_of_getElem? hk)
  have hcall : sched.call (.release id) = some ([], sched') := by simp [Scheduler.call, hc]
  have hstate : (t.goto error).state = .cleanup := by simp [goto, hst, TargetState.next]
  have hq : t.state.inQueue = true := by rw [hst]; rfl
  have hgoto : TargetOk sched newHandle (t.goto error) :=
    ht.goto (by rw [hst]; simp) (by rw [hst]; simp) (fun h => by rw [hst] at h; cases h)
  refine hs.call_set hcall { hgoto with place := fun id' _ h => ?_ } ?_ fun id' h => ?_
  · rw [hstate] at h
    cases h
  · intro j u hne hj i hi hqu hu
    obtain hi | hi := hi
    · cases hi
    · cases hi
      exact hne (hs.distinct hj hk hqu hq hu hid)
  · rw [hstate] at h
    cases h

end

theorem TargetOk.sendAck (ht : TargetOk sched newHandle t)
    (hst : t.state = .sendPositiveAck ∨ t.state = .sendNegativeAck) :
    TargetOk sched newHandle { t.goto error with ack := some (t.errorCode, newHandle) } := by
  have hgoto : TargetOk sched newHandle (t.goto error) := by
    refine ht.goto ?_ ?_ fun h => ?_
    · obtain h | h := hst <;> simp [h]
    · obtain h | h := hst <;> simp [h]
    · obtain hst | hst := hst <;> simp [hst] at h
  refine { hgoto with ack := fun h hack => ?_ }
  simp only [Option.some.injEq, Prod.mk.injEq] at hack
  obtain ⟨herr, rfl⟩ := hack
  obtain hst | hst := hst
  · exact ht.after (by rw [hst]; rfl)
  · exact absurd herr (ht.negative hst)

variable {s s' : MigrationServer}

theorem TargetsOk.runTarget (hs : TargetsOk s.sched s.newHandle s.targets)
    (hk : s.targets[k]? = some t) (h : runTarget s k t error = some s') :
    TargetsOk s'.sched s'.newHandle s'.targets := by
  have ht := hs.ok t (mem_of_getElem? hk)
  -- the machine goes on, whatever else it has written down for itself
  have hset : ∀ {t' : Target}, t.state ≠ .reqSched → TargetOk s.sched s.newHandle t' →
      t'.scheduledId = t.scheduledId → t'.state = t.state.next error →
      TargetsOk s.sched s.newHandle (s.targets.set k t') := by
    intro t' hpost ht' hid hst'
    refine hs.set hk ht' (fun _ u _ hj => hs.ok u (mem_of_getElem? hj)) hid ?_
    rw [hst']
    exact inQueue_of_next hpost
  cases TargetActs.of_runTarget h with
  | post hst => exact hs.post hk hst
  | create hst =>
    have hg : TargetOk s.sched s.newHandle (t.goto error) :=
      ht.goto (by simp [hst]) (by simp [hst]) (by simp [hst])
    exact hset (by simp [hst]) { hg with } rfl rfl
  | ack hst => exact hset (by obtain hst | hst := hst <;> simp [hst]) (ht.sendAck hst) rfl rfl
  | release hst hrel =>
    obtain ⟨-, rfl⟩ | ⟨id, hid, hc⟩ := hrel
    · exact hset (by simp [hst]) (ht.goto (by simp [hst]) (by simp [hst]) (by simp [hst])) rfl rfl
    · exact hs.release hk hst hid hc
  | goto hst hcreate =>
    have hpost : t.state ≠ .reqSched := ne_of_plain hst rfl
    exact hset hpost (ht.goto hpost (ne_of_plain hst rfl) hcreate) rfl rfl

theorem TargetsOk.runPerf {input : PerfInput} (hs : TargetsOk s.sched s.newHandle s.targets)
    (h : runPerf s input = some s') : TargetsOk s'.sched s'.newHandle s'.targets := by
  obtain ⟨p, -, rfl, -⟩ | ⟨p, -, -, rfl, -⟩ | ⟨p, item, -, -, rfl, -⟩ |
    ⟨p, sched', hsched, -, rfl, -⟩ := runPerf_cases h
  · exact hs
  · exact hs
  · exact hs
  · obtain rfl | ⟨msecs, now, rfl⟩ := hsched
    · exact hs
    · have hc : s.sched.call (.postTimer msecs now) =
          some ((reqSchedPostTimer s.sched msecs now).1.reported,
            (reqSchedPostTimer s.sched msecs now).2) := rfl
      obtain ⟨hgov, hbehind⟩ := behind_call hs hc
      refine ⟨hgov, hbehind, fun t ht => (hs.ok t ht).call hs.governed ?_ hc, hs.distinct⟩
      intro i hi
      obtain hi | hi := hi <;> cases hi

theorem Target.resume_place (ids : List ReqSchedId) (t : Target) :
    (t.resume ids).scheduledId = t.scheduledId ∧
      ((t.resume ids).state.inQueue = true → t.state.inQueue = true) := by
  unfold resume
  split
  · rename_i hcond
    exact ⟨rfl, fun _ => by rw [hcond.1]; rfl⟩
  · exact ⟨rfl, fun h => h⟩

theorem TargetsOk.callScheduler (hs : TargetsOk s.sched s.newHandle s.targets)
    (h : callScheduler s c = some s') : TargetsOk s'.sched s'.newHandle s'.targets := by
  unfold Server.callScheduler at h
  split at h
  · rename_i hforeign
    obtain ⟨⟨ids, sched'⟩, hc, rfl⟩ := Option.map_eq_some_iff.mp h
    have hspare : ∀ t ∈ s.targets, t.sparedBy c := by
      intro t ht i hi _ hid
      have hown : s.foreign c = true → t.scheduledId ≠ some i := by
        obtain rfl | rfl := hi
        all_goals
          intro hf
          simp only [foreign, Bool.and_eq_true, all_eq_true,
            decide_eq_true_eq] at hf
          exact hf.1 t ht
      exact hown hforeign hid
    obtain ⟨hgov, hbehind⟩ := behind_call hs hc
    refine ⟨hgov, hbehind, fun t ht => ?_, ?_⟩
    · obtain ⟨t0, ht0, rfl⟩ := mem_map.mp ht
      exact (hs.ok t0 ht0).resume hs.governed (hspare t0 ht0) hc
    · intro j j' t t' id hj hj' hq hq' hid hid'
      obtain ⟨t0, hj0, rfl⟩ := by simpa [getElem?_map] using hj
      obtain ⟨t0', hj0', rfl⟩ := by simpa [getElem?_map] using hj'
      obtain ⟨hsame, hback⟩ := t0.resume_place ids
      obtain ⟨hsame', hback'⟩ := t0'.resume_place ids
      exact hs.distinct hj0 hj0' (hback hq) (hback' hq') (hsame ▸ hid) (hsame' ▸ hid')
  · cases h

theorem targetOk_arrived : TargetOk sched newHandle arrived where
  new _ := rfl
  place _ h := by cases h
  hasId h := by cases h
  before _ := rfl
  creating h := by cases h
  after h := by cases h
  negative h := by cases h
  ack _ h := by cases h

/-- Every step keeps all targets in order. -/
theorem TargetsOk.step {e : Event} (hs : TargetsOk s.sched s.newHandle s.targets)
    (h : s.step e = some s') : TargetsOk s'.sched s'.newHandle s'.targets := by
  cases e with
  | arrive =>
    cases h
    refine ⟨hs.governed, hs.behind, fun t ht => ?_, ?_⟩
    · obtain ht | ht := mem_append.mp ht
      · exact hs.ok t ht
      · rw [mem_singleton.mp ht]
        exact targetOk_arrived
    · -- the new machine is in no queue yet
      have hold : ∀ {j : Nat} {t : Target}, (s.targets ++ [arrived])[j]? = some t →
          t.state.inQueue = true → s.targets[j]? = some t := by
        intro j t hj hq
        rw [getElem?_append] at hj
        split at hj
        · exact hj
        · obtain rfl := mem_singleton.mp (mem_of_getElem? hj)
          cases hq
      intro j j' t t' id hj hj' hq hq' hid hid'
      exact hs.distinct (hold hj hq) (hold hj' hq') hq hq' hid hid'
  | target k error =>
    obtain ⟨t, hk, h⟩ := Option.bind_eq_some_iff.mp h
    exact hs.runTarget hk h
  | stored k handle =>
    obtain ⟨t, hk, h⟩ := Option.bind_eq_some_iff.mp h
    unfold storeHandle at h
    split at h
    · rename_i hcond
      cases h
      exact hs.store hk hcond.1 hcond.2
    · cases h
  | perf input => exact hs.runPerf h
  | sched call => exact hs.callScheduler h

theorem targetsOk_start : TargetsOk reqSchedInitialize newHandle [] where
  governed := governed_start
  behind h e he := by cases he
  ok t ht := by cases ht
  distinct h := by cases h

/-- Every requester that is told of success is told the handle that was created for it. -/
def HandsOutOwn (s : MigrationServer) : Prop :=
  ∀ t ∈ s.targets, ∀ handle, t.ack = some (0, handle) → t.created = some handle

/-- **The target hands out the right handle**, however the machines of the server interleave. -/
theorem target_hands_out_own (events : List Event) :
    Throughout step HandsOutOwn start events := by
  have hinv : Throughout step
      (fun s => TargetsOk s.sched s.newHandle s.targets) start events := by
    refine Throughout.of_step ?_ ?_ events
    · exact fun s e s' hs h => hs.step h
    · exact targetsOk_start
  exact hinv.mono fun s hs t ht => (hs.ok t ht).ack

/-- **Migrations are received one at a time**, however the machines of the server interleave. -/
theorem target_alone (events : List Event) : Throughout step (fun s => ∀ (j j' : Nat)
    (t t' : Target), s.targets[j]? = some t → s.targets[j']? = some t' →
    t.admitted = true → t'.admitted = true → j = j') start events := by
  have hinv := Throughout.of_step (I := fun s => TargetsOk s.sched s.newHandle s.targets)
    (fun _ e _ hs h => hs.step (e := e) h) (s := start) targetsOk_start events
  exact hinv.mono fun s hs j j' t t' hj hj' => hs.unique hj hj'

end Pvfs.Server
