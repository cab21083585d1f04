import Pvfs.Lib.Steps
import Pvfs.Server.Migration

/-! # What `mig_state` says

`mig_state` is meant to be 1 while the server is the source or the target of a migration,
and `mig_datafile_handle` to be the handle that the source moves away. Both are set by one
machine without a look at the others: the end of any machine clears `mig_state`, also for
the machines that are still at work, and a target that answers its requester overwrites the
handle of the source. -/

namespace Pvfs.Server

open Lib TargetState Target MigrationServer

variable {s s' : MigrationServer} {k : Nat} {t t' : Target} {error : Int}

def TargetState.ended : TargetState → Bool
  | .cleanup | .terminated | .stopped => true
  | _ => false

/-- The target has begun to receive, and has not ended. -/
def Target.inFlight (t : Target) : Bool := t.begun && !t.state.ended

/-- The server is the target of the migration of request `k`. -/
def InFlight (s : MigrationServer) (k : Nat) : Prop :=
  ∃ t, s.targets[k]? = some t ∧ t.inFlight = true

/-- The flag is set just while a migration is under way. -/
structure MigStateSound (s : MigrationServer) : Prop where
  state : s.migState = true ↔ s.perf.state.migrating = true ∨ ∃ k, InFlight s k
  handle : s.perf.state.migrating = true → ∀ h, s.perf.handle = some h → s.migDatafileHandle = h

/-- What a step must find so that it leaves both variables right. -/
def StepsAlone (s : MigrationServer) : Event → Prop
  | .target k _ => ∀ t, s.targets[k]? = some t →
    -- a machine that is released clears `mig_state` for all of them
    (t.state = .release → s.perf.state.migrating = false ∧ ∀ j, j ≠ k → ¬ InFlight s j) ∧
    -- one that goes through its last exchange does not clear it at all
    (t.state = .decodeRecvMsg → s.perf.state.migrating = true ∨ ∃ j, j ≠ k ∧ InFlight s j) ∧
    -- an answer overwrites the handle
    (t.state = .sendPositiveAck ∨ t.state = .sendNegativeAck → s.perf.state.migrating = true →
      ∀ h, s.perf.handle = some h → s.newHandle = h)
  | .perf _ => s.perf.state.closing = true → ∀ j, ¬ InFlight s j
  | _ => True

/-! ## Which migrations are in flight -/

/-- States of a machine that has been through `create_new_datafile`. -/
def TargetState.midway : TargetState → Bool
  | .creating | .getDatafileAttribs | .setNewDatafileAttribs | .sendPositiveAck | .startFlow
  | .sendCompletionAck | .testRecvOneMsg | .decodeRecvMsg => true
  | _ => false

def MidwayBegun (s : MigrationServer) : Prop :=
  ∀ t ∈ s.targets, t.state.midway = true → t.begun = true

section
variable (hk : s.targets[k]? = some t) (hts : s'.targets = s.targets.set k t')
include hk hts

theorem inFlight_set (j : Nat) :
    InFlight s' j ↔ if j = k then t'.inFlight = true else InFlight s j := by
  simp only [InFlight, hts]
  exact exists_set_iff hk j

theorem inFlight_same (hsame : t'.inFlight = t.inFlight) (j : Nat) :
    InFlight s' j ↔ InFlight s j := by
  rw [inFlight_set hk hts]
  split
  · rename_i hjk
    subst hjk
    rw [hsame]
    exact ⟨fun h => ⟨t, hk, h⟩, fun ⟨u, hu, h⟩ => by rw [hk] at hu; cases hu; exact h⟩
  · rfl

end

theorem MigStateSound.congr (hs : MigStateSound s) (hstate : s'.migState = s.migState)
    (hmigrating : s'.perf.state.migrating = s.perf.state.migrating)
    (hhandle : s'.perf.handle = s.perf.handle) (hdf : s'.migDatafileHandle = s.migDatafileHandle)
    (hflight : ∀ j, InFlight s' j ↔ InFlight s j) : MigStateSound s' where
  state := by
    rw [hstate, hmigrating, hs.state]
    exact or_congr Iff.rfl (exists_congr fun j => (hflight j).symm)
  handle := by
    rw [hmigrating, hhandle, hdf]
    exact hs.handle

variable {st : TargetState}

theorem TargetState.ended_next (hrel : st ≠ .release)
    (hdec : st ≠ .decodeRecvMsg) : (st.next error).ended = st.ended := by
  cases st with
  | release => exact absurd rfl hrel
  | decodeRecvMsg => exact absurd rfl hdec
  | _ => first | rfl | (simp only [next]; split <;> rfl)

theorem Target.inFlight_goto (hrel : t.state ≠ .release) (hdec : t.state ≠ .decodeRecvMsg) :
    (t.goto error).inFlight = t.inFlight := by
  simp only [inFlight, goto, ended_next hrel hdec]

/-! ## The machines of the targets -/

section
variable (hk : s.targets[k]? = some t)
include hk

theorem stepsAlone_release (hst : t.state = .release) : StepsAlone s (.target k error) ↔
    s.perf.state.migrating = false ∧ ∀ j, j ≠ k → ¬ InFlight s j := by
  simp [StepsAlone, hk, hst]

theorem stepsAlone_decode (hst : t.state = .decodeRecvMsg) : StepsAlone s (.target k error) ↔
    s.perf.state.migrating = true ∨ ∃ j, j ≠ k ∧ InFlight s j := by
  simp [StepsAlone, hk, hst]

theorem stepsAlone_ack (hst : t.state = .sendPositiveAck ∨ t.state = .sendNegativeAck) :
    StepsAlone s (.target k error) ↔ (s.perf.state.migrating = true →
      ∀ h, s.perf.handle = some h → s.newHandle = h) := by
  obtain hst | hst := hst <;> simp [StepsAlone, hk, hst]

theorem stepsAlone_of (hrel : t.state ≠ .release) (hdec : t.state ≠ .decodeRecvMsg)
    (hpos : t.state ≠ .sendPositiveAck) (hneg : t.state ≠ .sendNegativeAck) :
    StepsAlone s (.target k error) := by
  simp [StepsAlone, hk, hrel, hdec, hpos, hneg]

theorem sound_sendAck (hs : MigStateSound s)
    (hst : t.state = .sendPositiveAck ∨ t.state = .sendNegativeAck)
    (hsame : t'.inFlight = t.inFlight) :
    MigStateSound { s with migDatafileHandle := s.newHandle, targets := s.targets.set k t' } ↔
      StepsAlone s (.target k error) := by
  rw [stepsAlone_ack hk hst]
  refine ⟨fun hs' => hs'.handle, fun halone => ⟨hs.state.trans (or_congr Iff.rfl ?_), halone⟩⟩
  exact exists_congr fun j => (inFlight_same hk rfl hsame j).symm

theorem sound_release {sched' : Scheduler} (hst : t.state = .release) (hend : t'.inFlight = false) :
    MigStateSound { s with sched := sched', migState := false, targets := s.targets.set k t' } ↔
      StepsAlone s (.target k error) := by
  have hflight : ∀ j, InFlight { s with
      sched := sched', migState := false, targets := s.targets.set k t' } j ↔
        if j = k then t'.inFlight = true else InFlight s j :=
    inFlight_set hk rfl
  rw [stepsAlone_release hk hst]
  constructor
  · intro hs'
    have hnone := mt hs'.state.mpr (by simp)
    rw [not_or, not_exists] at hnone
    refine ⟨by simpa using hnone.1, fun j hj hin => ?_⟩
    exact hnone.2 j ((hflight j).mpr (by rw [if_neg hj]; exact hin))
  · rintro ⟨hsrc, hother⟩
    refine ⟨iff_of_false (by simp) ?_, fun h => ?_⟩
    · rintro (h | ⟨j, hj⟩)
      · exact absurd (hsrc.symm.trans h) (by simp)
      · rw [hflight j] at hj
        split at hj
        · exact absurd (hend.symm.trans hj) (by simp)
        · rename_i hjk
          exact hother j hjk hj
    · exact absurd (hsrc.symm.trans h) (by simp)

theorem sound_decode (hs : MigStateSound s) (hst : t.state = .decodeRecvMsg)
    (hbegun : t.begun = true) (hend : t'.inFlight = false) :
    MigStateSound { s with targets := s.targets.set k t' } ↔ StepsAlone s (.target k error) := by
  have hone : s.migState = true :=
    hs.state.mpr (.inr ⟨k, t, hk, by rw [inFlight, hbegun, hst]; rfl⟩)
  have hrest : (∃ j, InFlight { s with targets := s.targets.set k t' } j) ↔
      ∃ j, j ≠ k ∧ InFlight s j := by
    refine exists_congr fun j => (inFlight_set hk rfl j).trans ?_
    by_cases hjk : j = k
    · simp [hjk, hend]
    · simp [hjk]
  rw [stepsAlone_decode hk hst]
  constructor
  · exact fun hs' => (hs'.state.mp hone).imp_right hrest.mp
  · exact fun halone => ⟨iff_of_true hone (halone.imp_right hrest.mpr), hs.handle⟩

end

theorem sound_runTarget (hbegun : MidwayBegun s) (hs : MigStateSound s)
    (hk : s.targets[k]? = some t) (h : runTarget s k t error = some s') :
    MigStateSound s' ↔ StepsAlone s (.target k error) := by
  cases TargetActs.of_runTarget h with
  | post hst =>
    refine iff_of_true (hs.congr rfl rfl rfl rfl (inFlight_same hk rfl ?_))
      (stepsAlone_of hk (by simp [hst]) (by simp [hst]) (by simp [hst]) (by simp [hst]))
    have hgoto : ∀ error', (t.goto error').inFlight = t.inFlight :=
      fun _ => inFlight_goto (by simp [hst]) (by simp [hst])
    split
    · exact hgoto _
    · exact hgoto 0
    · simp only [inFlight, hst, ended]
  | create hst =>
    refine iff_of_true ⟨iff_of_true rfl (.inr ⟨k, ?_⟩), hs.handle⟩
      (stepsAlone_of hk (by simp [hst]) (by simp [hst]) (by simp [hst]) (by simp [hst]))
    refine (inFlight_set hk rfl k).mpr ?_
    rw [if_pos rfl, inFlight, goto, ended_next (by simp [hst]) (by simp [hst]),
      hst]
    rfl
  | ack hst =>
    have hgoto : (t.goto error).inFlight = t.inFlight := by
      obtain hst | hst := hst <;> exact inFlight_goto (by simp [hst]) (by simp [hst])
    exact sound_sendAck hk hs hst hgoto
  | release hst hrel =>
    refine sound_release hk hst ?_
    simp [inFlight, goto, hst, next, ended]
  | goto hst hcreate =>
    by_cases hdec : t.state = .decodeRecvMsg
    · refine sound_decode hk hs hdec (hbegun t (List.mem_of_getElem? hk) (by rw [hdec]; rfl)) ?_
      simp [inFlight, goto, hdec, next, ended]
    · have hrel : t.state ≠ .release := ne_of_plain hst rfl
      exact iff_of_true
        (hs.congr rfl rfl rfl rfl (inFlight_same hk rfl (inFlight_goto hrel hdec)))
        (stepsAlone_of hk hrel hdec (ne_of_plain hst rfl)
          (ne_of_plain hst rfl))

/-! ## The machine of the source, and the scheduler -/

theorem sound_runPerf {input : PerfInput} (hs : MigStateSound s) (h : runPerf s input = some s') :
    MigStateSound s' ↔ StepsAlone s (.perf input) := by
  -- only the states that close a migration look at the others
  have hfree : s.perf.state.closing = false → StepsAlone s (.perf input) :=
    fun hclose h => absurd (hclose.symm.trans h) (by simp)
  obtain ⟨p, hclose, rfl, hmig, hhandle⟩ | ⟨p, hclose, hzero, rfl, hmig, hhandle⟩ |
    ⟨p, item, hclose, hsrc, rfl, hmig, hhandle⟩ | ⟨p, sched', -, hclose, rfl, hmig⟩ := runPerf_cases h
  · exact iff_of_true (hs.congr rfl hmig hhandle rfl fun _ => Iff.rfl) (hfree hclose)
  · refine iff_of_true ⟨iff_of_true rfl (.inl hmig), fun _ h hh => ?_⟩ (hfree hclose)
    exact absurd (hhandle.symm.trans hh) (by simp)
  · refine iff_of_true ⟨iff_of_true (hs.state.mpr (.inl hsrc)) (.inl hmig), fun _ h hh => ?_⟩
      (hfree hclose)
    exact Option.some.inj (hhandle.symm.trans hh)
  · have hnot : ¬ p.state.migrating = true := by simp [hmig]
    constructor
    · intro hs' _ j hj
      exact absurd (hs'.state.mpr (.inr ⟨j, hj⟩)) (by simp)
    · intro halone
      refine ⟨iff_of_false (by simp) ?_, fun h => absurd h hnot⟩
      exact not_or.mpr ⟨hnot, not_exists.mpr (halone hclose)⟩

theorem Target.inFlight_resume (ids : List ReqSchedId) (t : Target) :
    (t.resume ids).inFlight = t.inFlight := by
  unfold resume
  split
  · rename_i hcond
    exact inFlight_goto (by simp [hcond.1]) (by simp [hcond.1])
  · rfl

theorem PerfUpdate.resume_same (ids : List ReqSchedId) (p : PerfUpdate) :
    (p.resume ids).state.migrating = p.state.migrating ∧ (p.resume ids).handle = p.handle := by
  unfold PerfUpdate.resume
  split
  · rename_i hcond
    exact ⟨by rw [hcond.1]; rfl, rfl⟩
  · exact ⟨rfl, rfl⟩

theorem sound_callScheduler {c : Call} (hs : MigStateSound s) (h : callScheduler s c = some s') :
    MigStateSound s' := by
  unfold callScheduler at h
  split at h
  · obtain ⟨⟨ids, sched'⟩, -, rfl⟩ := Option.map_eq_some_iff.mp h
    obtain ⟨hmig, hhandle⟩ := s.perf.resume_same ids
    refine hs.congr rfl hmig hhandle rfl fun j => ?_
    simp only [InFlight, List.getElem?_map, Option.map_eq_some_iff]
    constructor
    · rintro ⟨_, ⟨t, ht, rfl⟩, hin⟩
      exact ⟨t, ht, by rw [← t.inFlight_resume ids]; exact hin⟩
    · rintro ⟨t, ht, hin⟩
      exact ⟨_, ⟨t, ht, rfl⟩, by rw [t.inFlight_resume ids]; exact hin⟩
  · cases h

/-! ## Machines past `create_new_datafile` -/

theorem TargetState.midway_of_next (h : (st.next error).midway = true) :
    st = .createNewDatafile ∨ st.midway = true := by
  cases st with
  | createNewDatafile => exact .inl rfl
  | reqSched | permCheck => simp only [next] at h; split at h <;> cases h
  | waiting | sendNegativeAck | release | cleanup | terminated | stopped => cases h
  | _ => exact .inr rfl

theorem Target.begun_goto (hst : t.state ≠ .createNewDatafile)
    (ht : t.state.midway = true → t.begun = true) (h : (t.goto error).state.midway = true) :
    (t.goto error).begun = true :=
  ht ((midway_of_next h).resolve_left hst)

theorem MidwayBegun.set (hs : MidwayBegun s) (hts : s'.targets = s.targets.set k t')
    (ht' : t'.state.midway = true → t'.begun = true) : MidwayBegun s' := by
  intro u hu
  rw [hts] at hu
  obtain hu | rfl := List.mem_or_eq_of_mem_set hu
  · exact hs u hu
  · exact ht'

theorem MidwayBegun.runTarget (hs : MidwayBegun s) (hk : s.targets[k]? = some t)
    (h : runTarget s k t error = some s') : MidwayBegun s' := by
  have hgoto : ∀ error', t.state ≠ .createNewDatafile → (t.goto error').state.midway = true →
      (t.goto error').begun = true :=
    fun _ hne => begun_goto hne (hs t (List.mem_of_getElem? hk))
  cases TargetActs.of_runTarget h with
  | post hst =>
    refine hs.set rfl ?_
    split
    · exact hgoto _ (by simp [hst])
    · exact hgoto 0 (by simp [hst])
    · exact fun h => by cases h
  | create hst => exact hs.set rfl fun _ => rfl
  | ack hst => exact hs.set rfl (hgoto error (by obtain hst | hst := hst <;> simp [hst]))
  | release hst hrel => exact hs.set rfl (hgoto error (by simp [hst]))
  | goto hst hcreate => exact hs.set rfl (hgoto error (ne_of_plain hst rfl))

theorem MidwayBegun.step {e : Event} (hs : MidwayBegun s) (h : s.step e = some s') :
    MidwayBegun s' := by
  cases e with
  | arrive =>
    cases h
    intro t ht
    obtain ht | ht := List.mem_append.mp ht
    · exact hs t ht
    · rw [List.mem_singleton.mp ht]
      exact fun h => by cases h
  | target k error =>
    obtain ⟨t, hk, h⟩ := Option.bind_eq_some_iff.mp h
    exact hs.runTarget hk h
  | stored k handle =>
    obtain ⟨t, hk, h⟩ := Option.bind_eq_some_iff.mp h
    unfold storeHandle at h
    split at h
    · cases h
      exact hs.set rfl (hs t (List.mem_of_getElem? hk))
    · cases h
  | perf input =>
    obtain ⟨p, -, rfl, -⟩ | ⟨p, -, -, rfl, -⟩ | ⟨p, item, -, -, rfl, -⟩ | ⟨p, sched', -, -, rfl, -⟩ :=
      runPerf_cases h <;> exact hs
  | sched call =>
    simp only [MigrationServer.step, callScheduler] at h
    split at h
    · obtain ⟨⟨ids, sched'⟩, -, rfl⟩ := Option.map_eq_some_iff.mp h
      intro u hu
      obtain ⟨t, ht, rfl⟩ := List.mem_map.mp hu
      unfold resume
      split
      · rename_i hcond
        exact begun_goto (by simp [hcond.1]) (hs t ht)
      · exact hs t ht
    · cases h

/-! ## Runs -/

theorem migStateSound_start : MigStateSound start where
  state := by
    refine iff_of_false (by simp [start]) ?_
    rintro (h | ⟨k, t, hk, -⟩)
    · cases h
    · cases hk
  handle h := by cases h

/-- Every step keeps the flag sound. -/
theorem sound_step {e : Event} (hbegun : MidwayBegun s) (hs : MigStateSound s)
    (h : s.step e = some s') : MigStateSound s' ↔ StepsAlone s e := by
  cases e with
  | arrive =>
    cases h
    refine iff_of_true (hs.congr rfl rfl rfl rfl fun j => ?_) trivial
    -- the new machine has not begun
    exact exists_append_iff (by simp [arrived, inFlight]) j
  | target k error =>
    obtain ⟨t, hk, h⟩ := Option.bind_eq_some_iff.mp h
    exact sound_runTarget hbegun hs hk h
  | stored k handle =>
    obtain ⟨t, hk, h⟩ := Option.bind_eq_some_iff.mp h
    unfold storeHandle at h
    split at h
    · cases h
      exact iff_of_true (hs.congr rfl rfl rfl rfl (inFlight_same hk rfl rfl)) trivial
    · cases h
  | perf input => exact sound_runPerf hs h
  | sched call => exact iff_of_true (sound_callScheduler hs h) trivial

/-- **Which runs keep `mig_state` and `mig_datafile_handle` right.**  All along a run
`mig_state` is 1 exactly while the server is the source or the target of a migration in
flight, and `mig_datafile_handle` is the handle being moved away, if and only if no machine
comes to its end, or answers its requester, in the company of another. -/
theorem migStateSound_iff_alone (events : List Event) :
    Throughout step MigStateSound .start events ↔
      EachStep step StepsAlone .start events :=
  throughout_iff_eachStep (fun _ _ _ hs h => MidwayBegun.step hs h)
    (fun _ _ _ hbegun hs h => sound_step hbegun hs h) (fun t ht => by cases ht)
    migStateSound_start events

/-- A migration request is being served when the timer of the periodic machine is posted
again: `mig_state` is 0 while the new datafile is created. -/
theorem timer_clears_migState : ∃ s', exec step .start
    [.arrive, .target 0 0, .target 0 0, .target 0 0, .perf (.enabled false),
      .perf (.timer 1000 ⟨0, 0⟩)] = some s' ∧
    s'.migState = false ∧ InFlight s' 0 ∧ ¬ MigStateSound s' := by
  refine ⟨_, rfl, rfl, ⟨_, rfl, rfl⟩, fun hs => ?_⟩
  have hone := hs.state.mpr (.inr ⟨0, _, rfl, rfl⟩)
  cases hone

end Pvfs.Server
