import Pvfs.Lib.Steps
import Pvfs.Server.Migration

/-! # The bytes of a datafile that migrates

While `pvfs2_migrate_file_sm` copies a datafile to another server, clients go on writing to
it. What holds their writes off is `migration_test`, one state of `pvfs2_io_sm`: it turns
a request down when `mig_state` is set and the handle is `mig_datafile_handle`. A request
that was past this state when the handle was set goes on writing, and
`pvfs2_small_io_sm` has no such state at all.

The model has the bytes of both datafiles. The machines share the old one, which they
reach through the storage layer: a byte at a time, in whatever order it finds best. -/

namespace Pvfs.Server

open Lib List

/-! ## Datafiles -/

/-- The bytes of a datafile and its size; a byte below the size that was never written is 0. -/
structure Datafile where
  bytes : Nat → Nat
  size : Nat

def Datafile.empty : Datafile := ⟨fun _ => 0, 0⟩

def Datafile.read (d : Datafile) (o : Nat) : Option Nat :=
  if o < d.size then some (d.bytes o) else none

def Datafile.write (d : Datafile) (o v : Nat) : Datafile :=
  ⟨fun x => if x = o then v else d.bytes x, max d.size (o + 1)⟩

@[simp] theorem Datafile.read_write (d : Datafile) (o v : Nat) : (d.write o v).read o = some v := by
  simp [Datafile.read, Datafile.write]

variable {o : Nat}
variable {d : Datafile} {v k i : Nat}

theorem Datafile.read_eq_some :
    d.read o = some v ↔ o < d.size ∧ d.bytes o = v := by
  simp [Datafile.read]

theorem Datafile.read_write_of_ne {x v w : Nat} (hx : x ≠ o) (h : d.read x = some w) :
    (d.write o v).read x = some w := by
  obtain ⟨hlt, hv⟩ := Datafile.read_eq_some.mp h
  refine Datafile.read_eq_some.mpr ⟨?_, ?_⟩
  · exact Nat.lt_of_lt_of_le hlt (Nat.le_max_left _ _)
  · simp [Datafile.write, hx, hv]

/-! ## Requests that write -/

/-- The states of `pvfs2_io_sm`, then those of `pvfs2_small_io_sm` that it does not have. -/
inductive IoState where
  | prelude | migrationTest | sendPositiveAck | sendNegativeAck | startFlow | sendCompletionAck
  | release | cleanup
  | startJob | checkSize | sendResponse
deriving DecidableEq, Repr

/-- A request to write to the datafile. `pending` are the bytes that have not reached the
storage layer, each with its offset. `early` is not in the source: whether the request
was through `migration_test` before the migration had set `mig_datafile_handle`. -/
structure IoRequest where
  small : Bool
  state : IoState
  pending : List (Nat × Nat)
  failed : Bool
  early : Bool
deriving DecidableEq, Repr

def IoRequest.arrived (small : Bool) (bytes : List (Nat × Nat)) : IoRequest :=
  ⟨small, .prelude, bytes, false, false⟩

/-- The action of the state comes to its end, with success or not. `refused` is what
`migration_test` would find. -/
def IoRequest.next (r : IoRequest) (ok refused early : Bool) : Option IoRequest :=
  match r.state with
  | .prelude =>
    if ok then some { r with state := if r.small then .startJob else .migrationTest }
    else some { r with state := if r.small then .sendResponse else .sendNegativeAck, failed := true }
  | .migrationTest =>
    if refused then some { r with state := .sendNegativeAck, failed := true }
    else some { r with state := .sendPositiveAck, early := early }
  | .sendPositiveAck => some { r with state := if ok then .startFlow else .release }
  | .sendNegativeAck => some { r with state := .release }
  | .startFlow =>
    if ok then if r.pending = [] then some { r with state := .sendCompletionAck } else none
    else some { r with state := .release }
  | .sendCompletionAck => some { r with state := .release }
  | .release => some { r with state := .cleanup }
  | .cleanup => none
  | .startJob =>
    if ok then if r.pending = [] then some { r with state := .checkSize } else none
    else some { r with state := .checkSize, failed := true }
  | .checkSize => some { r with state := .sendResponse }
  | .sendResponse => some { r with state := .cleanup }

/-- The client has been told, or is about to be, that its data is stored. -/
def IoRequest.Acknowledges (r : IoRequest) : Prop :=
  r.state = .sendCompletionAck ∨ (r.state = .sendResponse ∧ r.failed = false)

instance (r : IoRequest) : Decidable r.Acknowledges :=
  inferInstanceAs (Decidable (_ ∨ _))

def IoRequest.Writing (r : IoRequest) : Prop := r.state = .startFlow ∨ r.state = .startJob

instance (r : IoRequest) : Decidable r.Writing := inferInstanceAs (Decidable (_ ∨ _))

/-- A regular request that writes or is about to: `migration_test` has let it through. -/
def IoRequest.Passed (r : IoRequest) : Prop :=
  r.small = false ∧ (r.state = .sendPositiveAck ∨ r.Writing)

variable {r : IoRequest}
variable {r' : IoRequest}

theorem IoRequest.passed_of_next {ok refused early : Bool}
    (h : r.next ok refused early = some r') (hp : r'.Passed) :
    (r.Passed ∧ r'.early = r.early) ∨ (refused = false ∧ r'.early = early) := by
  obtain ⟨hsmall, hstate⟩ := hp
  rw [IoRequest.Writing] at hstate
  cases hs : r.state with
  | prelude =>
    simp only [IoRequest.next, hs] at h
    split_ifs at h with hok hsmall' <;> cases h
    · exact absurd hsmall (by simp [hsmall'])
    · simp at hstate
    · exact absurd hsmall (by simp_all)
    · simp at hstate
  | migrationTest =>
    right
    simp only [IoRequest.next, hs] at h
    split_ifs at h with hrefused
    · cases h
      simp at hstate
    · cases h
      exact ⟨Bool.eq_false_iff.mpr hrefused, rfl⟩
  | sendPositiveAck =>
    left
    simp only [IoRequest.next, hs, Option.some.injEq] at h
    subst h
    exact ⟨⟨hsmall, .inl hs⟩, rfl⟩
  | _ =>
    -- the other states lead to none of the two
    simp only [IoRequest.next, hs] at h
    (try split_ifs at h) <;> cases h <;> simp at hstate

/-! ## The server -/

inductive MigrationPhase where
  | notBegun
  | running (state : MigrateState)
  | finalize
  | over
deriving DecidableEq, Repr

def MigrationPhase.underway : MigrationPhase → Bool
  | .running .removeDatafileHandle | .running .cleanup | .finalize | .over => false
  | _ => true

/-- The datafile with handle `handle`, the requests that write to it and its migration.
`remaining` is there once `getattr_migration` has read the size of the datafile: the
offsets below this size that the flow has not read yet.

The last three fields are not in the source. `completed`: the metafile has the new
handle. `written` and `acknowledged`: for each byte of the datafile where its value comes
from, a request or the time before the run, and the requests whose clients have been
told. Both stop with the migration. -/
structure CopyState where
  migState : Bool
  migDatafileHandle : Nat
  handle : Nat
  old : Datafile
  new : Datafile
  requests : List IoRequest
  phase : MigrationPhase
  remaining : Option (List Nat)
  completed : Bool
  written : Nat → Option (Option Nat × Nat)
  acknowledged : List Nat

/-- Before the migration, with whatever the datafile holds by then. -/
def CopyState.start (migDatafileHandle handle : Nat) (old : Datafile) : CopyState where
  migState := false
  migDatafileHandle := migDatafileHandle
  handle := handle
  old := old
  new := .empty
  requests := []
  phase := .notBegun
  remaining := none
  completed := false
  written := fun o => (old.read o).map fun v => (none, v)
  acknowledged := []

/-- `migration_test`. -/
def CopyState.migrationTest (s : CopyState) : Bool :=
  s.migState && s.handle == s.migDatafileHandle

/-- The migration has not come to `getattr_migration`. -/
def CopyState.beforeHandle (s : CopyState) : Bool :=
  s.phase == .notBegun || s.phase == .running .init

/-- What can happen while a datafile is copied. -/
inductive CopyEvent where
  | arrive (small : Bool) (bytes : List (Nat × Nat))
  | advance (k : Nat) (ok : Bool)
  | write (k i : Nat)
  | migrate (answer ok : Bool)
  | copy (o : Nat)
deriving DecidableEq, Repr

/-- One action of the migration. `answer` is whether `init_migration` finds a datafile to
move, and whether the metadata server replaces the handle, which
`update_metadata_comp_fn` does not look at. -/
def CopyState.migrate (s : CopyState) (answer ok : Bool) : Option CopyState :=
  match s.phase with
  | .notBegun => if ok then some { s with migState := true, phase := .running .init } else none
  | .running .init =>
    if answer then
      some { s with
        migDatafileHandle := s.handle
        phase := .running (if ok then .getattrMigration else .cleanup) }
    else some { s with phase := .running .cleanup }
  | .running .cleanup => some { s with phase := .finalize }
  | .running state =>
    if ok then
      match state with
      | .getattrMigration =>
        some { s with phase := .running state.next, remaining := some (range s.old.size) }
      | .postFlow =>
        if s.remaining = some [] then some { s with phase := .running state.next } else none
      | .updateMetadataXfer =>
        some { s with phase := .running state.next, completed := answer }
      | _ => some { s with phase := .running state.next }
    else some { s with phase := .running .cleanup }
  | .finalize => some { s with migState := false, phase := .over }
  | .over => none

/-- A byte of request `k` reaches the old datafile. -/
def CopyState.store (s : CopyState) (k i : Nat) (r : IoRequest) (o v : Nat) : CopyState :=
  { s with
    old := s.old.write o v
    requests := s.requests.set k { r with pending := r.pending.eraseIdx i }
    written := if s.completed then s.written
      else fun x => if x = o then some (some k, v) else s.written x }

def CopyState.step (s : CopyState) : CopyEvent → Option CopyState
  | .arrive small bytes => some { s with requests := s.requests ++ [.arrived small bytes] }
  | .advance k ok =>
    (s.requests[k]?).bind fun r =>
      (r.next ok s.migrationTest s.beforeHandle).map fun r' =>
        { s with
          requests := s.requests.set k r'
          acknowledged :=
            if r.Acknowledges ∧ s.completed = false then k :: s.acknowledged else s.acknowledged }
  | .write k i =>
    (s.requests[k]?).bind fun r =>
      if r.Writing then (r.pending[i]?).map fun b => s.store k i r b.1 b.2 else none
  | .migrate answer ok => s.migrate answer ok
  | .copy o =>
    match s.phase, s.remaining with
    | .running .postFlow, some l =>
      if o ∈ l then
        some { s with new := s.new.write o (s.old.bytes o), remaining := some (l.filter (· ≠ o)) }
      else none
    | _, _ => none

/-! ## What the copy holds -/

/-- Once the migration has completed, each byte whose value a client was told to be written,
or that was there before, has this value in the new datafile. -/
def NoWriteLost (s : CopyState) : Prop :=
  s.completed = true → ∀ o w v, s.written o = some (w, v) →
    (∀ k, w = some k → k ∈ s.acknowledged) → s.new.read o = some v

/-- No byte of a small I/O request, nor of a regular one that was through `migration_test`
early, is written where the migration has copied already or beyond the size it has read. -/
def AheadOfCopy (s : CopyState) : CopyEvent → Prop
  | .write k i => s.phase.underway = true → ∀ r, s.requests[k]? = some r →
      r.small = true ∨ r.early = true → ∀ o v, r.pending[i]? = some (o, v) →
      ∀ l, s.remaining = some l → o ∈ l
  | _ => True

def MigrateState.Copied : MigrateState → Prop
  | .postCompleteAck | .testSendOneMsg | .updateMetadata | .updateMetadataXfer => True
  | _ => False

/-- While the migration is under way the old datafile has what was written, and what is not to
be copied any more is in the new one. -/
structure CopyState.Copying (s : CopyState) : Prop where
  held : ∀ o w v, s.written o = some (w, v) → s.old.read o = some v
  inside : ∀ l, s.remaining = some l → ∀ o ∈ l, o < s.old.size
  copied : ∀ l, s.remaining = some l → ∀ o v, s.old.read o = some v → o ∈ l ∨ s.new.read o = some v

/-- What has been acknowledged is in the copy once that takes over. -/
structure CopyState.Sound (s : CopyState) : Prop where
  copying : s.phase.underway = true → s.completed = false ∧ s.Copying
  completed : s.completed = true → ∀ o w v, s.written o = some (w, v) → s.new.read o = some v
  flowed : ∀ st, s.phase = .running st → st.Copied → s.remaining = some []
  early : s.phase.underway = true → ∀ r ∈ s.requests, r.Passed → r.early = true
  decided : s.phase = .running .init → s.migState = true
  handle : s.phase.underway = true → s.beforeHandle = true ∨ s.migrationTest = true

variable {s s' : CopyState}

theorem sound_start (migDatafileHandle handle : Nat) (old : Datafile) :
    (CopyState.start migDatafileHandle handle old).Sound where
  copying _ := by
    refine ⟨rfl, ⟨?_, ?_, ?_⟩⟩
    · intro o w v h
      obtain ⟨u, hu, huv⟩ := Option.map_eq_some_iff.mp h
      cases huv
      exact hu
    · intro l h
      cases h
    · intro l h
      cases h
  completed h := by cases h
  flowed st h := by cases h
  early _ r hr := by cases hr
  decided h := by cases h
  handle _ := .inl rfl

theorem NoWriteLost.of_sound (h : s.Sound) : NoWriteLost s :=
  fun hc o w v hw _ => h.completed hc o w v hw

/-! ## The steps -/

theorem not_passed_arrived (small : Bool) (bytes : List (Nat × Nat)) :
    ¬ (IoRequest.arrived small bytes).Passed := by
  rintro ⟨-, h | h | h⟩ <;> cases h

theorem CopyState.Sound.arrive (hs : s.Sound) (small : Bool) (bytes : List (Nat × Nat)) :
    CopyState.Sound { s with requests := s.requests ++ [.arrived small bytes] } where
  copying := fun h => ⟨(hs.copying h).1, { (hs.copying h).2 with }⟩
  completed := hs.completed
  flowed := hs.flowed
  early h r hr hp := by
    rcases mem_append.mp hr with hr | hr
    · exact hs.early h r hr hp
    · cases mem_singleton.mp hr
      exact absurd hp (not_passed_arrived small bytes)
  decided := hs.decided
  handle := hs.handle

theorem CopyState.Sound.advance (hs : s.Sound) {ok : Bool}
    {acknowledged : List Nat} (hr : s.requests[k]? = some r)
    (hnext : r.next ok s.migrationTest s.beforeHandle = some r') :
    CopyState.Sound { s with requests := s.requests.set k r', acknowledged := acknowledged } where
  copying := fun h => ⟨(hs.copying h).1, { (hs.copying h).2 with }⟩
  completed := hs.completed
  flowed := hs.flowed
  early h x hx hp := by
    rcases mem_or_eq_of_mem_set hx with hx | rfl
    · exact hs.early h x hx hp
    rcases IoRequest.passed_of_next hnext hp with ⟨hpr, he⟩ | ⟨hrefused, he⟩
    · rw [he]
      exact hs.early h r (mem_of_getElem? hr) hpr
    · rw [he]
      rcases hs.handle h with hb | ht
      · exact hb
      · rw [ht] at hrefused
        cases hrefused
  decided := hs.decided
  handle := hs.handle

theorem CopyState.Copying.store (hc : s.Copying) (hcompleted : s.completed = false)
    (hahead : ∀ l, s.remaining = some l → o ∈ l) :
    (s.store k i r o v).Copying where
  held x w u h := by
    simp only [CopyState.store, hcompleted, Bool.false_eq_true, if_false] at h ⊢
    by_cases hx : x = o
    · rw [if_pos hx] at h
      cases h
      rw [hx, Datafile.read_write]
    · rw [if_neg hx] at h
      exact Datafile.read_write_of_ne hx (hc.held x w u h)
  inside l hl x hx := Nat.lt_of_lt_of_le (hc.inside l hl x hx) (Nat.le_max_left _ _)
  copied l hl x u h := by
    by_cases hx : x = o
    · exact .inl (hx ▸ hahead l hl)
    · refine hc.copied l hl x u ?_
      -- the size is what it was, as the byte lies below it
      have hsize : max s.old.size (o + 1) = s.old.size :=
        Nat.max_eq_left (hc.inside l hl o (hahead l hl))
      simpa [CopyState.store, Datafile.read, Datafile.write, hx, hsize] using h

theorem CopyState.Sound.store (hs : s.Sound) (hr : s.requests[k]? = some r)
    (hahead : s.phase.underway = true → ∀ l, s.remaining = some l → o ∈ l) :
    (s.store k i r o v).Sound where
  copying h :=
    have ⟨hcompleted, hc⟩ := hs.copying h
    ⟨hcompleted, hc.store hcompleted (hahead h)⟩
  completed h := by
    have hwritten : (s.store k i r o v).written = s.written := by
      have hcompleted : s.completed = true := h
      simp [CopyState.store, hcompleted]
    rw [hwritten]
    exact hs.completed h
  flowed := hs.flowed
  early h x hx hp := by
    rcases mem_or_eq_of_mem_set hx with hx | rfl
    · exact hs.early h x hx hp
    · exact hs.early h r (mem_of_getElem? hr) hp
  decided := hs.decided
  handle := hs.handle

theorem CopyState.Sound.copy (hs : s.Sound) {l : List Nat} (hphase : s.phase = .running .postFlow)
    (hl : s.remaining = some l) (ho : o ∈ l) :
    CopyState.Sound { s with
      new := s.new.write o (s.old.bytes o), remaining := some (l.filter (· ≠ o)) } := by
  obtain ⟨hcompleted, hc⟩ := hs.copying (by rw [hphase]; rfl)
  refine ⟨fun _ => ⟨hcompleted, ⟨hc.held, ?_, ?_⟩⟩, ?_, ?_, hs.early, hs.decided, hs.handle⟩
  · intro l' hl' x hx
    cases hl'
    exact hc.inside l hl x (mem_filter.mp hx).1
  · intro l' hl' x v hv
    cases hl'
    by_cases hx : x = o
    · right
      subst hx
      rw [Datafile.read_write, (Datafile.read_eq_some.mp hv).2]
    · rcases hc.copied l hl x v hv with hxl | hnew
      · exact .inl (mem_filter.mpr ⟨hxl, by simpa using hx⟩)
      · exact .inr (Datafile.read_write_of_ne hx hnew)
  · intro h
    rw [show s.completed = true from h] at hcompleted
    cases hcompleted
  · intro st hst hcopied
    rw [show s.phase = .running st from hst] at hphase
    cases hphase
    exact absurd hcopied id

theorem underway_of_copied {st : MigrateState} (h : st.Copied) :
    (MigrationPhase.running st).underway = true := by
  cases st with
  | postCompleteAck | testSendOneMsg | updateMetadata | updateMetadataXfer => rfl
  | _ => exact absurd h id

section
variable (hs : s.Sound)
include hs

theorem CopyState.Sound.leave {phase : MigrationPhase} (hphase : phase.underway = false)
    (migState : Bool) (migDatafileHandle : Nat) :
    CopyState.Sound { s with
      migState := migState, migDatafileHandle := migDatafileHandle, phase := phase } := by
  have hnot : ∀ {p : Prop}, phase.underway = true → p := by
    intro p h
    rw [hphase] at h
    cases h
  refine ⟨hnot, hs.completed, ?_, hnot, ?_, hnot⟩
  · intro st hst hcopied
    rw [show phase = .running st from hst, underway_of_copied hcopied] at hphase
    cases hphase
  · intro h
    rw [show phase = .running .init from h] at hphase
    cases hphase

theorem CopyState.Sound.choose (hphase : s.phase = .running .init) :
    CopyState.Sound { s with
      migDatafileHandle := s.handle, phase := .running .getattrMigration } where
  copying _ := by
    obtain ⟨hcompleted, hc⟩ := hs.copying (by rw [hphase]; rfl)
    exact ⟨hcompleted, { hc with }⟩
  completed := hs.completed
  flowed st hst hcopied := by
    cases hst
    exact absurd hcopied id
  early _ := hs.early (by rw [hphase]; rfl)
  handle _ := .inr (by simp [CopyState.migrationTest, hs.decided hphase])
  decided h := by cases h

theorem CopyState.Sound.getattr (hphase : s.phase = .running .getattrMigration) :
    CopyState.Sound { s with
      phase := .running .sendMigrationRequest, remaining := some (range s.old.size) } where
  copying _ := by
    obtain ⟨hcompleted, hc⟩ := hs.copying (by rw [hphase]; rfl)
    refine ⟨hcompleted, ⟨hc.held, ?_, ?_⟩⟩
    · intro l hl o ho
      cases hl
      exact mem_range.mp ho
    · intro l hl o v hv
      cases hl
      exact .inl (mem_range.mpr (Datafile.read_eq_some.mp hv).1)
  completed := hs.completed
  flowed st hst hcopied := by
    cases hst
    exact absurd hcopied id
  early _ := hs.early (by rw [hphase]; rfl)
  decided h := by cases h
  handle _ := by
    rcases hs.handle (by rw [hphase]; rfl) with hb | ht
    · simp [CopyState.beforeHandle, hphase] at hb
    · exact .inr ht

theorem CopyState.Sound.complete (hphase : s.phase = .running .updateMetadataXfer) (answer : Bool) :
    CopyState.Sound { s with phase := .running .removeDatafileHandle, completed := answer } where
  copying h := by cases h
  completed _ o w v hw := by
    obtain ⟨-, hc⟩ := hs.copying (by rw [hphase]; rfl)
    rcases hc.copied [] (hs.flowed _ hphase trivial) o v (hc.held o w v hw) with h | h
    · cases h
    · exact h
  flowed st hst hcopied := by
    cases hst
    exact absurd hcopied id
  early h := by cases h
  decided h := by cases h
  handle h := by cases h

theorem CopyState.Sound.next {st : MigrateState} (hphase : s.phase = .running st) (hinit : st ≠ .init)
    (hunderway : (MigrationPhase.running st).underway = true)
    (hflowed : st.next.Copied → s.remaining = some []) :
    CopyState.Sound { s with phase := .running st.next } := by
  have hu : s.phase.underway = true := by
    rw [hphase]
    exact hunderway
  obtain ⟨hcompleted, hc⟩ := hs.copying hu
  refine ⟨fun _ => ⟨hcompleted, { hc with }⟩, hs.completed, ?_,
    fun _ => hs.early hu, ?_, fun _ => ?_⟩
  · intro st' hst' hcopied
    cases hst'
    exact hflowed hcopied
  · intro h
    cases st <;> cases h
  · rcases hs.handle hu with hb | ht
    · simp [CopyState.beforeHandle, hphase, hinit] at hb
    · exact .inr ht

theorem CopyState.Sound.decide (hphase : s.phase = .notBegun) :
    CopyState.Sound { s with migState := true, phase := .running .init } := by
  have hu : s.phase.underway = true := by
    rw [hphase]
    rfl
  obtain ⟨hcompleted, hc⟩ := hs.copying hu
  refine ⟨fun _ => ⟨hcompleted, { hc with }⟩, hs.completed, ?_,
    fun _ => hs.early hu, fun _ => rfl, fun _ => .inl rfl⟩
  intro st hst hcopied
  cases hst
  exact absurd hcopied id

theorem CopyState.Sound.migrate {answer ok : Bool} (h : s.migrate answer ok = some s') :
    s'.Sound := by
  dsimp only [CopyState.migrate] at h
  split at h
  case h_1 hphase =>
    split_ifs at h
    cases h
    exact hs.decide hphase
  case h_2 hphase =>
    split_ifs at h
    · cases h
      exact hs.choose hphase
    · cases h
      exact hs.leave rfl _ _
    · cases h
      exact hs.leave rfl _ _
  case h_4 st hinit hcleanup hphase =>
    split at h
    · cases st with
      | init => exact absurd rfl hinit
      | cleanup => exact absurd rfl hcleanup
      | getattrMigration =>
        cases h
        exact hs.getattr hphase
      | postFlow =>
        dsimp only at h
        split_ifs at h with hflowed
        cases h
        exact hs.next hphase (by decide) rfl fun _ => hflowed
      | updateMetadataXfer =>
        cases h
        exact hs.complete hphase answer
      | removeDatafileHandle =>
        cases h
        exact hs.leave rfl _ _
      | sendMigrationRequest | sendMigrationRequestXfer =>
        cases h
        exact hs.next hphase (by decide) rfl fun hcopied => absurd hcopied id
      | postCompleteAck | testSendOneMsg | updateMetadata =>
        cases h
        exact hs.next hphase (by decide) rfl fun _ => hs.flowed _ hphase trivial
    · cases h
      exact hs.leave rfl _ _
  case h_6 => cases h
  -- the end of the machine
  all_goals
    cases h
    exact hs.leave rfl _ _

/-- A step ahead of the copy keeps it sound. -/
theorem CopyState.Sound.step {e : CopyEvent} (hahead : AheadOfCopy s e) (h : s.step e = some s') :
    s'.Sound := by
  cases e with
  | arrive small bytes =>
    cases h
    exact hs.arrive small bytes
  | advance k ok =>
    obtain ⟨r, hr, h⟩ := Option.bind_eq_some_iff.mp h
    obtain ⟨r', hnext, rfl⟩ := Option.map_eq_some_iff.mp h
    exact hs.advance hr hnext
  | write k i =>
    obtain ⟨r, hr, h⟩ := Option.bind_eq_some_iff.mp h
    split_ifs at h with hwriting
    obtain ⟨⟨o, v⟩, hb, rfl⟩ := Option.map_eq_some_iff.mp h
    refine hs.store hr (fun hu l hl => hahead hu r hr ?_ o v hb l hl)
    -- a regular request that writes has passed the test, and it did so early
    by_cases hsmall : r.small = true
    · exact .inl hsmall
    · exact .inr (hs.early hu r (mem_of_getElem? hr)
        ⟨Bool.eq_false_iff.mpr hsmall, .inr hwriting⟩)
  | migrate answer ok => exact hs.migrate h
  | copy o =>
    simp only [CopyState.step] at h
    split at h
    next l hphase hl =>
      split_ifs at h with ho
      cases h
      exact hs.copy hphase hl ho
    next => cases h

end

/-- **No write is lost that keeps ahead of the copy.**  Whatever the datafile holds at first and
however the requests and the migration take turns: if no byte of a small I/O request, nor of
a request that was through `migration_test` before the migration had chosen the datafile, is
written behind the copy or beyond its end, then all that clients were told to be written
is in the new datafile when the migration has completed. -/
theorem noWriteLost_of_aheadOfCopy (migDatafileHandle handle : Nat) (old : Datafile)
    (events : List CopyEvent)
    (hahead : EachStep CopyState.step AheadOfCopy (.start migDatafileHandle handle old) events) :
    Throughout CopyState.step NoWriteLost (.start migDatafileHandle handle old) events := by
  have hsound := Throughout.of_eachStep (fun s e s' hs hc h => CopyState.Sound.step hs hc h)
    (sound_start migDatafileHandle handle old) hahead
  exact hsound.mono fun _ hs => .of_sound hs

/-- Two bytes are moved, and a small I/O request writes the second after the first has been
copied. -/
theorem noWriteLost_of_aheadOfCopy_two :
    let old : Datafile := ⟨fun _ => 7, 2⟩
    let events := .arrive true [(1, 9)] :: replicate 5 (.migrate true true) ++
      [.copy 0, .advance 0 true, .write 0 0, .advance 0 true, .advance 0 true, .advance 0 true,
        .copy 1] ++ replicate 5 (.migrate true true)
    (exec CopyState.step (.start 0 1 old) events).map
        (fun s => (s.completed, s.acknowledged, s.new.read 0, s.new.read 1)) =
        some (true, [0], some 7, some 9) ∧
      Throughout CopyState.step NoWriteLost (.start 0 1 old) events := by
  intro old events
  refine ⟨by decide, noWriteLost_of_aheadOfCopy 0 1 old events ?_⟩
  iterate 8 refine .cons rfl trivial ?_
  refine .cons rfl (fun _ r hr _ o v hb l hl => ?_) ?_
  · cases hr
    cases hb
    cases hl
    decide
  · iterate 9 refine .cons rfl trivial ?_
    trivial

/-- A small I/O request writes the byte after it has been copied: its client is told that the
byte is 9, and the file that the metafile names from then on has 7. -/
theorem small_write_lost : ∃ s, exec CopyState.step (.start 0 1 ⟨fun _ => 7, 1⟩)
    (.arrive true [(0, 9)] :: replicate 5 (.migrate true true) ++
      [.copy 0, .advance 0 true, .write 0 0, .advance 0 true, .advance 0 true, .advance 0 true] ++
      replicate 5 (.migrate true true)) = some s ∧ ¬ NoWriteLost s := by
  refine ⟨_, rfl, fun h => ?_⟩
  have hread := h rfl 0 (some 0) 9 rfl (by decide)
  cases hread

end Pvfs.Server
