import Pvfs.Lib.Steps
import Pvfs.Server.Migration

/-! # How a migration ends (migrate-file-client.sm)

The source's machine asks the metadata server to replace the old datafile by the new one, and is
to remove the old one then. The completion function of the request does not look at the status of
the answer, `remove_datafile_handle` returns before it posts the removal, and `cleanup` sets the
error code to 0. So a machine that has finished has reported success, whatever happened, and the
old datafile is still there. -/

namespace Pvfs.Server

open Pvfs.Lib

/-- How the request of `update_metadata` ends, and whether the metadata server has done what it asks:
with the answer lost it may have, and with an error status it may have as well. -/
inductive MetaUpdate where
  | answered (status : Int) (applied : Bool)
  | unanswered (error : Int) (applied : Bool)
deriving DecidableEq, Repr

def MetaUpdate.applied : MetaUpdate → Bool
  | .answered _ applied | .unanswered _ applied => applied

def MetaUpdate.Succeeded : MetaUpdate → Prop
  | .answered status _ => status = 0
  | .unanswered _ _ => False

/-- `update_metadata_comp_fn`. -/
def updateMetadataCompFn (_status : Int) : Int := 0

def MetaUpdate.errorCode : MetaUpdate → Int
  | .answered status _ => updateMetadataCompFn status
  | .unanswered error _ => error

/-- `replace_datafile_handle` of `set-attr.sm`: the first entry that is the old handle. -/
def replaceDatafileHandle (old new : Handle) : List Handle → List Handle
  | [] => []
  | h :: rest => if h = old then new :: rest else h :: replaceDatafileHandle old new rest

/-- A migration: the machine of the source until it returns with an error code, the array of
datafiles that the metafile has, and whether the source has the old datafile. -/
structure Migration where
  handle : Handle
  target : Handle
  state : MigrateState
  returned : Option Int
  metafile : List Handle
  oldExists : Bool
  update : Option MetaUpdate

/-- The machine begins with a datafile that exists; the target will answer with `target`. -/
def Migration.start (handle target : Handle) (metafile : List Handle) : Migration :=
  ⟨handle, target, .init, none, metafile, true, none⟩

/-- What an action comes to: how its job ends, or how the metadata server answers. -/
inductive MigrationEvent where
  | result (error : Int)
  | updated (u : MetaUpdate)

def Migration.step (s : Migration) : MigrationEvent → Option Migration
  | .result error =>
    if s.returned ≠ none then none
    else
      match s.state with
      | .updateMetadataXfer => none
      -- both only fill in a request
      | .sendMigrationRequest | .updateMetadata => some { s with state := s.state.next }
      -- nothing is removed: the action returns at once
      | .removeDatafileHandle => some { s with state := .cleanup }
      | .cleanup => some { s with returned := some 0 }
      | _ => some { s with state := if error = 0 then s.state.next else .cleanup }
  | .updated u =>
    if s.returned = none ∧ s.state = .updateMetadataXfer then
      some { s with
        metafile :=
          if u.applied then replaceDatafileHandle s.handle s.target s.metafile else s.metafile
        state := if u.errorCode = 0 then s.state.next else .cleanup
        update := some u }
    else none

/-- What a migration returns is what has become of the file. -/
structure Migration.Honest (s : Migration) : Prop where
  success : s.returned = some 0 → s.target ∈ s.metafile ∧ s.oldExists = false
  failure : s.returned ≠ none → ∀ u ∈ s.update, ¬ u.Succeeded →
    s.returned ≠ some 0 ∧ s.oldExists = true ∧ s.handle ∈ s.metafile

structure Migration.Kept (s : Migration) : Prop where
  old : s.oldExists = true
  returned : s.returned = none ∨ s.returned = some 0

theorem Migration.Kept.step {s s' : Migration} (hs : s.Kept) {e : MigrationEvent}
    (h : s.step e = some s') : s'.Kept := by
  cases e with
  | result error =>
    simp only [Migration.step] at h
    split at h
    · cases h
    · cases hst : s.state with
      | updateMetadataXfer =>
        rw [hst] at h
        cases h
      | cleanup =>
        rw [hst] at h
        cases h
        exact ⟨hs.old, .inr rfl⟩
      | _ =>
        simp only [hst] at h
        cases h
        exact ⟨hs.old, hs.returned⟩
  | updated u =>
    simp only [Migration.step] at h
    split at h
    · cases h
      exact ⟨hs.old, hs.returned⟩
    · cases h

/-- **No migration ends as it should**: up to its end nothing is said, and what is said then is
wrong, however the metadata server has answered. -/
theorem outcome_honest_iff_unfinished (handle target : Handle) (metafile : List Handle)
    (events : List MigrationEvent) :
    Throughout Migration.step (fun s => s.Honest ↔ s.returned = none)
      (.start handle target metafile) events := by
  have hkept : Throughout Migration.step Migration.Kept (.start handle target metafile) events :=
    Throughout.of_step (fun _ _ _ hs h => hs.step h) ⟨rfl, .inl rfl⟩ events
  refine hkept.mono fun s hs => ⟨fun h => ?_, fun h => ?_⟩
  · refine hs.returned.resolve_right fun hzero => ?_
    have hgone := (h.success hzero).2
    rw [hs.old] at hgone
    cases hgone
  · refine ⟨fun hzero => ?_, absurd h⟩
    rw [h] at hzero
    cases hzero

/-- The metadata server refuses, and the migration reports success; the metafile has the old
datafile still. -/
theorem refused_update_reported_as_success :
    ∃ s, exec Migration.step (.start 1 2 [1]) (List.replicate 8 (.result 0) ++
        [.updated (.answered (-1) false), .result 0, .result 0]) = some s ∧
      s.returned = some 0 ∧ s.metafile = [1] ∧ ¬ s.Honest := by
  refine ⟨_, rfl, rfl, rfl, fun h => ?_⟩
  exact absurd (h.success rfl).1 (by decide)

end Pvfs.Server
