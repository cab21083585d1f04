import Mathlib.Tactic.Common

/-! # Directory entries, and what a client learns of its requests

The client machines change a name space that lives on servers. A request may be executed and
answered, it may fail without any effect, and it may take effect although the client sees an
error: the reply is lost, or the server fails after the change (`crdirent` writes the entry
first and the directory's times after it). `Exchange` is that choice, and `Exchange.run` what
follows from it for the servers and for the client. Every machine that talks about names
takes its requests from here. -/

namespace Pvfs.Client

/-- `PVFS_object_ref`. -/
structure ObjectRef where
  handle : Nat
  fsId : Nat
  deriving DecidableEq, Repr

/-- A name in a directory. -/
structure DirEntry (Name : Type) where
  parent : ObjectRef
  name : Name
  deriving DecidableEq, Repr

/-- The entries of all directories. An entry holds a handle only: the object is one of the file
system that the directory is in. -/
abbrev Directories (Name : Type) := DirEntry Name → Option Nat

/-- The error codes that the client machines tell apart. -/
inductive RequestError where
  /-- any code of class `PVFS_ERROR_BMI`: the network failed -/
  | bmi
  | eexist
  | enoent
  | enotempty
  | eisdir
  | enotdir
  | einval
  | enodev
  | other (code : Nat)
  deriving DecidableEq, Repr

/-- What comes of a request. -/
inductive Exchange where
  /-- it is executed, and the server's answer arrives -/
  | served
  /-- the client sees an error, whether or not the request took effect -/
  | failed (effect : Bool) (error : RequestError)
  deriving DecidableEq, Repr

variable {Name : Type} {D α : Type}

/-- The entry is there, and refers to the object. -/
def Directories.Refers (d : Directories Name) (e : DirEntry Name) (o : ObjectRef) : Prop :=
  d e = some o.handle ∧ e.parent.fsId = o.fsId

section
variable [DecidableEq Name]

def Directories.set (d : Directories Name) (e : DirEntry Name) (h : Option Nat) : Directories Name :=
  fun e' => if e' = e then h else d e'

section
variable (d : Directories Name)

@[simp] theorem Directories.set_same (e : DirEntry Name) (h : Option Nat) : d.set e h e = h :=
  if_pos rfl

theorem Directories.set_other {e e' : DirEntry Name} (h : Option Nat) (hne : e' ≠ e) :
    d.set e h e' = d e' :=
  if_neg hne

@[simp] theorem Directories.set_set (e : DirEntry Name) (h h' : Option Nat) :
    (d.set e h).set e h' = d.set e h' := by
  funext e'
  unfold Directories.set
  split <;> rfl

theorem Directories.set_eq_self {e : DirEntry Name} {h : Option Nat} (hd : d e = h) :
    d.set e h = d := by
  funext e'
  unfold Directories.set
  split
  next heq => rw [heq, hd]
  next => rfl

end

/-- `crdirent`: the entry is written with `TROVE_NOOVERWRITE`. -/
def crdirent (h : Nat) (e : DirEntry Name) (d : Directories Name) :
    Except RequestError (Unit × Directories Name) :=
  match d e with
  | some _ => .error .eexist
  | none => .ok ((), d.set e (some h))

/-- `chdirent` answers the handle the entry had. -/
def chdirent (h : Nat) (e : DirEntry Name) (d : Directories Name) :
    Except RequestError (Nat × Directories Name) :=
  match d e with
  | some old => .ok (old, d.set e (some h))
  | none => .error .enoent

/-- `rmdirent` answers the handle of the entry it removed. -/
def rmdirent (e : DirEntry Name) (d : Directories Name) :
    Except RequestError (Nat × Directories Name) :=
  match d e with
  | some old => .ok (old, d.set e none)
  | none => .error .enoent

end

/-- A request is executed where it arrives, and answered where nothing fails. -/
def Exchange.run (server : D → Except RequestError (α × D)) (d : D) :
    Exchange → Except RequestError α × D
  | .served =>
    match server d with
    | .ok (a, d') => (.ok a, d')
    | .error e => (.error e, d)
  | .failed false e => (.error e, d)
  | .failed true e =>
    match server d with
    | .ok (_, d') => (.error e, d')
    | .error _ => (.error e, d)

/-- No request takes effect while the client sees an error. -/
def Exchange.Answered (x : Exchange) : Prop := ∀ e, x ≠ .failed true e

theorem Exchange.answered_served : Exchange.served.Answered := fun _ h => nomatch h

theorem Exchange.answered_failed (e : RequestError) : (Exchange.failed false e).Answered :=
  fun _ h => nomatch h

variable {server : D → Except RequestError (α × D)} {d d' : D} {x : Exchange}

theorem Exchange.run_ok {a : α} (h : x.run server d = (.ok a, d')) :
    x = .served ∧ server d = .ok (a, d') := by
  cases x with
  | served =>
    unfold Exchange.run at h
    cases hs : server d with
    | ok r =>
      rw [hs] at h
      cases h
      exact ⟨rfl, rfl⟩
    | error e =>
      rw [hs] at h
      cases h
  | failed effect e =>
    unfold Exchange.run at h
    cases effect with
    | false => cases h
    | true => cases hs : server d <;> (rw [hs] at h; cases h)

variable {e : RequestError}

/-- An error means no change, or an answer that was lost. -/
theorem Exchange.run_error (h : x.run server d = (.error e, d')) :
    d' = d ∨ ∃ a, x = .failed true e ∧ server d = .ok (a, d') := by
  cases x with
  | served =>
    unfold Exchange.run at h
    cases hs : server d with
    | ok r =>
      rw [hs] at h
      cases h
    | error e' =>
      rw [hs] at h
      cases h
      exact .inl rfl
  | failed effect e' =>
    unfold Exchange.run at h
    cases effect with
    | false =>
      cases h
      exact .inl rfl
    | true =>
      cases hs : server d with
      | ok r =>
        rw [hs] at h
        cases h
        exact .inr ⟨r.1, rfl, rfl⟩
      | error e'' =>
        rw [hs] at h
        cases h
        exact .inl rfl

theorem Exchange.Answered.run_error (hx : x.Answered)
    (h : x.run server d = (.error e, d')) : d' = d := by
  obtain hd | ⟨a, hx', -⟩ := Exchange.run_error h
  · exact hd
  · exact absurd hx' (hx e)

/-- What a machine does with an answer that is not a success: ask again, or go on with a code. -/
inductive RetryOrFail where
  | retry
  | goOn (code : Option RequestError)
  deriving DecidableEq

/-- `*_retry_or_fail`: a network error is tried again up to the limit, and the error `settled`
after a repetition is taken for the success of an earlier try. -/
def retryOrFail (settled : RequestError) (retryCount retryLimit : Nat) (error : RequestError) :
    RetryOrFail :=
  if error = .bmi ∧ retryCount < retryLimit then .retry
  else if error = settled ∧ 0 < retryCount then .goOn none
  else .goOn (some error)

theorem retryOrFail_code {settled error : RequestError} {retryCount retryLimit : Nat}
    {code : Option RequestError} (hfirst : error = settled → retryCount = 0)
    (h : retryOrFail settled retryCount retryLimit error = .goOn code) : code = some error := by
  unfold retryOrFail at h
  split_ifs at h with hretry hsettled
  · obtain ⟨heq, hpos⟩ := hsettled
    have hzero : retryCount = 0 := hfirst heq
    omega
  · cases h
    rfl

end Pvfs.Client
