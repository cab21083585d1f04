import Mathlib.Data.List.Basic

/-! # Cursors over a sorted table

A database with a fixed key order is the list of its records in that order. A cursor that
stands on a record is that record and what comes after it: moving it never looks back, so
nothing before the record has to be kept.

The calls that move a cursor are a parameter (`CursorCalls`), known by their laws alone: a call
finds the record it looks for just if there is one, and everything after that record is then
ahead. How many records a bulk read returns is left to the database. A call that finds no
record answers `none` and leaves the caller with the cursor it had. The instance at the end
of the first section shows that there are such calls, and lets examples be computed. -/

namespace Pvfs.Lib

open List

variable {α : Type}

structure Cursor (α : Type) where
  record : α
  rest : List α
deriving DecidableEq, Repr

/-- A cursor on the first of the records. -/
def seekFirst : List α → Option (Cursor α)
  | [] => none
  | x :: xs => some ⟨x, xs⟩

/-- The calls of a database whose records are in key order, and what is relied on. -/
class CursorCalls (α : Type) where
  first : List α → Option (Cursor α)
  /-- the first record that is not `below` -/
  seekRange : (α → Bool) → List α → Option (Cursor α)
  /-- the first record that satisfies `p` -/
  seekExact : (α → Bool) → List α → Option (Cursor α)
  next : Cursor α → Option (Cursor α)
  /-- some of the records that follow; the cursor moves to the last of them -/
  bulk : Nat → Cursor α → Option (List α × Cursor α)
  first_eq : ∀ table, first table = seekFirst table
  seekRange_none : ∀ below table, (∀ y ∈ table, below y = true) → seekRange below table = none
  seekRange_some : ∀ below pre x post, (∀ y ∈ pre, below y = true) → below x = false →
    seekRange below (pre ++ x :: post) = some ⟨x, post⟩
  seekExact_none : ∀ p table, (∀ y ∈ table, p y = false) → seekExact p table = none
  seekExact_some : ∀ p pre x post, (∀ y ∈ pre, p y = false) → p x = true →
    seekExact p (pre ++ x :: post) = some ⟨x, post⟩
  next_eq : ∀ c, next c = seekFirst c.rest
  bulk_none : ∀ n c, c.rest = [] → bulk n c = none
  bulk_some : ∀ n c, c.rest ≠ [] →
    ∃ batch c', bulk n c = some (batch, c') ∧ batch ≠ [] ∧ batch ++ c'.rest = c.rest

/-- The calls as functions of the table. A bulk read returns `n + 1` records if there are as many. -/
instance tableCalls : CursorCalls α where
  first := seekFirst
  seekRange below table := seekFirst (table.dropWhile below)
  seekExact p table := seekFirst (table.dropWhile fun x => !p x)
  next c := seekFirst c.rest
  bulk n c :=
    match c.rest with
    | [] => none
    | x :: xs => some (x :: xs.take n, ⟨(x :: xs.take n).getLast (cons_ne_nil _ _), xs.drop n⟩)
  first_eq _ := rfl
  seekRange_none below table h := by
    rw [← append_nil table, dropWhile_append_of_pos h]
    rfl
  seekRange_some below pre x post hpre hx := by
    rw [dropWhile_append_of_pos hpre, dropWhile_cons, hx]
    rfl
  seekExact_none p table h := by
    rw [← append_nil table, dropWhile_append_of_pos fun y hy => by rw [h y hy]; rfl]
    rfl
  seekExact_some p pre x post hpre hx := by
    rw [dropWhile_append_of_pos fun y hy => by rw [hpre y hy]; rfl, dropWhile_cons, hx]
    rfl
  next_eq _ := rfl
  bulk_none n c h := by rw [h]
  bulk_some n c h := by
    obtain ⟨y, xs⟩ := c
    cases xs with
    | nil => exact absurd rfl h
    | cons x xs =>
      refine ⟨x :: xs.take n, _, rfl, cons_ne_nil _ _, ?_⟩
      show x :: (xs.take n ++ xs.drop n) = x :: xs
      rw [take_append_drop]

namespace CursorCalls

variable [CursorCalls α] {pre post : List α}

@[simp] theorem next_nil (x : α) : next ⟨x, []⟩ = none := next_eq _

@[simp] theorem next_cons (x y : α) (ys : List α) : next ⟨x, y :: ys⟩ = some ⟨y, ys⟩ := next_eq _

/-- In a table sorted by `r`, seeking a stored record finds that record, with everything after it
still ahead. -/
theorem seekRange_mid {r : α → α → Prop} {below : α → Bool} {x : α}
    (hsorted : (pre ++ x :: post).Pairwise r) (hbelow : ∀ y, r y x → below y = true)
    (hx : below x = false) : seekRange below (pre ++ x :: post) = some ⟨x, post⟩ := by
  refine seekRange_some below pre x post (fun y hy => hbelow y ?_) hx
  exact (pairwise_append.mp hsorted).2.2 y hy x mem_cons_self

/-- Behind records that are below there is one that is not, or nothing. -/
theorem seekRange_append {below : α → Bool} (hpre : ∀ y ∈ pre, below y = true)
    (hpost : ∀ y ∈ post, below y = false) : seekRange below (pre ++ post) = seekFirst post := by
  cases post with
  | nil => exact seekRange_none below _ (by simpa using hpre)
  | cons x post => exact seekRange_some below pre x post hpre (hpost x mem_cons_self)

end CursorCalls

variable {p : α → Bool}

theorem filter_append_filter_not {l : List α}
    (h : l.Pairwise fun a b => p b = true → p a = true) :
    l.filter p ++ l.filter (fun x => !p x) = l := by
  induction l with
  | nil => rfl
  | cons x xs ih =>
    obtain ⟨hx, hxs⟩ := pairwise_cons.mp h
    cases hp : p x with
    | true =>
      rw [filter_cons_of_pos hp, filter_cons_of_neg (by simp [hp]), cons_append,
        ih hxs]
    | false =>
      -- nothing after `x` can satisfy `p` either
      have hnone : xs.filter p = [] := by
        rw [filter_eq_nil_iff]
        intro y hy hpy
        rw [hx y hy hpy] at hp
        cases hp
      have hall : xs.filter (fun x => !p x) = xs := by
        have := ih hxs
        rwa [hnone, nil_append] at this
      rw [filter_cons_of_neg (by simp [hp]), filter_cons_of_pos (by simp [hp]), hnone,
        hall, nil_append]

end Pvfs.Lib
