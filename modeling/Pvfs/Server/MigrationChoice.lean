import Mathlib.Data.List.Induction
import Pvfs.Server.Migration

/-! # Where a migration goes (perf-update.sm)

`mig_decide_fun` looks for the server with the least load in one loop, which begins with
`0xFFFFFFFF` as the least load so far and with index 0 as its server. Where no server that is
not busy has a smaller load than that, index 0 is what it keeps, whether that server is busy or
not. Loads, their sum and the balance rate are doubles, and what is said about them is said about
the rounded values that the code compares. -/

namespace Pvfs.Server

open Lib (toDouble)

/-- A row that `mig_decide_fun` skips. -/
def Busy (row : Int × Int) : Prop := row.1 = migratingLoad

instance (row : Int × Int) : Decidable (Busy row) := inferInstanceAs (Decidable (_ = _))

/-- The load of a server, as a double. -/
def rowLoad (row : Int × Int) : ℚ := toDouble (toDouble (row.1 + row.2) / 10000)

/-- The row is that of a server which is not busy, and no such server has less load. -/
def LeastLoaded (m : List (Int × Int)) (row : Int × Int) : Prop :=
  ¬ Busy row ∧ ∀ x ∈ m, ¬ Busy x → rowLoad row ≤ rowLoad x

/-- The loads that are known, added up one after the other. -/
def knownLoad (m : List (Int × Int)) : ℚ :=
  (m.filter (¬ Busy ·)).foldl (fun sum row => toDouble (sum + rowLoad row)) 0

/-- The mean load of all servers, in parts of this server's; a busy server counts as one without
load. -/
def balanceRate (m : List (Int × Int)) (forecast : ℚ) : ℚ :=
  toDouble (toDouble (toDouble (forecast + knownLoad m) / (m.length + 1)) / forecast)

/-- The server is hotter than all whose load is known, and the mean load of all servers is below
the given part of its own. -/
structure Overloaded (m : List (Int × Int)) (forecast threshold : ℚ) : Prop where
  positive : 0 < forecast
  hottest : ∀ x ∈ m, ¬ Busy x → rowLoad x < forecast
  unbalanced : balanceRate m forecast < threshold

/-- What the loop knows after the rows `m`. -/
structure LoadScan.Of (a : LoadScan) (m : List (Int × Int)) : Prop where
  sum : a.sum = knownLoad m
  max_lt : ∀ f, a.max < f ↔ 0 < f ∧ ∀ x ∈ m, ¬ Busy x → rowLoad x < f
  min_le : ∀ x ∈ m, ¬ Busy x → a.min ≤ rowLoad x
  min_eq : (a.min = migratingLoad ∧ a.minIndex = 0) ∨
    a.min < migratingLoad ∧ ∃ row, m[a.minIndex]? = some row ∧ ¬ Busy row ∧ rowLoad row = a.min

section
variable {a : LoadScan} {m : List (Int × Int)} {x : Int × Int}

theorem forall_known_append {P : Int × Int → Prop} :
    (∀ y ∈ m ++ [x], ¬ Busy y → P y) ↔ (∀ y ∈ m, ¬ Busy y → P y) ∧ (¬ Busy x → P x) := by
  simp only [List.mem_append, List.mem_singleton, or_imp, forall_and, forall_eq]

theorem row_of_known (hb : ¬ Busy x) (i : Nat) :
    a.row i x.1 x.2 = ⟨toDouble (a.sum + rowLoad x), max a.max (rowLoad x), min (rowLoad x) a.min,
      if rowLoad x < a.min then i else a.minIndex⟩ := by
  rw [max_def_lt, min_def_lt]
  exact if_neg hb

theorem LoadScan.Of.row (h : a.Of m) (x : Int × Int) :
    (a.row m.length x.1 x.2).Of (m ++ [x]) := by
  have hget : ∀ {row}, m[a.minIndex]? = some row → (m ++ [x])[a.minIndex]? = some row := fun hrow =>
    (List.getElem?_append_left (List.getElem?_eq_some_iff.mp hrow).1).trans hrow
  by_cases hb : Busy x
  · -- the row is skipped
    have hrow : a.row m.length x.1 x.2 = a := if_pos hb
    rw [hrow]
    refine ⟨?_, fun f => ?_, forall_known_append.mpr ⟨h.min_le, absurd hb⟩, ?_⟩
    · simpa [knownLoad, hb] using h.sum
    · rw [h.max_lt, forall_known_append]
      simp [hb]
    · exact h.min_eq.imp_right fun ⟨hlt, row, hrow, hbest⟩ => ⟨hlt, row, hget hrow, hbest⟩
  · rw [row_of_known hb]
    refine ⟨?_, fun f => ?_, forall_known_append.mpr ⟨fun y hy hyb => ?_, fun _ => min_le_left _ _⟩, ?_⟩
    · simp [knownLoad, hb, h.sum]
    · rw [max_lt_iff, h.max_lt, forall_known_append, and_assoc]
      simp [hb]
    · exact (min_le_right _ _).trans (h.min_le y hy hyb)
    · rcases lt_or_ge (rowLoad x) a.min with hlt | hge
      · have hmark : a.min ≤ migratingLoad := h.min_eq.elim (le_of_eq ·.1) (le_of_lt ·.1)
        simp only [if_pos hlt, min_eq_left (le_of_lt hlt)]
        exact .inr ⟨lt_of_lt_of_le hlt hmark, x, by simp, hb, rfl⟩
      · simp only [if_neg (not_lt.mpr hge), min_eq_right hge]
        exact h.min_eq.imp_right fun ⟨hlt, row, hrow, hbest⟩ => ⟨hlt, row, hget hrow, hbest⟩

end

theorem scanLoads_of (m : List (Int × Int)) : (scanLoads m).Of m := by
  -- the loop has seen the rows before the last one
  induction m using List.reverseRecOn with
  | nil => exact ⟨rfl, fun f => by simp [scanLoads], by simp, .inl ⟨rfl, rfl⟩⟩
  | append_singleton m x ih =>
    rw [scanLoads, List.zipIdx_append]
    simpa [scanLoads] using ih.row x

theorem migDecide_eq_datafile_iff {migState : Bool} {matrix : Option (List (Int × Int))}
    {forecast threshold : ℚ} {target : Nat} :
    migDecide migState matrix forecast threshold = .datafile target ↔
      migState = false ∧ ∃ m, matrix = some m ∧ Overloaded m forecast threshold ∧
        target = (scanLoads m).minIndex := by
  cases migState with
  | true => simp [migDecide]
  | false =>
    cases matrix with
    | none => simp [migDecide]
    | some m =>
      have hscan := scanLoads_of m
      have hhot := hscan.max_lt forecast
      simp only [migDecide, Bool.false_eq_true, if_false, true_and, Option.some.injEq, exists_eq_left',
        hscan.sum, gt_iff_lt]
      constructor
      · intro h
        split_ifs at h with hmax hrate
        obtain ⟨hpos, hall⟩ := hhot.mp hmax
        cases h
        exact ⟨⟨hpos, hall, hrate⟩, rfl⟩
      · rintro ⟨ho, rfl⟩
        rw [if_pos (hhot.mpr ⟨ho.positive, ho.hottest⟩)]
        exact if_pos ho.unbalanced

structure WellChosen (migState : Bool) (matrix : Option (List (Int × Int)))
    (forecast threshold : ℚ) (target : Nat) : Prop where
  alone : migState = false
  known : ∃ m, matrix = some m ∧ Overloaded m forecast threshold ∧
    ∃ row, m[target]? = some row ∧ LeastLoaded m row

/-- **The target is the least loaded server that is not busy**, if there is one with a load below
the marker of a busy server, or if the first server of the table happens to be it. -/
theorem target_well_chosen_iff (migState : Bool) (matrix : Option (List (Int × Int)))
    (forecast threshold : ℚ) :
    (∀ target, migDecide migState matrix forecast threshold = .datafile target →
      WellChosen migState matrix forecast threshold target) ↔
    ∀ m, migState = false → matrix = some m → Overloaded m forecast threshold →
      (∃ x ∈ m, ¬ Busy x ∧ rowLoad x < migratingLoad) ∨ ∃ row, m[0]? = some row ∧ LeastLoaded m row := by
  constructor
  · intro h m hstate hm ho
    obtain ⟨m', hm', -, row, hget, hleast⟩ :=
      (h _ (migDecide_eq_datafile_iff.mpr ⟨hstate, m, hm, ho, rfl⟩)).known
    cases hm.symm.trans hm'
    rcases (scanLoads_of m).min_eq with ⟨-, hzero⟩ | ⟨hlt, x, hx, hb, hload⟩
    · rw [hzero] at hget
      exact .inr ⟨row, hget, hleast⟩
    · exact .inl ⟨x, List.mem_of_getElem? hx, hb, hload ▸ hlt⟩
  · intro h target hd
    obtain ⟨hstate, m, hm, ho, rfl⟩ := migDecide_eq_datafile_iff.mp hd
    refine ⟨hstate, m, hm, ho, ?_⟩
    have hscan := scanLoads_of m
    rcases hscan.min_eq with ⟨hmark, hzero⟩ | ⟨-, x, hx, hb, hload⟩
    · -- nothing below the marker was found
      rcases h m hstate hm ho with ⟨x, hx, hb, hlt⟩ | hfirst
      · exact absurd (hscan.min_le x hx hb) (not_le.mpr (hmark ▸ hlt))
      · rw [hzero]
        exact hfirst
    · exact ⟨x, hx, hb, fun y hy hyb => hload ▸ hscan.min_le y hy hyb⟩

/-- The only other server is busy, and it is chosen. -/
theorem busy_server_chosen : migDecide false (some [(0xFFFFFFFF, 0)]) 1 1 = .datafile 0 ∧
    ¬ WellChosen false (some [(0xFFFFFFFF, 0)]) 1 1 0 := by
  refine ⟨by decide +kernel, fun h => ?_⟩
  obtain ⟨m, hm, -, row, hget, hleast, -⟩ := h.known
  cases hm
  cases hget
  exact hleast rfl

end Pvfs.Server
