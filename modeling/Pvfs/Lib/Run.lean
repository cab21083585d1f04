import Mathlib.Algebra.BigOperators.Group.Finset.Basic
import Mathlib.Data.List.Perm.Basic
import Mathlib.Tactic.Ring

/-! # Runs of consecutive offsets

I/O lists describe bytes by `(offset, size)` segments. Two segment lists mean the same
transfer when they *expand* to the same sequence of byte offsets, and the normal form of
a segment list is what is left after every segment has been glued to the one before it
when they touch. `merge_eq_iff` is the reason to reason about byte sequences only:
segment lists with positive sizes have the same merged form exactly when they expand to
the same bytes.

`numbered k l` pairs every entry of `l` with its position, counted from `k`. -/

namespace Pvfs.Lib

open List

/-- The `n` consecutive offsets that start at `o`. -/
def run (o : Int) : Nat → List Int
  | 0 => []
  | n + 1 => o :: run (o + 1) n

@[simp] theorem run_zero (o : Int) : run o 0 = [] := rfl

theorem run_succ (o : Int) (n : Nat) : run o (n + 1) = o :: run (o + 1) n := rfl

theorem run_eq_map (o : Int) (n : Nat) : run o n = (List.range n).map fun j : Nat => o + j := by
  induction n generalizing o with
  | zero => rfl
  | succ n ih =>
    simp only [run_succ, ih, range_succ_eq_map, map_cons, map_map, cons.injEq]
    exact ⟨by simp, map_congr_left fun j _ => by simp only [Function.comp_apply]; omega⟩

@[simp] theorem length_run (o : Int) (n : Nat) : (run o n).length = n := by
  simp [run_eq_map]

theorem run_add (o : Int) (m n : Nat) : run o (m + n) = run o m ++ run (o + m) n := by
  simp [run_eq_map, range_add, Function.comp_def, Int.add_assoc]

theorem run_split {a b c : Int} (hab : a ≤ b) (hbc : b ≤ c) :
    run a (c - a).toNat = run a (b - a).toNat ++ run b (c - b).toNat := by
  rw [show (c - a).toNat = (b - a).toNat + (c - b).toNat by omega, run_add]
  congr 2
  omega

variable {o : Int} {n : Nat}

theorem mem_run {x : Int} : x ∈ run o n ↔ o ≤ x ∧ x < o + n := by
  induction n generalizing o with
  | zero => simp
  | succ n ih =>
    rw [run_succ, mem_cons, ih]
    omega

theorem getElem?_run {j : Nat} (h : j < n) : (run o n)[j]? = some (o + j) := by
  simp [run_eq_map, h]

theorem map_run {f : Int → Int} {p : Int} (h : ∀ j : Nat, j < n → f (o + j) = p + j) :
    (run o n).map f = run p n := by
  rw [run_eq_map, run_eq_map, map_map]
  exact map_congr_left fun j hj => h j (mem_range.mp hj)

theorem take_run (o : Int) (m n : Nat) : (run o n).take m = run o (min m n) := by
  rw [run_eq_map, ← map_take, take_range, run_eq_map]

theorem drop_run (o : Int) (m n : Nat) : (run o n).drop m = run (o + m) (n - m) := by
  rcases Nat.le_total m n with hle | hge
  · obtain ⟨d, rfl⟩ := Nat.exists_eq_add_of_le hle
    rw [run_add, drop_left' (length_run o m), Nat.add_sub_cancel_left]
  · rw [drop_of_length_le (by simpa using hge), Nat.sub_eq_zero_of_le hge, run_zero]

/-! ## Entries with their positions -/

section
variable {α β : Type}

/-- Pair every entry with its position, counted from `k`. -/
def numbered (k : Int) : List α → List (Int × α)
  | [] => []
  | x :: xs => (k, x) :: numbered (k + 1) xs

@[simp] theorem numbered_nil (k : Int) : numbered k ([] : List α) = [] := rfl

theorem numbered_cons (k : Int) (x : α) (xs : List α) :
    numbered k (x :: xs) = (k, x) :: numbered (k + 1) xs := rfl

theorem numbered_append (k : Int) (xs ys : List α) :
    numbered k (xs ++ ys) = numbered k xs ++ numbered (k + xs.length) ys := by
  induction xs generalizing k with
  | nil => simp
  | cons x xs ih =>
    rw [cons_append, numbered_cons, numbered_cons, ih, length_cons]
    congr 3
    omega

@[simp] theorem map_snd_numbered (k : Int) (xs : List α) : (numbered k xs).map Prod.snd = xs := by
  induction xs generalizing k with
  | nil => rfl
  | cons x xs ih => rw [numbered_cons, map_cons, ih]

@[simp] theorem map_fst_numbered (k : Int) (xs : List α) :
    (numbered k xs).map Prod.fst = run k xs.length := by
  induction xs generalizing k with
  | nil => rfl
  | cons x xs ih => rw [numbered_cons, map_cons, ih, length_cons, run_succ]

@[simp] theorem length_numbered (k : Int) (xs : List α) : (numbered k xs).length = xs.length := by
  rw [← length_map, map_snd_numbered]

variable {xs : List α} {k : Int} {q : Int × α}

theorem mem_numbered : q ∈ numbered k xs ↔ ∃ j : Nat, q.1 = k + j ∧ xs[j]? = some q.2 := by
  induction xs generalizing k with
  | nil => simp
  | cons x xs ih =>
    rw [numbered_cons, mem_cons, ih]
    constructor
    · rintro (rfl | ⟨j, hj, hx⟩)
      · exact ⟨0, by simp, by simp⟩
      · exact ⟨j + 1, by push_cast; omega, by simpa using hx⟩
    · rintro ⟨j, hj, hx⟩
      cases j with
      | zero => exact .inl (Prod.ext (by simpa using hj) (by simpa using hx.symm))
      | succ j => exact .inr ⟨j, by push_cast at hj; omega, by simpa using hx⟩

theorem mem_numbered_run {q : Int × Int} :
    q ∈ numbered k (run o n) ↔ k ≤ q.1 ∧ q.1 < k + n ∧ q.2 = o + (q.1 - k) := by
  rw [mem_numbered]
  constructor
  · rintro ⟨j, hj, hx⟩
    have hlt := (List.getElem?_eq_some_iff.mp hx).1
    rw [length_run] at hlt
    have := Option.some.inj ((getElem?_run hlt).symm.trans hx)
    omega
  · rintro ⟨hge, hlt, hq⟩
    refine ⟨(q.1 - k).toNat, by omega, ?_⟩
    rw [getElem?_run (by omega), hq, Int.toNat_of_nonneg (by omega)]

theorem snd_mem_of_numbered (h : q ∈ numbered k xs) : q.2 ∈ xs := by
  obtain ⟨j, -, hj⟩ := mem_numbered.mp h
  exact mem_of_getElem? hj

/-- The entries that satisfy `p`, with their positions. -/
def visit (p : α → Bool) (k : Int) (xs : List α) : List (Int × α) :=
  (numbered k xs).filter fun q => p q.2

@[simp] theorem visit_nil (p : α → Bool) (k : Int) : visit p k [] = [] := rfl

theorem visit_append (p : α → Bool) (k : Int) (xs ys : List α) :
    visit p k (xs ++ ys) = visit p k xs ++ visit p (k + xs.length) ys := by
  rw [visit, numbered_append, filter_append]
  rfl

variable {p : α → Bool}

theorem fst_mem_visit (h : q ∈ visit p k xs) : k ≤ q.1 ∧ q.1 < k + xs.length := by
  obtain ⟨i, hi, hx⟩ := mem_numbered.mp (mem_filter.mp h).1
  have := (List.getElem?_eq_some_iff.mp hx).1
  omega

theorem visit_all (k : Int) (h : ∀ x ∈ xs, p x = true) : visit p k xs = numbered k xs := by
  exact filter_eq_self.mpr fun q hq => h q.2 (snd_mem_of_numbered hq)

theorem visit_none (k : Int) (h : ∀ x ∈ xs, p x = false) : visit p k xs = [] := by
  refine filter_eq_nil_iff.mpr fun q hq => ?_
  rw [h q.2 (snd_mem_of_numbered hq)]
  exact Bool.false_ne_true

@[simp] theorem map_snd_visit (p : α → Bool) (k : Int) (xs : List α) :
    (visit p k xs).map Prod.snd = xs.filter p := by
  conv_rhs => rw [← map_snd_numbered k xs]
  rw [filter_map]
  rfl

theorem length_visit_le (p : α → Bool) (k : Int) (xs : List α) :
    (visit p k xs).length ≤ xs.length := by
  rw [← length_numbered k xs]
  exact length_filter_le _ _

end

/-! ## Segments -/

/-- The bytes a list of `(offset, size)` segments stands for, in order. -/
def expand (segs : List (Int × Int)) : List Int :=
  segs.flatMap fun s => run s.1 s.2.toNat

@[simp] theorem expand_nil : expand [] = [] := rfl

theorem expand_cons (s : Int × Int) (segs : List (Int × Int)) :
    expand (s :: segs) = run s.1 s.2.toNat ++ expand segs := rfl

@[simp] theorem expand_append (xs ys : List (Int × Int)) :
    expand (xs ++ ys) = expand xs ++ expand ys := flatMap_append

variable {α β : Type}

theorem expand_flatMap (l : List α) (g : α → List (Int × Int)) :
    expand (l.flatMap g) = l.flatMap fun i => expand (g i) := flatMap_assoc

variable {l : List α}

theorem length_flatMap_const {h : α → List β} {n : Int}
    (hn : ∀ i ∈ l, ((h i).length : Int) = n) : ((l.flatMap h).length : Int) = l.length * n := by
  induction l with
  | nil => simp
  | cons x xs ih =>
    have hx := hn x mem_cons_self
    have hxs := ih fun i hi => hn i (mem_cons_of_mem _ hi)
    rw [flatMap_cons, length_append, length_cons]
    push_cast
    rw [hx, Int.add_mul]
    omega

theorem flatMap_eq_flatMap_iff {f g : α → List β}
    (h : ∀ i ∈ l, (f i).length = (g i).length) :
    l.flatMap f = l.flatMap g ↔ ∀ i ∈ l, f i = g i := by
  induction l with
  | nil => simp
  | cons x xs ih =>
    rw [flatMap_cons, flatMap_cons, append_eq_append_iff_of_size_eq_left
      (h x mem_cons_self), ih fun i hi => h i (mem_cons_of_mem _ hi),
      forall_mem_cons]

theorem sum_range_single {f : Nat → Nat} {j : Nat} (hj : j < n) (h : ∀ i < n, i ≠ j → f i = 0) :
    ((List.range n).map f).sum = f j := by
  show (Finset.range n).sum f = f j
  exact Finset.sum_eq_single_of_mem j (Finset.mem_range.mpr hj)
    fun i hi => h i (Finset.mem_range.mp hi)

/-- Sorting the entries of a list into classes moves them around and nothing else, if every entry
belongs to exactly one class. -/
theorem perm_flatMap_filter [DecidableEq α] {p : Nat → α → Bool}
    (h : ∀ x ∈ l, ∃ j < n, ∀ i < n, p i x = true ↔ i = j) :
    ((List.range n).flatMap fun i => l.filter (p i)).Perm l := by
  rw [perm_iff_count]
  intro x
  rw [count_flatMap]
  by_cases hx : x ∈ l
  · obtain ⟨j, hj, hp⟩ := h x hx
    rw [sum_range_single hj fun i hi hne => ?_]
    · exact count_filter ((hp j hj).mpr rfl)
    · refine count_eq_zero_of_not_mem fun hm => hne ((hp i hi).mp ?_)
      exact (mem_filter.mp hm).2
  · rw [List.count_eq_zero_of_not_mem hx, List.sum_eq_zero_iff_forall_eq_nat]
    intro c hc
    obtain ⟨i, -, rfl⟩ := mem_map.mp hc
    exact count_eq_zero_of_not_mem fun hm => hx (mem_filter.mp hm).1

theorem append_eq_run {l1 l2 : List Int} (h : l1 ++ l2 = run o n) :
    l1 = run o l1.length ∧ l2 = run (o + l1.length) l2.length := by
  have hlen : l1.length + l2.length = n := by rw [← length_append, h, length_run]
  have htake := congrArg (List.take l1.length) h
  have hdrop := congrArg (List.drop l1.length) h
  rw [take_left, take_run, Nat.min_eq_left (by omega)] at htake
  rw [drop_left, drop_run, show n - l1.length = l2.length by omega] at hdrop
  exact ⟨htake, hdrop⟩

theorem run_mul (o : Int) (n a : Nat) :
    run o (n * a) = (List.range n).flatMap fun i : Nat => run (o + i * a) a := by
  induction n generalizing o with
  | zero => simp
  | succ n ih =>
    rw [range_succ_eq_map, flatMap_cons, flatMap_map, Nat.succ_mul, Nat.add_comm,
      run_add, ih (o + a)]
    congr 1
    · simp
    · congr 1
      funext i
      push_cast
      congr 1
      ring

/-- Put a segment in front of a merged list, gluing it to the first one when they touch. -/
def mergeCons (s : Int × Int) : List (Int × Int) → List (Int × Int)
  | [] => [s]
  | t :: rest => if s.1 + s.2 = t.1 then (s.1, s.2 + t.2) :: rest else s :: t :: rest

/-- Glue every segment to the one after it when they touch. -/
def merge (segs : List (Int × Int)) : List (Int × Int) :=
  segs.foldr mergeCons []

theorem merge_cons (s : Int × Int) (segs : List (Int × Int)) :
    merge (s :: segs) = mergeCons s (merge segs) := rfl

theorem mergeCons_mergeCons (o m n : Int) (l : List (Int × Int)) :
    mergeCons (o, m) (mergeCons (o + m, n) l) = mergeCons (o, m + n) l := by
  cases l with
  | nil => simp [mergeCons]
  | cons t rest =>
    by_cases h : o + m + n = t.1
    · have h' : o + (m + n) = t.1 := by omega
      simp [mergeCons, h, h', Int.add_assoc]
    · have h' : ¬ o + (m + n) = t.1 := by omega
      simp [mergeCons, h, h']

theorem merge_eq_merge_bytes (segs : List (Int × Int)) (hpos : ∀ s ∈ segs, 0 < s.2) :
    merge segs = merge ((expand segs).map fun x => (x, 1)) := by
  -- a positive run of single bytes glues to one segment
  have hrun : ∀ (n : Nat) (o : Int) (l : List (Int × Int)), 0 < n →
      ((run o n).map fun x => ((x, 1) : Int × Int)).foldr mergeCons l =
        mergeCons (o, (n : Int)) l := by
    intro n
    induction n with
    | zero => intro o l h; omega
    | succ n ih =>
      intro o l _
      rw [run_succ, map_cons, foldr_cons]
      rcases Nat.eq_zero_or_pos n with rfl | hn
      · simp
      · rw [ih (o + 1) l hn, mergeCons_mergeCons, Int.add_comm 1, Int.natCast_succ]
  induction segs with
  | nil => rfl
  | cons s rest ih =>
    have hs := hpos s mem_cons_self
    have hrest := ih fun t ht => hpos t (mem_cons_of_mem _ ht)
    rw [merge_cons, hrest, expand_cons, map_append]
    unfold merge
    rw [foldr_append, hrun s.2.toNat s.1 _ (by omega), Int.toNat_of_nonneg (by omega)]

theorem expand_mergeCons (s : Int × Int) (l : List (Int × Int)) (hs : 0 ≤ s.2)
    (hl : ∀ t ∈ l, 0 ≤ t.2) : expand (mergeCons s l) = run s.1 s.2.toNat ++ expand l := by
  cases l with
  | nil => rfl
  | cons t rest =>
    have ht := hl t mem_cons_self
    by_cases h : s.1 + s.2 = t.1
    · rw [mergeCons, if_pos h, expand_cons, expand_cons, ← append_assoc, ← h]
      rw [Int.toNat_add hs ht, run_add, Int.toNat_of_nonneg hs]
    · rw [mergeCons, if_neg h, expand_cons]

theorem mergeCons_nonneg {s : Int × Int} {l : List (Int × Int)} (hs : 0 ≤ s.2)
    (hl : ∀ t ∈ l, 0 ≤ t.2) : ∀ t ∈ mergeCons s l, 0 ≤ t.2 := by
  cases l with
  | nil => simpa [mergeCons] using hs
  | cons t rest =>
    have ht := hl t mem_cons_self
    intro u hu
    by_cases h : s.1 + s.2 = t.1
    · rw [mergeCons, if_pos h] at hu
      rcases mem_cons.mp hu with rfl | hu
      · exact Int.add_nonneg hs ht
      · exact hl u (mem_cons_of_mem _ hu)
    · rw [mergeCons, if_neg h] at hu
      rcases mem_cons.mp hu with rfl | hu
      · exact hs
      · exact hl u hu

theorem expand_merge (segs : List (Int × Int)) (hpos : ∀ s ∈ segs, 0 ≤ s.2) :
    expand (merge segs) = expand segs ∧ ∀ s ∈ merge segs, 0 ≤ s.2 := by
  induction segs with
  | nil => exact ⟨rfl, by simp [merge]⟩
  | cons s rest ih =>
    have hs := hpos s mem_cons_self
    obtain ⟨he, hn⟩ := ih fun t ht => hpos t (mem_cons_of_mem _ ht)
    rw [merge_cons]
    exact ⟨by rw [expand_mergeCons s _ hs hn, he, expand_cons], mergeCons_nonneg hs hn⟩

/-- Segment lists with positive sizes have the same merged form exactly when they expand
to the same bytes. -/
theorem merge_eq_iff {xs ys : List (Int × Int)} (hx : ∀ s ∈ xs, 0 < s.2)
    (hy : ∀ s ∈ ys, 0 < s.2) : merge xs = merge ys ↔ expand xs = expand ys := by
  constructor
  · intro h
    rw [← (expand_merge xs fun s hs => Int.le_of_lt (hx s hs)).1,
      ← (expand_merge ys fun s hs => Int.le_of_lt (hy s hs)).1, h]
  · intro h
    rw [merge_eq_merge_bytes xs hx, merge_eq_merge_bytes ys hy, h]

end Pvfs.Lib
