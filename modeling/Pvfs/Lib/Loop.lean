import Mathlib.Tactic.Common

/-! # Fuelled loops

A `while` loop of an imperative source is one function `body` on the variables that
live across iterations. Each turn either goes round `again` with new values of those
variables or is the last one and `leave`s with a result. `iterate` runs it on a step
budget, so it is a total function that evaluates.

**Returning is not partial correctness.** `Returns f a` says that every large enough
budget gives the answer `a`; a loop that spins forever returns nothing. Because a loop
body may itself contain a budgeted loop, the body takes a budget too, and
`Returns` quantifies over it in the same way. What holds of whatever answer there is has
rules of its own, for invariants and for the simulation of one loop by another. -/

namespace Pvfs.Lib

variable {σ τ α β γ ι : Type}

/-- A turn of a loop goes on, or leaves with a result. -/
inductive Turn (σ α : Type) where
  | again (s : σ)
  | leave (a : α)
deriving DecidableEq, Repr

/-- Run `body` until it leaves, for at most `n` turns. -/
def iterate (body : σ → Option (Turn σ α)) : Nat → σ → Option α
  | 0, _ => none
  | n + 1, s =>
    match body s with
    | none => none
    | some (.leave a) => some a
    | some (.again s') => iterate body n s'

/-- What a turn leads to: `Inv` if it goes round again, `Post` if it is the last one. -/
def Turn.Keeps (Inv : σ → Prop) (Post : α → Prop) : Turn σ α → Prop
  | .again s => Inv s
  | .leave a => Post a

/-- **The rule of invariants for loops.** -/
theorem iterate_keeps {Inv : σ → Prop} {Post : α → Prop} {body : σ → Option (Turn σ α)}
    (h : ∀ s t, Inv s → body s = some t → t.Keeps Inv Post) {n : Nat} {s : σ} {a : α} (hs : Inv s)
    (hn : iterate body n s = some a) : Post a := by
  induction n generalizing s with
  | zero => cases hn
  | succ n ih =>
    rw [iterate] at hn
    cases hbody : body s with
    | none =>
      rw [hbody] at hn
      cases hn
    | some t =>
      have hturn := h s t hs hbody
      rw [hbody] at hn
      cases t with
      | again s' => exact ih hturn hn
      | leave a' =>
        cases hn
        exact hturn

/-- The loop begins a turn with the values `s'`. -/
inductive Visits (body : σ → Option (Turn σ α)) (s : σ) : σ → Prop where
  | start : Visits body s s
  | again {s' s'' : σ} (h : Visits body s s') (hturn : body s' = some (.again s'')) :
      Visits body s s''

/-- The rule of invariants for loops that may go on for ever. -/
theorem Visits.keeps {Inv : σ → Prop} {Post : α → Prop} {body : σ → Option (Turn σ α)}
    (h : ∀ s t, Inv s → body s = some t → t.Keeps Inv Post) {s s' : σ} (hs : Inv s)
    (hv : Visits body s s') : Inv s' := by
  induction hv with
  | start => exact hs
  | again _ hturn ih => exact h _ _ ih hturn

inductive Turn.Rel (R : σ → τ → Prop) (Q : α → β → Prop) : Turn σ α → Turn τ β → Prop where
  | again {s : σ} {t : τ} (h : R s t) : Rel R Q (.again s) (.again t)
  | leave {a : α} {b : β} (h : Q a b) : Rel R Q (.leave a) (.leave b)

variable {R : σ → τ → Prop} {Q : α → β → Prop}

theorem Turn.Rel.ite {p : Prop} [Decidable p]
    {s s' : Turn σ α} {t t' : Turn τ β} (hp : p → Rel R Q s t) (hn : ¬ p → Rel R Q s' t') :
    Rel R Q (if p then s else s') (if p then t else t') := by
  split
  next h => exact hp h
  next h => exact hn h

/-- **The rule of simulation for loops.** -/
theorem iterate_rel {body : σ → Option (Turn σ α)} {body' : τ → Option (Turn τ β)}
    (h : ∀ s t, R s t → Option.Rel (Turn.Rel R Q) (body s) (body' t)) (n : Nat) {s : σ} {t : τ}
    (hst : R s t) : Option.Rel Q (iterate body n s) (iterate body' n t) := by
  induction n generalizing s t with
  | zero => exact .none
  | succ n ih =>
    have hturn := h s t hst
    unfold iterate
    generalize body s = u at hturn ⊢
    generalize body' t = u' at hturn ⊢
    cases hturn with
    | none => exact .none
    | some hturn =>
      cases hturn with
      | again hnext => exact ih hnext
      | leave hlast => exact .some hlast

/-- Every large enough budget gives the answer `a`. -/
def Returns (f : Nat → Option α) (a : α) : Prop :=
  ∃ N, ∀ n, N ≤ n → f n = some a

variable {f : Nat → Option α}
variable {a : α}

theorem Returns.always (h : ∀ n, f n = some a) : Returns f a :=
  ⟨0, fun n _ => h n⟩

theorem Returns.unique {a b : α} (ha : Returns f a) (hb : Returns f b) : a = b := by
  obtain ⟨N, hN⟩ := ha
  obtain ⟨M, hM⟩ := hb
  have h := (hN (N + M) (by omega)).symm.trans (hM (N + M) (by omega))
  exact Option.some.inj h

variable {g : Nat → Option β} {b : β}

theorem Returns.map (ha : Returns f a)
    (h : ∀ n, f n = some a → g n = some b) : Returns g b := by
  obtain ⟨N, hN⟩ := ha
  exact ⟨N, fun n hn => h n (hN n hn)⟩

theorem Returns.map₂ {h : Nat → Option γ} {c : γ}
    (ha : Returns f a) (hb : Returns g b) (hc : ∀ n, f n = some a → g n = some b → h n = some c) :
    Returns h c := by
  obtain ⟨N, hN⟩ := ha
  obtain ⟨M, hM⟩ := hb
  exact ⟨N + M, fun n hn => hc n (hN n (by omega)) (hM n (by omega))⟩

theorem Returns.shift {k : Nat} (h : Returns (fun n => f (n + k)) a) : Returns f a := by
  obtain ⟨N, hN⟩ := h
  refine ⟨N + k, fun n hn => ?_⟩
  obtain ⟨m, rfl⟩ : ∃ m, n = m + k := ⟨n - k, by omega⟩
  exact hN m (by omega)

theorem returns_succ_map_iff {f : Nat → Option β} {g : Nat → Option α} {h : α → β}
    (hinj : ∀ a a', h a = h a' → a = a') {N : Nat} (hfg : ∀ n, N ≤ n → f (n + 1) = (g n).map h) :
    Returns f b ↔ ∃ a, b = h a ∧ Returns g a := by
  constructor
  · rintro ⟨M, hM⟩
    have hg : ∀ n, N + M ≤ n → ∃ a, b = h a ∧ g n = some a := by
      intro n hn
      have hf := hM (n + 1) (by omega)
      rw [hfg n (by omega)] at hf
      obtain ⟨a, ha, hb⟩ := Option.map_eq_some_iff.mp hf
      exact ⟨a, hb.symm, ha⟩
    obtain ⟨a, hb, -⟩ := hg (N + M) (Nat.le_refl _)
    refine ⟨a, hb, N + M, fun n hn => ?_⟩
    obtain ⟨a', hb', ha'⟩ := hg n hn
    rw [ha', hinj a a' (hb.symm.trans hb')]
  · rintro ⟨a, rfl, M, hM⟩
    refine .shift (k := 1) ⟨N + M, fun n hn => (hfg n (by omega)).trans ?_⟩
    rw [hM n (by omega)]
    rfl

/-- The loop with body `body`, started on `s`, leaves with `a`. -/
def Leaves (body : Nat → σ → Option (Turn σ α)) (s : σ) (a : α) : Prop :=
  ∃ N, ∀ f, N ≤ f → ∀ n, N ≤ n → iterate (body f) n s = some a

namespace Leaves

variable {body : Nat → σ → Option (Turn σ α)} {s s' : σ} {a b : α}

theorem last (h : Returns (body · s) (.leave a)) : Leaves body s a := by
  obtain ⟨N, hN⟩ := h
  refine ⟨N + 1, fun f hf n hn => ?_⟩
  cases n with
  | zero => omega
  | succ n => simp [iterate, hN f (by omega)]

theorem turn (h : Returns (body · s) (.again s')) (hs : Leaves body s' a) :
    Leaves body s a := by
  obtain ⟨N, hN⟩ := h
  obtain ⟨M, hM⟩ := hs
  refine ⟨N + M + 1, fun f hf n hn => ?_⟩
  cases n with
  | zero => omega
  | succ n =>
    simp only [iterate, hN f (by omega)]
    exact hM f (by omega) n (by omega)

theorem returns (h : Leaves body s a) : Returns (fun n => iterate (body n) n s) a := by
  obtain ⟨N, hN⟩ := h
  exact ⟨N, fun n hn => hN n hn n hn⟩

/-- **The rule of descent.**  A loop leaves if each turn makes something smaller. -/
theorem of_descent (body : Nat → σ → Option (Turn σ α)) {I : σ → Prop} {Q : α → Prop}
    {r : ι → ι → Prop} (hwf : WellFounded r) (μ : σ → ι)
    (hturn : ∀ s, I s → ∃ t, Returns (body · s) t ∧
      match t with
      | .leave a => Q a
      | .again s' => I s' ∧ r (μ s') (μ s))
    {s : σ} (hs : I s) : ∃ a, Leaves body s a ∧ Q a := by
  suffices h : ∀ i s, μ s = i → I s → ∃ a, Leaves body s a ∧ Q a from h _ s rfl hs
  intro i
  induction i using hwf.induction with
  | _ i ih =>
    intro s hi hs
    obtain ⟨t, ht, hafter⟩ := hturn s hs
    cases t with
    | leave a => exact ⟨a, .last ht, hafter⟩
    | again s' =>
      obtain ⟨hs', hless⟩ := hafter
      obtain ⟨a, hleaves, ha⟩ := ih (μ s') (hi ▸ hless) s' rfl hs'
      exact ⟨a, .turn ht hleaves, ha⟩

end Leaves

end Pvfs.Lib
