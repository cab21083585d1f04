import Mathlib.Tactic.Common

/-! # Runs of a step function

Machines that wait for one another are one step function `step` on a common state: an
event names the machine that moves and what it learns, and an event that is not enabled
gives `none`. A run is a list of events, in the order in which they happen, so a theorem
about every list is a theorem about every interleaving.

`Throughout P` is a property of every state a run passes through, `EachStep C` of every
step it takes. The rules below derive the first from the second, and the last of them
says when the two are the same. -/

namespace Pvfs.Lib

variable {σ ε : Type} {step : σ → ε → Option σ} {I P : σ → Prop} {C : σ → ε → Prop}

/-- The state a run ends in, where each of its events is enabled in turn. -/
def exec (step : σ → ε → Option σ) : σ → List ε → Option σ
  | s, [] => some s
  | s, e :: es => (step s e).bind fun s' => exec step s' es

variable {es : List ε} {s : σ} {s' : σ}

theorem exec_append {es' : List ε} (h : exec step s es = some s') :
    exec step s (es ++ es') = exec step s' es' := by
  induction es generalizing s with
  | nil =>
    cases h
    rfl
  | cons e es ih =>
    obtain ⟨s1, hstep, hrest⟩ := Option.bind_eq_some_iff.mp h
    rw [List.cons_append, exec, hstep]
    exact ih hrest

/-- Every state the run passes through has `P`, the first and the last included. -/
def Throughout (step : σ → ε → Option σ) (P : σ → Prop) : σ → List ε → Prop
  | s, [] => P s
  | s, e :: es => P s ∧ ∀ s', step s e = some s' → Throughout step P s' es

/-- Every step the run takes has `C`, of the state before it and the event. -/
def EachStep (step : σ → ε → Option σ) (C : σ → ε → Prop) : σ → List ε → Prop
  | _, [] => True
  | s, e :: es => ∀ s', step s e = some s' → C s e ∧ EachStep step C s' es

theorem Throughout.first (h : Throughout step P s es) : P s := by
  cases es with
  | nil => exact h
  | cons e es => exact h.1

theorem EachStep.cons {e : ε} (h : step s e = some s') (hC : C s e) (hrest : EachStep step C s' es) :
    EachStep step C s (e :: es) := by
  intro s1 h1
  rw [h] at h1
  cases h1
  exact ⟨hC, hrest⟩

/-- Whether each step of a run has a property that can be decided. -/
instance [∀ s e, Decidable (C s e)] : ∀ (s : σ) (es : List ε), Decidable (EachStep step C s es)
  | _, [] => isTrue trivial
  | s, e :: es =>
    match h : step s e with
    | none => isTrue fun _ h' => nomatch h.symm.trans h'
    | some s' =>
      have : Decidable (EachStep step C s' es) := instDecidableEachStep s' es
      decidable_of_iff (C s e ∧ EachStep step C s' es)
        ⟨fun hC => EachStep.cons h hC.1 hC.2, fun hC => hC s' h⟩

theorem Throughout.last (h : Throughout step P s es) (hrun : exec step s es = some s') : P s' := by
  induction es generalizing s with
  | nil => cases hrun; exact h
  | cons e es ih =>
    obtain ⟨s1, hstep, hrest⟩ := Option.bind_eq_some_iff.mp hrun
    exact ih (h.2 s1 hstep) hrest

theorem Throughout.mono {Q : σ → Prop} (hPQ : ∀ s, P s → Q s) (h : Throughout step P s es) :
    Throughout step Q s es := by
  induction es generalizing s with
  | nil => exact hPQ s h
  | cons e es ih => exact ⟨hPQ s h.1, fun s' hs' => ih (h.2 s' hs')⟩

/-- **The rule of invariants, for runs that keep to a condition.**  What each step that meets
the condition preserves holds all along a run of such steps. -/
theorem Throughout.of_eachStep (hstep : ∀ s e s', I s → C s e → step s e = some s' → I s')
    (hI : I s) (hC : EachStep step C s es) : Throughout step I s es := by
  induction es generalizing s with
  | nil => exact hI
  | cons e es ih =>
    refine ⟨hI, fun s' hs' => ?_⟩
    obtain ⟨hce, hrest⟩ := hC s' hs'
    exact ih (hstep s e s' hI hce hs') hrest

/-- **The rule of invariants.** -/
theorem Throughout.of_step (hstep : ∀ s e s', I s → step s e = some s' → I s') (hI : I s)
    (es : List ε) : Throughout step I s es := by
  induction es generalizing s with
  | nil => exact hI
  | cons e es ih => exact ⟨hI, fun s' hs' => ih (hstep s e s' hI hs')⟩

/-- Every event of the run meets `C` in the state it finds, whether or not it is enabled there. -/
def Guarded (step : σ → ε → Option σ) (C : σ → ε → Prop) : σ → List ε → Prop
  | _, [] => True
  | s, e :: es => C s e ∧ ∀ s', step s e = some s' → Guarded step C s' es

/-- **The rule of invariants, for guarded runs.**  If an event that meets the condition is enabled
and keeps the invariant, the whole run is enabled, and what holds of each such event holds of
all of them. -/
theorem Guarded.of_step {D : σ → ε → Prop}
    (hstep : ∀ s e, I s → C s e → D s e ∧ ∃ s', step s e = some s' ∧ I s') (hI : I s)
    (hC : Guarded step C s es) : Guarded step D s es ∧ ∃ s', exec step s es = some s' ∧ I s' := by
  induction es generalizing s with
  | nil => exact ⟨trivial, s, rfl, hI⟩
  | cons e es ih =>
    obtain ⟨hce, hrest⟩ := hC
    obtain ⟨hD, s', hs', hI'⟩ := hstep s e hI hce
    obtain ⟨hDs, s'', hexec, hI''⟩ := ih hI' (hrest s' hs')
    refine ⟨⟨hD, fun s1 hs1 => ?_⟩, s'', ?_, hI''⟩
    · rw [hs'] at hs1
      cases hs1
      exact hDs
    · rw [exec, hs']
      exact hexec

theorem Guarded.cons {e : ε} (h : step s e = some s') (hC : C s e) (hrest : Guarded step C s' es) :
    Guarded step C s (e :: es) := by
  refine ⟨hC, fun s1 h1 => ?_⟩
  rw [h] at h1
  cases h1
  exact hrest

section

/-! The machines of a common state stand in a list; the one that moves is replaced. -/

variable {α : Type} {l : List α} {x x' : α} {p : α → Prop} {k : Nat}

theorem exists_set_iff (hk : l[k]? = some x) (j : Nat) :
    (∃ y, (l.set k x')[j]? = some y ∧ p y) ↔ if j = k then p x' else ∃ y, l[j]? = some y ∧ p y := by
  by_cases hjk : j = k
  · subst hjk
    simp [(List.getElem?_eq_some_iff.mp hk).1]
  · simp [hjk, Ne.symm hjk]

theorem exists_append_iff (hx : ¬ p x) (j : Nat) :
    (∃ y, (l ++ [x])[j]? = some y ∧ p y) ↔ ∃ y, l[j]? = some y ∧ p y := by
  rw [List.getElem?_append]
  split
  · rfl
  · next hge =>
    rw [List.getElem?_eq_none (Nat.not_lt.mp hge)]
    refine iff_of_false ?_ (by simp)
    rintro ⟨y, hy, hp⟩
    exact hx (List.mem_singleton.mp (List.mem_of_getElem? hy) ▸ hp)

end

/-- **The exact condition.**  If, in a state with the invariant and `P`, a step keeps `P` just
when it meets `C`, then a run has `P` throughout just when each of its steps meets `C`. -/
theorem throughout_iff_eachStep (hstep : ∀ s e s', I s → step s e = some s' → I s')
    (hexact : ∀ s e s', I s → P s → step s e = some s' → (P s' ↔ C s e)) (hI : I s) (hP : P s)
    (es : List ε) : Throughout step P s es ↔ EachStep step C s es := by
  induction es generalizing s with
  | nil => exact ⟨fun _ => trivial, fun _ => hP⟩
  | cons e es ih =>
    constructor
    · rintro ⟨-, hrest⟩ s' hs'
      have hP' : P s' := (hrest s' hs').first
      exact ⟨(hexact s e s' hI hP hs').mp hP', (ih (hstep s e s' hI hs') hP').mp (hrest s' hs')⟩
    · intro hC
      refine ⟨hP, fun s' hs' => ?_⟩
      obtain ⟨hce, hrest⟩ := hC s' hs'
      exact (ih (hstep s e s' hI hs') ((hexact s e s' hI hP hs').mpr hce)).mpr hrest

/-- **The exact condition, where the invariant depends on it.**  If, at every event with `A`, a step
that meets `C` keeps the invariant and one that does not breaks `P`, then a run of such events has
`P` throughout just when each of its steps meets `C`. -/
theorem throughout_iff_of_breaks {A : ε → Prop} (hP : ∀ s, I s → P s)
    (hkeep : ∀ s e s', A e → I s → C s e → step s e = some s' → I s')
    (hbreak : ∀ s e s', A e → I s → ¬ C s e → step s e = some s' → ¬ P s') (hI : I s)
    (hes : ∀ e ∈ es, A e) : Throughout step P s es ↔ EachStep step C s es := by
  induction es generalizing s with
  | nil => exact ⟨fun _ => trivial, fun _ => hP s hI⟩
  | cons e es ih =>
    obtain ⟨he, hes⟩ := List.forall_mem_cons.mp hes
    constructor
    · intro h s' hs'
      have hC : C s e := by
        by_contra hC
        exact hbreak s e s' he hI hC hs' (h.2 s' hs').first
      exact ⟨hC, (ih (hkeep s e s' he hI hC hs') hes).mp (h.2 s' hs')⟩
    · intro h
      refine ⟨hP s hI, fun s' hs' => ?_⟩
      obtain ⟨hC, hrest⟩ := h s' hs'
      exact (ih (hkeep s e s' he hI hC hs') hes).mpr hrest

end Pvfs.Lib
