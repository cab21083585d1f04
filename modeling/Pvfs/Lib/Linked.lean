import Mathlib.Logic.Relation
import Mathlib.Tactic.Common

/-! # Records with two links

A store of records, each with data and two links to other records, either of which may be
missing. Two stores hold the same structure at `a` and at `b` if the records reachable from
them correspond one to one, with the same data and corresponding links: `Iso`. The
correspondence carries over all that can be said by following links; what is used of it here
is how long a path can be, `Within`, since that is what a recursion along the links needs in
order to come to its end. -/

namespace Pvfs.Lib

/-- Records with two links each. -/
structure Linked (α : Type) where
  data : Nat → α
  left : Nat → Option Nat
  right : Nat → Option Nat

namespace Linked

variable {α : Type} {g h k : Linked α} {a b c x y : Nat} {φ ψ : Nat → Nat}

def Edge (g : Linked α) (a b : Nat) : Prop := g.left a = some b ∨ g.right a = some b

def Reach (g : Linked α) : Nat → Nat → Prop := Relation.ReflTransGen g.Edge

theorem reach_refl (g : Linked α) (a : Nat) : g.Reach a a := .refl

/-- Every path from the record has less than so many links. -/
def Within (g : Linked α) : Nat → Nat → Prop
  | 0, _ => False
  | n + 1, a => ∀ b, g.Edge a b → Within g n b

/-- The records reachable from `a` and from `b`, one to one. -/
structure Iso (g h : Linked α) (a b : Nat) (φ : Nat → Nat) : Prop where
  root : φ a = b
  data : ∀ x, g.Reach a x → h.data (φ x) = g.data x
  left : ∀ x, g.Reach a x → h.left (φ x) = (g.left x).map φ
  right : ∀ x, g.Reach a x → h.right (φ x) = (g.right x).map φ
  inj : ∀ x y, g.Reach a x → g.Reach a y → φ x = φ y → x = y

section
variable (i : Iso g h a b φ)
include i

theorem Iso.data_root : h.data b = g.data a := by
  rw [← i.data a (g.reach_refl a), i.root]

theorem Iso.edge (hx : g.Reach a x) (he : h.Edge (φ x) y) : ∃ z, g.Edge x z ∧ φ z = y := by
  rcases he with hl | hr
  · rw [i.left x hx] at hl
    obtain ⟨z, hz, rfl⟩ := Option.map_eq_some_iff.mp hl
    exact ⟨z, .inl hz, rfl⟩
  · rw [i.right x hx] at hr
    obtain ⟨z, hz, rfl⟩ := Option.map_eq_some_iff.mp hr
    exact ⟨z, .inr hz, rfl⟩

theorem Iso.edge_map (hx : g.Reach a x) (he : g.Edge x y) : h.Edge (φ x) (φ y) := by
  rcases he with hl | hr
  · exact .inl (by rw [i.left x hx, hl]; rfl)
  · exact .inr (by rw [i.right x hx, hr]; rfl)

theorem Iso.surj (hy : h.Reach b y) : ∃ x, g.Reach a x ∧ φ x = y := by
  induction hy with
  | refl => exact ⟨a, g.reach_refl a, i.root⟩
  | tail _ he ih =>
    obtain ⟨x, hx, rfl⟩ := ih
    obtain ⟨z, hz, rfl⟩ := i.edge hx he
    exact ⟨z, hx.tail hz, rfl⟩

theorem Iso.reach (hx : g.Reach a x) : h.Reach b (φ x) := by
  induction hx with
  | refl =>
    rw [i.root]
    exact h.reach_refl b
  | tail hy he ih => exact ih.tail (i.edge_map hy he)

theorem Iso.within {n : Nat} (hx : g.Reach a x) (hw : g.Within n x) : h.Within n (φ x) := by
  induction n generalizing x with
  | zero => exact hw
  | succ n ih =>
    intro y hy
    obtain ⟨z, hz, rfl⟩ := i.edge hx hy
    exact ih (hx.tail hz) (hw z hz)

theorem Iso.trans (j : Iso h k b c ψ) : Iso g k a c (ψ ∘ φ) where
  root := by rw [Function.comp_apply, i.root, j.root]
  data x hx := by rw [Function.comp_apply, j.data _ (i.reach hx), i.data x hx]
  left x hx := by rw [Function.comp_apply, j.left _ (i.reach hx), i.left x hx, Option.map_map]
  right x hx := by rw [Function.comp_apply, j.right _ (i.reach hx), i.right x hx, Option.map_map]
  inj x y hx hy he := i.inj x y hx hy (j.inj _ _ (i.reach hx) (i.reach hy) he)

end

theorem Iso.of_agree (hd : ∀ x, g.Reach a x → h.data x = g.data x)
    (hl : ∀ x, g.Reach a x → h.left x = g.left x)
    (hr : ∀ x, g.Reach a x → h.right x = g.right x) : Iso g h a a id where
  root := rfl
  data := hd
  left x hx := by rw [id, hl x hx, Option.map_id_fun, id]
  right x hx := by rw [id, hr x hx, Option.map_id_fun, id]
  inj _ _ _ _ he := he

/-- The same records, with less to tell about each. -/
def map {β : Type} (f : α → β) (g : Linked α) : Linked β := ⟨fun a => f (g.data a), g.left, g.right⟩

theorem Iso.map {β : Type} (f : α → β) (i : Iso g h a b φ) : Iso (g.map f) (h.map f) a b φ where
  root := i.root
  data x hx := congrArg f (i.data x hx)
  left := i.left
  right := i.right
  inj := i.inj

theorem within_of_down (hdown : ∀ x y, g.Reach a x → g.Edge x y → y < x) :
    g.Within (a + 1) a := by
  have key : ∀ n x, g.Reach a x → x < n → g.Within n x := by
    intro n
    induction n with
    | zero => intro x _ hx; cases hx
    | succ n ih =>
      intro x hr hx y he
      exact ih y (hr.tail he) (Nat.lt_of_lt_of_le (hdown x y hr he) (Nat.lt_succ_iff.mp hx))
  exact key (a + 1) a (g.reach_refl a) (Nat.lt_succ_self a)

end Linked

end Pvfs.Lib
