import Mathlib.Data.List.Forall2
import Mathlib.Tactic.Ring

/-! # Numbers as bytes, and records as runs of bytes

A writer moves a pointer through a buffer that holds whatever was there before. Some bytes
it sets, others it steps over, so what it leaves is a `Patch`: for each byte the value it
gets, or `none` if it keeps its old one. `Fills p bs` says that `bs` may stand in the buffer
afterwards.

A reader moves a pointer through a buffer too. It fails when it looks at a byte that is not
there, but the pointer itself may go anywhere. `Reads d bs a` says that wherever the bytes
`bs` stand in a buffer, `d` takes `a` from them and moves past just these bytes. Reading
what was written is a matter of putting such facts together: `Reads.bind`. -/

namespace Pvfs.Lib

open List

/-! ## Little endian -/

/-- The `w` bytes of a number, the lowest first. -/
def leBytes : Nat → Nat → List UInt8
  | 0, _ => []
  | w + 1, n => UInt8.ofNat n :: leBytes w (n / 256)

def ofLeBytes : List UInt8 → Nat
  | [] => 0
  | b :: bs => b.toNat + 256 * ofLeBytes bs

@[simp] theorem length_leBytes (w n : Nat) : (leBytes w n).length = w := by
  induction w generalizing n with
  | zero => rfl
  | succ w ih => rw [leBytes, length_cons, ih]

theorem ofLeBytes_leBytes (w n : Nat) : ofLeBytes (leBytes w n) = n % 256 ^ w := by
  induction w generalizing n with
  | zero => rw [Nat.pow_zero, Nat.mod_one]; rfl
  | succ w ih =>
    have hpow : 256 ^ (w + 1) = 256 * 256 ^ w := Nat.pow_succ'
    rw [leBytes, ofLeBytes, ih, UInt8.toNat_ofNat', hpow, Nat.mod_mul]

theorem ofLeBytes_leBytes_of_lt {w n : Nat} (h : n < 256 ^ w) : ofLeBytes (leBytes w n) = n := by
  rw [ofLeBytes_leBytes, Nat.mod_eq_of_lt h]

theorem ofLeBytes_lt (bs : List UInt8) : ofLeBytes bs < 256 ^ bs.length := by
  induction bs with
  | nil => exact Nat.one_pos
  | cons b bs ih =>
    have hb : b.toNat < 256 := b.toNat_lt
    have hpow : 256 ^ (b :: bs).length = 256 * 256 ^ bs.length := Nat.pow_succ'
    rw [ofLeBytes]
    omega

/-! ## Patches -/

/-- What a writer does to the bytes its pointer passes. -/
abbrev Patch : Type := List (Option UInt8)

/-- `bs` is what stands in the buffer after the patch, over some previous content. -/
def Fills (p : Patch) (bs : List UInt8) : Prop := List.Forall₂ (fun o b => ∀ x ∈ o, x = b) p bs

def setBytes (bs : List UInt8) : Patch := bs.map some

/-- The patch that steps over `n` bytes. -/
def stepOver (n : Nat) : Patch := List.replicate n none

@[simp] theorem length_stepOver (n : Nat) : (stepOver n).length = n := length_replicate

variable {bs : List UInt8}

theorem Fills.length_eq {p : Patch} (h : Fills p bs) : p.length = bs.length :=
  List.Forall₂.length_eq h

@[simp] theorem fills_nil : Fills [] bs ↔ bs = [] :=
  List.forall₂_nil_left_iff

@[simp] theorem fills_setBytes {bs' : List UInt8} : Fills (setBytes bs) bs' ↔ bs' = bs := by
  induction bs generalizing bs' with
  | nil => exact fills_nil
  | cons b bs ih =>
    rw [setBytes, map_cons, Fills, List.forall₂_cons_left_iff]
    constructor
    · rintro ⟨b', l, hb, hl, rfl⟩
      rw [ih.mp hl, hb b rfl]
    · rintro rfl
      exact ⟨b, bs, fun x hx => (Option.some.inj hx).symm, ih.mpr rfl, rfl⟩

theorem fills_stepOver {n : Nat} : Fills (stepOver n) bs ↔ bs.length = n := by
  constructor
  · intro h
    simpa using h.length_eq.symm
  · rintro rfl
    induction bs with
    | nil => exact .nil
    | cons b bs ih => exact .cons (fun x hx => by cases hx) ih

theorem fills_append {p q : Patch} :
    Fills (p ++ q) bs ↔ ∃ bs1 bs2, bs = bs1 ++ bs2 ∧ Fills p bs1 ∧ Fills q bs2 := by
  constructor
  · intro h
    induction p generalizing bs with
    | nil => exact ⟨[], bs, rfl, .nil, h⟩
    | cons o p ih =>
      rw [cons_append, Fills, List.forall₂_cons_left_iff] at h
      obtain ⟨b, l, hb, hl, rfl⟩ := h
      obtain ⟨bs1, bs2, rfl, h1, h2⟩ := ih hl
      exact ⟨b :: bs1, bs2, rfl, .cons hb h1, h2⟩
  · rintro ⟨bs1, bs2, rfl, h1, h2⟩
    exact rel_append h1 h2

/-! ## Decoders -/

/-- A reader of a buffer, from a position on. It returns the position it has come to, or
nothing if it has looked at a byte beyond the end. -/
def Decoder (α : Type) : Type := List UInt8 → Nat → Option (α × Nat)

namespace Decoder

variable {α β : Type}

instance : Monad Decoder where
  pure a := fun _ pos => some (a, pos)
  bind d f := fun buf pos => (d buf pos).bind fun r => f r.1 buf r.2

/-- The next `w` bytes. -/
def bytes (w : Nat) : Decoder (List UInt8) := fun buf pos =>
  if pos + w ≤ buf.length then some ((buf.drop pos).take w, pos + w) else none

def skip (w : Nat) : Decoder Unit := fun _ pos => some ((), pos + w)

/-- An unsigned number of `w` bytes. -/
def uint (w : Nat) : Decoder Nat := do
  let bs ← bytes w
  pure (ofLeBytes bs)

/-- A signed number of `w` bytes, in two's complement. -/
def int (w : Nat) : Decoder Int := do
  let n ← uint w
  pure (Int.bmod n (256 ^ w))

/-- Wherever `bs` stands, `d` reads `a` from it and moves past it. -/
def Reads (d : Decoder α) (bs : List UInt8) (a : α) : Prop :=
  ∀ pre post, d (pre ++ (bs ++ post)) pre.length = some (a, pre.length + bs.length)

theorem Reads.pure (a : α) : Reads (pure a) [] a := fun _ _ => rfl

/-- **Reading one thing after the other.** -/
theorem Reads.bind {d : Decoder α} {f : α → Decoder β} {bs1 bs2 : List UInt8} {a : α} {b : β}
    (hd : Reads d bs1 a) (hf : Reads (f a) bs2 b) : Reads (d >>= f) (bs1 ++ bs2) b := by
  intro pre post
  have h1 := hd pre (bs2 ++ post)
  have h2 := hf (pre ++ bs1) post
  rw [length_append] at h2
  rw [append_assoc] at h2 ⊢
  show (d (pre ++ (bs1 ++ (bs2 ++ post))) pre.length).bind _ = _
  rw [h1, Option.bind_some, h2, length_append, Nat.add_assoc]

theorem reads_bytes (bs : List UInt8) : Reads (bytes bs.length) bs bs := by
  intro pre post
  rw [bytes, if_pos (by simp [length_append]), drop_left, take_left]

theorem reads_skip (bs : List UInt8) : Reads (skip bs.length) bs () := fun _ _ => rfl

theorem reads_uint (w n : Nat) : Reads (uint w) (leBytes w n) (n % 256 ^ w) := by
  have hb : Reads (uint w) (leBytes w n ++ []) (ofLeBytes (leBytes w n)) := by
    refine Reads.bind ?_ (.pure _)
    have := reads_bytes (leBytes w n)
    rwa [length_leBytes] at this
  rwa [append_nil, ofLeBytes_leBytes] at hb

end Decoder

def leInt (w : Nat) (x : Int) : List UInt8 := leBytes w (x % (256 ^ w : Nat)).toNat

theorem Decoder.reads_int (w : Nat) (x : Int) :
    Reads (int w) (leInt w x) (Int.bmod x (256 ^ w)) := by
  have hpos : 0 < 256 ^ w := Nat.pow_pos (by decide)
  have hmod : 0 ≤ x % (256 ^ w : Nat) := Int.emod_nonneg _ (by omega)
  have hb : Reads (int w) (leInt w x ++ [])
      (Int.bmod ((x % (256 ^ w : Nat)).toNat % 256 ^ w : Nat) (256 ^ w)) :=
    Reads.bind (reads_uint w _) (.pure _)
  rwa [append_nil, Nat.mod_eq_of_lt (by omega), Int.toNat_of_nonneg hmod, Int.emod_bmod] at hb

/-! ## Reading what was written -/

/-- Whatever the buffer held before, `d` reads `a` from what the patch has made of it. -/
def Codes {α : Type} (p : Patch) (d : Decoder α) (a : α) : Prop :=
  ∀ bs, Fills p bs → d.Reads bs a

section
variable {α β : Type} {p q : Patch} {a : α} {b : β}

theorem Codes.pure (a : α) : Codes [] (pure a) a := by
  intro bs h
  rw [fills_nil.mp h]
  exact Decoder.Reads.pure a

theorem Codes.bind {d : Decoder α} {f : α → Decoder β} (hd : Codes p d a) (hf : Codes q (f a) b) :
    Codes (p ++ q) (d >>= f) b := by
  intro bs h
  obtain ⟨bs1, bs2, rfl, h1, h2⟩ := fills_append.mp h
  exact (hd bs1 h1).bind (hf bs2 h2)

theorem codes_uint (w n : Nat) : Codes (setBytes (leBytes w n)) (.uint w) (n % 256 ^ w) := by
  intro bs h
  rw [fills_setBytes.mp h]
  exact Decoder.reads_uint w n

theorem codes_int (w : Nat) (x : Int) :
    Codes (setBytes (leInt w x)) (.int w) (Int.bmod x (256 ^ w)) := by
  intro bs h
  rw [fills_setBytes.mp h]
  exact Decoder.reads_int w x

theorem codes_skip (n : Nat) : Codes (stepOver n) (.skip n) () := by
  intro bs h
  obtain rfl := fills_stepOver.mp h
  exact Decoder.reads_skip bs

end

end Pvfs.Lib
