import Mathlib.Tactic.Common

/-! # Files and buffers of bytes

A buffer is what a pointer points to: a byte at every index. A file has a length, and a byte below
it. `pread` fills a part of a buffer and stops at the end of the file, so that the rest of that
part keeps what was there before; `pwrite` puts bytes into the file and makes it longer where
they end behind it, with zeros in between. -/

namespace Pvfs.Lib

abbrev Buffer := Nat → UInt8

namespace Buffer

/-- Put the bytes `src` to `n` places from `start` on (`memcpy`, `memset`). -/
def fill (b : Buffer) (start n : Nat) (src : Nat → UInt8) : Buffer :=
  fun i => if start ≤ i ∧ i < start + n then src (i - start) else b i

variable {b : Buffer} {start n i : Nat} {src : Nat → UInt8}

theorem fill_inside (h : start ≤ i) (h' : i < start + n) : b.fill start n src i = src (i - start) :=
  if_pos ⟨h, h'⟩

theorem fill_outside (h : i < start ∨ start + n ≤ i) : b.fill start n src i = b i := by
  apply if_neg
  rintro ⟨hle, hlt⟩
  omega

end Buffer

structure ByteFile where
  size : Nat
  byte : Nat → UInt8

namespace ByteFile

def get? (f : ByteFile) (p : Nat) : Option UInt8 :=
  if p < f.size then some (f.byte p) else none

/-- Read `n` bytes at `offset` to the place `start` of a buffer. -/
def pread (f : ByteFile) (b : Buffer) (start n offset : Nat) : Buffer :=
  b.fill start (min n (f.size - offset)) fun i => f.byte (offset + i)

/-- Write the first `n` bytes of a buffer to `offset`. -/
def pwrite (f : ByteFile) (b : Buffer) (n offset : Nat) : ByteFile :=
  if n = 0 then f
  else ⟨max f.size (offset + n), fun p =>
    if offset ≤ p ∧ p < offset + n then b (p - offset) else if p < f.size then f.byte p else 0⟩

variable {f : ByteFile} {b : Buffer} {start n offset p i : Nat} {x : UInt8}

theorem get?_eq_some : f.get? p = some x ↔ p < f.size ∧ f.byte p = x := by
  unfold get?
  split
  · next h => simp [h]
  · next h => simp [h]

theorem pread_inside (h : start ≤ i) (h' : i < start + n) :
    f.pread b start n offset i = (f.get? (offset + (i - start))).getD (b i) := by
  unfold get?
  split
  · exact Buffer.fill_inside h (by omega)
  · exact Buffer.fill_outside (by omega)

theorem pread_outside (h : i < start ∨ start + n ≤ i) : f.pread b start n offset i = b i := by
  apply Buffer.fill_outside
  omega

theorem pwrite_inside (h : offset ≤ p) (h' : p < offset + n) :
    (f.pwrite b n offset).get? p = some (b (p - offset)) := by
  have hn : n ≠ 0 := by omega
  rw [get?_eq_some, pwrite, if_neg hn]
  exact ⟨Nat.lt_of_lt_of_le h' (Nat.le_max_right _ _), if_pos ⟨h, h'⟩⟩

theorem pwrite_kept (h : p < offset ∨ offset + n ≤ p) (hx : f.get? p = some x) :
    (f.pwrite b n offset).get? p = some x := by
  obtain ⟨hsize, hbyte⟩ := get?_eq_some.mp hx
  unfold pwrite
  split
  · exact hx
  · rw [get?_eq_some]
    dsimp only
    rw [if_neg (by omega), if_pos hsize]
    exact ⟨by omega, hbyte⟩

theorem pwrite_outside (h : p < offset ∨ offset + n ≤ p) :
    (f.pwrite b n offset).get? p = f.get? p ∨ (f.pwrite b n offset).get? p = some 0 := by
  cases hx : f.get? p with
  | some x => exact .inl (pwrite_kept h hx)
  | none =>
    by_cases hn : n = 0
    · rw [pwrite, if_pos hn]
      exact .inl hx
    · have hsize : ¬ p < f.size := by
        intro hlt
        rw [get?, if_pos hlt] at hx
        cases hx
      rw [pwrite, if_neg hn]
      unfold get?
      dsimp only
      rw [if_neg (show ¬ (offset ≤ p ∧ p < offset + n) by omega)]
      split
      · exact .inr rfl
      · exact .inl rfl

end ByteFile

end Pvfs.Lib
