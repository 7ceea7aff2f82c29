/-
CcNvme/Lib/Bytes.lean

Byte memories.  A memory gives the byte at every address; `copy` is `memcpy`,
`read` and `write` are little-endian loads and stores of any width.  Each of the
two updates has a lemma for the addresses it covers and one for all others, and
`read_congr` turns facts about bytes into facts about loads.
-/
import Mathlib.Data.Nat.Basic
import Mathlib.Tactic.Ring

namespace Bytes

/-- The byte at every address. -/
abbrev Mem := ℕ → UInt8

/-- Copy the `len` bytes at `src` of the memory `s` to `dst`. -/
def copy (m : Mem) (dst : ℕ) (s : Mem) (src len : ℕ) : Mem :=
  fun a => if dst ≤ a ∧ a < dst + len then s (src + (a - dst)) else m a

/-- Store the low `n` bytes of `v` at `a`, the lowest first. -/
def write (m : Mem) (a n v : ℕ) : Mem :=
  fun x => if a ≤ x ∧ x < a + n then UInt8.ofNat (v / 256 ^ (x - a)) else m x

/-- Load `n` bytes at `a`, the lowest first. -/
def read (m : Mem) : ℕ → ℕ → ℕ
  | _, 0 => 0
  | a, n + 1 => (m a).toNat + 256 * read m (a + 1) n

/-! ### Single bytes -/

theorem copy_inside (m s : Mem) {dst src len j : ℕ} (hj : j < len) :
    copy m dst s src len (dst + j) = s (src + j) := by
  rw [copy, if_pos ⟨by omega, by omega⟩, Nat.add_sub_cancel_left]

theorem copy_outside (m s : Mem) {dst src len x : ℕ} (hx : x < dst ∨ dst + len ≤ x) :
    copy m dst s src len x = m x :=
  if_neg (by omega)

theorem write_inside (m : Mem) {a n j : ℕ} (v : ℕ) (hj : j < n) :
    write m a n v (a + j) = UInt8.ofNat (v / 256 ^ j) := by
  rw [write, if_pos ⟨by omega, by omega⟩, Nat.add_sub_cancel_left]

theorem write_outside (m : Mem) {a n x : ℕ} (v : ℕ) (hx : x < a ∨ a + n ≤ x) :
    write m a n v x = m x :=
  if_neg (by omega)

/-! ### Loads -/

theorem read_congr {m m' : Mem} {a b n : ℕ} (h : ∀ j < n, m (a + j) = m' (b + j)) :
    read m a n = read m' b n := by
  induction n generalizing a b with
  | zero => rfl
  | succ n ih =>
      have h0 : m a = m' b := h 0 (by omega)
      rw [read, read, h0, ih fun j hj => ?_]
      have := h (j + 1) (by omega)
      rwa [show a + 1 + j = a + (j + 1) by omega, show b + 1 + j = b + (j + 1) by omega]

theorem read_lt (m : Mem) (a n : ℕ) : read m a n < 256 ^ n := by
  induction n generalizing a with
  | zero => exact Nat.one_pos
  | succ n ih =>
      have hb : (m a).toNat < 256 := (m a).toNat_lt
      have hn := ih (a + 1)
      rw [read, Nat.pow_succ]
      omega

/-- A load is two shorter ones side by side. -/
theorem read_add (m : Mem) (a n k : ℕ) :
    read m a (n + k) = read m a n + 256 ^ n * read m (a + n) k := by
  induction n generalizing a with
  | zero => simp [read]
  | succ n ih =>
      rw [show n + 1 + k = (n + k) + 1 by omega, read, read, ih,
        show a + 1 + n = a + (n + 1) by omega]
      ring

/-- The bytes of a loaded number are those of the memory. -/
theorem byte_of_read (m : Mem) (a : ℕ) {n j : ℕ} (hj : j < n) :
    UInt8.ofNat (read m a n / 256 ^ j) = m (a + j) := by
  obtain ⟨k, rfl⟩ := Nat.exists_eq_add_of_lt hj
  rw [show j + k + 1 = j + (k + 1) by omega, read_add,
    Nat.add_mul_div_left _ _ (Nat.pow_pos (by decide)), Nat.div_eq_of_lt (read_lt m a j),
    Nat.zero_add, read, UInt8.ofNat_add, UInt8.ofNat_mul]
  simp

/-- Storing what is there already changes nothing. -/
theorem write_read (m : Mem) (a n : ℕ) : write m a n (read m a n) = m := by
  funext x
  rcases lt_or_ge x a with hx | hx
  · exact write_outside m _ (Or.inl hx)
  · obtain ⟨j, rfl⟩ := Nat.exists_eq_add_of_le hx
    rcases lt_or_ge j n with hj | hj
    · rw [write_inside m _ hj, byte_of_read m a hj]
    · exact write_outside m _ (by omega)

/-- A load of the bytes of `v`. -/
theorem read_eq_mod {m : Mem} {a n v : ℕ} (h : ∀ j < n, m (a + j) = UInt8.ofNat (v / 256 ^ j)) :
    read m a n = v % 256 ^ n := by
  induction n generalizing a v with
  | zero => rw [read, Nat.pow_zero, Nat.mod_one]
  | succ n ih =>
      have h0 : (m a).toNat = v % 256 := by
        have := h 0 (by omega)
        rw [Nat.add_zero, Nat.pow_zero, Nat.div_one] at this
        rw [this, UInt8.toNat_ofNat']
      have hrest : read m (a + 1) n = v / 256 % 256 ^ n := by
        refine ih fun j hj => ?_
        rw [Nat.div_div_eq_div_mul, ← Nat.pow_succ', show a + 1 + j = a + (j + 1) by omega]
        exact h (j + 1) (by omega)
      rw [read, h0, hrest, Nat.pow_succ', Nat.mod_mul]

/-- What was stored is loaded, cut to the width. -/
theorem read_write_self (m : Mem) (a n v : ℕ) : read (write m a n v) a n = v % 256 ^ n :=
  read_eq_mod fun _ hj => write_inside m v hj

/-- A load next to a store does not see it. -/
theorem read_write_of_apart (m : Mem) {a n b k : ℕ} (v : ℕ) (h : b + k ≤ a ∨ a + n ≤ b) :
    read (write m a n v) b k = read m b k :=
  read_congr fun j hj => write_outside m v (by omega)

end Bytes
