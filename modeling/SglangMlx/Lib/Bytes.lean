import Mathlib

/- Numbers in a memory of bytes, low byte first. Nothing here names the program that
   uses it. -/
namespace Bytes

/-- The number in the `n` bytes from address `a` on. -/
def number (bytes : Int → Fin 256) (a : Int) : Nat → Nat
  | 0 => 0
  | n + 1 => bytes a + 256 * number bytes (a + 1) n

/-- Digit `i` of a number. -/
def digit (v i : Nat) : Nat := v / 256 ^ i % 256

/-- Consecutive digits in memory are read as the part of the number they make up. -/
theorem number_of_digits {bytes : Int → Fin 256} {v : Nat} : ∀ {n r : Nat} {a : Int},
    (∀ i < n, (bytes (a + i) : Nat) = digit v (r + i)) → number bytes a n = v / 256 ^ r % 256 ^ n := by
  intro n
  induction n with
  | zero => exact fun _ => (Nat.mod_one _).symm
  | succ n ih =>
    intro r a h
    have hfirst := h 0 n.succ_pos
    rw [Nat.cast_zero, add_zero, add_zero, digit] at hfirst
    have hrest : number bytes (a + 1) n = v / 256 ^ (r + 1) % 256 ^ n := ih fun i hi => by
      have hi' := h (i + 1) (Nat.succ_lt_succ hi)
      rwa [Nat.cast_succ, add_comm (i : Int) 1, ← add_assoc, add_comm i 1, ← add_assoc] at hi'
    rw [number, hfirst, hrest, pow_succ 256 r, ← Nat.div_div_eq_div_mul, pow_succ' 256 n, Nat.mod_mul]

theorem number_ne_zero {bytes : Int → Fin 256} : ∀ {n i : Nat} {a : Int}, i < n → bytes (a + i) ≠ 0 →
    number bytes a n ≠ 0 := by
  intro n
  induction n with
  | zero => exact fun hi => absurd hi (Nat.not_lt_zero _)
  | succ n ih =>
    intro i a hi hne hzero
    obtain ⟨hfirst, hrest⟩ : (bytes a : Nat) = 0 ∧ number bytes (a + 1) n = 0 := by
      rw [number] at hzero
      omega
    cases i with
    | zero =>
      rw [Nat.cast_zero, add_zero] at hne
      exact hne (Fin.ext hfirst)
    | succ i =>
      rw [Nat.cast_succ, add_comm (i : Int) 1, ← add_assoc] at hne
      exact ih (Nat.lt_of_succ_lt_succ hi) hne hrest

/-! ## Tables of numbers -/

/-- The memory holds the numbers `value 0, …, value (n - 1)` in `size` bytes each. -/
def Holds (bytes : Int → Fin 256) (size n : Nat) (value : Nat → Nat) : Prop :=
  ∀ k < n, ∀ i < size, (bytes (size * k + i : Nat) : Nat) = digit (value k) i

theorem Holds.number {bytes : Int → Fin 256} {width m n : Nat} {value : Nat → Nat}
    (h : Holds bytes (width * m) n value) {k r : Nat} (hk : k < n) (hr : r < m) :
    number bytes (width * (m * k + r) : Nat) width = value k / 256 ^ (width * r) % 256 ^ width := by
  apply number_of_digits
  intro i hi
  have hlt : width * r + i < width * m :=
    calc width * r + i < width * r + width := Nat.add_lt_add_left hi _
      _ = width * (r + 1) := rfl
      _ ≤ width * m := Nat.mul_le_mul_left _ hr
  have haddr : width * (m * k + r) + i = width * m * k + (width * r + i) := by ring
  rw [← h k hk _ hlt, ← Nat.cast_add, haddr]

/-- A memory that holds the numbers, with `outside` in all other bytes. -/
def table (outside : Fin 256) (size n : Nat) (value : Nat → Nat) (a : Int) : Fin 256 :=
  if 0 ≤ a ∧ a < size * n then ⟨digit (value (a.toNat / size)) (a.toNat % size), Nat.mod_lt _ (by decide)⟩
  else outside

theorem holds_table {outside : Fin 256} {size n : Nat} {value : Nat → Nat} :
    Holds (table outside size n value) size n value := by
  intro k hk i hi
  have hlt : size * k + i < size * n :=
    calc size * k + i < size * k + size := Nat.add_lt_add_left hi _
      _ = size * (k + 1) := rfl
      _ ≤ size * n := Nat.mul_le_mul_left _ hk
  have hpos : 0 < size := Nat.zero_lt_of_lt hi
  rw [table, if_pos ⟨Int.natCast_nonneg _, by exact_mod_cast hlt⟩]
  show digit (value ((size * k + i) / size)) ((size * k + i) % size) = _
  rw [Nat.mul_add_div hpos, Nat.div_eq_of_lt hi, Nat.add_zero, Nat.mul_add_mod, Nat.mod_eq_of_lt hi]

end Bytes
