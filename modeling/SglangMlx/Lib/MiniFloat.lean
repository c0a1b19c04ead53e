import SglangMlx.Lib.Rounding

/- Binary floating-point formats of `expBits` exponent bits and `manBits` mantissa bits.
   Without the sign, the code of a finite number counts the numbers below it: magnitudes
   are the points of an increasing grid of integers (`grid`), times the smallest positive
   number. Nothing here names the program that uses it. -/
namespace MiniFloat

/-- What a code stands for; zero has a sign too. -/
inductive FloatValue where
  | nan
  | inf (negative : Bool)
  | finite (negative : Bool) (magnitude : ℚ)
  deriving DecidableEq, Repr

/-- The number, if there is one. -/
def FloatValue.toRat : FloatValue → Option ℚ
  | finite negative magnitude => some (Rounding.signed negative magnitude)
  | _ => none

/-- Magnitude `n` in units of the smallest positive number. -/
def grid (manBits n : Nat) : Nat :=
  if n < 2 ^ manBits then n else (2 ^ manBits + n % 2 ^ manBits) * 2 ^ (n / 2 ^ manBits - 1)

/-- The smallest positive number. -/
def unit (manBits bias : Nat) : ℚ := (2 : ℚ) ^ (1 - bias - manBits : Int)

/-- The number of magnitudes, and the code of infinity. -/
def finiteCount (expBits manBits : Nat) : Nat := (2 ^ expBits - 1) * 2 ^ manBits

/-- The code `v` of `1 + expBits + manBits` bits: sign, exponent, mantissa. -/
def decode (expBits manBits bias v : Nat) : FloatValue :=
  let negative := v / 2 ^ (expBits + manBits) % 2 == 1
  let n := v % 2 ^ (expBits + manBits)
  if n < finiteCount expBits manBits then .finite negative (grid manBits n * unit manBits bias)
  else if n = finiteCount expBits manBits then .inf negative
  else .nan

theorem decode_split {expBits manBits bias s n : Nat} (hs : s < 2) (hn : n < 2 ^ (expBits + manBits)) :
    decode expBits manBits bias (s * 2 ^ (expBits + manBits) + n) =
      if n < finiteCount expBits manBits then .finite (s == 1) (grid manBits n * unit manBits bias)
      else if n = finiteCount expBits manBits then .inf (s == 1)
      else .nan := by
  have hpos := Nat.two_pow_pos (expBits + manBits)
  have hdiv : (s * 2 ^ (expBits + manBits) + n) / 2 ^ (expBits + manBits) % 2 = s := by
    rw [Nat.mul_comm, Nat.mul_add_div hpos, Nat.div_eq_of_lt hn, Nat.add_zero, Nat.mod_eq_of_lt hs]
  have hmod : (s * 2 ^ (expBits + manBits) + n) % 2 ^ (expBits + manBits) = n := by
    rw [Nat.mul_comm, Nat.mul_add_mod, Nat.mod_eq_of_lt hn]
  rw [decode, hdiv, hmod]

variable {manBits : Nat}

theorem grid_of_le {n : Nat} (h : n ≤ 2 ^ manBits) : grid manBits n = n := by
  rw [grid]
  split
  · rfl
  · obtain rfl : n = 2 ^ manBits := by omega
    rw [Nat.mod_self, Nat.div_self (Nat.two_pow_pos manBits)]
    omega

/-- Exponent `e` and mantissa `r`, with the implicit bit. -/
theorem grid_normal {e r : Nat} (he : 0 < e) (hr : r < 2 ^ manBits) :
    grid manBits (e * 2 ^ manBits + r) = (2 ^ manBits + r) * 2 ^ (e - 1) := by
  have hle : 2 ^ manBits ≤ e * 2 ^ manBits := Nat.le_mul_of_pos_left _ he
  have hdiv : (e * 2 ^ manBits + r) / 2 ^ manBits = e := by
    rw [Nat.mul_comm, Nat.mul_add_div (Nat.two_pow_pos manBits), Nat.div_eq_of_lt hr, Nat.add_zero]
  have hmod : (e * 2 ^ manBits + r) % 2 ^ manBits = r := by
    rw [Nat.mul_comm, Nat.mul_add_mod, Nat.mod_eq_of_lt hr]
  rw [grid, if_neg (by omega), hdiv, hmod]

theorem grid_succ (n : Nat) : grid manBits (n + 1) = grid manBits n + 2 ^ (n / 2 ^ manBits - 1) := by
  have hpos := Nat.two_pow_pos manBits
  by_cases hlt : n < 2 ^ manBits
  · rw [grid_of_le hlt, grid_of_le hlt.le, Nat.div_eq_of_lt hlt]
    rfl
  · obtain ⟨e, he⟩ : ∃ e, n / 2 ^ manBits = e + 1 :=
      Nat.exists_eq_add_one.mpr (Nat.div_pos (Nat.le_of_not_lt hlt) hpos)
    have hr := Nat.mod_lt n hpos
    have hn : n = (e + 1) * 2 ^ manBits + n % 2 ^ manBits := by rw [← he, Nat.mul_comm, Nat.div_add_mod]
    rw [he, Nat.add_sub_cancel]
    generalize n % 2 ^ manBits = r at hr hn
    obtain rfl := hn
    rw [grid_normal (by omega) hr, Nat.add_sub_cancel]
    by_cases hlast : r + 1 < 2 ^ manBits
    · rw [Nat.add_assoc, grid_normal (by omega) hlast, Nat.add_sub_cancel]
      ring
    · -- a carry into the exponent
      have hcarry : (e + 1) * 2 ^ manBits + r + 1 = (e + 2) * 2 ^ manBits + 0 := by
        have hr1 : r + 1 = 2 ^ manBits := by omega
        rw [Nat.add_assoc, hr1]
        ring
      have hdouble : 2 ^ manBits + r + 1 = 2 * 2 ^ manBits := by omega
      rw [hcarry, grid_normal (by omega) hpos, Nat.add_zero, ← Nat.succ_mul, Nat.succ_eq_add_one, hdouble]
      show 2 ^ manBits * 2 ^ (e + 1) = 2 * 2 ^ manBits * 2 ^ e
      ring

theorem grid_strictMono : StrictMono (grid manBits) :=
  strictMono_nat_of_lt_succ fun n => by
    rw [grid_succ]
    exact Nat.lt_add_of_pos_right (Nat.two_pow_pos _)

theorem unit_pos (manBits bias : Nat) : 0 < unit manBits bias := zpow_pos (by norm_num) _

/-- The unit of a coarser format in units of a finer one. -/
theorem unit_mul {manBits bias manBits' bias' k : Nat} (h : manBits + bias + k = manBits' + bias') :
    unit manBits bias = 2 ^ k * unit manBits' bias' := by
  rw [unit, unit, ← zpow_natCast, ← zpow_add₀ (by norm_num)]
  congr 1
  omega

end MiniFloat
