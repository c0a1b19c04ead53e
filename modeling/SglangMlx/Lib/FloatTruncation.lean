import SglangMlx.Lib.MiniFloat

/- A format whose codes are those of a finer one without their last `k` bits: it has the
   same exponents and shorter mantissas. From one coarse number to the next the fine ones
   are evenly spaced (`grid_mul_add`), so cutting the bits off, with a carry from half on,
   rounds to the nearest number (`between_roundHalfEven`). Nothing here names the program that
   uses it. -/
namespace MiniFloat

open Rounding

variable {manBits k : Nat}

/-- The fine numbers from a coarse one up to the next. -/
theorem grid_mul_add (n : Nat) {j : Nat} (hj : j < 2 ^ k) :
    grid (manBits + k) (n * 2 ^ k + j) = grid manBits n * 2 ^ k + j * 2 ^ (n / 2 ^ manBits - 1) := by
  have hpow : 2 ^ (manBits + k) = 2 ^ manBits * 2 ^ k := pow_add 2 manBits k
  by_cases hlow : n < 2 ^ manBits
  · have hfine : n * 2 ^ k + j < 2 ^ (manBits + k) := by
      calc n * 2 ^ k + j < (n + 1) * 2 ^ k := by rw [Nat.add_mul, Nat.one_mul]; omega
        _ ≤ 2 ^ manBits * 2 ^ k := Nat.mul_le_mul_right _ hlow
        _ = 2 ^ (manBits + k) := hpow.symm
    rw [grid_of_le hfine.le, grid_of_le hlow.le, Nat.div_eq_of_lt hlow]
    simp
  · have hpos := Nat.two_pow_pos manBits
    have he : 0 < n / 2 ^ manBits := Nat.div_pos (Nat.le_of_not_lt hlow) hpos
    have hr := Nat.mod_lt n hpos
    have hn := Nat.div_add_mod' n (2 ^ manBits)
    generalize n / 2 ^ manBits = e at he hn ⊢
    generalize n % 2 ^ manBits = r at hr hn
    obtain rfl := hn
    have hfine : r * 2 ^ k + j < 2 ^ (manBits + k) := by
      calc r * 2 ^ k + j < (r + 1) * 2 ^ k := by rw [Nat.add_mul, Nat.one_mul]; omega
        _ ≤ 2 ^ manBits * 2 ^ k := Nat.mul_le_mul_right _ hr
        _ = 2 ^ (manBits + k) := hpow.symm
    have hsplit : (e * 2 ^ manBits + r) * 2 ^ k + j = e * 2 ^ (manBits + k) + (r * 2 ^ k + j) := by
      rw [hpow]
      ring
    rw [hsplit, grid_normal he hfine, grid_normal he hr, hpow]
    ring

theorem grid_mul (n : Nat) : grid (manBits + k) (n * 2 ^ k) = grid manBits n * 2 ^ k := by
  have h : grid (manBits + k) (n * 2 ^ k + 0) = grid manBits n * 2 ^ k + 0 * 2 ^ (n / 2 ^ manBits - 1) :=
    grid_mul_add n (Nat.two_pow_pos k)
  rwa [Nat.add_zero, Nat.zero_mul, Nat.add_zero] at h

theorem rest_mod (m : Nat) : Rest (fun n => (grid manBits n * 2 ^ k : Nat)) (grid (manBits + k) m)
    (m / 2 ^ k) (m % 2 ^ k) (2 ^ k) (2 ^ (m / 2 ^ k / 2 ^ manBits - 1)) where
  pos := by positivity
  value := by
    have hvalue : grid (manBits + k) (m / 2 ^ k * 2 ^ k + m % 2 ^ k) = _ :=
      grid_mul_add (m / 2 ^ k) (Nat.mod_lt m (Nat.two_pow_pos k))
    rw [Nat.div_add_mod'] at hvalue
    rw [hvalue]
    push_cast
    ring
  step := by
    rw [grid_succ]
    push_cast
    ring
  lt := Nat.mod_lt m (Nat.two_pow_pos k)

/-- The code without its last `k` bits, plus one if they are more than half of a step, or
    half of it after an odd code. -/
def roundHalfEven (k m : Nat) : Nat := (m + (m / 2 ^ k % 2 + (2 ^ (k - 1) - 1))) / 2 ^ k

theorem roundHalfEven_cases (hk : 0 < k) (m : Nat) :
    (roundHalfEven k m = m / 2 ^ k ∧ 2 * (m % 2 ^ k) ≤ 2 ^ k ∧ (2 * (m % 2 ^ k) = 2 ^ k → Even (m / 2 ^ k))) ∨
    (roundHalfEven k m = m / 2 ^ k + 1 ∧ 2 ^ k ≤ 2 * (m % 2 ^ k) ∧
      (2 * (m % 2 ^ k) = 2 ^ k → Odd (m / 2 ^ k))) := by
  obtain ⟨l, rfl⟩ : ∃ l, k = l + 1 := Nat.exists_eq_add_one.mpr hk
  have hpow : 2 ^ (l + 1) = 2 * 2 ^ l := by rw [pow_succ, Nat.mul_comm]
  have hpos := Nat.two_pow_pos l
  have hr := Nat.mod_lt m (Nat.two_pow_pos (l + 1))
  have hm := Nat.div_add_mod' m (2 ^ (l + 1))
  have hlsb := Nat.mod_lt (m / 2 ^ (l + 1)) Nat.two_pos
  have hsum : m + (m / 2 ^ (l + 1) % 2 + (2 ^ (l + 1 - 1) - 1)) =
      2 ^ (l + 1) * (m / 2 ^ (l + 1)) + (m % 2 ^ (l + 1) + (m / 2 ^ (l + 1) % 2 + (2 ^ l - 1))) := by
    rw [Nat.add_sub_cancel, Nat.mul_comm (2 ^ (l + 1)), ← Nat.add_assoc (_ * _) (m % _), hm]
  rw [roundHalfEven, hsum, Nat.mul_add_div (Nat.two_pow_pos _), Nat.even_iff, Nat.odd_iff]
  generalize m / 2 ^ (l + 1) = n at hlsb ⊢
  generalize m % 2 ^ (l + 1) = r at hr ⊢
  rw [hpow] at hr ⊢
  by_cases hcarry : r + (n % 2 + (2 ^ l - 1)) < 2 * 2 ^ l
  · rw [Nat.div_eq_of_lt hcarry]
    exact Or.inl (by omega)
  · have hone : (r + (n % 2 + (2 ^ l - 1))) / (2 * 2 ^ l) = 1 := Nat.div_eq_of_lt_le (by omega) (by omega)
    rw [hone]
    exact Or.inr (by omega)

/-- Cutting off bits rounds to the nearest number, on a tie to the even code. -/
theorem between_roundHalfEven (hk : 0 < k) (m : Nat) :
    Between (fun n => ((grid manBits n * 2 ^ k : Nat) : Int)) (grid (manBits + k) m) (roundHalfEven k m) := by
  have hmono : StrictMono fun n => ((grid manBits n * 2 ^ k : Nat) : Int) := fun _ _ h =>
    Int.ofNat_lt.mpr (Nat.mul_lt_mul_of_pos_right (grid_strictMono h) (Nat.two_pow_pos k))
  rcases roundHalfEven_cases hk m with ⟨heq, hhalf⟩ | ⟨heq, hhalf⟩
  · rw [heq]
    exact ((rest_mod m).between_floor hmono).mpr hhalf
  · rw [heq]
    exact ((rest_mod m).between_succ hmono).mpr hhalf

theorem roundHalfEven_le (hk : 0 < k) {m n : Nat} (h : m < n * 2 ^ k) : roundHalfEven k m ≤ n := by
  have hlt : m / 2 ^ k < n := Nat.div_lt_of_lt_mul (by rwa [Nat.mul_comm])
  rcases roundHalfEven_cases hk m with ⟨heq, _⟩ | ⟨heq, _⟩ <;> omega

theorem roundHalfEven_mul (hk : 0 < k) (n : Nat) : roundHalfEven k (n * 2 ^ k) = n := by
  have hpos := Nat.two_pow_pos k
  rcases roundHalfEven_cases hk (n * 2 ^ k) with ⟨heq, _⟩ | ⟨_, hhalf, _⟩
  · rw [heq, Nat.mul_div_cancel n hpos]
  · rw [Nat.mul_mod_left] at hhalf
    omega

end MiniFloat
