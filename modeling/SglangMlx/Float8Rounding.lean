import SglangMlx.Float8Correct

/- Rounding in `fp32_to_fp8`. The normal range is rounded as the comment says, to the nearest
   and on a tie to even. Below it there are three slips: half a unit is added without a
   look at the tie, a carry into the normal range is masked away, and what is
   between half the smallest number and this number becomes zero. Above the range of the
   exponents, where the comment promises infinity, the bits are shifted as if the number
   were subnormal, by a count that shrinks and then is negative. -/
namespace SglangMlx

open MiniFloat Rounding

namespace Fp8
variable (fmt : Fp8)

/-- Where the code is wrong: above half of the smallest number and below this number, on a tie
    at an even place of the subnormal grid, and at the last half step of this grid. -/
def Misrounded (x : ℚ) : Prop :=
  (unit fmt.manBits fmt.bias / 2 < x ∧ x < unit fmt.manBits fmt.bias) ∨
    (∃ k : Nat, 1 ≤ k ∧ 2 * k + 1 < 2 ^ fmt.manBits ∧ x = (2 * k + 1 / 2) * unit fmt.manBits fmt.bias) ∨
    ((2 ^ fmt.manBits - 1 / 2) * unit fmt.manBits fmt.bias ≤ x ∧ x < 2 ^ fmt.manBits * unit fmt.manBits fmt.bias)

/-! ## The wrong places -/

section
variable {X : Int} {n r w : Nat} {t : Int}

theorem two_pow_manBits : 2 ∣ 2 ^ fmt.manBits := dvd_pow_self 2 (by have := fmt.sizes; omega)

theorem finePoint_of_le {n : Nat} (hn : n ≤ 2 ^ fmt.manBits) :
    fmt.finePoint n = n * 2 ^ (150 - fmt.bias - fmt.manBits) := by
  rw [finePoint, grid_of_le hn]

theorem misrounded_iff (U : Int) (hU : U = 2 ^ (150 - fmt.bias - fmt.manBits)) :
    fmt.Misrounded (X * tiny) ↔ (U < 2 * X ∧ X < U) ∨
      (∃ k : Nat, 1 ≤ k ∧ 2 * k + 1 < 2 ^ fmt.manBits ∧ 2 * X = (4 * k + 1) * U) ∨
      ((2 * 2 ^ fmt.manBits - 1) * U ≤ 2 * X ∧ X < 2 ^ fmt.manBits * U) := by
  have hunit : unit fmt.manBits fmt.bias = (U : ℚ) * tiny := by
    rw [unit_eq, hU]
    push_cast
    rfl
  have hlt : ∀ a b : Int, (a : ℚ) * tiny < b * tiny ↔ a < b := fun a b => by
    rw [mul_lt_mul_iff_left₀ tiny_pos, Int.cast_lt]
  have hle : ∀ a b : Int, (a : ℚ) * tiny ≤ b * tiny ↔ a ≤ b := fun a b => by
    rw [mul_le_mul_iff_left₀ tiny_pos, Int.cast_le]
  have heq : ∀ a b : Int, (a : ℚ) * tiny = b * tiny ↔ a = b := fun a b => by
    rw [mul_left_inj' tiny_pos.ne', Int.cast_inj]
  apply or_congr
  · rw [← hlt U (2 * X), ← hlt X U, hunit]
    push_cast
    apply and_congr_left
    intro _
    constructor <;> intro h <;> linarith
  apply or_congr
  · apply exists_congr
    intro k
    rw [← heq (2 * X), hunit]
    push_cast
    apply and_congr_right
    intro _
    apply and_congr_right
    intro _
    constructor <;> intro h <;> linarith
  · rw [← hle _ (2 * X), ← hlt X, hunit]
    push_cast
    apply and_congr
    · constructor <;> intro h <;> linarith
    · rw [mul_assoc]

theorem below_first_iff {n r w : Nat} (hr : r < w) :
    (w < 2 * n * w + 2 * r ∧ 2 * n * w + 2 * r < 2 * w) ↔ n = 0 ∧ w < 2 * r := by
  constructor
  · rintro ⟨hlow, hhigh⟩
    obtain rfl : n = 0 := by
      by_contra hne
      have := Nat.mul_le_mul_right w (show 2 ≤ 2 * n by omega)
      omega
    exact ⟨rfl, by omega⟩
  · rintro ⟨rfl, hlow⟩
    omega

theorem at_tie_iff {n r w k : Nat} (hr : r < w) :
    2 * n * w + 2 * r = (4 * k + 1) * w ↔ n = 2 * k ∧ 2 * r = w := by
  have hmul : 2 * (2 * k) * w = 4 * k * w := by ring
  rw [Nat.add_mul, Nat.one_mul]
  constructor
  · intro heq
    have hn : n = 2 * k := by
      by_contra hne
      obtain hlow | hhigh := Nat.lt_or_gt_of_ne hne
      · have := Nat.mul_le_mul_right w (show 2 * n + 2 ≤ 4 * k by omega)
        rw [Nat.add_mul] at this
        omega
      · have := Nat.mul_le_mul_right w (show 4 * k + 2 ≤ 2 * n by omega)
        rw [Nat.add_mul] at this
        omega
    rw [hn, hmul] at heq
    exact ⟨hn, by omega⟩
  · rintro ⟨rfl, htie⟩
    rw [hmul, htie]

theorem last_half_iff {n r w a : Nat} (hr : r < w) (hn : n < a) :
    (2 * a - 1) * w ≤ 2 * n * w + 2 * r ↔ n + 1 = a ∧ w ≤ 2 * r := by
  have hnext : n + 1 = a → 2 * a - 1 = 2 * n + 1 := by omega
  constructor
  · intro hlow
    have hlast : n + 1 = a := by
      by_contra hne
      have := Nat.mul_le_mul_right w (show 2 * n + 3 ≤ 2 * a - 1 by omega)
      rw [Nat.add_mul] at this
      omega
    rw [hnext hlast, Nat.add_mul] at hlow
    exact ⟨hlast, by omega⟩
  · rintro ⟨hlast, hlow⟩
    rw [hnext hlast, Nat.add_mul]
    omega

theorem misrounded_place (hn : n < 2 ^ fmt.manBits) (h : Rest fmt.finePoint X n r w t) :
    fmt.Misrounded (X * tiny) ↔
      (n = 0 ∧ w < 2 * r) ∨ (0 < n ∧ Even n ∧ 2 * r = w) ∨ (n + 1 = 2 ^ fmt.manBits ∧ w ≤ 2 * r) := by
  have hstep := h.step
  have hvalue := h.value
  have hdvd := fmt.two_pow_manBits
  rw [finePoint_of_le fmt hn, finePoint_of_le fmt hn.le] at hstep
  rw [finePoint_of_le fmt hn.le] at hvalue
  rw [misrounded_iff fmt _ rfl]
  generalize (2 : Int) ^ (150 - fmt.bias - fmt.manBits) = U at *
  -- everything is a multiple of `t`
  have hU : U = w * t := by
    push_cast at hstep
    linarith
  have hX : 2 * X = ((2 * n * w + 2 * r : Nat) : Int) * t := by
    rw [hvalue, hU]
    push_cast
    ring
  have hmul : ∀ a : Nat, (a : Int) * U = ((a * w : Nat) : Int) * t := fun a => by
    rw [hU]
    push_cast
    ring
  have hle : ∀ a : Nat, (a : Int) * U ≤ 2 * X ↔ a * w ≤ 2 * n * w + 2 * r := fun a => by
    rw [hmul, hX, mul_le_mul_iff_left₀ h.pos, Int.ofNat_le]
  have hlt : ∀ a : Nat, (a : Int) * U < 2 * X ↔ a * w < 2 * n * w + 2 * r := fun a => by
    rw [hmul, hX, mul_lt_mul_iff_left₀ h.pos, Int.ofNat_lt]
  have hgt : ∀ a : Nat, X < (a : Int) * U ↔ 2 * n * w + 2 * r < 2 * a * w := fun a => by
    rw [← mul_lt_mul_iff_right₀ (show (0 : Int) < 2 by norm_num), hX, ← mul_assoc,
      show (2 : Int) * a = (2 * a : Nat) by push_cast; rfl, hmul, mul_lt_mul_iff_left₀ h.pos, Int.ofNat_lt]
  have heq : ∀ a : Nat, 2 * X = (a : Int) * U ↔ 2 * n * w + 2 * r = a * w := fun a => by
    rw [hmul, hX, mul_left_inj' h.pos.ne', Int.ofNat_inj]
  apply or_congr
  · have hone := hlt 1
    have htwo := hgt 1
    rw [Nat.cast_one, one_mul, one_mul] at hone
    rw [Nat.cast_one, one_mul, mul_one] at htwo
    rw [hone, htwo, below_first_iff h.lt]
  apply or_congr
  · have hplace : ∀ k : Nat, 2 * X = (4 * k + 1) * U ↔ n = 2 * k ∧ 2 * r = w := fun k => by
      rw [show (4 * k + 1 : Int) = (4 * k + 1 : Nat) by push_cast; rfl, heq, at_tie_iff h.lt]
    constructor
    · rintro ⟨k, hk, _, hXk⟩
      obtain ⟨rfl, htie⟩ := (hplace k).mp hXk
      exact ⟨by omega, even_two_mul k, htie⟩
    · rintro ⟨hpos, ⟨k, hk⟩, htie⟩
      exact ⟨k, by omega, by omega, (hplace k).mpr ⟨by omega, htie⟩⟩
  · have hlast : (2 * 2 ^ fmt.manBits - 1 : Int) = (2 * 2 ^ fmt.manBits - 1 : Nat) := by
      rw [Nat.cast_sub (by omega)]
      push_cast
      rfl
    have hbelow : X < 2 ^ fmt.manBits * U := by
      have hplace : n * w + w ≤ 2 ^ fmt.manBits * w := by
        rw [← Nat.succ_mul]
        exact Nat.mul_le_mul_right w hn
      have hr := h.lt
      have hiff := hgt (2 ^ fmt.manBits)
      push_cast at hiff
      apply hiff.mpr
      rw [Nat.mul_assoc, Nat.mul_assoc]
      omega
    rw [hlast, hle, last_half_iff h.lt hn]
    exact and_iff_left hbelow

theorem not_misrounded (hn : 2 ^ fmt.manBits ≤ n) (h : Rest fmt.finePoint X n r w t) :
    ¬fmt.Misrounded (X * tiny) := by
  have hge : 2 ^ fmt.manBits * 2 ^ (150 - fmt.bias - fmt.manBits) ≤ X := by
    have hpoint := finePoint_of_le fmt (le_refl (2 ^ fmt.manBits))
    push_cast at hpoint
    rw [← hpoint]
    exact (fmt.finePoint_strictMono.monotone hn).trans h.le
  rw [misrounded_iff fmt _ rfl]
  have hU : (0 : Int) < 2 ^ (150 - fmt.bias - fmt.manBits) := by positivity
  generalize (2 : Int) ^ (150 - fmt.bias - fmt.manBits) = U at *
  have hpow : (2 : Int) ≤ 2 ^ fmt.manBits := by
    exact_mod_cast Nat.le_of_dvd (Nat.two_pow_pos _) fmt.two_pow_manBits
  rintro (⟨_, hlt⟩ | ⟨k, _, hk, heq⟩ | ⟨_, hlt⟩)
  · nlinarith
  · have hk' : (2 * k + 2 : Int) ≤ 2 ^ fmt.manBits := by exact_mod_cast hk
    nlinarith
  · omega

end

/-! ## Codes and places -/

section
variable {f : BitVec 32}

/-- The normal range: the place below the number is `e * 2 ^ manBits` plus the truncated
    mantissa, and has its parity. -/
theorem normal_between {e : Nat} (he : exponentOf fmt f = e) (hpos : 1 ≤ e) :
    Between fmt.finePoint (fineFloat f) (e * 2 ^ fmt.manBits + magnitudeOf f % 2 ^ 23 / 2 ^ (23 - fmt.manBits) +
      roundUp (magnitudeOf f % 2 ^ 23) (23 - fmt.manBits)) := by
  obtain ⟨_, hman1, hman3, _⟩ := fmt.sizes
  have hrest := rest_normal fmt he hpos
  obtain ⟨c, hc⟩ := fmt.two_pow_manBits
  have hparity : Odd (e * 2 ^ fmt.manBits + magnitudeOf f % 2 ^ 23 / 2 ^ (23 - fmt.manBits)) ↔
      magnitudeOf f % 2 ^ 23 / 2 ^ (23 - fmt.manBits) % 2 = 1 := by
    rw [Nat.odd_iff, hc, Nat.mul_left_comm, Nat.mul_add_mod]
  have hhalf : 2 ^ (23 - fmt.manBits) = 2 * 2 ^ (23 - fmt.manBits - 1) := by
    rw [← pow_succ']
    congr 1
    omega
  rw [roundUp]
  split
  · next hup =>
    rw [hrest.between_succ fmt.finePoint_strictMono, hparity]
    omega
  · next hdown =>
    rw [Nat.add_zero, hrest.between_floor fmt.finePoint_strictMono, ← Nat.not_odd_iff_even, hparity]
    omega

/-- The subnormal range: half a unit is added, and what passes the mantissa is lost. -/
theorem subnormal_code {a k : Nat} (hk : 1 ≤ k) :
    (a + 2 ^ (k - 1)) / 2 ^ k = if 2 ^ k ≤ 2 * (a % 2 ^ k) then a / 2 ^ k + 1 else a / 2 ^ k := by
  have hpow : 2 ^ k = 2 * 2 ^ (k - 1) := by
    rw [← pow_succ']
    congr 1
    omega
  have hsplit := Nat.div_add_mod a (2 ^ k)
  have hr := Nat.mod_lt a (Nat.two_pow_pos k)
  have hsum : a + 2 ^ (k - 1) = 2 ^ k * (a / 2 ^ k) + (a % 2 ^ k + 2 ^ (k - 1)) := by omega
  rw [hsum, Nat.mul_add_div (Nat.two_pow_pos k)]
  split
  · congr 1
    rw [Nat.div_eq_iff (Nat.two_pow_pos k)]
    omega
  · rw [Nat.div_eq_of_lt (show a % 2 ^ k + 2 ^ (k - 1) < 2 ^ k by omega), Nat.add_zero]

theorem finite_of_toRat {x : ℚ} (hx : (floatValue f).toRat = some x) :
    magnitudeOf f < finiteCount 8 23 ∧ |x| = fineFloat f * tiny := by
  rw [toRat_floatValue] at hx
  obtain ⟨hfin, hx⟩ := Option.ite_none_right_eq_some.mp hx
  obtain rfl := Option.some.inj hx
  have hX : (0 : ℚ) ≤ fineFloat f * tiny := mul_nonneg (Int.cast_nonneg (Int.natCast_nonneg _)) tiny_pos.le
  refine ⟨hfin, ?_⟩
  rw [signed]
  split
  · rw [abs_neg, abs_of_nonneg hX]
  · exact abs_of_nonneg hX

theorem lt_halfway_iff (X : Int) :
    (X : ℚ) * tiny < fmt.halfway ↔ 2 * X < fmt.finePoint (fmt.top - 1) + fmt.finePoint fmt.top := by
  rw [← mul_lt_mul_iff_right₀ (show (0 : ℚ) < 2 by norm_num), halfway_eq, ← add_mul, ← mul_assoc,
    mul_lt_mul_iff_left₀ tiny_pos]
  exact_mod_cast Iff.rfl

theorem finePoint_top_le (he : (2 * fmt.bias + 1 : Nat) ≤ exponentOf fmt f) :
    fmt.finePoint fmt.top ≤ fineFloat f := by
  obtain ⟨_, hman1, hman3, hbias⟩ := fmt.sizes
  rw [exponentOf] at he
  have hX := fineFloat_normal (f := f) (by omega)
  have htop := grid_normal (e := 2 * fmt.bias + 1) (r := 0) (by omega) (Nat.two_pow_pos fmt.manBits)
  rw [Nat.add_zero, ← fmt.top_eq, Nat.add_zero, Nat.add_sub_cancel] at htop
  rw [hX, finePoint, htop]
  have hnat : 2 ^ fmt.manBits * 2 ^ (2 * fmt.bias) * 2 ^ (150 - fmt.bias - fmt.manBits) ≤
      (2 ^ 23 + magnitudeOf f % 2 ^ 23) * 2 ^ (magnitudeOf f / 2 ^ 23 - 1) := by
    calc 2 ^ fmt.manBits * 2 ^ (2 * fmt.bias) * 2 ^ (150 - fmt.bias - fmt.manBits)
        = 2 ^ (23 + (127 + fmt.bias)) := by
          rw [← pow_add, ← pow_add]
          congr 1
          omega
      _ = 2 ^ 23 * 2 ^ (127 + fmt.bias) := pow_add 2 23 _
      _ ≤ 2 ^ 23 * 2 ^ (magnitudeOf f / 2 ^ 23 - 1) :=
          Nat.mul_le_mul_left _ (Nat.pow_le_pow_right (by norm_num) (by omega))
      _ ≤ _ := Nat.mul_le_mul_right _ (Nat.le_add_right _ _)
  exact_mod_cast hnat

theorem normal_lt_top {e : Nat} (he : e ≤ 2 * fmt.bias) :
    e * 2 ^ fmt.manBits + magnitudeOf f % 2 ^ 23 / 2 ^ (23 - fmt.manBits) < fmt.top := by
  rw [fmt.top_eq]
  exact Layout.digit_lt (by omega) (mant_lt fmt (Nat.mod_lt _ (Nat.two_pow_pos 23)))

end

/-! ## Below overflow -/

section
variable {f : BitVec 32} {x : ℚ} (hx : (floatValue f).toRat = some x) (hlt : |x| < fmt.halfway)
include hx hlt

/-- The carry out of the mantissa is the next exponent, and a carry out of the last exponent
    would be a number from halfway on. -/
theorem rounds_normal {e : Nat} (he : exponentOf fmt f = e) (hpos : 1 ≤ e) (hmax : e ≤ 2 * fmt.bias) :
    fmt.RoundsToNearestEven f x ↔ ¬fmt.Misrounded (fineFloat f * tiny) := by
  obtain ⟨hfin, habs⟩ := finite_of_toRat hx
  have hhalf := hlt
  rw [habs, lt_halfway_iff] at hhalf
  have htop := fmt.top_lt
  have hpow := Nat.two_pow_pos fmt.manBits
  have hpaths := ofFloat_paths fmt f
  rw [if_neg (Nat.not_le_of_lt hfin), he, if_pos ⟨by omega, by omega⟩,
    normalPath_eq fmt (Nat.mod_lt _ (Nat.two_pow_pos 23)) ⟨hpos, hmax⟩] at hpaths
  have hrest := rest_normal fmt he hpos
  have hbetween := normal_between fmt he hpos
  have hplace := normal_lt_top fmt (f := f) hmax
  have hfirst : 2 ^ fmt.manBits ≤ e * 2 ^ fmt.manBits + magnitudeOf f % 2 ^ 23 / 2 ^ (23 - fmt.manBits) :=
    (Nat.le_mul_of_pos_left _ hpos).trans (Nat.le_add_right _ _)
  have hup := roundUp_le (magnitudeOf f % 2 ^ 23) (23 - fmt.manBits)
  generalize e * 2 ^ fmt.manBits + magnitudeOf f % 2 ^ 23 / 2 ^ (23 - fmt.manBits) = n at *
  generalize roundUp (magnitudeOf f % 2 ^ 23) (23 - fmt.manBits) = up at *
  have hcode : n + up < fmt.top := by
    by_contra hge
    have hn : n = fmt.top - 1 := by omega
    have hup1 : n + up = fmt.top := by omega
    have hbelow := hbetween.below n (by omega)
    rw [hup1, hn] at hbelow
    omega
  rw [rounds_iff fmt (by omega) hpaths hx hlt]
  exact iff_of_true ⟨hcode, hbetween⟩ (not_misrounded fmt hfirst hrest)

theorem rounds_small (hsmall : exponentOf fmt f < 1 - fmt.manBits) :
    fmt.RoundsToNearestEven f x ↔ ¬fmt.Misrounded (fineFloat f * tiny) := by
  obtain ⟨_, hman1, hman3, _⟩ := fmt.sizes
  obtain ⟨hfin, _⟩ := finite_of_toRat hx
  have htop := fmt.top_lt
  have hpow := Nat.two_pow_pos fmt.manBits
  have hfour := fmt.two_pow_manBits_le_top
  have hpaths := ofFloat_paths fmt f
  rw [if_neg (Nat.not_le_of_lt hfin), if_neg (by omega), subnormalPath_small fmt hsmall] at hpaths
  have hrest := rest_small fmt hsmall
  rw [rounds_iff fmt (by omega) hpaths hx hlt, hrest.between_floor fmt.finePoint_strictMono,
    misrounded_place fmt (Nat.two_pow_pos _) hrest]
  have hdvd := fmt.two_pow_manBits
  simp only [Even.zero, implies_true, and_true, true_and]
  omega

theorem rounds_subnormal {k : Nat} (hk : exponentOf fmt f = (24 - fmt.manBits : Int) - k) (h23 : k ≤ 23)
    (hman : 24 - fmt.manBits ≤ k) :
    fmt.RoundsToNearestEven f x ↔ ¬fmt.Misrounded (fineFloat f * tiny) := by
  obtain ⟨_, hman1, hman3, _⟩ := fmt.sizes
  obtain ⟨hfin, _⟩ := finite_of_toRat hx
  have htop := fmt.top_lt
  have hmono := fmt.finePoint_strictMono
  have hfour := fmt.two_pow_manBits_le_top
  have hpaths := ofFloat_paths fmt f
  obtain ⟨hrest, hfirst, hlast⟩ := rest_subnormal fmt (f := f) hk h23 hman
  rw [if_neg (Nat.not_le_of_lt hfin), if_neg (by omega), subnormalPath_eq fmt
    (Nat.mod_lt _ (Nat.two_pow_pos 23)) (by omega) (k := k) (by omega) (by omega),
    subnormal_code (by omega)] at hpaths
  have hcode : ∀ n, n % 2 ^ fmt.manBits < 128 := fun n => by
    have := Nat.mod_lt n (Nat.two_pow_pos fmt.manBits)
    omega
  rw [rounds_iff fmt (hcode _) hpaths hx hlt, misrounded_place fmt hlast hrest]
  generalize (2 ^ 23 + magnitudeOf f % 2 ^ 23) / 2 ^ k = n at *
  generalize (2 ^ 23 + magnitudeOf f % 2 ^ 23) % 2 ^ k = r at *
  split
  · next hup =>
    by_cases hcarry : n + 1 = 2 ^ fmt.manBits
    · -- the carry into the normal range
      rw [hcarry, Nat.mod_self]
      refine iff_of_false (fun ⟨_, hzero⟩ => ?_) (fun hnot => hnot (Or.inr (Or.inr ⟨rfl, hup⟩)))
      have habove := hzero.above
      have hle := hrest.le
      have hone := hmono.monotone hfirst
      have hpos := hmono Nat.zero_lt_one
      rw [finePoint_zero, Nat.zero_add] at habove
      rw [finePoint_zero] at hpos
      omega
    · rw [Nat.mod_eq_of_lt (by omega), hrest.between_succ hmono, ← Nat.not_even_iff_odd]
      have hn : n ≠ 0 := by omega
      have hpos : 0 < n := hfirst
      have hcode : n + 1 < fmt.top := by omega
      simp only [hn, hpos, hup, hcode, hcarry, true_and, false_and, or_false, false_or]
      tauto
  · next hdown =>
    rw [Nat.mod_eq_of_lt hlast, hrest.between_floor hmono]
    refine iff_of_true ⟨by omega, by omega, fun htie => by omega⟩ ?_
    rintro (⟨hzero, _⟩ | ⟨_, _, htie⟩ | ⟨_, hup⟩) <;> omega

end

/-- The encoder rounds to the nearest, on a tie to even, in the normal range and at all other
    places except those of `Misrounded`. -/
theorem rounds_to_nearest_even_iff (f : BitVec 32) {x : ℚ} (hx : (floatValue f).toRat = some x)
    (hlt : |x| < fmt.halfway) :
    fmt.RoundsToNearestEven f x ↔ ¬fmt.Misrounded |x| := by
  obtain ⟨_, hman1, hman3, _⟩ := fmt.sizes
  have habs := (finite_of_toRat hx).2
  have hhalf := hlt
  rw [habs, lt_halfway_iff] at hhalf
  rw [habs]
  by_cases hhigh : 1 ≤ exponentOf fmt f
  · obtain ⟨e, he⟩ := Int.eq_ofNat_of_zero_le (show 0 ≤ exponentOf fmt f by omega)
    have hmax : e ≤ 2 * fmt.bias := by
      by_contra hbig
      have htop := fmt.finePoint_top_le (f := f) (by omega)
      have hpos := (Nat.two_pow_pos fmt.manBits).trans_le fmt.two_pow_manBits_le_top
      have hlast := fmt.finePoint_strictMono (Nat.sub_one_lt_of_lt hpos)
      omega
    exact rounds_normal fmt hx hlt he (by omega) hmax
  · by_cases hsmall : exponentOf fmt f < 1 - fmt.manBits
    · exact rounds_small fmt hx hlt hsmall
    · obtain ⟨k, hk⟩ := Int.eq_ofNat_of_zero_le (show 0 ≤ (24 - fmt.manBits : Int) - exponentOf fmt f by omega)
      exact rounds_subnormal fmt hx hlt (k := k) (by omega) (by omega) (by omega)

/-- 19 / 16 lies halfway between 9 / 8 and 5 / 4. -/
theorem rounds_to_nearest_even_iff_tie :
    e4m3.ofFloat 0x3F980000#32 = some 0x3A#8 ∧ (e4m3.toFloat 0x3A#8).toRat = some (5 / 4) ∧
      e4m3.RoundsToNearestEven 0x3F980000#32 (19 / 16) := by
  have hx : (floatValue 0x3F980000#32).toRat = some (19 / 16) := by decide +kernel
  refine ⟨by decide +kernel, by decide +kernel, ?_⟩
  apply (e4m3.rounds_to_nearest_even_iff 0x3F980000#32 hx (by norm_num [halfway])).mpr
  -- the wrong places lie below the eighth number of the grid
  have hunit : unit e4m3.manBits e4m3.bias = 1 / 2 ^ 9 := by norm_num [unit, manBits, bias]
  have habs : |(19 / 16 : ℚ)| = 19 / 16 := by norm_num
  rw [Misrounded, hunit, habs]
  rintro (⟨-, hlt⟩ | ⟨k, -, hk, hx⟩ | ⟨-, hlt⟩)
  · norm_num at hlt
  · have hk : (2 * k + 1 : ℚ) < 8 := by exact_mod_cast hk
    linarith
  · norm_num [manBits] at hlt

/-- 31 / 2048 becomes zero, but 1 / 64 is a number of the format. -/
theorem carry_becomes_zero : (floatValue 0x3C780000#32).toRat = some (31 / 2048) ∧
    |(31 / 2048 : ℚ)| < e4m3.halfway ∧ ¬e4m3.RoundsToNearestEven 0x3C780000#32 (31 / 2048) := by
  have hbyte : e4m3.ofFloat 0x3C780000#32 = some 0#8 := by decide +kernel
  have hzero : (e4m3.toFloat 0#8).toRat = some 0 := by decide +kernel
  have hnear : (e4m3.toFloat 8#8).toRat = some (1 / 64) := by decide +kernel
  refine ⟨by decide +kernel, by norm_num [halfway], ?_⟩
  rintro ⟨byte, q, hsome, hq, _, hall⟩
  obtain rfl := Option.some.inj (hbyte.symm.trans hsome)
  obtain rfl := Option.some.inj (hzero.symm.trans hq)
  have hle := (hall _ _ hnear).1
  norm_num at hle

/-! ## Overflow -/

/-- A number from halfway on becomes infinity with its sign, and all counts of shifts
    are in range. -/
def Saturates (f : BitVec 32) : Prop :=
  (fmt.ofFloat f).isSome ∧ ∀ x, (floatValue f).toRat = some x → fmt.halfway ≤ |x| →
    ∃ byte, fmt.ofFloat f = some byte ∧ fmt.toFloat byte = .inf (signOf f == 1)

theorem toFloat_byteOf {s code : Nat} (hs : s < 2) (hcode : code < 128) :
    (code < fmt.top → ∀ negative, fmt.toFloat (byteOf s code) ≠ .inf negative) ∧
      (code = fmt.top → fmt.toFloat (byteOf s code) = .inf (s == 1)) := by
  have hvalue : (s * 2 ^ 7 + code) / 2 ^ 7 % 2 = s := by omega
  have hmod : (s * 2 ^ 7 + code) % 2 ^ 7 = code := by omega
  rw [toFloat_decode, decode, byteOf_toNat hs hcode, fmt.sizes.1, hvalue, hmod, ← top]
  constructor
  · intro hlt negative
    rw [if_pos hlt]
    exact FloatValue.noConfusion
  · intro heq
    rw [if_neg (by omega), if_pos heq]

theorem finePoint_top : fmt.finePoint fmt.top * tiny = 2 ^ (fmt.bias + 1) := by
  rw [← grid_mul_unit]
  cases fmt <;> norm_num [grid, top, finiteCount, expBits, manBits, bias, unit]

theorem fineFloat_lt_normal {f : BitVec 32} (he : exponentOf fmt f ≤ 0) :
    fineFloat f < fmt.finePoint (2 ^ fmt.manBits) := by
  obtain ⟨_, _, hman3, _⟩ := fmt.sizes
  have hmono := fmt.finePoint_strictMono.monotone
  by_cases hsmall : exponentOf fmt f < 1 - fmt.manBits
  · exact (rest_small fmt hsmall).lt_succ.trans_le (hmono (Nat.two_pow_pos _))
  · obtain ⟨k, hk⟩ := Int.eq_ofNat_of_zero_le (show 0 ≤ (24 - fmt.manBits : Int) - exponentOf fmt f by omega)
    obtain ⟨hrest, _, hlast⟩ := rest_subnormal fmt (f := f) (k := k) (by omega) (by omega) (by omega)
    exact hrest.lt_succ.trans_le (hmono hlast)

/-- Above the range of the exponents there is no infinity. -/
theorem not_inf_of_high {f : BitVec 32} (hfin : magnitudeOf f < finiteCount 8 23)
    (he : (2 * fmt.bias + 1 : Nat) ≤ exponentOf fmt f) {byte : BitVec 8} (hbyte : fmt.ofFloat f = some byte)
    (negative : Bool) : fmt.toFloat byte ≠ .inf negative := by
  obtain ⟨_, hman1, hman3, _⟩ := fmt.sizes
  have hm := Nat.mod_lt (magnitudeOf f) (Nat.two_pow_pos 23)
  have htop := fmt.top_lt
  rw [ofFloat_paths, if_neg (Nat.not_le_of_lt hfin), if_neg (by omega)] at hbyte
  by_cases hcount : (24 - fmt.manBits : Int) ≤ exponentOf fmt f
  · rw [subnormalPath_undefined fmt hcount] at hbyte
    cases hbyte
  · obtain ⟨k, hk⟩ := Int.eq_ofNat_of_zero_le (show 0 ≤ (24 - fmt.manBits : Int) - exponentOf fmt f by omega)
    rw [subnormalPath_eq fmt hm (by omega) hk (by omega)] at hbyte
    obtain rfl := Option.some.inj hbyte
    have hcode := Nat.mod_lt ((2 ^ 23 + magnitudeOf f % 2 ^ 23 + 2 ^ (k - 1)) / 2 ^ k)
      (Nat.two_pow_pos fmt.manBits)
    have hfew := fmt.two_pow_manBits_le_top
    exact (fmt.toFloat_byteOf (signOf_lt f) (by omega)).1 (hcode.trans_le hfew) negative

/-- In the normal range rounding up from the largest number gives infinity. -/
theorem inf_of_normal {f : BitVec 32} (hfin : magnitudeOf f < finiteCount 8 23) {e : Nat}
    (he : exponentOf fmt f = e) (hpos : 1 ≤ e) (hmax : e ≤ 2 * fmt.bias) :
    ∃ byte, fmt.ofFloat f = some byte ∧
      (fmt.finePoint (fmt.top - 1) + fmt.finePoint fmt.top ≤ 2 * fineFloat f → fmt.toFloat byte =
        .inf (signOf f == 1)) := by
  have hm := Nat.mod_lt (magnitudeOf f) (Nat.two_pow_pos 23)
  have hs := signOf_lt f
  have htop := fmt.top_lt
  have hpow := Nat.two_pow_pos fmt.manBits
  have hmono := fmt.finePoint_strictMono
  have hrest := rest_normal fmt he hpos
  have hbetween := normal_between fmt he hpos
  have hplace := normal_lt_top fmt (f := f) hmax
  have hpaths := ofFloat_paths fmt f
  rw [if_neg (Nat.not_le_of_lt hfin), he, if_pos (by omega), normalPath_eq fmt hm ⟨hpos, hmax⟩] at hpaths
  refine ⟨_, hpaths, fun hhalf => ?_⟩
  have hup := roundUp_le (magnitudeOf f % 2 ^ 23) (23 - fmt.manBits)
  generalize e * 2 ^ fmt.manBits + magnitudeOf f % 2 ^ 23 / 2 ^ (23 - fmt.manBits) = n at *
  generalize roundUp (magnitudeOf f % 2 ^ 23) (23 - fmt.manBits) = up at *
  apply (fmt.toFloat_byteOf hs (by omega)).2
  have hcount := fmt.top_eq
  obtain ⟨c, hc⟩ := fmt.two_pow_manBits
  have hlast := hmono (show fmt.top - 1 < fmt.top by omega)
  -- the place below is the largest number, and so odd
  have hn : n = fmt.top - 1 := by
    by_contra hne
    have := hmono.monotone (show n + 1 ≤ fmt.top - 1 by omega)
    have := hrest.lt_succ
    omega
  by_contra hne
  have hzero : up = 0 := by omega
  have habove := hbetween.above
  have htie := hbetween.tie
  rw [hzero, Nat.add_zero] at habove htie
  have hnext : n + 1 = fmt.top := by omega
  rw [hnext, hn] at habove htie
  have hodd : Odd (fmt.top - 1) := by
    rw [hc, Nat.mul_left_comm] at hcount
    rw [Nat.odd_iff]
    omega
  exact (htie hodd).1 (le_antisymm habove hhalf)

/-- Infinity is what the code makes of all numbers from halfway on up to the next power of two;
    no number above becomes infinity. -/
theorem saturates_iff (f : BitVec 32) :
    fmt.Saturates f ↔ ∀ x, (floatValue f).toRat = some x → |x| < 2 ^ (fmt.bias + 1) := by
  obtain ⟨_, hman1, hman3, _⟩ := fmt.sizes
  by_cases hfin : magnitudeOf f < finiteCount 8 23
  · obtain ⟨x, hx⟩ : ∃ x, (floatValue f).toRat = some x := by
      rw [toRat_floatValue, if_pos hfin]
      exact ⟨_, rfl⟩
    have habs := (finite_of_toRat hx).2
    have hbelow : |x| < 2 ^ (fmt.bias + 1) ↔ fineFloat f < fmt.finePoint fmt.top := by
      rw [habs, ← finePoint_top, mul_lt_mul_iff_left₀ tiny_pos, Int.cast_lt]
    have hhalf : fmt.halfway ≤ |x| ↔ fmt.finePoint (fmt.top - 1) + fmt.finePoint fmt.top ≤ 2 * fineFloat f := by
      rw [← not_lt, habs, lt_halfway_iff, not_lt]
    have hone : ∀ P : ℚ → Prop, (∀ x', (floatValue f).toRat = some x' → P x') ↔ P x := fun P => by
      rw [hx]
      simp only [Option.some.injEq, forall_eq']
    have htop := fmt.top_eq
    have hpow := Nat.two_pow_pos fmt.manBits
    have hmono := fmt.finePoint_strictMono
    have hmany : 2 ^ fmt.manBits < fmt.top := by
      have := fmt.two_pow_manBits
      rw [htop, Nat.add_mul, Nat.one_mul]
      have : 0 < 2 * fmt.bias * 2 ^ fmt.manBits := by
        cases fmt <;> decide
      omega
    rw [Saturates, hone, hone, hbelow, hhalf]
    by_cases hhigh : (2 * fmt.bias + 1 : Nat) ≤ exponentOf fmt f
    · have hge := fmt.finePoint_top_le hhigh
      refine iff_of_false (fun ⟨_, hall⟩ => ?_) hge.not_gt
      have hlast := hmono (show fmt.top - 1 < fmt.top by omega)
      obtain ⟨byte, hbyte, hinf⟩ := hall (by omega)
      exact not_inf_of_high fmt hfin hhigh hbyte _ hinf
    · by_cases hlow : exponentOf fmt f ≤ 0
      · have hsub := fmt.fineFloat_lt_normal hlow
        have hle := hmono.monotone (show 2 ^ fmt.manBits ≤ fmt.top - 1 by omega)
        have hlast := hmono (show fmt.top - 1 < fmt.top by omega)
        refine iff_of_true ⟨?_, fun hge => by omega⟩ (by omega)
        have hm := Nat.mod_lt (magnitudeOf f) (Nat.two_pow_pos 23)
        rw [ofFloat_paths, if_neg (Nat.not_le_of_lt hfin), if_neg (by omega)]
        by_cases hsmall : exponentOf fmt f < 1 - fmt.manBits
        · rw [subnormalPath_small fmt hsmall]
          rfl
        · obtain ⟨k, hk⟩ := Int.eq_ofNat_of_zero_le
            (show 0 ≤ (24 - fmt.manBits : Int) - exponentOf fmt f by omega)
          rw [subnormalPath_eq fmt hm (by omega) hk (by omega)]
          rfl
      · obtain ⟨e, he⟩ := Int.eq_ofNat_of_zero_le (show 0 ≤ exponentOf fmt f by omega)
        obtain ⟨byte, hbyte, hinf⟩ := inf_of_normal fmt hfin he (by omega) (by omega)
        refine iff_of_true ⟨?_, fun hge => ⟨byte, hbyte, hinf hge⟩⟩ ?_
        · rw [hbyte]
          rfl
        · have hplace := normal_lt_top fmt (f := f) (e := e) (by omega)
          exact (rest_normal fmt he (by omega)).lt_succ.trans_le (hmono.monotone hplace)
  · have hnone : (floatValue f).toRat = none := by rw [toRat_floatValue, if_neg hfin]
    have hsome : (fmt.ofFloat f).isSome := by
      rw [ofFloat_paths, if_pos (Nat.le_of_not_lt hfin)]
      rfl
    rw [Saturates, hnone]
    simp only [hsome, reduceCtorEq, false_imp_iff, implies_true, and_self]

/-- 256 becomes zero, and 65536 is shifted by a count below zero. -/
theorem above_range_not_infinite : (floatValue 0x43800000#32).toRat = some 256 ∧ ¬e4m3.Saturates 0x43800000#32 ∧
    (floatValue 0x47800000#32).toRat = some 65536 ∧ ¬e4m3.Saturates 0x47800000#32 := by
  have hvalue : (floatValue 0x43800000#32).toRat = some 256 := by decide +kernel
  have hzero : e4m3.ofFloat 0x43800000#32 = some 0#8 := by decide +kernel
  have hnone : e4m3.ofFloat 0x47800000#32 = none := by decide +kernel
  refine ⟨hvalue, fun ⟨_, hall⟩ => ?_, by decide +kernel, fun ⟨hsome, _⟩ => ?_⟩
  · obtain ⟨byte, hbyte, hinf⟩ := hall 256 hvalue (by norm_num [halfway])
    obtain rfl := Option.some.inj (hzero.symm.trans hbyte)
    revert hinf
    decide +kernel
  · rw [hnone] at hsome
    cases hsome

end Fp8

end SglangMlx
