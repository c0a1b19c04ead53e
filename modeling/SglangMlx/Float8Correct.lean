import SglangMlx.Float8Codes
import SglangMlx.Lib.Layout

/- What it means that `fp32_to_fp8` rounds to the nearest, in integers. All finite values
   of both formats are multiples of the smallest `float`, and a byte's magnitude is
   `finePoint` of its code. A byte is right if its code lies between the midpoints
   (`rounds_iff`); where a `float` lies on the grid is read off its fields (`Rest`). -/
namespace SglangMlx

open MiniFloat Rounding

namespace Fp8
variable (fmt : Fp8)

/-! ## The decoder -/

theorem ldexp_normal {e r : Nat} (he : 0 < e) :
    ldexp (1 + r / 2 ^ fmt.manBits) (e - fmt.bias) =
      ((2 ^ fmt.manBits + r) * 2 ^ (e - 1) : Nat) * unit fmt.manBits fmt.bias := by
  have hpow : (2 : ℚ) ^ (e - fmt.bias : Int) = 2 ^ (e - 1) * unit fmt.manBits fmt.bias * 2 ^ fmt.manBits := by
    rw [unit, ← zpow_natCast, ← zpow_natCast, ← zpow_add₀ (by norm_num), ← zpow_add₀ (by norm_num)]
    congr 1
    omega
  rw [ldexp, hpow]
  push_cast
  field_simp

theorem ldexp_subnormal (r : Nat) :
    ldexp (r / 2 ^ fmt.manBits) (1 - fmt.bias) = r * unit fmt.manBits fmt.bias := by
  have hpow : (2 : ℚ) ^ (1 - fmt.bias : Int) = unit fmt.manBits fmt.bias * 2 ^ fmt.manBits := by
    rw [unit, ← zpow_natCast, ← zpow_add₀ (by norm_num)]
    congr 1
    omega
  rw [ldexp, hpow]
  field_simp

theorem toFloat_decode (v : BitVec 8) : fmt.toFloat v = decode fmt.expBits fmt.manBits fmt.bias v.toNat := by
  obtain ⟨hsum, _⟩ := fmt.sizes
  have hv : v.toNat < 256 := v.isLt
  have hpos := Nat.two_pow_pos fmt.manBits
  have hs : (v.toNat >>> 7 != 0) = (v.toNat / 2 ^ (fmt.expBits + fmt.manBits) % 2 == 1) := by
    rw [hsum, Nat.shiftRight_eq_div_pow]
    have hlt : v.toNat / 2 ^ 7 < 2 := Nat.div_lt_of_lt_mul (by omega)
    interval_cases v.toNat / 2 ^ 7 <;> rfl
  have hexp : (v.toNat >>> fmt.manBits) &&& (2 ^ fmt.expBits - 1) = v.toNat % 2 ^ 7 / 2 ^ fmt.manBits := by
    rw [Nat.shiftRight_eq_div_pow, Nat.and_two_pow_sub_one_eq_mod, ← hsum, Nat.add_comm, pow_add,
      Nat.mod_mul_right_div_self]
  have hman : v.toNat &&& (2 ^ fmt.manBits - 1) = v.toNat % 2 ^ 7 % 2 ^ fmt.manBits := by
    rw [Nat.and_two_pow_sub_one_eq_mod, ← hsum, Nat.add_comm, pow_add, Nat.mod_mul_right_mod]
  have htop : finiteCount fmt.expBits fmt.manBits = (2 ^ fmt.expBits - 1) * 2 ^ fmt.manBits := rfl
  rw [fmt.toFloat_eq, fp8ToFloat, decode, hs, hexp, hman, hsum]
  have hn := Nat.div_add_mod' (v.toNat % 2 ^ 7) (2 ^ fmt.manBits)
  have hr := Nat.mod_lt (v.toNat % 2 ^ 7) hpos
  have hlt : v.toNat % 2 ^ 7 < 128 := Nat.mod_lt _ (by norm_num)
  generalize v.toNat % 2 ^ 7 = n at *
  generalize n / 2 ^ fmt.manBits = e at *
  generalize n % 2 ^ fmt.manBits = r at *
  obtain rfl := hn
  have hexp2 : 2 ≤ 2 ^ fmt.expBits := by
    rw [fmt.two_pow_expBits]
    omega
  have hall : 2 ^ fmt.expBits * 2 ^ fmt.manBits = 128 := by rw [← pow_add, hsum]; rfl
  obtain rfl | he := Nat.eq_zero_or_pos e
  · have hfin : 0 * 2 ^ fmt.manBits + r < finiteCount fmt.expBits fmt.manBits := by
      rw [htop, Nat.zero_mul, Nat.zero_add]
      exact hr.trans_le (Nat.le_mul_of_pos_left _ (by omega))
    simp only [if_true, if_pos hfin]
    rw [Nat.zero_mul, Nat.zero_add, grid_of_le hr.le]
    split
    · next hzero => rw [hzero, Nat.cast_zero, zero_mul]
    · rw [ldexp_subnormal]
  · simp only [Nat.ne_of_gt he, if_false]
    by_cases hlast : e = 2 ^ fmt.expBits - 1
    · have hge : ¬e * 2 ^ fmt.manBits + r < finiteCount fmt.expBits fmt.manBits := by
        rw [htop, hlast]
        omega
      have heq : e * 2 ^ fmt.manBits + r = finiteCount fmt.expBits fmt.manBits ↔ r = 0 := by
        rw [htop, hlast]
        omega
      simp only [if_pos hlast, if_neg hge, heq]
      by_cases hzero : r = 0 <;> simp [hzero]
    · have hbelow : e < 2 ^ fmt.expBits := by
        by_contra hge
        have := Nat.mul_le_mul_right (2 ^ fmt.manBits) (Nat.le_of_not_lt hge)
        omega
      have hfin : e * 2 ^ fmt.manBits + r < finiteCount fmt.expBits fmt.manBits := Layout.digit_lt (by omega) hr
      simp only [if_neg hlast, if_pos hfin]
      rw [ldexp_normal fmt he, grid_normal he hr]

/-! ## Integers -/

/-- The smallest `float`. -/
def tiny : ℚ := unit 23 127

/-- The magnitude with code `n` in units of the smallest `float`. -/
def finePoint (n : Nat) : Int := grid fmt.manBits n * 2 ^ (150 - fmt.bias - fmt.manBits)

/-- The magnitude of a `float` in these units. -/
def fineFloat (f : BitVec 32) : Int := grid 23 (magnitudeOf f)

theorem finePoint_strictMono : StrictMono fmt.finePoint := fun _ _ h =>
  Int.mul_lt_mul_of_pos_right (Int.ofNat_lt.mpr (grid_strictMono h)) (by positivity)

theorem finePoint_zero : fmt.finePoint 0 = 0 := by
  rw [finePoint, grid_of_le (Nat.zero_le _), Nat.cast_zero, zero_mul]

theorem unit_eq : unit fmt.manBits fmt.bias = 2 ^ (150 - fmt.bias - fmt.manBits) * tiny := by
  obtain ⟨_, _, hman, hbias⟩ := fmt.sizes
  exact unit_mul (by omega)

theorem grid_mul_unit (n : Nat) : (grid fmt.manBits n : ℚ) * unit fmt.manBits fmt.bias =
    fmt.finePoint n * tiny := by
  rw [unit_eq, finePoint]
  push_cast
  ring

theorem tiny_pos : 0 < tiny := unit_pos 23 127

theorem toRat_toFloat (v : BitVec 8) : (fmt.toFloat v).toRat =
    if v.toNat % 2 ^ 7 < fmt.top then some (signed (v.toNat / 2 ^ 7 == 1)
      (fmt.finePoint (v.toNat % 2 ^ 7) * tiny)) else none := by
  have hs : v.toNat / 2 ^ 7 % 2 = v.toNat / 2 ^ 7 := Nat.mod_eq_of_lt (Nat.div_lt_of_lt_mul v.isLt)
  rw [toFloat_decode, decode, fmt.sizes.1, hs, ← top, grid_mul_unit]
  split
  · rfl
  · split <;> rfl

theorem toRat_floatValue (f : BitVec 32) : (floatValue f).toRat =
    if magnitudeOf f < finiteCount 8 23 then some (signed (signOf f == 1) (fineFloat f * tiny)) else none := by
  have hs : f.toNat / 2 ^ 31 % 2 = f.toNat / 2 ^ 31 := Nat.mod_eq_of_lt (signOf_lt f)
  have hfine : ((fineFloat f : Int) : ℚ) = (grid 23 (magnitudeOf f) : ℚ) := by
    rw [fineFloat]
    norm_num
  rw [floatValue, decode, hs, hfine, magnitudeOf, signOf, tiny]
  split
  · rfl
  · split <;> rfl

/-! ## Rounding -/

/-- Halfway between the largest finite number and the next step of the grid. -/
def halfway : Fp8 → ℚ
  | .e4m3 => 248
  | .e5m2 => 61440

/-- The byte decodes to a finite number nearest to `x`, of two to the one with even
    mantissa, and it has the sign of `f`. -/
def RoundsToNearestEven (f : BitVec 32) (x : ℚ) : Prop :=
  ∃ byte q, fmt.ofFloat f = some byte ∧ (fmt.toFloat byte).toRat = some q ∧ byte.toNat / 2 ^ 7 = signOf f ∧
    ∀ byte' q', (fmt.toFloat byte').toRat = some q' →
      |q - x| ≤ |q' - x| ∧ (q' ≠ q → |q' - x| = |q - x| → Even (byte.toNat % 2 ^ fmt.manBits))

theorem halfway_eq : 2 * fmt.halfway = fmt.finePoint (fmt.top - 1) * tiny + fmt.finePoint fmt.top * tiny := by
  rw [← grid_mul_unit, ← grid_mul_unit]
  cases fmt <;> norm_num [halfway, grid, top, finiteCount, expBits, manBits, bias, unit]

theorem even_mantissa {s code : Nat} (hs : s < 2) (hcode : code < 128) :
    Even ((byteOf s code).toNat % 2 ^ fmt.manBits) ↔ Even code := by
  have hdvd : 2 ∣ 2 ^ fmt.manBits := dvd_pow_self 2 (by have := fmt.sizes; omega)
  rw [byteOf_toNat hs hcode, Nat.even_iff, Nat.mod_mod_of_dvd _ hdvd, Nat.even_iff]
  omega

theorem toRat_byteOf {s code : Nat} (hs : s < 2) (hcode : code < 128) : (fmt.toFloat (byteOf s code)).toRat =
    if code < fmt.top then some (signed (s == 1) (fmt.finePoint code * tiny)) else none := by
  rw [toRat_toFloat, byteOf_toNat hs hcode, show (s * 2 ^ 7 + code) % 2 ^ 7 = code by omega,
    show (s * 2 ^ 7 + code) / 2 ^ 7 = s by omega]

/-- A byte with the sign of `f` is right if its code lies between the midpoints. -/
theorem rounds_iff {f : BitVec 32} {code : Nat} (hcode : code < 128)
    (hbyte : fmt.ofFloat f = some (byteOf (signOf f) code))
    {x : ℚ} (hx : (floatValue f).toRat = some x) (hlt : |x| < fmt.halfway) :
    fmt.RoundsToNearestEven f x ↔ code < fmt.top ∧ Between fmt.finePoint (fineFloat f) code := by
  have hs := signOf_lt f
  have htop : fmt.top < 128 := by
    have := fmt.top_lt
    have := Nat.two_pow_pos fmt.manBits
    omega
  have hsign : (byteOf (signOf f) code).toNat / 2 ^ 7 = signOf f := by
    rw [byteOf_toNat hs hcode]
    omega
  rw [toRat_floatValue] at hx
  obtain ⟨_, hx⟩ := Option.ite_none_right_eq_some.mp hx
  obtain rfl := Option.some.inj hx
  -- in rational numbers, and with signs
  have hg : StrictMono fun n => (fmt.finePoint n : ℚ) * tiny := fun _ _ h =>
    mul_lt_mul_of_pos_right (Int.cast_lt.mpr (fmt.finePoint_strictMono h)) tiny_pos
  have hg0 : (fmt.finePoint 0 : ℚ) * tiny = 0 := by rw [finePoint_zero, Int.cast_zero, zero_mul]
  have hX : (0 : ℚ) ≤ fineFloat f * tiny := mul_nonneg (Int.cast_nonneg (Int.natCast_nonneg _)) tiny_pos.le
  have hhalf : 2 * ((fineFloat f : ℚ) * tiny) < fmt.finePoint (fmt.top - 1) * tiny +
    fmt.finePoint fmt.top * tiny := by
    have habs : |signed (signOf f == 1) ((fineFloat f : ℚ) * tiny)| = fineFloat f * tiny := by
      rw [signed]
      split
      · rw [abs_neg, abs_of_nonneg hX]
      · exact abs_of_nonneg hX
    rw [habs] at hlt
    rw [← halfway_eq]
    linarith
  rw [← between_scale tiny_pos, ← nearestEven_iff hg hhalf, signed_iff hg hg0 hX (signOf f == 1)]
  constructor
  · rintro ⟨byte, q, hsome, hq, _, hall⟩
    obtain rfl := Option.some.inj (hbyte.symm.trans hsome)
    rw [toRat_byteOf fmt hs hcode] at hq
    obtain ⟨hfin, hq⟩ := Option.ite_none_right_eq_some.mp hq
    obtain rfl := Option.some.inj hq
    refine ⟨hfin, fun negative k hk => ?_⟩
    have hbit : (if negative then 1 else 0) < 2 := by split <;> norm_num
    have hvalue := toRat_byteOf fmt hbit (hk.trans htop)
    have hneg : ((if negative then 1 else 0) == 1) = negative := by cases negative <;> rfl
    rw [if_pos hk, hneg] at hvalue
    obtain ⟨hle, htie⟩ := hall _ _ hvalue
    exact ⟨hle, fun hne heq => (even_mantissa fmt hs hcode).mp (htie hne heq)⟩
  · rintro ⟨hfin, hall⟩
    refine ⟨_, _, hbyte, by rw [toRat_byteOf fmt hs hcode, if_pos hfin], hsign, fun byte' q' hq' => ?_⟩
    rw [toRat_toFloat] at hq'
    obtain ⟨hfin', hq'⟩ := Option.ite_none_right_eq_some.mp hq'
    obtain rfl := Option.some.inj hq'
    obtain ⟨hle, htie⟩ := hall (byte'.toNat / 2 ^ 7 == 1) _ hfin'
    exact ⟨hle, fun hne heq => (even_mantissa fmt hs hcode).mpr (htie hne heq)⟩

/-! ## Where a number lies on the grid -/

section
variable {f : BitVec 32}

theorem fineFloat_normal (he : 0 < magnitudeOf f / 2 ^ 23) :
    fineFloat f = ((2 ^ 23 + magnitudeOf f % 2 ^ 23) * 2 ^ (magnitudeOf f / 2 ^ 23 - 1) : Nat) := by
  have hm := Nat.mod_lt (magnitudeOf f) (Nat.two_pow_pos 23)
  rw [fineFloat, ← Nat.div_add_mod' (magnitudeOf f) (2 ^ 23), grid_normal he hm, Nat.div_add_mod']

theorem rest_normal {e : Nat} (he : exponentOf fmt f = e) (hpos : 1 ≤ e) :
    Rest fmt.finePoint (fineFloat f) (e * 2 ^ fmt.manBits + magnitudeOf f % 2 ^ 23 / 2 ^ (23 - fmt.manBits))
      (magnitudeOf f % 2 ^ 23 % 2 ^ (23 - fmt.manBits)) (2 ^ (23 - fmt.manBits)) (2 ^ (e + 126 - fmt.bias)) := by
  obtain ⟨_, hman1, hman3, hbias⟩ := fmt.sizes
  have hm := Nat.mod_lt (magnitudeOf f) (Nat.two_pow_pos 23)
  have hfield : magnitudeOf f / 2 ^ 23 = e + 127 - fmt.bias := by
    rw [exponentOf] at he
    omega
  have hX := fineFloat_normal (f := f) (by omega)
  rw [hfield] at hX
  generalize magnitudeOf f % 2 ^ 23 = m at hm hX ⊢
  have hq := mant_lt fmt hm
  have hsplit := Nat.div_add_mod' m (2 ^ (23 - fmt.manBits))
  have hr := Nat.mod_lt m (Nat.two_pow_pos (23 - fmt.manBits))
  have hdiv : (e * 2 ^ fmt.manBits + m / 2 ^ (23 - fmt.manBits)) / 2 ^ fmt.manBits = e := by
    rw [Nat.mul_comm, Nat.mul_add_div (Nat.two_pow_pos _), Nat.div_eq_of_lt hq, Nat.add_zero]
  have hstep : 2 ^ (e - 1) * 2 ^ (150 - fmt.bias - fmt.manBits) =
      2 ^ (23 - fmt.manBits) * 2 ^ (e + 126 - fmt.bias) := by
    rw [← pow_add, ← pow_add]
    congr 1
    omega
  have hshift : 2 ^ 23 = 2 ^ fmt.manBits * 2 ^ (23 - fmt.manBits) := by
    rw [← pow_add]
    congr 1
    omega
  refine ⟨by positivity, ?_, ?_, hr⟩
  · rw [hX, finePoint, grid_normal hpos hq]
    have hexp : e + 127 - fmt.bias - 1 = e + 126 - fmt.bias := by omega
    rw [hexp]
    have hnat : (2 ^ 23 + m) * 2 ^ (e + 126 - fmt.bias) =
        (2 ^ fmt.manBits + m / 2 ^ (23 - fmt.manBits)) * 2 ^ (e - 1) * 2 ^ (150 - fmt.bias - fmt.manBits) +
          m % 2 ^ (23 - fmt.manBits) * 2 ^ (e + 126 - fmt.bias) := by
      calc (2 ^ 23 + m) * 2 ^ (e + 126 - fmt.bias)
          = (2 ^ fmt.manBits * 2 ^ (23 - fmt.manBits) + (m / 2 ^ (23 - fmt.manBits) * 2 ^ (23 - fmt.manBits) +
              m % 2 ^ (23 - fmt.manBits))) * 2 ^ (e + 126 - fmt.bias) := by rw [hsplit, ← hshift]
        _ = (2 ^ fmt.manBits + m / 2 ^ (23 - fmt.manBits)) * (2 ^ (23 - fmt.manBits) * 2 ^ (e + 126 - fmt.bias)) +
              m % 2 ^ (23 - fmt.manBits) * 2 ^ (e + 126 - fmt.bias) := by ring
        _ = _ := by rw [← hstep, ← Nat.mul_assoc]
    exact_mod_cast hnat
  · rw [finePoint, finePoint, grid_succ, hdiv]
    have hnat : ((grid fmt.manBits (e * 2 ^ fmt.manBits + m / 2 ^ (23 - fmt.manBits)) + 2 ^ (e - 1)) *
        2 ^ (150 - fmt.bias - fmt.manBits) : Nat) =
        grid fmt.manBits (e * 2 ^ fmt.manBits + m / 2 ^ (23 - fmt.manBits)) * 2 ^ (150 - fmt.bias - fmt.manBits) +
          2 ^ (23 - fmt.manBits) * 2 ^ (e + 126 - fmt.bias) := by
      rw [Nat.add_mul, hstep]
    exact_mod_cast hnat

theorem rest_subnormal {k : Nat} (hk : exponentOf fmt f = (24 - fmt.manBits : Int) - k) (h23 : k ≤ 23)
    (hman : 24 - fmt.manBits ≤ k) :
    Rest fmt.finePoint (fineFloat f) ((2 ^ 23 + magnitudeOf f % 2 ^ 23) / 2 ^ k)
      ((2 ^ 23 + magnitudeOf f % 2 ^ 23) % 2 ^ k)
        (2 ^ k) (2 ^ (150 - fmt.bias - fmt.manBits - k)) ∧
      1 ≤ (2 ^ 23 + magnitudeOf f % 2 ^ 23) / 2 ^ k ∧ (2 ^ 23 + magnitudeOf f % 2 ^ 23) / 2 ^ k <
        2 ^ fmt.manBits := by
  obtain ⟨_, hman1, hman3, hbias⟩ := fmt.sizes
  have hm := Nat.mod_lt (magnitudeOf f) (Nat.two_pow_pos 23)
  have hfield : magnitudeOf f / 2 ^ 23 = 151 - fmt.bias - fmt.manBits - k := by
    rw [exponentOf] at hk
    omega
  have hX := fineFloat_normal (f := f) (by omega)
  rw [hfield] at hX
  generalize magnitudeOf f % 2 ^ 23 = m at hm hX ⊢
  have hle : 1 ≤ (2 ^ 23 + m) / 2 ^ k :=
    Nat.div_pos ((Nat.pow_le_pow_right (by norm_num) h23).trans (Nat.le_add_right _ m)) (Nat.two_pow_pos k)
  have hlt : (2 ^ 23 + m) / 2 ^ k < 2 ^ fmt.manBits := by
    apply Nat.div_lt_of_lt_mul
    calc 2 ^ 23 + m < 2 ^ 24 := by omega
      _ ≤ 2 ^ (k + fmt.manBits) := Nat.pow_le_pow_right (by norm_num) (by omega)
      _ = 2 ^ k * 2 ^ fmt.manBits := pow_add 2 k fmt.manBits
  have hsplit := Nat.div_add_mod' (2 ^ 23 + m) (2 ^ k)
  have hstep : 2 ^ (150 - fmt.bias - fmt.manBits) = 2 ^ k * 2 ^ (150 - fmt.bias - fmt.manBits - k) := by
    rw [← pow_add]
    congr 1
    omega
  refine ⟨⟨by positivity, ?_, ?_, Nat.mod_lt _ (Nat.two_pow_pos k)⟩, hle, hlt⟩
  · rw [hX, finePoint, grid_of_le hlt.le]
    have hexp : 151 - fmt.bias - fmt.manBits - k - 1 = 150 - fmt.bias - fmt.manBits - k := by omega
    rw [hexp]
    have hnat : (2 ^ 23 + m) * 2 ^ (150 - fmt.bias - fmt.manBits - k) =
        (2 ^ 23 + m) / 2 ^ k * 2 ^ (150 - fmt.bias - fmt.manBits) +
          (2 ^ 23 + m) % 2 ^ k * 2 ^ (150 - fmt.bias - fmt.manBits - k) := by
      rw [hstep, ← Nat.mul_assoc, ← Nat.add_mul, hsplit]
    exact_mod_cast hnat
  · rw [finePoint, finePoint, grid_of_le hlt.le, grid_of_le hlt]
    have hnat : ((2 ^ 23 + m) / 2 ^ k + 1) * 2 ^ (150 - fmt.bias - fmt.manBits) =
        (2 ^ 23 + m) / 2 ^ k * 2 ^ (150 - fmt.bias - fmt.manBits) + 2 ^ k *
          2 ^ (150 - fmt.bias - fmt.manBits - k) := by
      rw [Nat.add_mul, Nat.one_mul, hstep]
    exact_mod_cast hnat

theorem rest_small (he : exponentOf fmt f < 1 - fmt.manBits) :
    Rest fmt.finePoint (fineFloat f) 0 (grid 23 (magnitudeOf f)) (2 ^ (150 - fmt.bias - fmt.manBits)) 1 := by
  obtain ⟨_, hman1, hman3, hbias⟩ := fmt.sizes
  have hm := Nat.mod_lt (magnitudeOf f) (Nat.two_pow_pos 23)
  have hlt : grid 23 (magnitudeOf f) < 2 ^ (150 - fmt.bias - fmt.manBits) := by
    obtain hzero | hpos := Nat.eq_zero_or_pos (magnitudeOf f / 2 ^ 23)
    · have hsmall : magnitudeOf f < 2 ^ 23 := (Nat.div_eq_zero_iff_lt (Nat.two_pow_pos 23)).mp hzero
      rw [grid_of_le hsmall.le]
      exact hsmall.trans_le (Nat.pow_le_pow_right (by norm_num) (by omega))
    · have hX := fineFloat_normal hpos
      rw [fineFloat, Int.ofNat_inj] at hX
      rw [hX]
      rw [exponentOf] at he
      calc (2 ^ 23 + magnitudeOf f % 2 ^ 23) * 2 ^ (magnitudeOf f / 2 ^ 23 - 1)
          < 2 ^ 24 * 2 ^ (magnitudeOf f / 2 ^ 23 - 1) := Nat.mul_lt_mul_of_pos_right (by omega)
            (Nat.two_pow_pos _)
        _ = 2 ^ (24 + (magnitudeOf f / 2 ^ 23 - 1)) := (pow_add 2 24 _).symm
        _ ≤ 2 ^ (150 - fmt.bias - fmt.manBits) := Nat.pow_le_pow_right (by norm_num) (by omega)
  refine ⟨by norm_num, ?_, ?_, hlt⟩
  · rw [finePoint_zero, fineFloat, zero_add, mul_one]
  · rw [finePoint, finePoint_zero, grid_of_le (Nat.one_le_two_pow)]
    push_cast
    ring

end

end Fp8

end SglangMlx
