import SglangMlx.Float8
import SglangMlx.Lib.FloatTruncation

/- The `bfloat16_t` of devices without one (`metal/utils.metal`): `float_to_bfloat_bits`
   and `bfloat_bits_to_float`. A `bfloat16` is the upper half of a `float`. The conversion
   adds a carry to the lower half and cuts it off, which rounds every number to the nearest,
   overflow to infinity and all. -/
namespace SglangMlx

open MiniFloat Rounding

/-- `_fp_encoding_traits<float>::sign_mask`. -/
def signMask : BitVec 32 := 0x80000000

/-- `_fp_encoding_traits<float>::inf_mask`. -/
def infMask : BitVec 32 := 0x7F800000

def floatToBfloatBits (x : BitVec 32) : BitVec 16 :=
  -- check for nan
  if infMask < x &&& ~~~signMask then 0x7FC0
  else
    let floatBits := x
    -- round to nearest even
    let floatBits := floatBits + (((floatBits >>> 16) &&& 1) + 0x7FFF)
    (floatBits >>> 16).setWidth 16

def bfloatBitsToFloat (x : BitVec 16) : BitVec 32 := x.setWidth 32 <<< 16

/-- What the bits of a `bfloat16` stand for. -/
def bfloatValue (bits : BitVec 16) : FloatValue := decode 8 7 127 bits.toNat

/-! ## Bits -/

theorem infMask_lt_iff (f : BitVec 32) : infMask < f &&& ~~~signMask ↔ finiteCount 8 23 < f.toNat % 2 ^ 31 := by
  have hmask : (~~~signMask : BitVec 32).toNat = 2 ^ 31 - 1 := by decide
  have hinf : infMask.toNat = finiteCount 8 23 := by decide
  rw [BitVec.lt_def, BitVec.toNat_and, hmask, hinf, Nat.and_two_pow_sub_one_eq_mod]

theorem floatToBfloatBits_toNat {f : BitVec 32} {s m : Nat} (hf : f.toNat = s * 2 ^ 31 + m)
    (hm : m ≤ finiteCount 8 23) : (floatToBfloatBits f).toNat = s * 2 ^ 15 + roundHalfEven 16 m := by
  have hcount : finiteCount 8 23 = 0x7F800000 := rfl
  have hnan : ¬infMask < f &&& ~~~signMask := by
    rw [infMask_lt_iff, hf]
    omega
  have hlsb : ((f >>> 16) &&& 1).toNat = m / 2 ^ 16 % 2 := by
    rw [BitVec.toNat_and, BitVec.toNat_ushiftRight, Nat.shiftRight_eq_div_pow, hf]
    show _ &&& (2 ^ 1 - 1) = _
    rw [Nat.and_two_pow_sub_one_eq_mod]
    omega
  have hsum : (f + (((f >>> 16) &&& 1) + 0x7FFF)).toNat = s * 2 ^ 31 +
    (m + (m / 2 ^ 16 % 2 + (2 ^ (16 - 1) - 1))) := by
    have hhalf : (0x7FFF : BitVec 32).toNat = 2 ^ (16 - 1) - 1 := by decide
    rw [BitVec.toNat_add, BitVec.toNat_add, hlsb, hhalf, hf]
    omega
  rw [floatToBfloatBits, if_neg hnan, BitVec.toNat_setWidth, BitVec.toNat_ushiftRight, hsum,
    Nat.shiftRight_eq_div_pow, roundHalfEven]
  omega

theorem bfloatBitsToFloat_toNat (bits : BitVec 16) : (bfloatBitsToFloat bits).toNat = bits.toNat * 2 ^ 16 := by
  have hlt : bits.toNat < 2 ^ 16 := bits.isLt
  rw [bfloatBitsToFloat, BitVec.toNat_shiftLeft, BitVec.toNat_setWidth, Nat.shiftLeft_eq]
  omega

/-! ## Rounding -/

/-- The codes of the finite magnitudes are below this one. -/
def bfloatTop : Nat := finiteCount 8 7

/-- The magnitudes of a `bfloat16` in units of the smallest `float`. -/
def bfloatPoint (n : Nat) : Int := (grid 7 n * 2 ^ 16 : Nat)

/-- Halfway between the largest finite number and the next step of the grid. -/
def bfloatHalfway : ℚ := 511 * 2 ^ 119

theorem bfloatPoint_strictMono : StrictMono bfloatPoint := fun _ _ h =>
  Int.ofNat_lt.mpr (Nat.mul_lt_mul_of_pos_right (grid_strictMono h) (Nat.two_pow_pos 16))

theorem grid_mul_unit (n : Nat) : (grid 7 n : ℚ) * unit 7 127 = bfloatPoint n * unit 23 127 := by
  have hunit : unit 7 127 = 2 ^ 16 * unit 23 127 := unit_mul rfl
  rw [hunit, bfloatPoint]
  push_cast
  ring

theorem halfway_eq : 2 * bfloatHalfway = (bfloatPoint (bfloatTop - 1) + bfloatPoint bfloatTop : Int) *
    unit 23 127 := by
  have hlast : grid 7 (bfloatTop - 1) = 255 * 2 ^ 253 := rfl
  have htop : grid 7 bfloatTop = 256 * 2 ^ 253 := rfl
  rw [Int.cast_add, add_mul, ← grid_mul_unit, ← grid_mul_unit, hlast, htop, bfloatHalfway, unit]
  norm_num

theorem halfway_le_iff {m : Nat} : bfloatHalfway ≤ grid 23 m * unit 23 127 ↔
    bfloatPoint (bfloatTop - 1) + bfloatPoint bfloatTop ≤ 2 * grid 23 m := by
  rw [← mul_le_mul_iff_right₀ (two_pos : (0 : ℚ) < 2), halfway_eq, ← mul_assoc,
    mul_le_mul_iff_left₀ (unit_pos 23 127)]
  exact_mod_cast Iff.rfl

theorem floatValue_split {f : BitVec 32} {s m : Nat} (hf : f.toNat = s * 2 ^ 31 + m) (hs : s < 2)
    (hm : m < 2 ^ 31) :
    floatValue f = if m < finiteCount 8 23 then .finite (s == 1) (grid 23 m * unit 23 127)
      else if m = finiteCount 8 23 then .inf (s == 1) else .nan := by
  rw [floatValue, hf]
  exact decode_split hs hm

theorem bfloatValue_split {bits : BitVec 16} {s n : Nat} (hbits : bits.toNat = s * 2 ^ 15 + n) (hs : s < 2)
    (hn : n < 2 ^ 15) :
    bfloatValue bits = if n < bfloatTop then .finite (s == 1) (bfloatPoint n * unit 23 127)
      else if n = bfloatTop then .inf (s == 1) else .nan := by
  rw [bfloatValue, hbits, ← grid_mul_unit]
  exact decode_split hs hn

theorem exists_code {bits : BitVec 16} {negative : Bool} {y : ℚ} (h : bfloatValue bits = .finite negative y) :
    ∃ n < bfloatTop, y = bfloatPoint n * unit 23 127 := by
  have hn := Nat.mod_lt bits.toNat (Nat.two_pow_pos 15)
  have hs : bits.toNat / 2 ^ 15 < 2 := Nat.div_lt_of_lt_mul bits.isLt
  rw [bfloatValue_split (Nat.div_add_mod' _ _).symm hs hn] at h
  split at h
  · next hlt =>
    cases h
    exact ⟨_, hlt, rfl⟩
  · split at h <;> cases h

/-- A number below halfway becomes the nearest finite one, of two the even one; a number
    from there on becomes infinity. The sign stays, and NaN becomes a NaN. -/
theorem bfloat_rounds_to_nearest_even (f : BitVec 32) :
    match floatValue f with
    | .nan => bfloatValue (floatToBfloatBits f) = .nan
    | .inf negative => bfloatValue (floatToBfloatBits f) = .inf negative
    | .finite negative x =>
      (bfloatHalfway ≤ x → bfloatValue (floatToBfloatBits f) = .inf negative) ∧
      (x < bfloatHalfway → ∃ y, bfloatValue (floatToBfloatBits f) = .finite negative y ∧
        ∀ bits negative' y', bfloatValue bits = .finite negative' y' →
          |signed negative y - signed negative x| ≤ |signed negative' y' - signed negative x| ∧
          (signed negative' y' ≠ signed negative y →
            |signed negative' y' - signed negative x| = |signed negative y - signed negative x| →
            Even (floatToBfloatBits f).toNat)) := by
  have hcount : finiteCount 8 23 = bfloatTop * 2 ^ 16 := rfl
  have hsmall : bfloatTop < 2 ^ 15 := by decide
  have hf := (Nat.div_add_mod' f.toNat (2 ^ 31)).symm
  have hs : f.toNat / 2 ^ 31 < 2 := Nat.div_lt_of_lt_mul f.isLt
  have hm := Nat.mod_lt f.toNat (Nat.two_pow_pos 31)
  have hnan := infMask_lt_iff f
  generalize f.toNat / 2 ^ 31 = s at hf hs
  generalize f.toNat % 2 ^ 31 = m at hf hm hnan
  rw [floatValue_split hf hs hm]
  by_cases hfin : m < finiteCount 8 23
  · have hbits := floatToBfloatBits_toNat hf hfin.le
    have hle : roundHalfEven 16 m ≤ bfloatTop := roundHalfEven_le (Nat.succ_pos 15) hfin
    have hvalue := bfloatValue_split hbits hs (hle.trans_lt hsmall)
    have hbetween : Between bfloatPoint (grid 23 m) (roundHalfEven 16 m) :=
      between_roundHalfEven (Nat.succ_pos 15) m
    have hfinite := hbetween.lt_iff bfloatPoint_strictMono hle (by decide)
    have heven : Even (floatToBfloatBits f).toNat ↔ Even (roundHalfEven 16 m) := by
      rw [hbits, Nat.even_iff, Nat.even_iff]
      omega
    rw [if_pos hfin]
    refine ⟨fun hhalf => ?_, fun hhalf => ?_⟩
    · have htop : ¬roundHalfEven 16 m < bfloatTop := by
        rw [hfinite, not_lt, ← halfway_le_iff]
        exact hhalf
      rw [hvalue, if_neg htop, if_pos (by omega)]
    · rw [← not_le, halfway_le_iff, not_le] at hhalf
      have hlt := hfinite.mpr hhalf
      refine ⟨bfloatPoint (roundHalfEven 16 m) * unit 23 127, by rw [hvalue, if_pos hlt],
        fun bits negative' y' hy' => ?_⟩
      obtain ⟨n, hn, rfl⟩ := exists_code hy'
      rw [heven]
      exact hbetween.signed_nearest bfloatPoint_strictMono rfl (unit_pos 23 127) hlt (Int.natCast_nonneg _) hhalf
        (s == 1) negative' hn
  · rw [if_neg hfin]
    by_cases hinf : m = finiteCount 8 23
    · have hbits := floatToBfloatBits_toNat hf hinf.le
      rw [hinf, hcount, roundHalfEven_mul (Nat.succ_pos 15)] at hbits
      rw [if_pos hinf]
      show bfloatValue _ = _
      rw [bfloatValue_split hbits hs hsmall, if_neg (Nat.lt_irrefl _), if_pos rfl]
    · rw [if_neg hinf]
      show bfloatValue _ = _
      rw [floatToBfloatBits, if_pos (hnan.mpr (by omega))]
      decide

/-! ## Round trip -/

/-- A `bfloat16` is a `float`, and comes back from it, a NaN as the quiet one. -/
theorem bfloat_round_trip (bits : BitVec 16) : floatValue (bfloatBitsToFloat bits) = bfloatValue bits ∧
    floatToBfloatBits (bfloatBitsToFloat bits) = if bfloatValue bits = .nan then 0x7FC0 else bits := by
  have hbits := (Nat.div_add_mod' bits.toNat (2 ^ 15)).symm
  have hs : bits.toNat / 2 ^ 15 < 2 := Nat.div_lt_of_lt_mul bits.isLt
  have hn := Nat.mod_lt bits.toNat (Nat.two_pow_pos 15)
  generalize bits.toNat / 2 ^ 15 = s at hbits hs
  generalize bits.toNat % 2 ^ 15 = n at hbits hn
  have hfloat : (bfloatBitsToFloat bits).toNat = s * 2 ^ 31 + n * 2 ^ 16 := by
    rw [bfloatBitsToFloat_toNat, hbits]
    omega
  have hmagnitude : (bfloatBitsToFloat bits).toNat % 2 ^ 31 = n * 2 ^ 16 := by
    rw [hfloat]
    omega
  have hcount : finiteCount 8 23 = bfloatTop * 2 ^ 16 := rfl
  rw [floatValue_split hfloat hs (by omega), bfloatValue_split hbits hs hn, hcount]
  have hlt : n * 2 ^ 16 < bfloatTop * 2 ^ 16 ↔ n < bfloatTop := Nat.mul_lt_mul_right (Nat.two_pow_pos 16)
  have heq : n * 2 ^ 16 = bfloatTop * 2 ^ 16 ↔ n = bfloatTop := Nat.mul_left_inj (Nat.two_pow_pos 16).ne'
  have hpoint : (grid 23 (n * 2 ^ 16) : ℚ) = bfloatPoint n := by
    rw [bfloatPoint, ← grid_mul]
    rfl
  simp only [hlt, heq, hpoint, true_and]
  by_cases hnan : bfloatTop < n
  · have hmask : infMask < bfloatBitsToFloat bits &&& ~~~signMask := by
      rw [infMask_lt_iff, hmagnitude, hcount]
      exact Nat.mul_lt_mul_of_pos_right hnan (Nat.two_pow_pos 16)
    rw [floatToBfloatBits, if_pos hmask, if_neg (Nat.not_lt_of_gt hnan), if_neg (Nat.ne_of_gt hnan), if_pos rfl]
  · have hle : n * 2 ^ 16 ≤ finiteCount 8 23 := by
      rw [hcount]
      exact Nat.mul_le_mul_right _ (Nat.le_of_not_lt hnan)
    have hback : floatToBfloatBits (bfloatBitsToFloat bits) = bits := by
      apply BitVec.eq_of_toNat_eq
      rw [floatToBfloatBits_toNat hfloat hle, roundHalfEven_mul (Nat.succ_pos 15), hbits]
    rw [hback]
    by_cases hfin : n < bfloatTop
    · simp [hfin]
    · have htop : n = bfloatTop := by omega
      simp [htop]

end SglangMlx
