import SglangMlx.Float8

/- The codes that `fp32_to_fp8` makes, in arithmetic. A `float` has sign `s`, exponent
   field `e` and mantissa `m`. In the normal range the code is that of the truncated
   mantissa, plus one if it is rounded up; a carry runs into the exponent and from
   the last one into infinity. Below it the bits are shifted out with one half added, and
   only the mantissa bits of the result are kept. So they are above it, where the count
   of the shift shrinks and turns negative. -/
namespace SglangMlx

open MiniFloat

/-- The two instances. -/
inductive Fp8 where
  | e4m3
  | e5m2
  deriving DecidableEq, Repr

namespace Fp8

def expBits : Fp8 → Nat
  | .e4m3 => 4
  | .e5m2 => 5

def manBits : Fp8 → Nat
  | .e4m3 => 3
  | .e5m2 => 2

def bias : Fp8 → Nat
  | .e4m3 => 7
  | .e5m2 => 15

def toFloat : Fp8 → BitVec 8 → FloatValue
  | .e4m3 => fp8E4m3ToFloat
  | .e5m2 => fp8E5m2ToFloat

def ofFloat : Fp8 → BitVec 32 → Option (BitVec 8)
  | .e4m3 => floatToFp8E4m3
  | .e5m2 => floatToFp8E5m2

/-- The code of infinity. -/
def top (fmt : Fp8) : Nat := finiteCount fmt.expBits fmt.manBits

variable (fmt : Fp8)

theorem toFloat_eq : fmt.toFloat = fp8ToFloat fmt.expBits fmt.manBits fmt.bias := by cases fmt <;> rfl

theorem ofFloat_eq : fmt.ofFloat = fp32ToFp8 fmt.expBits fmt.manBits fmt.bias := by cases fmt <;> rfl

theorem sizes : fmt.expBits + fmt.manBits = 7 ∧ 1 ≤ fmt.manBits ∧ fmt.manBits ≤ 3 ∧ fmt.bias ≤ 15 := by
  cases fmt <;> decide

theorem two_pow_expBits : 2 ^ fmt.expBits = 2 * fmt.bias + 2 := by cases fmt <;> decide

theorem top_eq : fmt.top = (2 * fmt.bias + 1) * 2 ^ fmt.manBits := by
  rw [top, finiteCount, two_pow_expBits]
  rfl

theorem two_pow_eq : (2 * fmt.bias + 2) * 2 ^ fmt.manBits = 128 := by cases fmt <;> decide

end Fp8

/-! ## Bits -/

theorem shiftRight_eq {a k : Nat} {count : Int} (hcount : count = k) (hk : k ≤ 31) :
    shiftRight a count = some (a / 2 ^ k) := by
  rw [shiftRight, if_pos (by omega), hcount, Int.toNat_natCast, Nat.shiftRight_eq_div_pow]

theorem shiftLeft_eq {a k : Nat} {count : Int} (hcount : count = k) (hk : k ≤ 31) (hlt : a * 2 ^ k < 2 ^ 32) :
    shiftLeft a count = some (a * 2 ^ k) := by
  rw [shiftLeft, if_pos (by omega), hcount, Int.toNat_natCast, Nat.shiftLeft_eq, Nat.mod_eq_of_lt hlt]

theorem or_eq_add {a b k : Nat} (hb : b < 2 ^ k) : a * 2 ^ k ||| b = a * 2 ^ k + b := by
  rw [← Nat.shiftLeft_eq, ← Nat.shiftLeft_add_eq_or_of_lt hb]

/-- The byte of a sign and a code. -/
def byteOf (s code : Nat) : BitVec 8 := uchar (s * 2 ^ 7 + code)

theorem byteOf_toNat {s code : Nat} (hs : s < 2) (hcode : code < 128) :
    (byteOf s code).toNat = s * 2 ^ 7 + code := by
  rw [byteOf, uchar, BitVec.toNat_ofNat]
  exact Nat.mod_eq_of_lt (by omega)

theorem or_uchar {s code : Nat} (hcode : code < 2 ^ 7) : uchar (s * 2 ^ 7 ||| code) = byteOf s code := by
  rw [byteOf, or_eq_add hcode]

/-- One if `m / 2 ^ shift` is rounded up: to the nearest, on a tie to the even quotient. -/
def roundUp (m shift : Nat) : Nat :=
  if 2 ^ (shift - 1) < m % 2 ^ shift ∨ m % 2 ^ shift = 2 ^ (shift - 1) ∧ m / 2 ^ shift % 2 = 1 then 1 else 0

theorem roundUp_le (m shift : Nat) : roundUp m shift ≤ 1 := by
  rw [roundUp]
  split <;> omega

/-- `round & (sticky | lsb)`. -/
theorem roundUp_eq {m shift : Nat} (hshift : 1 ≤ shift) :
    ((m / 2 ^ (shift - 1)) &&& 1) &&&
    ((if m &&& (1 * 2 ^ (shift - 1) - 1) ≠ 0 then 1 else 0) ||| ((m / 2 ^ shift) &&& 1)) = roundUp m shift := by
  obtain ⟨k, rfl⟩ : ∃ k, shift = k + 1 := Nat.exists_eq_add_one.mpr hshift
  have hmod : m % 2 ^ (k + 1) = m % 2 ^ k + 2 ^ k * (m / 2 ^ k % 2) := by rw [pow_succ, Nat.mod_mul]
  have hlt : m % 2 ^ k < 2 ^ k := Nat.mod_lt m (Nat.two_pow_pos k)
  rw [roundUp, Nat.add_sub_cancel, Nat.one_mul, Nat.and_two_pow_sub_one_eq_mod, hmod, Nat.and_one_is_mod,
    Nat.and_one_is_mod]
  obtain hround | hround := Nat.mod_two_eq_zero_or_one (m / 2 ^ k)
  · rw [hround, Nat.mul_zero, Nat.add_zero, Nat.zero_and, if_neg (by omega)]
  · rw [hround, Nat.mul_one]
    obtain hlsb | hlsb := Nat.mod_two_eq_zero_or_one (m / 2 ^ (k + 1)) <;> rw [hlsb] <;>
      by_cases hsticky : m % 2 ^ k = 0 <;> simp [hsticky]

/-! ## The paths -/

section
variable (fmt : Fp8) {s m : Nat} (hm : m < 2 ^ 23)

theorem Fp8.top_lt : fmt.top + 2 ^ fmt.manBits = 128 := by
  rw [fmt.top_eq, ← fmt.two_pow_eq]
  ring

theorem Fp8.two_pow_manBits_le_top : 2 ^ fmt.manBits ≤ fmt.top := by
  rw [fmt.top_eq]
  exact Nat.le_mul_of_pos_left _ (Nat.succ_pos _)

theorem assemble {e r : Nat} (he : e ≤ 2 * fmt.bias) (hr : r < 2 ^ fmt.manBits) :
    uchar (s * 2 ^ 7 ||| e * 2 ^ fmt.manBits ||| (r &&& (1 * 2 ^ fmt.manBits - 1))) =
      byteOf s (e * 2 ^ fmt.manBits + r) := by
  have hall := fmt.two_pow_eq
  have hexp : e * 2 ^ fmt.manBits < 2 ^ 7 := by nlinarith
  have hsplit : s * 2 ^ 7 + e * 2 ^ fmt.manBits = (s * 2 ^ fmt.expBits + e) * 2 ^ fmt.manBits := by
    rw [← fmt.sizes.1, pow_add]
    ring
  rw [Nat.one_mul, Nat.and_two_pow_sub_one_eq_mod, Nat.mod_eq_of_lt hr, or_eq_add hexp, hsplit,
    or_eq_add hr, ← hsplit, byteOf, Nat.add_assoc]

include hm

theorem mant_lt : m / 2 ^ (23 - fmt.manBits) < 2 ^ fmt.manBits := by
  apply Nat.div_lt_of_lt_mul
  obtain ⟨_, _, hman, _⟩ := fmt.sizes
  rw [← pow_add, Nat.sub_add_cancel (by omega)]
  exact hm

theorem normalPath_eq {e : Nat} (he : 1 ≤ e ∧ e ≤ 2 * fmt.bias) :
    normalPath fmt.manBits (s * 2 ^ 7) fmt.top (2 * fmt.bias : Nat) e m =
      some (byteOf s (e * 2 ^ fmt.manBits + m / 2 ^ (23 - fmt.manBits) + roundUp m (23 - fmt.manBits))) := by
  obtain ⟨hsum, hman1, hman3, hbias⟩ := fmt.sizes
  have hmant := mant_lt fmt hm
  have hup := roundUp_le m (23 - fmt.manBits)
  have hpow : 2 ^ fmt.manBits ≤ 2 ^ 3 := Nat.pow_le_pow_right (by norm_num) hman3
  have hbig : (2 : Nat) ^ (23 - fmt.manBits - 1) ≤ 2 ^ 22 := Nat.pow_le_pow_right (by norm_num) (by omega)
  have hall := fmt.two_pow_eq
  have hquot : shiftRight m (23 - fmt.manBits : Int) = some (m / 2 ^ (23 - fmt.manBits)) :=
    shiftRight_eq (by omega) (by omega)
  have hround : shiftRight m (23 - fmt.manBits - 1 : Int) = some (m / 2 ^ (23 - fmt.manBits - 1)) :=
    shiftRight_eq (by omega) (by omega)
  have hsticky : shiftLeft 1 (23 - fmt.manBits - 1 : Int) = some (1 * 2 ^ (23 - fmt.manBits - 1)) :=
    shiftLeft_eq (by omega) (by omega) (by omega)
  have hmask : shiftLeft 1 fmt.manBits = some (1 * 2 ^ fmt.manBits) := shiftLeft_eq rfl (by omega) (by omega)
  have hexp : ∀ e' : Nat, e' ≤ 2 * fmt.bias → shiftLeft e' fmt.manBits = some (e' * 2 ^ fmt.manBits) := by
    intro e' he'
    exact shiftLeft_eq rfl (by omega) (by nlinarith)
  have hcarry : ∀ q, shiftRight q fmt.manBits = some (q / 2 ^ fmt.manBits) := fun q =>
    shiftRight_eq rfl (by omega)
  simp only [normalPath, hquot, hround, hsticky, hmask, hcarry, Option.bind_eq_bind, Option.bind_some,
    Option.pure_def, roundUp_eq (show 1 ≤ 23 - fmt.manBits by omega)]
  generalize m / 2 ^ (23 - fmt.manBits) = q at hmant ⊢
  generalize roundUp m (23 - fmt.manBits) = up at hup ⊢
  have hpos := Nat.two_pow_pos fmt.manBits
  by_cases hover : q + up < 2 ^ fmt.manBits
  · rw [Nat.div_eq_of_lt hover, if_neg (not_not.mpr rfl), Int.toNat_natCast, hexp e he.2, Option.bind_some,
      assemble fmt he.2 hover, Nat.add_assoc]
  · have hfull : q + up = 2 ^ fmt.manBits := by omega
    rw [hfull, Nat.div_self hpos, if_pos Nat.one_ne_zero, Nat.add_assoc, hfull, ← Nat.succ_mul]
    by_cases hlast : e < 2 * fmt.bias
    · have he' : ((e : Int) + 1).toNat = e + 1 := by omega
      have hzero := assemble (s := s) fmt (r := 0) (show e + 1 ≤ 2 * fmt.bias from hlast) hpos
      rw [Nat.zero_and] at hzero ⊢
      rw [if_neg (by omega), he', hexp _ hlast, Option.bind_some, hzero]
      rfl
    · -- past the last exponent
      obtain rfl : e = 2 * fmt.bias := by omega
      rw [if_pos (by omega), or_uchar (by have := fmt.top_lt; omega), fmt.top_eq]

omit hm in
theorem subnormalPath_small {e : Int} (he : e < 1 - fmt.manBits) :
    subnormalPath fmt.manBits (s * 2 ^ 7) e m = some (byteOf s 0) := by
  rw [subnormalPath, if_pos he]
  rfl

/-- The bits are shifted to the subnormal grid, and the carry out of the mantissa is lost. -/
theorem subnormalPath_eq {e : Int} (he : 1 - fmt.manBits ≤ e) {k : Nat} (hk : (24 - fmt.manBits : Int) - e = k)
    (hpos : 1 ≤ k) :
    subnormalPath fmt.manBits (s * 2 ^ 7) e m =
      some (byteOf s ((2 ^ 23 + m + 2 ^ (k - 1)) / 2 ^ k % 2 ^ fmt.manBits)) := by
  obtain ⟨_, hman1, hman3, _⟩ := fmt.sizes
  have hhalf : (2 : Nat) ^ (k - 1) ≤ 2 ^ 22 := Nat.pow_le_pow_right (by norm_num) (by omega)
  have hpow : 2 ^ fmt.manBits ≤ 2 ^ 3 := Nat.pow_le_pow_right (by norm_num) hman3
  have hmant : 0x800000 ||| m = 2 ^ 23 + m := or_eq_add (a := 1) hm
  have hleft : shiftLeft 1 (1 - e + (23 - fmt.manBits) - 1) = some (1 * 2 ^ (k - 1)) :=
    shiftLeft_eq (by omega) (by omega) (by omega)
  have hright : ∀ a, shiftRight a (1 - e + (23 - fmt.manBits)) = some (a / 2 ^ k) := fun a =>
    shiftRight_eq (by omega) (by omega)
  have hmask : shiftLeft 1 fmt.manBits = some (1 * 2 ^ fmt.manBits) := shiftLeft_eq rfl (by omega) (by omega)
  rw [subnormalPath, if_neg (by omega)]
  simp only [hleft, hright, hmask, hmant, Option.bind_eq_bind, Option.bind_some, Option.pure_def, Nat.one_mul,
    Nat.and_two_pow_sub_one_eq_mod]
  have hcode := (Nat.mod_lt ((2 ^ 23 + m + 2 ^ (k - 1)) / 2 ^ k) (Nat.two_pow_pos fmt.manBits)).trans_le hpow
  split
  · next hzero =>
    rw [hzero, Nat.zero_mod]
    rfl
  · rw [or_uchar (hcode.trans (by norm_num))]

omit hm in
theorem subnormalPath_undefined {e : Int} (he : (24 - fmt.manBits : Int) ≤ e) :
    subnormalPath fmt.manBits (s * 2 ^ 7) e m = none := by
  obtain ⟨_, hman1, hman3, _⟩ := fmt.sizes
  have hleft : shiftLeft 1 (1 - e + (23 - fmt.manBits) - 1) = none := if_neg (by omega)
  rw [subnormalPath, if_neg (by omega)]
  simp only [hleft, Option.bind_eq_bind, Option.bind_none]

end

/-! ## The encoder -/

section
variable (fmt : Fp8) (f : BitVec 32)

def signOf : Nat := f.toNat / 2 ^ 31

/-- Exponent and mantissa: the code of the magnitude. -/
def magnitudeOf : Nat := f.toNat % 2 ^ 31

/-- `e_fp8`. -/
def exponentOf : Int := (magnitudeOf f / 2 ^ 23 : Nat) - 127 + fmt.bias

theorem signOf_lt : signOf f < 2 := Nat.div_lt_of_lt_mul f.isLt

theorem ofFloat_paths :
    fmt.ofFloat f =
      if finiteCount 8 23 ≤ magnitudeOf f then
        some (uchar (signOf f * 2 ^ 7 ||| fmt.top ||| if magnitudeOf f ≠ finiteCount 8 23 then 1 else 0))
      else if 1 ≤ exponentOf fmt f ∧ exponentOf fmt f ≤ (2 * fmt.bias : Nat) then
        normalPath fmt.manBits (signOf f * 2 ^ 7) fmt.top (2 * fmt.bias : Nat) (exponentOf fmt f)
          (magnitudeOf f % 2 ^ 23)
      else subnormalPath fmt.manBits (signOf f * 2 ^ 7) (exponentOf fmt f) (magnitudeOf f % 2 ^ 23) := by
  obtain ⟨hsum, hman1, hman3, hbias⟩ := fmt.sizes
  have hs := signOf_lt f
  have hsign : shiftRight f.toNat 31 = some (signOf f) := shiftRight_eq rfl (by norm_num)
  have hsign' : shiftLeft (signOf f) 7 = some (signOf f * 2 ^ 7) := shiftLeft_eq rfl (by norm_num) (by omega)
  have hexp : shiftLeft 1 fmt.expBits = some (1 * 2 ^ fmt.expBits) := by
    refine shiftLeft_eq rfl (by omega) ?_
    rw [fmt.two_pow_expBits]
    omega
  have htop : shiftLeft (1 * 2 ^ fmt.expBits - 1) fmt.manBits = some fmt.top := by
    rw [Nat.one_mul]
    refine shiftLeft_eq rfl (by omega) ?_
    show fmt.top < 2 ^ 32
    exact ((Nat.le_add_right _ _).trans_eq fmt.top_lt).trans_lt (by norm_num)
  have hfield : ∀ a, shiftRight a 23 = some (a / 2 ^ 23) := fun a => shiftRight_eq rfl (by norm_num)
  have habs : f.toNat &&& 0x7FFFFFFF = magnitudeOf f := Nat.and_two_pow_sub_one_eq_mod f.toNat 31
  have hmant : magnitudeOf f &&& 0x7FFFFF = magnitudeOf f % 2 ^ 23 := Nat.and_two_pow_sub_one_eq_mod _ 23
  have hlt : magnitudeOf f / 2 ^ 23 < 2 ^ 8 := Nat.div_lt_of_lt_mul (Nat.mod_lt _ (by norm_num))
  have hmask : magnitudeOf f / 2 ^ 23 &&& 0xFF = magnitudeOf f / 2 ^ 23 := by
    rw [← Nat.mod_eq_of_lt hlt]
    exact Nat.and_two_pow_sub_one_of_lt_two_pow (Nat.mod_lt _ (by norm_num))
  have hmax : ((1 * 2 ^ fmt.expBits : Nat) : Int) - 2 = (2 * fmt.bias : Nat) := by
    rw [fmt.two_pow_expBits]
    omega
  rw [fmt.ofFloat_eq, fp32ToFp8]
  simp only [hsign, hsign', hexp, htop, hfield, habs, hmant, hmask, hmax, Option.bind_eq_bind, Option.bind_some,
    Option.pure_def]
  rfl

end

end SglangMlx
