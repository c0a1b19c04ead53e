import SglangMlx.Float8Rounding

/- Encoding undoes decoding. The subnormal path shifts and masks as it should where nothing
   is rounded, so every byte comes back from a `float` of its value, in both formats
   and over all ranges of exponents. -/
namespace SglangMlx

open MiniFloat Rounding

namespace Fp8
variable (fmt : Fp8)

theorem toFloat_split {v : BitVec 8} {s n : Nat} (hv : v.toNat = s * 2 ^ 7 + n) (hs : s < 2) (hn : n < 128) :
    fmt.toFloat v = if n < fmt.top then .finite (s == 1) (fmt.finePoint n * tiny)
      else if n = fmt.top then .inf (s == 1) else .nan := by
  have hsum := fmt.sizes.1
  rw [toFloat_decode, hv, ← hsum, decode_split hs (by rw [hsum]; exact hn), grid_mul_unit]
  rfl

theorem floatValue_split (f : BitVec 32) : floatValue f =
    if magnitudeOf f < finiteCount 8 23 then .finite (signOf f == 1) (fineFloat f * tiny)
    else if magnitudeOf f = finiteCount 8 23 then .inf (signOf f == 1) else .nan := by
  have hm : magnitudeOf f < 2 ^ (8 + 23) := Nat.mod_lt _ (Nat.two_pow_pos 31)
  have hf : f.toNat = signOf f * 2 ^ (8 + 23) + magnitudeOf f := (Nat.div_add_mod' f.toNat (2 ^ 31)).symm
  rw [floatValue, hf, decode_split (signOf_lt f) hm, fineFloat, Int.cast_natCast]
  rfl

theorem roundUp_zero {m shift : Nat} (h : m % 2 ^ shift = 0) : roundUp m shift = 0 := by
  have hpos := Nat.two_pow_pos (shift - 1)
  rw [roundUp, h, if_neg (by omega)]

theorem ofFloat_point {f : BitVec 32} (hfin : magnitudeOf f < finiteCount 8 23) {n : Nat} (hn : n < fmt.top)
    (hpoint : fineFloat f = fmt.finePoint n) : fmt.ofFloat f = some (byteOf (signOf f) n) := by
  obtain ⟨_, hman1, hman3, _⟩ := fmt.sizes
  have hm := Nat.mod_lt (magnitudeOf f) (Nat.two_pow_pos 23)
  have hmono := fmt.finePoint_strictMono
  rw [ofFloat_paths, if_neg (Nat.not_le_of_lt hfin)]
  by_cases hnormal : 1 ≤ exponentOf fmt f ∧ exponentOf fmt f ≤ (2 * fmt.bias : Nat)
  · obtain ⟨e, he⟩ := Int.eq_ofNat_of_zero_le (show 0 ≤ exponentOf fmt f by omega)
    rw [he] at hnormal
    obtain ⟨hplace, hrest⟩ := (rest_normal fmt he (by omega)).of_point hmono hpoint
    rw [he, if_pos hnormal, normalPath_eq fmt hm ⟨by omega, by omega⟩, roundUp_zero hrest, hplace]
    rfl
  rw [if_neg hnormal]
  by_cases hsmall : exponentOf fmt f < 1 - fmt.manBits
  · obtain ⟨hplace, -⟩ := (rest_small fmt hsmall).of_point hmono hpoint
    rw [subnormalPath_small fmt hsmall, hplace]
  · have hlow : exponentOf fmt f ≤ 0 := by
      by_contra hhigh
      have := fmt.finePoint_top_le (f := f) (by omega)
      have := hmono hn
      omega
    obtain ⟨k, hk⟩ := Int.eq_ofNat_of_zero_le (show 0 ≤ (24 - fmt.manBits : Int) - exponentOf fmt f by omega)
    obtain ⟨hrest, -, hlast⟩ := rest_subnormal fmt (f := f) (k := k) (by omega) (by omega) (by omega)
    obtain ⟨hplace, hzero⟩ := hrest.of_point hmono hpoint
    have hpos := Nat.two_pow_pos k
    rw [subnormalPath_eq fmt hm (by omega) hk (by omega), subnormal_code (by omega), hzero,
      if_neg (by omega), hplace, Nat.mod_eq_of_lt (hplace ▸ hlast)]

/-- A byte comes back from a `float` of its value; from a NaN some NaN comes back. -/
theorem encode_decode (v : BitVec 8) (f : BitVec 32) (h : floatValue f = fmt.toFloat v) :
    ∃ byte, fmt.ofFloat f = some byte ∧ fmt.toFloat byte = fmt.toFloat v ∧ (fmt.toFloat v ≠ .nan → byte = v) := by
  obtain ⟨_, hman1, hman3, _⟩ := fmt.sizes
  have hv := (Nat.div_add_mod' v.toNat (2 ^ 7)).symm
  have hs : v.toNat / 2 ^ 7 < 2 := Nat.div_lt_of_lt_mul v.isLt
  have hn := Nat.mod_lt v.toNat (Nat.two_pow_pos 7)
  generalize v.toNat / 2 ^ 7 = s at hv hs
  generalize v.toNat % 2 ^ 7 = n at hv hn
  have hbyte : byteOf s n = v := by
    apply BitVec.eq_of_toNat_eq
    rw [byteOf_toNat hs hn, hv]
  have hsign : (signOf f == 1) = (s == 1) → signOf f = s := fun heq => by
    have := signOf_lt f
    interval_cases signOf f <;> interval_cases s <;> simp_all
  have hvalue := fmt.toFloat_split hv hs hn
  rw [hvalue, floatValue_split] at h
  have htop := fmt.top_lt
  have hpow := Nat.two_pow_pos fmt.manBits
  suffices hsuff : fmt.toFloat v ≠ .nan ∧ fmt.ofFloat f = some v ∨
      fmt.toFloat v = .nan ∧ ∃ byte, fmt.ofFloat f = some byte ∧ fmt.toFloat byte = .nan by
    rcases hsuff with ⟨_, heq⟩ | ⟨hnan, byte, heq, hbyte⟩
    · exact ⟨v, heq, rfl, fun _ => rfl⟩
    · exact ⟨byte, heq, by rw [hbyte, hnan], fun hne => absurd hnan hne⟩
  rw [hvalue]
  by_cases hfin : n < fmt.top
  · rw [if_pos hfin] at h ⊢
    split at h
    · next hmag =>
      injection h with hneg hpoint
      have hpoint : fineFloat f = fmt.finePoint n := by
        have := mul_right_cancel₀ tiny_pos.ne' hpoint
        exact_mod_cast this
      refine Or.inl ⟨FloatValue.noConfusion, ?_⟩
      rw [fmt.ofFloat_point hmag hfin hpoint, hsign hneg, hbyte]
    · split at h <;> cases h
  · rw [if_neg hfin] at h ⊢
    by_cases hinf : n = fmt.top
    · rw [if_pos hinf] at h ⊢
      split at h
      · cases h
      · next hmag =>
        split at h
        · next hmag' =>
          injection h with hneg
          refine Or.inl ⟨FloatValue.noConfusion, ?_⟩
          rw [ofFloat_paths, if_pos hmag'.ge, if_neg (not_not_intro hmag'), Nat.or_zero,
            or_uchar (by omega), ← hinf, hsign hneg, hbyte]
        · cases h
    · rw [if_neg hinf] at h ⊢
      split at h
      · cases h
      · next hmag =>
        split at h
        · cases h
        · next hmag' =>
          refine Or.inr ⟨rfl, byteOf (signOf f) (fmt.top + 1), ?_, ?_⟩
          · have hone : fmt.top ||| 1 = fmt.top + 1 := by
              rw [fmt.top_eq]
              exact or_eq_add (Nat.one_lt_two_pow (by omega))
            rw [ofFloat_paths, if_pos (by omega), if_pos hmag', Nat.or_assoc, hone, or_uchar (by omega)]
          · have hcode : fmt.top + 1 < 128 := by
              have := Nat.one_lt_two_pow (n := fmt.manBits) (by omega)
              omega
            rw [fmt.toFloat_split (byteOf_toNat (signOf_lt f) hcode) (signOf_lt f) hcode, if_neg (by omega),
              if_neg (by omega)]

theorem encode_decode_subnormal : ∃ byte, e4m3.ofFloat 0xBB000000#32 = some byte ∧
    e4m3.toFloat byte = e4m3.toFloat 0x81#8 ∧ (e4m3.toFloat 0x81#8 ≠ .nan → byte = 0x81#8) :=
  e4m3.encode_decode 0x81#8 0xBB000000#32 (by decide +kernel)

end Fp8

end SglangMlx
