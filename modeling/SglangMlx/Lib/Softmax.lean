import Mathlib

/- Means with softmax weights. The weights are taken relative to the largest score, so
   that none exceeds 1 and one of them is 1; the divisor has a small `ε` added to it. With
   an exponential that turns sums into products the shift cancels (`mean_zero`), and the
   `ε` costs at most `ε` times the largest value (`abs_mean_sub_le`). -/
namespace Softmax

variable {ι F : Type} [Field F] [LinearOrder F]

theorem range_nonempty {n : Nat} (h : 0 < n) : (Finset.range n).Nonempty := Finset.nonempty_range_iff.mpr h.ne'

section
variable (exp : F → F) (s : Finset ι) (hs : s.Nonempty) (score value : ι → F) (ε : F)

/-- `exp(l_i - max l)`. -/
def weight (i : ι) : F := exp (score i - s.sup' hs score)

def mean : F := (∑ i ∈ s, weight exp s hs score i * value i) / (∑ i ∈ s, weight exp s hs score i + ε)

variable {exp s hs score value ε}

theorem mean_congr {score' value' : ι → F} (hscore : ∀ i ∈ s, score i = score' i)
    (hvalue : ∀ i ∈ s, value i = value' i) :
    mean exp s hs score value ε = mean exp s hs score' value' ε := by
  have hweight : ∀ i ∈ s, weight exp s hs score i = weight exp s hs score' i := fun i hi => by
    rw [weight, weight, hscore i hi, Finset.sup'_congr hs rfl hscore]
  rw [mean, mean, Finset.sum_congr rfl hweight]
  congr 1
  apply Finset.sum_congr rfl
  intro i hi
  rw [hweight i hi, hvalue i hi]

theorem weight_nonneg (hexp : ∀ z, 0 < exp z) (i : ι) : 0 ≤ weight exp s hs score i := (hexp _).le

variable (hs) in
/-- Without `ε` this is the usual softmax: the shift by the largest score cancels. -/
theorem mean_zero (hexp : ∀ z, 0 < exp z) (hadd : ∀ x y, exp (x + y) = exp x * exp y) :
    mean exp s hs score value 0 = (∑ i ∈ s, exp (score i) * value i) / ∑ i ∈ s, exp (score i) := by
  have hshift : ∀ i, weight exp s hs score i = exp (-s.sup' hs score) * exp (score i) := fun i => by
    rw [weight, sub_eq_neg_add, hadd]
  simp only [mean, hshift, add_zero, mul_assoc]
  rw [← Finset.mul_sum, ← Finset.mul_sum, mul_div_mul_left _ _ (hexp _).ne']

theorem exp_zero_of_add (hexp : ∀ z, 0 < exp z) (hadd : ∀ x y, exp (x + y) = exp x * exp y) : exp 0 = 1 := by
  have h := hadd 0 0
  rw [add_zero] at h
  exact (mul_eq_left₀ (hexp 0).ne').mp h.symm

variable [IsStrictOrderedRing F]

theorem bound_nonneg {M : F} (hs : s.Nonempty) (hM : ∀ i ∈ s, |value i| ≤ M) : 0 ≤ M := by
  obtain ⟨i, hi⟩ := hs
  exact (abs_nonneg _).trans (hM i hi)

variable (hexp : ∀ z, 0 < exp z)
include hexp

section
variable (hs score)

theorem sum_weight_pos : 0 < ∑ i ∈ s, weight exp s hs score i :=
  Finset.sum_pos (fun _ _ => hexp _) hs

theorem one_le_sum_weight (hexp0 : exp 0 = 1) : 1 ≤ ∑ i ∈ s, weight exp s hs score i := by
  obtain ⟨i, hi, hmax⟩ := Finset.exists_mem_eq_sup' hs score
  have hone : weight exp s hs score i = 1 := by
    rw [weight, hmax, sub_self, hexp0]
  calc 1 = weight exp s hs score i := hone.symm
    _ ≤ _ := Finset.single_le_sum (fun j _ => weight_nonneg hexp j) hi

theorem abs_sum_le {M : F} (hM : ∀ i ∈ s, |value i| ≤ M) :
    |∑ i ∈ s, weight exp s hs score i * value i| ≤ M * ∑ i ∈ s, weight exp s hs score i := by
  calc |∑ i ∈ s, weight exp s hs score i * value i|
      ≤ ∑ i ∈ s, |weight exp s hs score i * value i| := Finset.abs_sum_le_sum_abs _ _
    _ ≤ ∑ i ∈ s, M * weight exp s hs score i := by
        apply Finset.sum_le_sum
        intro i hi
        rw [abs_mul, abs_of_nonneg (weight_nonneg hexp i), mul_comm]
        exact mul_le_mul_of_nonneg_right (hM i hi) (weight_nonneg hexp i)
    _ = M * ∑ i ∈ s, weight exp s hs score i := (Finset.mul_sum _ _ _).symm

end

theorem abs_mean_le {M : F} (hM : ∀ i ∈ s, |value i| ≤ M) (hε : 0 ≤ ε) : |mean exp s hs score value ε| ≤ M := by
  have hpos := sum_weight_pos hs score hexp
  have hdiv : 0 < ∑ i ∈ s, weight exp s hs score i + ε := by linarith
  rw [mean, abs_div, abs_of_pos hdiv, div_le_iff₀ hdiv]
  calc _ ≤ M * ∑ i ∈ s, weight exp s hs score i := abs_sum_le hs score hexp hM
    _ ≤ M * (∑ i ∈ s, weight exp s hs score i + ε) :=
        mul_le_mul_of_nonneg_left (by linarith) (bound_nonneg hs hM)

/-- What the added `ε` changes. -/
theorem abs_mean_sub_le (hexp0 : exp 0 = 1) {M : F} (hM : ∀ i ∈ s, |value i| ≤ M) (hε : 0 ≤ ε) :
    |mean exp s hs score value ε - mean exp s hs score value 0| ≤ ε * M := by
  have hone := one_le_sum_weight hs score hexp hexp0
  have hsum := abs_sum_le hs score hexp hM
  rw [mean, mean, add_zero]
  generalize (∑ i ∈ s, weight exp s hs score i * value i) = n at hsum ⊢
  generalize (∑ i ∈ s, weight exp s hs score i) = w at hone hsum ⊢
  have hw : 0 < w := by linarith
  have hwε : 0 < w + ε := by linarith
  have hsplit : n / (w + ε) - n / w = -(ε * n / (w * (w + ε))) := by
    field_simp
    ring
  rw [hsplit, abs_neg, abs_div, abs_mul, abs_of_nonneg hε, abs_of_pos (mul_pos hw hwε),
    div_le_iff₀ (mul_pos hw hwε)]
  have hM0 : 0 ≤ M := bound_nonneg hs hM
  calc ε * |n| ≤ ε * (M * w) := mul_le_mul_of_nonneg_left hsum hε
    _ = ε * M * (w * 1) := by ring
    _ ≤ ε * M * (w * (w + ε)) := by
        apply mul_le_mul_of_nonneg_left _ (mul_nonneg hε hM0)
        exact mul_le_mul_of_nonneg_left (by linarith) hw.le

end

end Softmax
