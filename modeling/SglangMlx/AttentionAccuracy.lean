import SglangMlx.Lib.Softmax
import SglangMlx.AttentionCorrect

/- How far the attention kernel is from softmax attention. It divides by the sum of the
   weights plus `1e-6f`, so its rows are means with the weights of `Softmax`, a little
   short of 1 in sum. -/
namespace SglangMlx

open Threadgroup

namespace AttentionArrays
variable {F : Type} [Field F] (a : AttentionArrays F) (p : PagedAttention F) (scale : F) (s head : Nat)

/-- Softmax attention over the context as it is usually written. -/
def softmax (exp : F → F) (d : Nat) : F :=
  (∑ t ∈ Finset.range (a.contextLen s), exp (a.logit p scale s head t) *
    a.valueCache.get (a.valueIdx p s head t d)) /
    ∑ t ∈ Finset.range (a.contextLen s), exp (a.logit p scale s head t)

section
variable {a p scale s head} [LinearOrder F] [IsStrictOrderedRing F] {ops : FloatOps F} {maxSmem : Nat}
  {dtype cacheDtype : Dtype} {numKvHeads blockSize maxSeqLen : Int}
  (hcall : pagedAttentionV1 maxSmem dtype cacheDtype a.query a.keyCache a.valueCache a.blockTables
    a.contextLens numKvHeads scale blockSize maxSeqLen a.alibiSlopes = .ok p)
  (hl : a.Addressed p s head) (hpos : 0 < a.contextLen s) (hle : a.contextLen s ≤ p.maxSeqLen)
  (hlow : ∀ t < a.contextLen s, -ops.fltMax < a.logit p scale s head t)
include hcall hl hle hlow

omit [IsStrictOrderedRing F] in
theorem output_mean {st st' : State (Fin 256) (Regs F) Cell F}
    (hrun : RunsAll warpIdx (p.pagedAttention ops a.buffers s head) st st') {d : Nat} (hd : d < p.headSize) :
    st'.mem (p.outPtr s head d) = Softmax.mean ops.exp (Finset.range (a.contextLen s))
      (Softmax.range_nonempty hpos) (a.logit p scale s head)
      (fun t => a.valueCache.get (a.valueIdx p s head t d)) (1 / 10 ^ 6) := by
  obtain ⟨ha, -⟩ := accepted_of_ok hcall
  have hscale := scale_of_ok hcall
  have hlen := hl.contextLen_eq
  have hpos' : 0 < PagedAttention.contextLen a.buffers s := by omega
  have hscore : ∀ i < PagedAttention.contextLen a.buffers s, -ops.fltMax < p.score ops a.buffers s head i := by
    intro i hi
    rw [hlen] at hi
    rw [hl.score_eq scale ops ha.softcapping hscale ha.useAlibi hi]
    exact hlow i hi
  obtain ⟨hrow, -⟩ := PagedAttention.softmax_runs (Nat.zero_lt_of_lt ha.sizes.2.1) hpos' (by omega) hscore hrun
  have hweight : ∀ t ∈ Finset.range (a.contextLen s), p.weight a.buffers s ops head hpos' t =
      a.weight p scale s head ops hpos t := fun t ht =>
    hl.weight_eq scale ops ha.softcapping hscale ha.useAlibi hpos hpos' (Finset.mem_range.mp ht)
  rw [hrow d hd, hlen, Finset.sum_congr rfl hweight, Softmax.mean]
  congr 1
  apply Finset.sum_congr rfl
  intro t ht
  rw [hweight t ht, hl.value_eq (Finset.mem_range.mp ht) hd]
  rfl

include hpos

/-- No output is larger than the largest value of the context, and each differs from
    softmax attention by at most a millionth of that. -/
theorem attention_near_softmax (hexp : ∀ z, 0 < ops.exp z)
    (hadd : ∀ x y, ops.exp (x + y) = ops.exp x * ops.exp y) {M : F}
    {d : Nat} (hd : d < p.headSize) (hM : ∀ t < a.contextLen s, |a.valueCache.get (a.valueIdx p s head t d)| ≤ M)
    {st st' : State (Fin 256) (Regs F) Cell F}
    (hrun : RunsAll warpIdx (p.pagedAttention ops a.buffers s head) st st') :
    |st'.mem (p.outPtr s head d)| ≤ M ∧ |st'.mem (p.outPtr s head d) - a.softmax p scale s head ops.exp d| ≤
      M / 10 ^ 6 := by
  have hvalues : ∀ t ∈ Finset.range (a.contextLen s), |a.valueCache.get (a.valueIdx p s head t d)| ≤
    M := fun t ht =>
    hM t (Finset.mem_range.mp ht)
  have hε : (0 : F) ≤ 1 / 10 ^ 6 := by positivity
  rw [output_mean hcall hl hpos hle hlow hrun hd]
  refine ⟨Softmax.abs_mean_le hexp hvalues hε, ?_⟩
  rw [softmax, ← Softmax.mean_zero (Softmax.range_nonempty hpos) hexp hadd]
  calc _ ≤ 1 / 10 ^ 6 * M := Softmax.abs_mean_sub_le hexp (Softmax.exp_zero_of_add hexp hadd) hvalues hε
    _ = M / 10 ^ 6 := by ring

end

/-! ## Where the rows are kept -/

/-- The same query, keys and values, wherever blocks and batch have them. -/
structure SameRows (a a' : AttentionArrays F) (p p' : PagedAttention F) (s s' head head' : Nat) : Prop where
  contextLen : a.contextLen s = a'.contextLen s'
  headSize : p.headSize = p'.headSize
  slope : a.slope head = a'.slope head'
  query : ∀ d < p.headSize, a.query.get [s, head, d] = a'.query.get [s', head', d]
  key : ∀ t < a.contextLen s, ∀ d < p.headSize,
    a.keyCache.get (a.keyIdx p s head t d) = a'.keyCache.get (a'.keyIdx p' s' head' t d)
  value : ∀ t < a.contextLen s, ∀ d < p.headSize,
    a.valueCache.get (a.valueIdx p s head t d) = a'.valueCache.get (a'.valueIdx p' s' head' t d)

variable {a a' : AttentionArrays F} {p p' : PagedAttention F} {scale : F} {s s' head head' : Nat}

theorem SameRows.logit (h : SameRows a a' p p' s s' head head') {t : Nat} (ht : t < a.contextLen s) :
    a.logit p scale s head t = a'.logit p' scale s' head' t := by
  have hdot : ∀ d ∈ Finset.range p.headSize, a.query.get [s, head, d] * a.keyCache.get (a.keyIdx p s head t d) =
      a'.query.get [s', head', d] * a'.keyCache.get (a'.keyIdx p' s' head' t d) := fun d hd => by
    have hd := Finset.mem_range.mp hd
    rw [h.query d hd, h.key t ht d hd]
  rw [AttentionArrays.logit, AttentionArrays.logit, Finset.sum_congr rfl hdot, h.headSize, h.slope, h.contextLen]

/-- Two calls give a head the same row when its query, keys and values are the same,
    whatever the block size and the block tables, the other sequences of the batch, and
    the order of the threads. -/
theorem attention_same_rows [LinearOrder F] {ops : FloatOps F} {maxSmem maxSmem' : Nat}
    {dtype cacheDtype dtype' cacheDtype' : Dtype}
    {numKvHeads blockSize maxSeqLen numKvHeads' blockSize' maxSeqLen' : Int}
    (hcall : pagedAttentionV1 maxSmem dtype cacheDtype a.query a.keyCache a.valueCache a.blockTables a.contextLens
      numKvHeads scale blockSize maxSeqLen a.alibiSlopes = .ok p)
    (hcall' : pagedAttentionV1 maxSmem' dtype' cacheDtype' a'.query a'.keyCache a'.valueCache a'.blockTables
      a'.contextLens numKvHeads' scale blockSize' maxSeqLen' a'.alibiSlopes = .ok p')
    (hl : a.Addressed p s head) (hl' : a'.Addressed p' s' head') (hsame : SameRows a a' p p' s s' head head')
    (hpos : 0 < a.contextLen s) (hle : a.contextLen s ≤ p.maxSeqLen) (hle' : a'.contextLen s' ≤ p'.maxSeqLen)
    (hlow : ∀ t < a.contextLen s, -ops.fltMax < a.logit p scale s head t)
    {st st₁ st' st₁' : State (Fin 256) (Regs F) Cell F}
    (hrun : RunsAll warpIdx (p.pagedAttention ops a.buffers s head) st st₁)
    (hrun' : RunsAll warpIdx (p'.pagedAttention ops a'.buffers s' head') st' st₁') :
    ∀ d < p.headSize, st₁.mem (p.outPtr s head d) = st₁'.mem (p'.outPtr s' head' d) := by
  intro d hd
  have hlen := hsame.contextLen
  have hlow' : ∀ t < a'.contextLen s', -ops.fltMax < a'.logit p' scale s' head' t := fun t ht => by
    rw [← hsame.logit (hlen ▸ ht)]
    exact hlow t (hlen ▸ ht)
  calc st₁.mem (p.outPtr s head d)
      = Softmax.mean ops.exp (Finset.range (a.contextLen s)) (Softmax.range_nonempty hpos)
          (a.logit p scale s head) (fun t => a.valueCache.get (a.valueIdx p s head t d)) (1 / 10 ^ 6) :=
        output_mean hcall hl hpos hle hlow hrun hd
    _ = Softmax.mean ops.exp (Finset.range (a.contextLen s)) (Softmax.range_nonempty hpos)
          (a'.logit p' scale s' head') (fun t => a'.valueCache.get (a'.valueIdx p' s' head' t d))
          (1 / 10 ^ 6) := by
        apply Softmax.mean_congr
        · exact fun t ht => hsame.logit (Finset.mem_range.mp ht)
        · exact fun t ht => hsame.value t (Finset.mem_range.mp ht) d hd
    _ = Softmax.mean ops.exp (Finset.range (a'.contextLen s'))
          (Softmax.range_nonempty (hlen ▸ hpos)) (a'.logit p' scale s' head')
          (fun t => a'.valueCache.get (a'.valueIdx p' s' head' t d)) (1 / 10 ^ 6) := by
        simp only [hlen]
    _ = st₁'.mem (p'.outPtr s' head' d) :=
        (output_mean hcall' hl' (hlen ▸ hpos) hle' hlow' hrun' (hsame.headSize ▸ hd)).symm

end AttentionArrays

/-! ## Nine positions -/

theorem ninePositions_softmax {d : Nat} (hd : d < 32) :
    (ninePositions ℝ 1).softmax (nineCall ℝ) 1 0 0 Real.exp d = Real.exp 1 / (8 + Real.exp 1) := by
  have hlen : (ninePositions ℝ 1).contextLen 0 = 9 := rfl
  have hexp : ∀ t ∈ Finset.range 9, Real.exp ((ninePositions ℝ 1).logit (nineCall ℝ) 1 0 0 t) =
      if t = 8 then Real.exp 1 else 1 := by
    intro t ht
    rw [ninePositions_logit (Finset.mem_range.mp ht), apply_ite Real.exp, Real.exp_zero]
  have hvalue : ∀ t ∈ Finset.range 9, Real.exp ((ninePositions ℝ 1).logit (nineCall ℝ) 1 0 0 t) *
      (ninePositions ℝ 1).valueCache.get ((ninePositions ℝ 1).valueIdx (nineCall ℝ) 0 0 t d) =
        if t = 8 then Real.exp 1 else 0 := by
    intro t ht
    rw [hexp t ht, ninePositions_value (Finset.mem_range.mp ht) hd, mul_ite, mul_one, mul_zero]
    split <;> rfl
  rw [AttentionArrays.softmax, hlen, Finset.sum_congr rfl hvalue, Finset.sum_congr rfl hexp]
  norm_num [Finset.sum_range_succ]

theorem attention_near_softmax_nine :
    ∃ st', RunsAll warpIdx ((nineCall ℝ).pagedAttention realOps (ninePositions ℝ 1).buffers 0 0) zeroState st' ∧
      |st'.mem ((nineCall ℝ).outPtr 0 0 5) - Real.exp 1 / (8 + Real.exp 1)| ≤ 1 / 10 ^ 6 := by
  obtain ⟨st', hrun⟩ :=
    exists_runsAll warpIdx ((nineCall ℝ).pagedAttention realOps (ninePositions ℝ 1).buffers 0 0) zeroState
  refine ⟨st', hrun, ?_⟩
  have hvalues : ∀ t < 9,
    |(ninePositions ℝ 1).valueCache.get ((ninePositions ℝ 1).valueIdx (nineCall ℝ) 0 0 t 5)| ≤ 1 := by
    intro t ht
    rw [ninePositions_value ht (by decide)]
    split <;> simp
  have hnear := AttentionArrays.attention_near_softmax ninePositions_ok ninePositions_addressed
    (by decide : 0 < 9) (by decide : 9 ≤ 16) (fun _ => ninePositions_low) Real.exp_pos Real.exp_add
    (by decide : 5 < 32) hvalues hrun
  rw [← ninePositions_softmax (by decide : 5 < 32)]
  exact hnear.2

/-- The same nine positions with their blocks exchanged. -/
theorem attention_same_rows_nine :
    ∃ st₁ st₁',
      RunsAll warpIdx ((nineCall ℝ).pagedAttention realOps (ninePositions ℝ 0).buffers 0 0) zeroState st₁ ∧
      RunsAll warpIdx ((nineCall ℝ).pagedAttention realOps (ninePositions ℝ 1).buffers 0 0) zeroState st₁' ∧
        st₁.mem ((nineCall ℝ).outPtr 0 0 5) = st₁'.mem ((nineCall ℝ).outPtr 0 0 5) := by
  obtain ⟨st₁, hrun⟩ :=
    exists_runsAll warpIdx ((nineCall ℝ).pagedAttention realOps (ninePositions ℝ 0).buffers 0 0) zeroState
  obtain ⟨st₁', hrun'⟩ :=
    exists_runsAll warpIdx ((nineCall ℝ).pagedAttention realOps (ninePositions ℝ 1).buffers 0 0) zeroState
  have hsame : AttentionArrays.SameRows (ninePositions ℝ 0) (ninePositions ℝ 1) (nineCall ℝ)
    (nineCall ℝ) 0 0 0 0 := by
    refine ⟨rfl, rfl, rfl, fun _ _ => rfl, fun t ht d hd => ?_, fun t ht d hd => ?_⟩
    · rw [ninePositions_key ht hd, ninePositions_key ht hd]
    · rw [ninePositions_value ht hd, ninePositions_value ht hd]
  exact ⟨st₁, st₁', hrun, hrun', AttentionArrays.attention_same_rows ninePositions_ok ninePositions_ok
    ninePositions_addressed ninePositions_addressed hsame (by decide : 0 < 9) (by decide : 9 ≤ 16)
    (by decide : 9 ≤ 16) (fun _ => ninePositions_low) hrun hrun' 5 (by decide : 5 < 32)⟩

end SglangMlx
