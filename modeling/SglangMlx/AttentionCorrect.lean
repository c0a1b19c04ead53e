import Mathlib.Analysis.Complex.Trigonometric
import SglangMlx.AttentionBounds
import SglangMlx.AttentionPhases
import SglangMlx.StridedViews

/- `paged_attention` computes softmax attention over the positions of the context. The
   three strides of the kernel each visit every position once, so that its sums over
   threads and simdgroups are sums over the context (`sum_tokenSum`, `sum_strideSum`,
   `sum_blockSum`); the runs of the phases then compose from barrier to barrier. -/
namespace SglangMlx

open MachineInt Reduction Threadgroup Layout

theorem thread_val (tid : Fin 256) : thread tid = tid := Fin.ext (Nat.mod_eq_of_lt tid.isLt)

theorem sum_warpSum {M : Type} [AddCommMonoid M] (f : Fin 256 → M) :
    ∑ w ∈ Finset.range 8, PagedAttention.warpSum f w = ∑ tid : Fin 256, f tid := by
  calc _ = ∑ t ∈ Finset.range (8 * 32), f (thread t) := sum_rows (fun t => f (thread t)) 32 8
    _ = ∑ tid : Fin 256, f (thread tid) := Finset.sum_range fun t => f (thread t)
    _ = _ := Finset.sum_congr rfl fun tid _ => by rw [thread_val]

namespace PagedAttention
variable {F M : Type} [AddCommMonoid M] (p : PagedAttention F) (b : AttentionBuffers F) (seqIdx : Nat)

theorem tokenSum_eq (hblock : 0 < p.blockSize) (f : Nat → M) (tid : Fin 256) :
    p.tokenSum b seqIdx f tid =
      ∑ i ∈ (Finset.range (contextLen b seqIdx)).filter fun i => p.tokenOwner i = some tid, f i := by
  have hnodup : ((p.tokens b seqIdx tid).map p.position).Nodup := by
    have hcells := p.nodup_tokens b seqIdx hblock tid
    rw [← List.map_map] at hcells
    exact hcells.of_map
  have hsum : p.tokenSum b seqIdx f tid = (((p.tokens b seqIdx tid).map p.position).map f).sum := by
    rw [tokenSum, List.map_map]
    rfl
  rw [hsum, ← List.sum_toFinset f hnodup]
  apply Finset.sum_congr _ fun _ _ => rfl
  ext i
  rw [List.mem_toFinset, List.mem_map, Finset.mem_filter, Finset.mem_range]
  constructor
  · rintro ⟨x, hx, rfl⟩
    exact ⟨((p.mem_tokens b seqIdx hblock).mp hx).1.2, p.tokenOwner_position b seqIdx hblock hx⟩
  · rintro ⟨hi, hown⟩
    obtain ⟨tid', htid, hmem⟩ := p.exists_token b seqIdx hblock hi
    obtain rfl : tid' = tid := Option.some.inj (htid.symm.trans hown)
    exact ⟨_, hmem, Nat.div_add_mod' i p.blockSize⟩

theorem sum_tokenSum (hblock : 0 < p.blockSize) (f : Nat → M) :
    ∑ w ∈ Finset.range 8, warpSum (p.tokenSum b seqIdx f) w = ∑ i ∈ Finset.range (contextLen b seqIdx), f i := by
  rw [sum_warpSum, Finset.sum_congr rfl fun tid _ => p.tokenSum_eq b seqIdx hblock f tid]
  simp only [tokenOwner, Option.some.injEq]
  exact Finset.sum_fiberwise _ _ f

variable [Field F]

theorem sum_blockSum (hblock : 0 < p.blockSize) (f : Nat → F) :
    ∑ w ∈ Finset.range 8, ((strided w (p.numContextBlocks b seqIdx) 8).map (p.blockSum b seqIdx f)).sum =
      ∑ i ∈ Finset.range (contextLen b seqIdx), f i := by
  have hcover : contextLen b seqIdx ≤ p.numContextBlocks b seqIdx * p.blockSize := by
    have hlast := (p.lt_numContextBlocks b seqIdx hblock).not.mp (Nat.lt_irrefl _)
    exact Nat.not_lt.mp hlast
  rw [sum_strided (p.blockSum b seqIdx f) _ (Nat.succ_pos 7)]
  calc _ = ∑ i ∈ Finset.range (p.numContextBlocks b seqIdx * p.blockSize),
        if i < contextLen b seqIdx then f i else 0 :=
        sum_rows (fun i => if i < contextLen b seqIdx then f i else 0) p.blockSize _
    _ = ∑ i ∈ (Finset.range (p.numContextBlocks b seqIdx * p.blockSize)).filter (· < contextLen b seqIdx), f i :=
        (Finset.sum_filter _ _).symm
    _ = _ := by
        apply Finset.sum_congr _ fun _ _ => rfl
        ext i
        rw [Finset.mem_filter, Finset.mem_range, Finset.mem_range]
        omega

theorem sum_strideSum (f : Nat → F) :
    ∑ w ∈ Finset.range 8, warpSum (strideSum b seqIdx f) w = ∑ i ∈ Finset.range (contextLen b seqIdx), f i := by
  rw [sum_warpSum, ← sum_strided f (contextLen b seqIdx) (Nat.succ_pos 255), Finset.sum_range]
  rfl

/-! ## From barrier to barrier -/

section
variable [LinearOrder F] (ops : FloatOps F) (headIdx : Nat)

/-- The largest score of the context. -/
def maxScore (hpos : 0 < contextLen b seqIdx) : F :=
  (Finset.range (contextLen b seqIdx)).sup' (Finset.nonempty_range_iff.mpr hpos.ne')
    (p.score ops b seqIdx headIdx)

/-- The weight of a position. -/
def weight (hpos : 0 < contextLen b seqIdx) (i : Nat) : F :=
  ops.exp (p.score ops b seqIdx headIdx i - p.maxScore b seqIdx ops headIdx hpos)

variable {p b seqIdx ops headIdx} (hblock : 0 < p.blockSize) (hpos : 0 < contextLen b seqIdx)
  (hctx : contextLen b seqIdx ≤ p.maxSeqLen)
  (hlow : ∀ i < contextLen b seqIdx, -ops.fltMax < p.score ops b seqIdx headIdx i)
include hblock hctx hlow

/-- In every order the kernel leaves the weighted mean of the values. -/
theorem softmax_runs {s s' : State (Fin 256) (Regs F) Cell F}
    (h : RunsAll warpIdx (p.pagedAttention ops b seqIdx headIdx) s s') :
    (∀ d < p.headSize, s'.mem (p.outPtr seqIdx headIdx d) =
      (∑ i ∈ Finset.range (contextLen b seqIdx), p.weight b seqIdx ops headIdx hpos i *
        p.value b seqIdx headIdx i d) /
        (∑ i ∈ Finset.range (contextLen b seqIdx), p.weight b seqIdx ops headIdx hpos i + 1 / 10 ^ 6)) ∧
      ∀ i, (∀ d < p.headSize, p.outPtr seqIdx headIdx d ≠ .out i) → s'.mem (.out i) = s.mem (.out i) := by
  rw [pagedAttention, if_neg (by omega)] at h
  simp only [runsAll_cons, runsAll_nil] at h
  obtain ⟨s1, hinit, s2, hqk, s3, hmax, s4, hexp, s5, hsum, s6, hvalue, s7, hout, rfl⟩ := h
  obtain ⟨hzero, hout1⟩ := p.init_run hinit
  obtain ⟨hscore, hwarpMax, hacc2, hout2⟩ := p.qk_run hblock hctx hqk
  obtain ⟨hmaxval, hkept3⟩ := p.max_run hmax hwarpMax
  have hM : s3.mem (p.redSmem 127) = p.maxScore b seqIdx ops headIdx hpos := by
    rw [hmaxval, p.sum_tokenSum b seqIdx hblock, AtLeast.val_sum_raise (Finset.nonempty_range_iff.mpr hpos.ne')
      fun i hi => (hlow i (Finset.mem_range.mp hi)).le]
    rfl
  have hscore3 : ∀ i < contextLen b seqIdx, s3.mem (logits i) = p.score ops b seqIdx headIdx i := fun i hi => by
    rw [hkept3 _ (p.logits_ne_redSmem (hi.trans_le hctx)), hscore i hi]
  obtain ⟨hweight, hwarpSum, hacc4, hout4⟩ := p.exp_run ops b seqIdx hctx hscore3
    (fun i hi => (hlow i hi).ne') hM hexp
  obtain ⟨hsumval, hkept5⟩ := p.sum_run hsum hwarpSum
  rw [sum_strideSum] at hsumval
  have hweight5 : ∀ i < contextLen b seqIdx, s5.mem (logits i) = p.weight b seqIdx ops headIdx hpos i := by
    intro i hi
    rw [hkept5 _ (p.logits_ne_redSmem (hi.trans_le hctx)), hweight i hi, weight]
  have hzero5 : ∀ j < 8 * p.headSize, s5.mem (p.outSmem j) = 0 := fun j hj => by
    rw [hkept5 _ (p.outSmem_ne_redSmem (by norm_num)), hacc4, hkept3 _ (p.outSmem_ne_redSmem (by norm_num)),
      hacc2, hzero j hj]
  obtain ⟨hvalues, hout6⟩ := p.value_run b seqIdx headIdx hblock hctx hweight5 hsumval hzero5 hvalue
  obtain ⟨hrow, hkept7⟩ := p.out_run hout
  constructor
  · intro d hd
    rw [hrow d hd, Finset.sum_congr rfl fun n hn => hvalues n (Finset.mem_range.mp hn) d hd,
      p.sum_blockSum b seqIdx hblock, Finset.sum_div]
    apply Finset.sum_congr rfl
    intro i _
    simp only [weight]
    ring
  · intro i hi
    rw [hkept7 _ hi, hout6, hkept5 _ (by simp [redSmem]), hout4, hkept3 _ (by simp [redSmem]), hout2, hout1]

omit hblock hctx hlow in
theorem one_le_sum_weight [IsStrictOrderedRing F] (hexp : ∀ z, 0 < ops.exp z) (hexp0 : ops.exp 0 = 1) :
    1 ≤ ∑ i ∈ Finset.range (contextLen b seqIdx), p.weight b seqIdx ops headIdx hpos i := by
  obtain ⟨i, hi, hmax⟩ := Finset.exists_mem_eq_sup' (Finset.nonempty_range_iff.mpr hpos.ne')
    (p.score ops b seqIdx headIdx)
  have hone : p.weight b seqIdx ops headIdx hpos i = 1 := by
    rw [weight, maxScore, hmax, sub_self, hexp0]
  calc 1 = p.weight b seqIdx ops headIdx hpos i := hone.symm
    _ ≤ _ := Finset.single_le_sum (f := p.weight b seqIdx ops headIdx hpos) (fun j _ => (hexp _).le) hi

omit hblock hctx hlow in
/-- Without context, or with too much, every order leaves a row of zeros. -/
theorem zero_runs (hnone : contextLen b seqIdx = 0 ∨ contextLen b seqIdx > p.maxSeqLen)
    {s s' : State (Fin 256) (Regs F) Cell F} (h : RunsAll warpIdx (p.pagedAttention ops b seqIdx headIdx) s s') :
    (∀ d < p.headSize, s'.mem (p.outPtr seqIdx headIdx d) = 0) ∧
      ∀ i, (∀ d < p.headSize, p.outPtr seqIdx headIdx d ≠ .out i) → s'.mem (.out i) = s.mem (.out i) := by
  rw [pagedAttention, if_pos hnone] at h
  simp only [runsAll_cons, runsAll_nil] at h
  obtain ⟨s', hzero, rfl⟩ := h
  obtain ⟨hrow, hkept⟩ := p.zero_run hzero
  exact ⟨hrow, fun i => hkept (.out i)⟩

end

end PagedAttention

/-! ## The arrays of a call -/

/-- The arrays that the host binds. -/
structure AttentionArrays (F : Type) where
  query : MlxArray F
  keyCache : MlxArray F
  valueCache : MlxArray F
  blockTables : MlxArray Nat
  contextLens : MlxArray Nat
  alibiSlopes : Option (MlxArray F)

namespace AttentionArrays
variable {F : Type} [Field F] (a : AttentionArrays F) (p : PagedAttention F) (scale : F) (s head : Nat)

def buffers : AttentionBuffers F where
  q := a.query.data
  kCache := a.keyCache.data
  vCache := a.valueCache.data
  blockTables := a.blockTables.data
  contextLens i := a.contextLens.data i
  alibiSlopes i := match a.alibiSlopes with
    | none => 0
    | some slopes => slopes.data i

def contextLen : Nat := a.contextLens.get [s]

/-- The block that holds position `t`. -/
def block (t : Nat) : Nat := a.blockTables.get [s, t / p.blockSize]

/-- The KV head that a head shares with the others of its group. -/
def kvHead : Nat := head / (p.numHeads / p.numKvHeads)

/-- Where the key cache keeps dimension `d` of the key of position `t`. -/
def keyIdx (t d : Nat) : List Nat :=
  [a.block p s t, kvHead p head, d / a.keyCache.dim 4, t % p.blockSize, d % a.keyCache.dim 4]

def valueIdx (t d : Nat) : List Nat := [a.block p s t, kvHead p head, d, t % p.blockSize]

def slope : F := match a.alibiSlopes with
  | none => 0
  | some slopes => slopes.get [head]

/-- `scale * (q . K_t) + slope * (t - context_len + 1)`. -/
def logit (t : Nat) : F :=
  scale * ∑ d ∈ Finset.range p.headSize, a.query.get [s, head, d] * a.keyCache.get (a.keyIdx p s head t d) +
    a.slope head * ((t : F) - a.contextLen s + 1)

/-- `exp(l_t - max l)`. -/
def weight [LinearOrder F] (ops : FloatOps F) (hpos : 0 < a.contextLen s) (t : Nat) : F :=
  ops.exp (a.logit p scale s head t -
    (Finset.range (a.contextLen s)).sup' (Finset.nonempty_range_iff.mpr hpos.ne') (a.logit p scale s head))

/-- The lengths lie one after the other, at least up to this one. -/
def LensAddressed : Prop := (s : Int) = place a.contextLens.strides [s]

/-- The arrays lie in the layout that the kernel addresses, where it addresses them. -/
structure Addressed : Prop where
  contextLens : a.LensAddressed s
  blockTables : ∀ t < a.contextLen s,
    s * p.maxNumBlocksPerSeq + (t / p.blockSize : Nat) = place a.blockTables.strides [s, t / p.blockSize]
  query : ∀ d < p.headSize, p.qIndex s head d = place a.query.strides [s, head, d]
  key : ∀ t < a.contextLen s, ∀ d < p.headSize, p.kIndex (a.block p s t) (kvHead p head) (t % p.blockSize) d =
    place a.keyCache.strides (a.keyIdx p s head t d)
  value : ∀ t < a.contextLen s, ∀ d < p.headSize, p.vIndex (a.block p s t) (kvHead p head) (t % p.blockSize) d =
    place a.valueCache.strides (a.valueIdx p s head t d)
  slopes : ∀ slopes ∈ a.alibiSlopes, (head : Int) = place slopes.strides [head]

variable {a p s head}

theorem LensAddressed.contextLen_eq (hlen : a.LensAddressed s) :
    PagedAttention.contextLen a.buffers s = a.contextLen s := by
  rw [contextLen, MlxArray.get, ← show (s : Int) = _ from hlen]
  rfl

variable (hl : a.Addressed p s head)
include hl

theorem Addressed.contextLen_eq : PagedAttention.contextLen a.buffers s = a.contextLen s :=
  hl.contextLens.contextLen_eq

theorem Addressed.blockTable_eq {t : Nat} (ht : t < a.contextLen s) :
    p.blockTable a.buffers s (t / p.blockSize) = a.block p s t := by
  rw [block, MlxArray.get, ← hl.blockTables t ht]
  rfl

theorem Addressed.value_eq {t d : Nat} (ht : t < a.contextLen s) (hd : d < p.headSize) :
    p.value a.buffers s head t d = a.valueCache.get (a.valueIdx p s head t d) := by
  rw [PagedAttention.value, hl.blockTable_eq ht, MlxArray.get, ← hl.value t ht d hd]
  rfl

theorem Addressed.alibiSlope_eq (halibi : p.useAlibi = a.alibiSlopes.isSome) :
    p.alibiSlope a.buffers head = a.slope head := by
  have hslopes := hl.slopes
  rw [PagedAttention.alibiSlope, halibi, slope]
  simp only [buffers]
  cases ha : a.alibiSlopes with
  | none => rfl
  | some slopes =>
    rw [ha] at hslopes
    simp only [Option.isSome_some, if_true, MlxArray.get]
    rw [← hslopes slopes rfl]

theorem Addressed.score_eq [LinearOrder F] (ops : FloatOps F) (hsoft : p.softcapping = 1)
    (hscale : p.scale = scale) (halibi : p.useAlibi = a.alibiSlopes.isSome) {t : Nat} (ht : t < a.contextLen s) :
    p.score ops a.buffers s head t = a.logit p scale s head t := by
  have hdot : ∀ d ∈ Finset.range p.headSize, a.buffers.q (p.qIndex s head d) *
      a.buffers.kCache (p.kIndex (p.blockTable a.buffers s (t / p.blockSize)) (p.kvHeadIdx head)
        (t % p.blockSize) d) = a.query.get [s, head, d] * a.keyCache.get (a.keyIdx p s head t d) := by
    intro d hd
    rw [hl.blockTable_eq ht, MlxArray.get, MlxArray.get, ← hl.query d (Finset.mem_range.mp hd),
      ← hl.key t ht d (Finset.mem_range.mp hd)]
    rfl
  -- without slopes, or with slope 0, the term that the kernel leaves out is 0
  have hterm : ∀ x y : F,
    (if p.useAlibi ∧ p.alibiSlope a.buffers head ≠ 0 then x + p.alibiSlope a.buffers head * y else x) =
      x + p.alibiSlope a.buffers head * y := by
    intro x y
    split
    · rfl
    · next hno =>
      have hzero : p.alibiSlope a.buffers head = 0 := by
        by_contra hne
        refine hno ⟨?_, hne⟩
        by_contra hoff
        exact hne (if_neg hoff)
      rw [hzero, zero_mul, add_zero]
  rw [PagedAttention.score, PagedAttention.qk]
  simp only [hsoft, ne_eq, not_true_eq_false, and_false, if_false]
  rw [hterm, foldl_range_add, Finset.sum_congr rfl hdot, Nat.div_add_mod', hl.contextLen_eq,
    hl.alibiSlope_eq halibi, hscale, logit, mul_comm scale]
  push_cast
  rfl

theorem Addressed.weight_eq [LinearOrder F] (ops : FloatOps F) (hsoft : p.softcapping = 1)
    (hscale : p.scale = scale) (halibi : p.useAlibi = a.alibiSlopes.isSome) (hpos : 0 < a.contextLen s)
    (hpos' : 0 < PagedAttention.contextLen a.buffers s) {t : Nat} (ht : t < a.contextLen s) :
    p.weight a.buffers s ops head hpos' t = a.weight p scale s head ops hpos t := by
  have hscore : ∀ i ∈ Finset.range (a.contextLen s), p.score ops a.buffers s head i = a.logit p scale s head i :=
    fun i hi => hl.score_eq scale ops hsoft hscale halibi (Finset.mem_range.mp hi)
  rw [PagedAttention.weight, PagedAttention.maxScore, weight, hscore t (Finset.mem_range.mpr ht)]
  congr 2
  exact Finset.sup'_congr _ (by rw [hl.contextLen_eq]) fun i hi => hscore i (hl.contextLen_eq ▸ hi)

end AttentionArrays

/-! ## A call to evaluate -/

/-- Nine positions in the block `first` and the other of two blocks. Keys and values are
    1 in the last position and 0 in those before it; the query is 1 in its first
    dimension. -/
def ninePositions (F : Type) [Field F] (first : Nat) : AttentionArrays F where
  query := MlxArray.ofData [1, 1, 32] fun i => if i = 0 then 1 else 0
  keyCache := MlxArray.ofData [2, 1, 8, 8, 4] fun i => if i / 256 = first then 0 else 1
  valueCache := MlxArray.ofData [2, 1, 32, 8] fun i => if i / 256 = first then 0 else 1
  blockTables := MlxArray.ofData [1, 2] fun i => if i = 0 then first else 1 - first
  contextLens := MlxArray.ofData [1] fun _ => 9
  alibiSlopes := none

def nineCall (F : Type) [One F] : PagedAttention F := ⟨1, 1, 32, 8, 4, 1, 1, 1, 2, false, 32, 256, 256, 16, 1600⟩

section
variable {F : Type} [Field F] {first : Nat}

theorem ninePositions_ok : pagedAttentionV1 32768 .float32 .float32 (ninePositions F first).query
    (ninePositions F first).keyCache
    (ninePositions F first).valueCache (ninePositions F first).blockTables
    (ninePositions F first).contextLens 1 1 8 16 (ninePositions F first).alibiSlopes = .ok (nineCall F) := by
  have hslopes : (ninePositions F first).alibiSlopes = none := rfl
  have hq : (ninePositions F first).query.shape = [1, 1, 32] := rfl
  have hk : (ninePositions F first).keyCache.shape = [2, 1, 8, 8, 4] := rfl
  have hv : (ninePositions F first).valueCache.shape = [2, 1, 32, 8] := rfl
  have hb : (ninePositions F first).blockTables.shape = [1, 2] := rfl
  have hc : (ninePositions F first).contextLens.shape = [1] := rfl
  simp (disch := decide) only [pagedAttentionV1, hslopes, hq, hk, hv, hb, hc, MlxArray.dim, throwIf_false]
  rfl

theorem ninePositions_keyPlace (b h i t j : Nat) :
    place (ninePositions F first).keyCache.strides [b, h, i, t, j] =
    256 * b + (256 * h + (32 * i + (4 * t + (1 * j + 0)))) := rfl

theorem ninePositions_valuePlace (b h d t : Nat) : place (ninePositions F first).valueCache.strides [b, h, d, t] =
    256 * b + (256 * h + (8 * d + (1 * t + 0))) := rfl

theorem ninePositions_kvHead : AttentionArrays.kvHead (nineCall F) 0 = 0 := Nat.zero_div _

theorem ninePositions_keyIdx (t d : Nat) : (ninePositions F first).keyIdx (nineCall F) 0 0 t d =
    [(ninePositions F first).block (nineCall F) 0 t, 0, d / 4, t % 8, d % 4] := by
  rw [AttentionArrays.keyIdx, ninePositions_kvHead]
  rfl

theorem ninePositions_valueIdx (t d : Nat) : (ninePositions F first).valueIdx (nineCall F) 0 0 t d =
    [(ninePositions F first).block (nineCall F) 0 t, 0, d, t % 8] := by
  rw [AttentionArrays.valueIdx, ninePositions_kvHead]
  rfl

theorem ninePositions_addressed : (ninePositions F first).Addressed (nineCall F) 0 0 := by
  constructor
  · rfl
  · intro t _
    calc (0 * 2 + (t / 8 : Nat) : Int) = 2 * 0 + (1 * (t / 8 : Nat) + 0) := by ring
      _ = place (ninePositions F first).blockTables.strides [0, t / 8] := rfl
  · intro d _
    calc (0 * 32 + 0 * 32 + d : Int) = 32 * 0 + (32 * 0 + (1 * d + 0)) := by ring
      _ = place (ninePositions F first).query.strides [0, 0, d] := rfl
  · intro t _ d _
    rw [ninePositions_keyIdx, ninePositions_keyPlace, PagedAttention.kIndex, ninePositions_kvHead]
    simp only [nineCall, PagedAttention.x]
    omega
  · intro t _ d _
    rw [ninePositions_valueIdx, ninePositions_valuePlace, PagedAttention.vIndex, ninePositions_kvHead]
    simp only [nineCall]
    omega
  · exact fun _ h => by cases h

theorem ninePositions_block (t : Nat) :
    (ninePositions F first).block (nineCall F) 0 t = if t < 8 then first else 1 - first := by
  have hentry : (2 * (0 : Nat) + (1 * (t / 8 : Nat) + 0) : Int) = 0 ↔ t < 8 := by omega
  exact ite_congr (propext hentry) (fun _ => rfl) fun _ => rfl

theorem ninePositions_element {t : Nat} (ht : t < 9) {z : Int}
    (hz : 256 * ((ninePositions F first).block (nineCall F) 0 t) ≤ z)
    (hlt : z < 256 * (ninePositions F first).block (nineCall F) 0 t + 256) :
    (if z / 256 = first then (0 : F) else 1) = if t = 8 then 1 else 0 := by
  rw [ninePositions_block] at hz hlt
  split_ifs at * <;> first | rfl | omega

theorem ninePositions_key {t d : Nat} (ht : t < 9) (hd : d < 32) :
    (ninePositions F first).keyCache.get ((ninePositions F first).keyIdx (nineCall F) 0 0 t d) =
      if t = 8 then 1 else 0 := by
  rw [MlxArray.get, ninePositions_keyIdx, ninePositions_keyPlace]
  apply ninePositions_element ht <;> omega

theorem ninePositions_value {t d : Nat} (ht : t < 9) (hd : d < 32) :
    (ninePositions F first).valueCache.get ((ninePositions F first).valueIdx (nineCall F) 0 0 t d) =
      if t = 8 then 1 else 0 := by
  rw [MlxArray.get, ninePositions_valueIdx, ninePositions_valuePlace]
  apply ninePositions_element ht <;> omega

theorem ninePositions_logit {t : Nat} (ht : t < 9) :
    (ninePositions F first).logit (nineCall F) 1 0 0 t = if t = 8 then 1 else 0 := by
  have hq (d : Nat) : (ninePositions F first).query.get [0, 0, d] = if d = 0 then 1 else 0 := by
    have hplace : (32 * (0 : Nat) + (32 * (0 : Nat) + (1 * (d : Nat) + 0)) : Int) = 0 ↔ d = 0 := by omega
    exact ite_congr (propext hplace) (fun _ => rfl) fun _ => rfl
  have hdot : ∀ d ∈ Finset.range 32, (ninePositions F first).query.get [0, 0, d] *
      (ninePositions F first).keyCache.get ((ninePositions F first).keyIdx (nineCall F) 0 0 t d) =
        if d = 0 then if t = 8 then 1 else 0 else 0 := by
    intro d hd
    rw [hq, ninePositions_key ht (Finset.mem_range.mp hd), ite_mul, one_mul, zero_mul]
  have hslope : (ninePositions F first).slope 0 = 0 := rfl
  rw [AttentionArrays.logit, hslope, zero_mul, add_zero, one_mul]
  calc _ = ∑ d ∈ Finset.range 32, if d = 0 then (if t = 8 then (1 : F) else 0) else 0 := Finset.sum_congr rfl hdot
    _ = _ := by rw [Finset.sum_ite_eq' , if_pos (Finset.mem_range.mpr (by norm_num))]

end

/-- The functions of the Metal library over the reals. -/
noncomputable def realOps : FloatOps ℝ := ⟨Real.exp, Real.tanh, 2 ^ 128 - 2 ^ 104⟩

def zeroState {F : Type} [Zero F] : State (Fin 256) (Regs F) Cell F where
  reg _ := ⟨fun _ => 0, 0, 0, 0, 0, 0⟩
  mem _ := 0

theorem ninePositions_low {first t : Nat} (ht : t < 9) :
    -realOps.fltMax < (ninePositions ℝ first).logit (nineCall ℝ) 1 0 0 t := by
  rw [ninePositions_logit ht]
  have hmax : -realOps.fltMax < 0 := by norm_num [realOps]
  split
  · exact hmax.trans one_pos
  · exact hmax

/-- The last position has the weight 1 and the eight before it `exp (-1)`. -/
theorem ninePositions_weight {first : Nat} (hpos : 0 < (ninePositions ℝ first).contextLen 0) {t : Nat}
    (ht : t < 9) :
    (ninePositions ℝ first).weight (nineCall ℝ) 1 0 0 realOps hpos t = if t = 8 then 1 else Real.exp (-1) := by
  have hmax : (Finset.range ((ninePositions ℝ first).contextLen 0)).sup' (Finset.nonempty_range_iff.mpr hpos.ne')
      ((ninePositions ℝ first).logit (nineCall ℝ) 1 0 0) = 1 := by
    apply le_antisymm
    · apply Finset.sup'_le
      intro i hi
      rw [ninePositions_logit (Finset.mem_range.mp hi)]
      split <;> norm_num
    · have h8 : 8 ∈ Finset.range ((ninePositions ℝ first).contextLen 0) :=
        Finset.mem_range.mpr (by decide : 8 < 9)
      exact (ninePositions_logit (by decide : 8 < 9)).symm.trans_le (Finset.le_sup' _ h8)
  rw [AttentionArrays.weight, hmax, ninePositions_logit ht]
  split
  · rw [sub_self]
    exact Real.exp_zero
  · rw [zero_sub]
    rfl

/-! ## The kernel -/

section
variable {F : Type} [Field F] [LinearOrder F] [IsStrictOrderedRing F]

/-- In every order of its threads the kernel ends, and leaves for each head of each sequence
    the softmax attention over the context, or zeros when there is none or it is too long.
    Where the device has less than 2 ^ 31 bytes of threadgroup memory, its loops make the
    rounds that they make here. -/
theorem attention_is_softmax {ops : FloatOps F} (hexp : ∀ z, 0 < ops.exp z) (hexp0 : ops.exp 0 = 1)
    {maxSmem : Nat} {dtype cacheDtype : Dtype} {a : AttentionArrays F} {numKvHeads : Int} {scale : F}
    {blockSize maxSeqLen : Int} {p : PagedAttention F}
    (h : pagedAttentionV1 maxSmem dtype cacheDtype a.query a.keyCache a.valueCache a.blockTables
      a.contextLens numKvHeads scale blockSize maxSeqLen a.alibiSlopes = .ok p)
    {s head : Nat} (hlen : a.LensAddressed s) (hl : a.contextLen s ≤ p.maxSeqLen → a.Addressed p s head)
    (hlow : a.contextLen s ≤ p.maxSeqLen → ∀ t < a.contextLen s, -ops.fltMax < a.logit p scale s head t)
    (st : State (Fin 256) (Regs F) Cell F) :
    (maxSmem < 2 ^ 31 → p.LoopsFit) ∧
    (∃ st', RunsAll warpIdx (p.pagedAttention ops a.buffers s head) st st') ∧
      ∀ st', RunsAll warpIdx (p.pagedAttention ops a.buffers s head) st st' →
        (∀ hpos : 0 < a.contextLen s, a.contextLen s ≤ p.maxSeqLen →
          (∀ d < p.headSize, st'.mem (p.outPtr s head d) =
            (∑ t ∈ Finset.range (a.contextLen s),
              a.weight p scale s head ops hpos t * a.valueCache.get (a.valueIdx p s head t d)) /
            (∑ t ∈ Finset.range (a.contextLen s), a.weight p scale s head ops hpos t + 1 / 10 ^ 6)) ∧
          1 ≤ ∑ t ∈ Finset.range (a.contextLen s), a.weight p scale s head ops hpos t) ∧
        (a.contextLen s = 0 ∨ p.maxSeqLen < a.contextLen s → ∀ d < p.headSize, st'.mem (p.outPtr s head d) = 0) ∧
        ∀ i, (∀ d < p.headSize, p.outPtr s head d ≠ .out i) → st'.mem (.out i) = st.mem (.out i) := by
  obtain ⟨ha, -⟩ := accepted_of_ok h
  have hblock : 0 < p.blockSize := Nat.zero_lt_of_lt ha.sizes.2.1
  have hscale := scale_of_ok h
  have hlen := hlen.contextLen_eq
  refine ⟨ha.loopsFit, exists_runsAll warpIdx _ st, fun st' hrun => ?_⟩
  by_cases hnone : PagedAttention.contextLen a.buffers s = 0 ∨ PagedAttention.contextLen a.buffers s > p.maxSeqLen
  · obtain ⟨hrow, hkept⟩ := PagedAttention.zero_runs hnone hrun
    refine ⟨fun hpos hle => absurd hnone ?_, fun _ => hrow, hkept⟩
    omega
  · have hpos' : 0 < PagedAttention.contextLen a.buffers s := by omega
    have hle : a.contextLen s ≤ p.maxSeqLen := by omega
    replace hl := hl hle
    have hscore : ∀ i < PagedAttention.contextLen a.buffers s, -ops.fltMax < p.score ops a.buffers s head i := by
      intro i hi
      rw [hlen] at hi
      rw [hl.score_eq scale ops ha.softcapping hscale ha.useAlibi hi]
      exact hlow hle i hi
    obtain ⟨hrow, hkept⟩ := PagedAttention.softmax_runs hblock hpos' (by omega) hscore hrun
    have hsum : 1 ≤ ∑ i ∈ Finset.range (PagedAttention.contextLen a.buffers s),
      p.weight a.buffers s ops head hpos' i := PagedAttention.one_le_sum_weight hpos' hexp hexp0
    refine ⟨fun hpos _ => ?_, fun hno => absurd hno (by omega), hkept⟩
    have hweight : ∀ t ∈ Finset.range (a.contextLen s), p.weight a.buffers s ops head hpos' t =
        a.weight p scale s head ops hpos t := fun t ht =>
      hl.weight_eq scale ops ha.softcapping hscale ha.useAlibi hpos hpos' (Finset.mem_range.mp ht)
    rw [hlen] at hsum hrow
    rw [Finset.sum_congr rfl hweight] at hsum
    refine ⟨fun d hd => ?_, hsum⟩
    rw [hrow d hd, Finset.sum_congr rfl hweight]
    congr 1
    apply Finset.sum_congr rfl
    intro t ht
    rw [hweight t ht, hl.value_eq (Finset.mem_range.mp ht) hd]

end

/-- A context over block 1 and then block 0, with a key that scores 1 and eight that score 0. -/
theorem attention_is_softmax_nine :
    (∃ st', RunsAll warpIdx ((nineCall ℝ).pagedAttention realOps (ninePositions ℝ 1).buffers 0 0) zeroState st') ∧
      ∀ st', RunsAll warpIdx ((nineCall ℝ).pagedAttention realOps (ninePositions ℝ 1).buffers 0 0) zeroState st' →
        ∀ d < 32, st'.mem ((nineCall ℝ).outPtr 0 0 d) = 1 / (8 * Real.exp (-1) + 1 + 1 / 10 ^ 6) := by
  obtain ⟨-, hex, hall⟩ := attention_is_softmax Real.exp_pos Real.exp_zero ninePositions_ok
    ninePositions_addressed.contextLens (fun _ => ninePositions_addressed) (fun _ _ => ninePositions_low)
    zeroState
  refine ⟨hex, fun st' hrun d hd => ?_⟩
  have hpos : 0 < (ninePositions ℝ 1).contextLen 0 := (by decide : 0 < 9)
  obtain ⟨hrow, -⟩ := (hall st' hrun).1 hpos (by decide : 9 ≤ 16)
  have hweight : ∀ t ∈ Finset.range 9, (ninePositions ℝ 1).weight (nineCall ℝ) 1 0 0 realOps hpos t =
      if t = 8 then 1 else Real.exp (-1) := fun t ht => ninePositions_weight hpos (Finset.mem_range.mp ht)
  have hvalue : ∀ t ∈ Finset.range 9, (ninePositions ℝ 1).weight (nineCall ℝ) 1 0 0 realOps hpos t *
      (ninePositions ℝ 1).valueCache.get ((ninePositions ℝ 1).valueIdx (nineCall ℝ) 0 0 t d) =
        if t = 8 then 1 else 0 := by
    intro t ht
    rw [hweight t ht, ninePositions_value (Finset.mem_range.mp ht) hd]
    split_ifs <;> simp
  have hlen : (ninePositions ℝ 1).contextLen 0 = 9 := rfl
  rw [hrow d hd, hlen, Finset.sum_congr rfl hvalue, Finset.sum_congr rfl hweight]
  norm_num [Finset.sum_range_succ]
  ring

end SglangMlx
