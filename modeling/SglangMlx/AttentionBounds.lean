import SglangMlx.AttentionKernel
import SglangMlx.StridedViews

/- The indices that `paged_attention` forms into a row of the block tables and into
   threadgroup memory, in the `int`s of the kernel. The loops of one thread may be cut
   off or wrap; whatever rounds they make, no index leaves its array, and the three
   arrays of threadgroup memory lie side by side in what the host asked for. What keeps
   this together is the host's limit on that memory: it bounds `max_seq_len` far below
   the counters' range (`Accepted.smem_eq`). -/
namespace SglangMlx

open MachineInt

/-- An access, with its index. Cells of `red_smem` belong to a simdgroup or hold a total. -/
inductive Access where
  | blockTable (i : Int)
  | logits (i : Int)
  | redWarp (i : Int)
  | redTotal (i : Int)
  | outSmem (i : Int)
  deriving DecidableEq, Repr

/-- The arrays in threadgroup memory. -/
inductive Scratch where
  | logits
  | redSmem
  | outSmem
  deriving DecidableEq, Repr

namespace PagedAttention
variable {F : Type} (p : PagedAttention F) (b : AttentionBuffers F) (seqIdx tid : Nat)

/-- `num_context_blocks`: a quotient of `uint32_t`s, kept in an `int`. -/
def intContextBlocks : Int := int32 (((contextLen b seqIdx + p.blockSize - 1) % 2 ^ 32 / p.blockSize : Nat))

/-- `block_idx * BLOCK_SIZE + t`. -/
def tokenIdx (blockIdx t : Int) : Int := int32 (int32 (blockIdx * p.blockSize) + t)

/-- The accesses of a thread, in the order of the kernel. -/
inductive Accesses : Access → Prop where
  | initLogits {i : Int} : Visits p.maxSeqLen 256 tid i → Accesses (.logits i)
  | initOut {i : Int} : Visits (8 * p.headSize : Nat) 256 tid i → Accesses (.outSmem i)
  | qkBlock {blockIdx : Int} : Visits (p.intContextBlocks b seqIdx) 8 (tid / 32 : Nat) blockIdx →
      Accesses (.blockTable blockIdx)
  | qkLogits {blockIdx t : Int} : Visits (p.intContextBlocks b seqIdx) 8 (tid / 32 : Nat) blockIdx →
      Visits p.blockSize 32 (tid % 32 : Nat) t → p.tokenIdx blockIdx t < int32 (contextLen b seqIdx) →
      Accesses (.logits (p.tokenIdx blockIdx t))
  | warpMax : tid % 32 = 0 → Accesses (.redWarp (tid / 32 : Nat))
  | warpMaxes : tid < 32 → tid < 8 → Accesses (.redWarp tid)
  | totalMax : tid = 0 → Accesses (.redTotal 127)
  | readMax : Accesses (.redTotal 127)
  | expLogits {i : Int} : Visits (int32 (contextLen b seqIdx)) 256 tid i → Accesses (.logits i)
  | warpSum : tid % 32 = 0 → Accesses (.redWarp (tid / 32 : Nat))
  | warpSums : tid < 32 → tid < 8 → Accesses (.redWarp tid)
  | totalSum : tid = 0 → Accesses (.redTotal 126)
  | readSum : Accesses (.redTotal 126)
  | valueBlock {blockIdx : Int} : Visits (p.intContextBlocks b seqIdx) 8 (tid / 32 : Nat) blockIdx →
      Accesses (.blockTable blockIdx)
  | valueLogits {blockIdx d t : Int} : Visits (p.intContextBlocks b seqIdx) 8 (tid / 32 : Nat) blockIdx →
      Visits p.headSize 32 (tid % 32 : Nat) d → Visits p.blockSize 1 0 t →
      p.tokenIdx blockIdx t < int32 (contextLen b seqIdx) → Accesses (.logits (p.tokenIdx blockIdx t))
  | valueOut {blockIdx d : Int} : Visits (p.intContextBlocks b seqIdx) 8 (tid / 32 : Nat) blockIdx →
      Visits p.headSize 32 (tid % 32 : Nat) d →
      Accesses (.outSmem (int32 (int32 ((tid / 32 : Nat) * p.headSize) + d)))
  | sumOut {i w : Int} : Visits p.headSize 256 tid i → Visits 8 1 0 w →
      Accesses (.outSmem (int32 (int32 (w * p.headSize) + i)))

/-- `if (context_len == 0 || context_len > (uint32_t)max_seq_len)` returns before all of them. -/
def KernelAccesses (a : Access) : Prop :=
  ¬(contextLen b seqIdx = 0 ∨ contextLen b seqIdx > p.maxSeqLen) ∧ p.Accesses b seqIdx tid a

end PagedAttention

section
variable {F : Type} (p : PagedAttention F)

/-- The index is one of the array. -/
def Access.InRange : Access → Prop
  | .blockTable i => 0 ≤ i ∧ i < p.maxNumBlocksPerSeq
  | .logits i => 0 ≤ i ∧ i < p.maxSeqLen
  | .redWarp i => 0 ≤ i ∧ i < 128 ∧ i ≠ 126 ∧ i ≠ 127
  | .redTotal i => 0 ≤ i ∧ i < 128
  | .outSmem i => 0 ≤ i ∧ i < 8 * p.headSize

/-- The pointers: `logits`, `logits + max_seq_len` and `red_smem + 128`, in `float`s. -/
def Scratch.start : Scratch → Nat
  | .logits => 0
  | .redSmem => p.maxSeqLen
  | .outSmem => p.maxSeqLen + 128

def Scratch.length : Scratch → Nat
  | .logits => p.maxSeqLen
  | .redSmem => 128
  | .outSmem => 8 * p.headSize

def Scratch.bytes (r : Scratch) : Finset Nat := Finset.Ico (4 * r.start p) (4 * (r.start p + r.length p))

theorem Scratch.disjoint_bytes {r r' : Scratch} (h : r ≠ r') : Disjoint (r.bytes p) (r'.bytes p) := by
  rw [Finset.disjoint_left]
  intro i hi hi'
  rw [bytes, Finset.mem_Ico] at hi hi'
  cases r <;> cases r' <;> simp only [start, length] at hi hi' <;> first | exact h rfl | omega

end

/-- The counters of all loops fit: a loop over `int`s makes the rounds of one over numbers. -/
def PagedAttention.LoopsFit {F : Type} (p : PagedAttention F) : Prop :=
  ∀ start bound step : Nat, bound ≤ p.maxSeqLen + 8 * p.headSize → 0 < step → step ≤ 256 →
    ∃ fuel, forLoop bound step fuel start = some ((strided start bound step).map Nat.cast)

section
variable {F Q C I : Type} [One F] {maxSmem : Nat} {query : MlxArray Q} {keyCache valueCache : MlxArray C}
  {blockTables contextLens : MlxArray I} {alibiSlopes : Option (MlxArray F)} {p : PagedAttention F}
  (ha : Accepted maxSmem query keyCache valueCache blockTables contextLens alibiSlopes p)
  (hmax : maxSmem < 2 ^ 31)
include ha

theorem Accepted.headSize_le : p.headSize ≤ 256 := by
  have hhead := ha.headSize
  simp only [List.mem_cons, List.not_mem_nil, or_false] at hhead
  omega

theorem Accepted.blockSize_le : p.blockSize ≤ 32 := by
  have hblock := ha.blockSize
  simp only [List.mem_cons, List.not_mem_nil, or_false] at hblock
  omega

include hmax

/-- The sum of lengths that the host forms has not wrapped: a wrapped one asks for too much. -/
theorem Accepted.smem_eq : p.smem = 4 * (p.maxSeqLen + 128 + 8 * p.headSize) := by
  have hhead := ha.headSize_le
  obtain ⟨hsmem, hle⟩ := ha.smem
  have hlen : p.maxSeqLen < 2 ^ 31 := Int.ofNat_lt.mp (ha.maxSeqLen.2.trans_lt (int32_range _).2)
  have hsum : (p.maxSeqLen : Int) + 128 + 256 / 32 * p.headSize = (p.maxSeqLen + 128 + 8 * p.headSize : Nat) := by
    norm_num
  have hlt : p.maxSeqLen + 128 + 8 * p.headSize < 2 ^ 31 + 2 ^ 30 := by omega
  rw [smemBytes, sizeT, hsum] at hsmem
  generalize p.maxSeqLen + 128 + 8 * p.headSize = n at hsmem hlt ⊢
  rcases Nat.lt_or_ge n (2 ^ 31) with h | h
  · rw [int32_natCast h] at hsmem
    omega
  · have hwrap : int32 n = n - 2 ^ 32 := int32_eq_iff.mpr ⟨by omega, Int.modEq_iff_dvd.mpr ⟨1, by ring⟩⟩
    rw [hwrap] at hsmem
    omega

theorem Accepted.maxSeqLen_lt : p.maxSeqLen < 2 ^ 29 := by
  have hsmem := ha.smem_eq hmax
  have hle := ha.smem.2
  omega

theorem Accepted.loopsFit : p.LoopsFit := by
  intro start bound step hbound hpos hstep
  have hlen := ha.maxSeqLen_lt hmax
  have hhead := ha.headSize_le
  exact forLoop_strided (by omega) hpos

theorem Accepted.visits_block {b : AttentionBuffers F} {seqIdx tid : Nat} (htid : tid < 256)
    (hctx : PagedAttention.contextLen b seqIdx ≤ p.maxSeqLen) {i : Int}
    (h : Visits (p.intContextBlocks b seqIdx) 8 (tid / 32 : Nat) i) :
    ∃ j : Nat, i = j ∧ j * p.blockSize < PagedAttention.contextLen b seqIdx := by
  have hlen := ha.maxSeqLen_lt hmax
  have hblock := ha.sizes.2.1
  have hle := ha.blockSize_le
  have hblocks : p.numContextBlocks b seqIdx ≤ PagedAttention.contextLen b seqIdx + p.blockSize - 1 :=
    Nat.div_le_self _ _
  have hint : p.intContextBlocks b seqIdx = p.numContextBlocks b seqIdx := by
    rw [PagedAttention.intContextBlocks, Nat.mod_eq_of_lt (by omega)]
    exact int32_natCast (hblocks.trans_lt (by omega))
  rw [hint] at h
  have hsum : p.numContextBlocks b seqIdx + 8 ≤ 2 ^ 31 := by omega
  obtain ⟨j, rfl, hj, -⟩ := (visits_iff_mod hsum (by omega) i).mp h
  exact ⟨j, rfl, (p.lt_numContextBlocks b seqIdx (by omega)).mp hj⟩

theorem Accepted.tokenIdx_eq {j t : Nat} (hj : j * p.blockSize < p.maxSeqLen) (ht : t < p.blockSize) :
    p.tokenIdx j t = (j * p.blockSize + t : Nat) := by
  have hlen := ha.maxSeqLen_lt hmax
  have hle := ha.blockSize_le
  rw [PagedAttention.tokenIdx, ← Nat.cast_mul, int32_natCast (by omega), ← Nat.cast_add, int32_natCast (by omega)]

theorem Accepted.tokenIdx_inRange {b : AttentionBuffers F} {seqIdx tid start step : Nat} (htid : tid < 256)
    (hctx : PagedAttention.contextLen b seqIdx ≤ p.maxSeqLen) {blockIdx t : Int}
    (hblock : Visits (p.intContextBlocks b seqIdx) 8 (tid / 32 : Nat) blockIdx)
    (hstep : step ≤ 32) (hstart : start < step) (ht : Visits p.blockSize step start t)
    (hlt : p.tokenIdx blockIdx t < int32 (PagedAttention.contextLen b seqIdx)) :
    (Access.logits (p.tokenIdx blockIdx t)).InRange p := by
  obtain ⟨j, rfl, hj⟩ := ha.visits_block hmax htid hctx hblock
  have hsum : p.blockSize + step ≤ 2 ^ 31 := by
    have := ha.blockSize_le
    omega
  obtain ⟨k, rfl, hk, -⟩ := (visits_iff_mod hsum hstart t).mp ht
  have hcut := int32_natCast_le (PagedAttention.contextLen b seqIdx)
  rw [ha.tokenIdx_eq hmax (hj.trans_le hctx) hk] at hlt ⊢
  exact ⟨Int.natCast_nonneg _, by omega⟩

omit hmax in
theorem Accepted.outSmem_inRange {w i : Nat} (hw : w < 8) (hi : i < p.headSize) :
    (Access.outSmem (int32 (int32 (w * p.headSize) + i))).InRange p := by
  have hhead := ha.headSize_le
  have hrow : w * p.headSize + p.headSize ≤ 8 * p.headSize := by
    rw [← Nat.succ_mul]
    exact Nat.mul_le_mul_right _ hw
  rw [← Nat.cast_mul, int32_natCast (by omega), ← Nat.cast_add, int32_natCast (by omega)]
  exact ⟨Int.natCast_nonneg _, by omega⟩

omit hmax in
/-- The rows of the block tables hold a block for every position. -/
theorem Accepted.maxSeqLen_le (hcols : blockTables.dim 1 < 2 ^ 31) :
    (p.maxSeqLen : Int) ≤ p.maxNumBlocksPerSeq * p.blockSize := by
  have hcut := int32_natCast_le (blockTables.dim 1 * p.blockSize)
  rw [Nat.cast_mul] at hcut
  rw [ha.maxNumBlocksPerSeq, int32_natCast hcols]
  exact ha.maxSeqLen.2.trans hcut

theorem Accepted.accesses_inRange (hcols : blockTables.dim 1 < 2 ^ 31) {b : AttentionBuffers F} {seqIdx tid : Nat}
    (htid : tid < 256) {a : Access} (h : p.KernelAccesses b seqIdx tid a) : a.InRange p := by
  obtain ⟨hguard, h⟩ := h
  have hctx : PagedAttention.contextLen b seqIdx ≤ p.maxSeqLen := by omega
  have hlen := ha.maxSeqLen_lt hmax
  have hhead := ha.headSize_le
  have hrows := ha.maxSeqLen_le hcols
  have hwarp : tid / 32 < 8 := by omega
  have htable : ∀ {i}, Visits (p.intContextBlocks b seqIdx) 8 (tid / 32 : Nat) i →
    (Access.blockTable i).InRange p := by
    intro i hi
    obtain ⟨j, rfl, hj⟩ := ha.visits_block hmax htid hctx hi
    refine ⟨Int.natCast_nonneg j, lt_of_mul_lt_mul_right ?_ (Int.natCast_nonneg p.blockSize)⟩
    calc (j : Int) * p.blockSize = (j * p.blockSize : Nat) := (Nat.cast_mul j p.blockSize).symm
      _ < p.maxSeqLen := Int.ofNat_lt.mpr (hj.trans_le hctx)
      _ ≤ p.maxNumBlocksPerSeq * p.blockSize := hrows
  have hdim : ∀ {i}, Visits p.headSize 32 (tid % 32 : Nat) i → ∃ d : Nat, i = d ∧ d < p.headSize := by
    intro i hi
    have hsum : p.headSize + 32 ≤ 2 ^ 31 := by omega
    obtain ⟨d, rfl, hd, -⟩ := (visits_iff_mod hsum (Nat.mod_lt tid (Nat.succ_pos 31)) i).mp hi
    exact ⟨d, rfl, hd⟩
  cases h with
  | initLogits hi =>
    have hsum : p.maxSeqLen + 256 ≤ 2 ^ 31 := by omega
    obtain ⟨j, rfl, hj, -⟩ := (visits_iff_mod hsum htid _).mp hi
    exact ⟨Int.natCast_nonneg j, Int.ofNat_lt.mpr hj⟩
  | initOut hi =>
    have hsum : 8 * p.headSize + 256 ≤ 2 ^ 31 := by omega
    obtain ⟨j, rfl, hj, -⟩ := (visits_iff_mod hsum htid _).mp hi
    exact ⟨Int.natCast_nonneg j, by omega⟩
  | qkBlock hblock | valueBlock hblock => exact htable hblock
  | qkLogits hblock ht hlt =>
    exact ha.tokenIdx_inRange hmax htid hctx hblock (Nat.le_refl 32) (Nat.mod_lt tid (Nat.succ_pos 31)) ht hlt
  | valueLogits hblock _ ht hlt =>
    exact ha.tokenIdx_inRange hmax htid hctx hblock (Nat.succ_le_succ (Nat.zero_le 31)) Nat.zero_lt_one ht hlt
  | warpMax _ | warpSum _ | warpMaxes _ _ | warpSums _ _ =>
    simp only [Access.InRange]
    omega
  | totalMax _ | readMax | totalSum _ | readSum =>
    simp only [Access.InRange]
    omega
  | expLogits hi =>
    rw [int32_natCast (by omega)] at hi
    have hsum : PagedAttention.contextLen b seqIdx + 256 ≤ 2 ^ 31 := by omega
    obtain ⟨j, rfl, hj, -⟩ := (visits_iff_mod hsum htid _).mp hi
    exact ⟨Int.natCast_nonneg j, Int.ofNat_lt.mpr (hj.trans_le hctx)⟩
  | valueOut _ hd =>
    obtain ⟨d, rfl, hlt⟩ := hdim hd
    exact ha.outSmem_inRange hwarp hlt
  | sumOut hi hw =>
    have hsum : p.headSize + 256 ≤ 2 ^ 31 := by omega
    obtain ⟨j, rfl, hj, -⟩ := (visits_iff_mod hsum htid _).mp hi
    have hwarps : 8 + 1 ≤ 2 ^ 31 := by norm_num
    obtain ⟨w, rfl, hw, -⟩ := (visits_iff_mod hwarps Nat.zero_lt_one _).mp hw
    exact ha.outSmem_inRange hw hj

theorem Accepted.bytes_subset (r : Scratch) : r.bytes p ⊆ Finset.range p.smem := by
  intro i hi
  rw [Scratch.bytes, Finset.mem_Ico] at hi
  rw [Finset.mem_range, ha.smem_eq hmax]
  cases r <;> simp only [Scratch.start, Scratch.length] at hi <;> omega

end

/-- In every call that the host accepts, no thread forms an index outside its array, and the
    arrays in threadgroup memory share no byte and end within the length requested. -/
theorem attention_accesses_inRange {F Q C I : Type} [One F] {maxSmem : Nat} {dtype cacheDtype : Dtype}
    {query : MlxArray Q} {keyCache valueCache : MlxArray C} {blockTables contextLens : MlxArray I}
    {numKvHeads : Int}
    {scale : F} {blockSize maxSeqLen : Int} {alibiSlopes : Option (MlxArray F)} {p : PagedAttention F}
    (h : pagedAttentionV1 maxSmem dtype cacheDtype query keyCache valueCache blockTables contextLens
      numKvHeads scale blockSize maxSeqLen alibiSlopes = .ok p)
    (hmax : maxSmem < 2 ^ 31) (hcols : blockTables.dim 1 < 2 ^ 31) :
    (∀ (b : AttentionBuffers F) (seqIdx tid : Nat), tid < 256 → ∀ a, p.KernelAccesses b seqIdx tid a →
      a.InRange p) ∧ (∀ r r' : Scratch, r ≠ r' → Disjoint (r.bytes p) (r'.bytes p)) ∧
      ∀ r : Scratch, r.bytes p ⊆ Finset.range p.smem := by
  obtain ⟨ha, -⟩ := accepted_of_ok h
  refine ⟨fun b seqIdx tid htid a hacc => ?_, fun r r' hne => ?_, fun r => ?_⟩
  · exact ha.accesses_inRange hmax hcols htid hacc
  · exact Scratch.disjoint_bytes p hne
  · exact ha.bytes_subset hmax r

/-- The call of `smallCall`, and what its last thread does with a context of three tokens. -/
theorem attention_accesses_inRange_small : ∃ p, smallCall 4 8 = .ok p ∧
    (∀ tid < 256, ∀ a, p.KernelAccesses ⟨fun _ => 0, fun _ => 0, fun _ => 0, fun _ => 0, fun _ => 3, fun _ => 0⟩
      0 tid a → a.InRange p) ∧
    (∀ r r' : Scratch, r ≠ r' → Disjoint (r.bytes p) (r'.bytes p)) ∧
      ∀ r : Scratch, r.bytes p ⊆ Finset.range p.smem := by
  have hcall : smallCall 4 8 = .ok ⟨1, 1, 32, 8, 4, 1, 1, 1, 1, false, 32, 256, 256, 8, 1568⟩ := by decide +kernel
  obtain ⟨haccesses, hdisjoint, hfits⟩ := attention_accesses_inRange hcall (by norm_num) (by decide)
  exact ⟨_, hcall, haccesses _ 0, hdisjoint, hfits⟩

end SglangMlx
