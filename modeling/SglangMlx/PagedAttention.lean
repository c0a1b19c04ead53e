import SglangMlx.Lib.MachineInt
import SglangMlx.MlxArray

/- `paged_attention_v1` and `PagedAttentionV1::eval_gpu`
   (`paged_attention/mlx_paged_attention.cpp`): the checks of the host, the scalars
   it hands to the kernel, and where the kernel then reads query and caches.

   Shapes are `int`s of C++, products and sums of them wrap. What the kernel adds to a
   pointer is 64 bits wide and small enough not to wrap. -/
namespace SglangMlx

open MachineInt

/-- The element types of MLX. -/
inductive Dtype where
  | bool | uint8 | uint16 | uint32 | uint64 | int8 | int16 | int32 | int64
  | float16 | float32 | float64 | bfloat16 | complex64
  deriving DecidableEq, Repr

/-- `sizeof`. -/
def Dtype.size : Dtype → Nat
  | .bool | .uint8 | .int8 => 1
  | .uint16 | .int16 | .float16 | .bfloat16 => 2
  | .uint32 | .int32 | .float32 => 4
  | .uint64 | .int64 | .float64 | .complex64 => 8

def Dtype.dtypeStr : Dtype → Except String String
  | .float32 => .ok "float"
  | .float16 => .ok "half"
  | .bfloat16 => .ok "bfloat16_t"
  | _ => .error "Unsupported dtype"

/-- `static_cast<size_t>` of a signed number. -/
def sizeT (z : Int) : Nat := (z % 2 ^ 64).toNat

/-- `static_cast<size_t>(max_seq_len + 128 + (nt / nsl) * head_size) * sizeof(float)`. -/
def smemBytes (maxSeqLen headSize : Int) :
    Nat := sizeT (int32 (maxSeqLen + 128 + 256 / 32 * headSize)) * 4 % 2 ^ 64

/-- `if (bad) throw std::invalid_argument(text)`. -/
def throwIf (bad : Prop) [Decidable bad] (text : String) :
    Except String Unit := if bad then .error text else .ok ()

theorem throwIf_false {bad : Prop} [Decidable bad] (h : ¬bad) (text : String) :
    throwIf bad text = .ok () := if_neg h

theorem throwIf_bind {α : Type} {bad : Prop} [Decidable bad] {text : String} {f : Unit → Except String α}
    {r : α} : (throwIf bad text >>= f) = .ok r ↔ ¬bad ∧ f () = .ok r := by
  unfold throwIf
  split
  · next h => exact iff_of_false (fun he => by cases he) fun he => he.1 h
  · next h => exact ⟨fun he => ⟨h, he⟩, fun he => he.2⟩

def isValidConfig (headSize blockSize : Int) : Prop :=
  headSize ∈ [32, 64, 80, 96, 112, 120, 128, 192, 256] ∧ blockSize ∈ [8, 16, 32]

instance (headSize blockSize : Int) : Decidable (isValidConfig headSize blockSize) := by
  unfold isValidConfig
  infer_instance

/-- Grid, template arguments and scalar arguments of the kernel. -/
structure PagedAttention (F : Type) where
  numSeqs : Nat
  numHeads : Nat
  headSize : Nat
  blockSize : Nat
  /-- `sizeof(CACHE_T)` -/
  cacheBytes : Nat
  numKvHeads : Nat
  scale : F
  softcapping : F
  maxNumBlocksPerSeq : Int
  useAlibi : Bool
  qStride : Int
  kvBlockStride : Int
  kvHeadStride : Int
  maxSeqLen : Nat
  /-- Bytes of threadgroup memory. -/
  smem : Nat
  deriving DecidableEq, Repr

section
variable {F Q C I : Type} [One F]

/-- The host function; `maxSmem` is what the device reports. -/
def pagedAttentionV1 (maxSmem : Nat) (dtype cacheDtype : Dtype) (query : MlxArray Q)
    (keyCache valueCache : MlxArray C)
    (blockTables contextLens : MlxArray I) (numKvHeads : Int) (scale : F) (blockSize maxSeqLen : Int)
    (alibiSlopes : Option (MlxArray F)) : Except String (PagedAttention F) := do
  throwIf (query.shape.length ≠ 3) "query must have shape [num_seqs, num_heads, head_size]"
  throwIf (keyCache.shape.length ≠ 5 ∨ valueCache.shape.length ≠ 4)
    "key_cache/value_cache must use paged attention layouts"
  throwIf (blockTables.shape.length ≠ 2 ∨ contextLens.shape.length ≠ 1)
    "block_tables must be 2D and context_lens must be 1D"
  throwIf (query.dim 0 ≠ blockTables.dim 0 ∨ query.dim 0 ≠ contextLens.dim 0)
    "query, block_tables, and context_lens sequence counts differ"
  throwIf (numKvHeads ≤ 0 ∨ (query.dim 1 : Int).tmod numKvHeads ≠ 0) "num_heads must be divisible by num_kv_heads"
  throwIf ((keyCache.dim 1 : Int) ≠ numKvHeads ∨ (valueCache.dim 1 : Int) ≠ numKvHeads)
    "cache KV-head count does not match num_kv_heads"
  throwIf (int32 (keyCache.dim 2 * keyCache.dim 4) ≠ query.dim 2 ∨ valueCache.dim 2 ≠ query.dim 2)
    "cache head size does not match query head size"
  throwIf (keyCache.dim 0 ≠ valueCache.dim 0 ∨ (keyCache.dim 3 : Int) ≠ blockSize ∨
    (valueCache.dim 3 : Int) ≠ blockSize)
    "cache block dimensions do not match block_size"
  throwIf (∃ slopes ∈ alibiSlopes, slopes.shape.length ≠ 1 ∨ slopes.dim 0 ≠ query.dim 1)
    "alibi_slopes must have shape [num_heads]"
  throwIf (maxSeqLen ≤ 0) "max_seq_len must be positive"
  throwIf (maxSeqLen > int32 (blockTables.dim 1 * blockSize)) "max_seq_len exceeds block table capacity"
  throwIf (¬isValidConfig (query.dim 2) blockSize) "Unsupported head_size/block_size for paged_attention"
  let smem := smemBytes maxSeqLen (query.dim 2)
  throwIf (smem > maxSmem) "max_seq_len requires more threadgroup memory than this Metal device supports"
  let _ ← dtype.dtypeStr
  let _ ← cacheDtype.dtypeStr
  pure
    { numSeqs := query.dim 0
      numHeads := query.dim 1
      headSize := query.dim 2
      blockSize := blockSize.toNat
      cacheBytes := cacheDtype.size
      numKvHeads := numKvHeads.toNat
      scale
      softcapping := 1
      maxNumBlocksPerSeq := int32 (blockTables.dim 1)
      useAlibi := alibiSlopes.isSome
      qStride := int32 (query.stride 0)
      kvBlockStride := int32 (keyCache.stride 0)
      kvHeadStride := int32 (keyCache.stride 1)
      maxSeqLen := maxSeqLen.toNat
      smem }

/-- What an accepted call tells about the arrays and the kernel's arguments. -/
structure Accepted (maxSmem : Nat) (query : MlxArray Q) (keyCache valueCache : MlxArray C)
    (blockTables contextLens : MlxArray I) (alibiSlopes : Option (MlxArray F)) (p : PagedAttention F) : Prop where
  queryShape : query.shape = [p.numSeqs, p.numHeads, p.headSize]
  keyCacheShape : keyCache.shape = [keyCache.dim 0, p.numKvHeads, keyCache.dim 2, p.blockSize, keyCache.dim 4]
  packs : int32 (keyCache.dim 2 * keyCache.dim 4) = p.headSize
  valueCacheShape : valueCache.shape = [keyCache.dim 0, p.numKvHeads, p.headSize, p.blockSize]
  blockTablesShape : blockTables.shape = [p.numSeqs, blockTables.dim 1]
  contextLensShape : contextLens.shape = [p.numSeqs]
  slopesShape : ∀ slopes ∈ alibiSlopes, slopes.shape = [p.numHeads]
  useAlibi : p.useAlibi = alibiSlopes.isSome
  headSize : p.headSize ∈ [32, 64, 80, 96, 112, 120, 128, 192, 256]
  blockSize : p.blockSize ∈ [8, 16, 32]
  cacheBytes : p.cacheBytes ∈ [2, 4]
  kvHeads : 0 < p.numKvHeads ∧ p.numKvHeads ∣ p.numHeads
  maxSeqLen : 0 < p.maxSeqLen ∧ p.maxSeqLen ≤ int32 (blockTables.dim 1 * p.blockSize)
  smem : p.smem = smemBytes p.maxSeqLen p.headSize ∧ p.smem ≤ maxSmem
  softcapping : p.softcapping = 1
  maxNumBlocksPerSeq : p.maxNumBlocksPerSeq = int32 (blockTables.dim 1)
  qStride : p.qStride = int32 (query.stride 0)
  kvBlockStride : p.kvBlockStride = int32 (keyCache.stride 0)
  kvHeadStride : p.kvHeadStride = int32 (keyCache.stride 1)

theorem Dtype.dtypeStr_size {d : Dtype} {name : String} (h : d.dtypeStr = .ok name) : d.size ∈ [2, 4] := by
  cases d <;> first | (cases h; done) | decide

theorem accepted_of_ok {maxSmem : Nat} {dtype cacheDtype : Dtype} {query : MlxArray Q}
    {keyCache valueCache : MlxArray C}
    {blockTables contextLens : MlxArray I} {numKvHeads : Int} {scale : F} {blockSize maxSeqLen : Int}
    {alibiSlopes : Option (MlxArray F)} {p : PagedAttention F}
    (h : pagedAttentionV1 maxSmem dtype cacheDtype query keyCache valueCache blockTables contextLens
      numKvHeads scale blockSize maxSeqLen alibiSlopes = .ok p) :
    Accepted maxSmem query keyCache valueCache blockTables contextLens alibiSlopes p ∧
      p.cacheBytes = cacheDtype.size := by
  unfold pagedAttentionV1 at h
  simp only [throwIf_bind, not_or, not_not] at h
  obtain ⟨hq, ⟨hk, hv⟩, ⟨hb, hc⟩, ⟨hqb, hqc⟩, ⟨hkv, hdiv⟩, ⟨hk1, hv1⟩, ⟨hk2, hv2⟩, ⟨hk0, hk3, hv3⟩,
    halibi, hpos, hmax, hvalid, hsmem, h⟩ := h
  cases hd : dtype.dtypeStr with
  | error e => rw [hd] at h; cases h
  | ok name =>
    cases hcd : cacheDtype.dtypeStr with
    | error e => rw [hd, hcd] at h; cases h
    | ok cacheName =>
      rw [hd, hcd] at h
      cases h
      obtain ⟨kv, rfl⟩ : ∃ kv : Nat, numKvHeads = kv := Int.eq_ofNat_of_zero_le (by omega)
      obtain ⟨bs, rfl⟩ : ∃ bs : Nat, blockSize = bs := ⟨_, hk3.symm⟩
      obtain ⟨len, rfl⟩ : ∃ len : Nat, maxSeqLen = len := Int.eq_ofNat_of_zero_le (by omega)
      simp only [Int.toNat_natCast, Int.natCast_inj] at *
      obtain ⟨hhead, hblock⟩ := hvalid
      have hkvpos : 0 < kv := by omega
      have hlenpos : 0 < len := by omega
      refine ⟨⟨MlxArray.shape_eq hq, ?_, hk2, ?_, ?_, ?_, ?_, rfl, ?_, ?_, Dtype.dtypeStr_size hcd, ⟨hkvpos, ?_⟩,
        ⟨hlenpos, Int.not_lt.mp hmax⟩, ⟨rfl, Nat.not_lt.mp hsmem⟩, rfl, ?_, ?_, ?_, ?_⟩, trivial⟩
      · rw [MlxArray.shape_eq hk, ← hk1, ← hk3]
        rfl
      · rw [MlxArray.shape_eq hv, hk0, ← hv1, ← hv2, ← hv3]
        rfl
      · rw [MlxArray.shape_eq hb, hqb]
        rfl
      · rw [MlxArray.shape_eq hc, hqc]
        rfl
      · intro slopes hmem
        obtain ⟨h1, h0⟩ := not_or.mp fun hbad => halibi ⟨slopes, hmem, hbad⟩
        rw [MlxArray.shape_eq (not_not.mp h1), ← not_not.mp h0]
        rfl
      · simp only [List.mem_cons, List.not_mem_nil, or_false] at hhead ⊢
        omega
      · simp only [List.mem_cons, List.not_mem_nil, or_false] at hblock ⊢
        omega
      · exact Int.natCast_dvd_natCast.mp (Int.dvd_of_tmod_eq_zero hdiv)
      all_goals dsimp only

theorem scale_of_ok {maxSmem : Nat} {dtype cacheDtype : Dtype} {query : MlxArray Q}
    {keyCache valueCache : MlxArray C}
    {blockTables contextLens : MlxArray I} {numKvHeads : Int} {scale : F} {blockSize maxSeqLen : Int}
    {alibiSlopes : Option (MlxArray F)} {p : PagedAttention F}
    (h : pagedAttentionV1 maxSmem dtype cacheDtype query keyCache valueCache blockTables contextLens
      numKvHeads scale blockSize maxSeqLen alibiSlopes = .ok p) : p.scale = scale := by
  unfold pagedAttentionV1 at h
  simp only [throwIf_bind] at h
  obtain ⟨-, -, -, -, -, -, -, -, -, -, -, -, -, h⟩ := h
  cases hd : dtype.dtypeStr with
  | error e => rw [hd] at h; cases h
  | ok name =>
    cases hcd : cacheDtype.dtypeStr with
    | error e => rw [hd, hcd] at h; cases h
    | ok cacheName =>
      rw [hd, hcd] at h
      cases h
      rfl

end

/-! ## Where the kernel reads -/

namespace PagedAttention
variable {F : Type} (p : PagedAttention F)

/-- `constexpr int x = 16 / sizeof(CACHE_T)`. -/
def x : Nat := 16 / p.cacheBytes

/-- The place of `q_ptr[i]`. -/
def qIndex (seqIdx headIdx i : Nat) : Int := seqIdx * p.qStride + headIdx * p.headSize + i

/-- The place of `k_ptr[...]` for dimension `d` of position `t` in a block. -/
def kIndex (physicalBlockNumber kvHeadIdx t d : Nat) : Int :=
  physicalBlockNumber * p.kvBlockStride + kvHeadIdx * p.kvHeadStride +
    ((d / p.x : Nat) * p.blockSize * p.x + t * p.x + (d % p.x : Nat))

/-- The place of `v_ptr[...]`. -/
def vIndex (physicalBlockNumber kvHeadIdx t d : Nat) : Int :=
  physicalBlockNumber * p.kvBlockStride + kvHeadIdx * p.kvHeadStride + (d * p.blockSize + t)

end PagedAttention

end SglangMlx
