import SglangMlx.ReshapeAndCache

/- `reshape_and_cache_flash` (`paged_attention/mlx_cache.cpp` and the kernel in
   `metal/cache/reshape_and_cache.metal`), the sibling of `reshape_and_cache` for caches
   of shape `[num_blocks, block_size, num_heads, head_size]`. It widens every index to
   64 bits before the first product, the paged kernel only after some. -/
namespace SglangMlx

open MachineInt

/-- The scalar arguments of the kernel and the size of its grid. -/
structure ReshapeAndCacheFlash where
  keyStride : Int
  valueStride : Int
  numHeads : Int
  headSize : Int
  blockSize : Int
  numTokens : Nat
  threads : Nat
  deriving DecidableEq, Repr

/-- The host function and `ReshapeAndCacheFlash::eval_gpu`. -/
def reshapeAndCacheFlash {K C : Type} (key value : MlxArray K) (keyCache : MlxArray C) : ReshapeAndCacheFlash :=
  let numHeads := int32 (key.dim 1)
  let headSize := int32 (key.dim 2)
  { keyStride := int32 (key.stride 0)
    valueStride := int32 (value.stride 0)
    numHeads
    headSize
    blockSize := int32 (keyCache.dim 1)
    numTokens := key.dim 0
    threads := threadgroupSize (int32 (numHeads * headSize)) }

namespace ReshapeAndCacheFlash
variable (p : ReshapeAndCacheFlash)

/-- `const int n = num_heads * head_size`. -/
def n : Int := int32 (p.numHeads * p.headSize)

/-- The body of the loop. -/
def store (tokenIdx slotIdx i : Int) : Store :=
  let blockIdx := slotIdx.tdiv p.blockSize
  let blockOffset := slotIdx.tmod p.blockSize
  let tgt := int64 (blockIdx * p.blockSize * p.numHeads * p.headSize + blockOffset * p.numHeads * p.headSize + i)
  { srcKey := int64 (tokenIdx * p.keyStride + i)
    srcValue := int64 (tokenIdx * p.valueStride + i)
    tgtKey := tgt
    tgtValue := tgt }

/-- The stores of thread `tid` of threadgroup `gid`, if the thread ends. -/
def ThreadRun (slotMapping : MlxArray Int) (gid tid : Nat) (stores : List Store) : Prop :=
  let tokenIdx := int32 gid
  let slotIdx := slotMapping.data tokenIdx
  if slotIdx < 0 then stores = []
  else ∃ fuel is, forLoop p.n p.threads fuel (int32 tid) = some is ∧ stores = is.map (p.store tokenIdx slotIdx)

/-- An order in which the threads of all threadgroups make their stores. -/
def Schedule (slotMapping : MlxArray Int) (order : List Store) : Prop :=
  ThreadGrid.Schedule p.numTokens p.threads (p.ThreadRun slotMapping) order

end ReshapeAndCacheFlash

/-! ## One logical cache in two layouts -/

/-- A batch and its slots: rows and sizes fit in `int32`, slots are distinct and inside a
    cache of `B` blocks. -/
structure Batch (T H D B BS x : Nat) (slotMapping : MlxArray Int) : Prop where
  row : H * D < 2 ^ 31
  sizes : T < 2 ^ 31 ∧ H < 2 ^ 31 ∧ D < 2 ^ 31 ∧ BS < 2 ^ 31 ∧ x < 2 ^ 31
  divides : x ∣ D
  slotsShape : slotMapping.shape = [T]
  slotsContiguous : slotMapping.RowContiguous
  slots : ∀ i < T, 0 ≤ slotMapping.get [i] ∧ slotMapping.get [i] < (B * BS : Nat) ∧ slotMapping.get [i] < 2 ^ 31
  distinct : ∀ i < T, ∀ j < T, slotMapping.get [i] = slotMapping.get [j] → i = j

/-- The arrays of a call, in row-major order. -/
structure Rows {K : Type} (a : MlxArray K) (shape : List Nat) : Prop where
  shape : a.shape = shape
  contiguous : a.RowContiguous

/-- The caches of both writers. -/
structure Caches (K : Type) where
  key : MlxArray K
  value : MlxArray K
  flashKey : MlxArray K
  flashValue : MlxArray K

structure Caches.Valid {K : Type} (c : Caches K) (H D B BS x : Nat) : Prop where
  key : Rows c.key [B, H, D / x, BS, x]
  value : Rows c.value [B, H, D, BS]
  flashKey : Rows c.flashKey [B, BS, H, D]
  flashValue : Rows c.flashValue [B, BS, H, D]

/-- Both layouts hold the same elements for every slot, head and dimension. -/
def Caches.Same {K : Type} (c : Caches K) (H D B BS x : Nat) : Prop :=
  ∀ slot < B * BS, ∀ h < H, ∀ d < D,
    c.key.get [slot / BS, h, d / x, slot % BS, d % x] = c.flashKey.get [slot / BS, slot % BS, h, d] ∧
      c.value.get [slot / BS, h, d, slot % BS] = c.flashValue.get [slot / BS, slot % BS, h, d]

/-- The caches after the stores of both writers. -/
def Caches.store {K : Type} (c : Caches K) (key value : MlxArray K) (order flashOrder : List Store) :
    Caches K where
  key := storeKeys id key c.key order
  value := storeValues id value c.value order
  flashKey := storeKeys id key c.flashKey flashOrder
  flashValue := storeValues id value c.flashValue flashOrder

def Store.Nonneg (s : Store) : Prop := 0 ≤ s.srcKey ∧ 0 ≤ s.srcValue ∧ 0 ≤ s.tgtKey ∧ 0 ≤ s.tgtValue

/-- Whatever the batch and the caches hold, both writers end and keep one logical cache, and
    no index is negative. -/
def WritersAgree (K : Type) (T H D B BS x : Nat) (slotMapping : MlxArray Int) : Prop :=
  ∀ (key value : MlxArray K) (c : Caches K), Rows key [T, H, D] → Rows value [T, H, D] → c.Valid H D B BS x →
    c.Same H D B BS x →
      ((∃ order, (reshapeAndCache key value c.key).Schedule slotMapping order) ∧
        ∃ flashOrder, (reshapeAndCacheFlash key value c.flashKey).Schedule slotMapping flashOrder) ∧
      ∀ order flashOrder, (reshapeAndCache key value c.key).Schedule slotMapping order →
        (reshapeAndCacheFlash key value c.flashKey).Schedule slotMapping flashOrder →
          (c.store key value order flashOrder).Same H D B BS x ∧ ∀ s ∈ order ++ flashOrder, s.Nonneg

end SglangMlx
