import SglangMlx.Lib.ThreadGrid
import SglangMlx.MlxArray

/- `reshape_and_cache` (`paged_attention/mlx_cache.cpp` and the kernel
   `metal/cache/reshape_and_cache.metal`): every token is a threadgroup, whose
   threads copy its keys and values into the cells of its slot.

   `int` is 32 bits wide and wraps, `int64_t` likewise with 64; since both are rings,
   a product or sum is wrapped once. `/` and `%` round towards zero. The threads of
   all threadgroups write in any order: a schedule is any arrangement of all their
   stores. `slot_mapping` is the `int32` array that the host passes on. -/
namespace SglangMlx

open MachineInt

/-- The scalar arguments of the kernel and the size of its grid. -/
structure ReshapeAndCache where
  keyStride : Int
  valueStride : Int
  numHeads : Int
  headSize : Int
  blockSize : Int
  x : Int
  numTokens : Nat
  threads : Nat
  deriving DecidableEq, Repr

/-- `std::min<uint64_t>(512, n)`: a negative `int` becomes a large `uint64_t`. -/
def threadgroupSize (n : Int) : Nat := if 0 ≤ n then min 512 n.toNat else 512

/-- The host function and `ReshapeAndCache::eval_gpu`. Its `astype(slot_mapping, int32)` is
    not part of it, nor is the choice of the kernel by the dtypes of `key` and `key_cache`:
    those of `value` and `value_cache`, which nothing checks, are taken to be the same. -/
def reshapeAndCache {K C : Type} (key value : MlxArray K) (keyCache : MlxArray C) : ReshapeAndCache :=
  let numHeads := int32 (key.dim 1)
  let headSize := int32 (key.dim 2)
  { keyStride := int32 (key.stride 0)
    valueStride := int32 (value.stride 0)
    numHeads
    headSize
    blockSize := int32 (keyCache.dim 3)
    x := int32 (keyCache.dim 4)
    numTokens := key.dim 0
    threads := threadgroupSize (int32 (numHeads * headSize)) }

/-- The flat indices of one round of a thread's loop. -/
structure Store where
  srcKey : Int
  srcValue : Int
  tgtKey : Int
  tgtValue : Int
  deriving DecidableEq, Repr

namespace ReshapeAndCache
variable (p : ReshapeAndCache)

/-- `const int n = num_heads * head_size`. -/
def n : Int := int32 (p.numHeads * p.headSize)

/-- The body of the loop. -/
def store (tokenIdx slotIdx i : Int) : Store :=
  let blockIdx := slotIdx.tdiv p.blockSize
  let blockOffset := slotIdx.tmod p.blockSize
  let headIdx := i.tdiv p.headSize
  let headOffset := i.tmod p.headSize
  let xIdx := headOffset.tdiv p.x
  let xOffset := headOffset.tmod p.x
  { srcKey := int32 (tokenIdx * p.keyStride + i)
    srcValue := int32 (tokenIdx * p.valueStride + i)
    tgtKey := int64 (blockIdx * int32 (p.numHeads * p.headSize.tdiv p.x * p.blockSize * p.x) +
      headIdx * int32 (p.headSize.tdiv p.x * p.blockSize * p.x) + xIdx * int32 (p.blockSize * p.x) +
      blockOffset * p.x + xOffset)
    tgtValue := int64 (blockIdx * int32 (p.numHeads * p.headSize * p.blockSize) +
      headIdx * int32 (p.headSize * p.blockSize) + headOffset * p.blockSize + blockOffset) }

/-- The stores of thread `tid` of threadgroup `gid`, if the thread ends. -/
def ThreadRun (slotMapping : MlxArray Int) (gid tid : Nat) (stores : List Store) : Prop :=
  let tokenIdx := int32 gid
  let slotIdx := slotMapping.data tokenIdx
  if slotIdx < 0 then stores = []
  else ∃ fuel is, forLoop p.n p.threads fuel (int32 tid) = some is ∧ stores = is.map (p.store tokenIdx slotIdx)

/-- An order in which the threads of all threadgroups make their stores. -/
def Schedule (slotMapping : MlxArray Int) (order : List Store) : Prop :=
  ThreadGrid.Schedule p.numTokens p.threads (p.ThreadRun slotMapping) order

end ReshapeAndCache

/-- The key cache after the stores. -/
def storeKeys {K C : Type} (toCache : K → C) (key : MlxArray K) (keyCache : MlxArray C) (order : List Store) :
    MlxArray C :=
  { keyCache with
    data := Layout.write keyCache.data (order.map fun s => (s.tgtKey, toCache (key.data s.srcKey))) }

/-- The value cache after the stores. -/
def storeValues {K C : Type} (toCache : K → C) (value : MlxArray K) (valueCache : MlxArray C)
    (order : List Store) : MlxArray C :=
  { valueCache with
    data := Layout.write valueCache.data (order.map fun s => (s.tgtValue, toCache (value.data s.srcValue))) }

/-! ## Arrays of the documented shapes -/

/-- Batch and caches have the documented shapes. -/
structure ReshapeShapes {K C : Type} (T H D B BS x : Nat) (key value : MlxArray K)
    (keyCache valueCache : MlxArray C) (slotMapping : MlxArray Int) : Prop where
  key : key.shape = [T, H, D]
  value : value.shape = [T, H, D]
  keyCache : keyCache.shape = [B, H, D / x, BS, x]
  valueCache : valueCache.shape = [B, H, D, BS]
  slotMapping : slotMapping.shape = [T]
  divides : x ∣ D

/-- They are row-contiguous, and their element counts fit in `int32`. -/
structure ReshapeFits {K C : Type} (key value : MlxArray K) (keyCache valueCache : MlxArray C)
    (slotMapping : MlxArray Int) : Prop where
  key : key.RowContiguous ∧ key.size < 2 ^ 31
  value : value.RowContiguous ∧ value.size < 2 ^ 31
  keyCache : keyCache.RowContiguous ∧ keyCache.size < 2 ^ 31
  valueCache : valueCache.RowContiguous ∧ valueCache.size < 2 ^ 31
  slotMapping : slotMapping.RowContiguous ∧ slotMapping.size < 2 ^ 31

/-- The non-negative slots are pairwise distinct and below `B * BS`. -/
structure GoodSlots (T B BS : Nat) (slotMapping : MlxArray Int) : Prop where
  distinct : ∀ i < T, ∀ j < T, 0 ≤ slotMapping.get [i] → slotMapping.get [i] = slotMapping.get [j] → i = j
  below : ∀ i < T, slotMapping.get [i] < (B * BS : Nat)

end SglangMlx
