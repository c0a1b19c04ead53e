import SglangMlx.Lib.ConcurrentCopy
import SglangMlx.PagedAttention

/- `copy_blocks` (`paged_attention/mlx_cache.cpp` and the kernel
   `metal/cache/copy_blocks.metal`). In every layer each pair of `block_mapping` is a
   threadgroup, whose threads copy the elements of the source block to the destination
   block; the caches keep their buffers. The threads of all threadgroups take turns in
   any order, a load and a store are two steps.

   `block_mapping` is the `int64` array that the host passes on. -/
namespace SglangMlx

open MachineInt Threadgroup

/-- `dtypeStr` of this file. -/
def Dtype.cacheDtypeStr : Dtype → Except String String
  | .float32 => .ok "float"
  | .float16 => .ok "half"
  | .bfloat16 => .ok "bfloat16_t"
  | .uint8 => .ok "uchar"
  | _ => .error "Unsupported cache dtype"

/-- An array with its element type. -/
structure TypedArray (V : Type) where
  dtype : Dtype
  array : MlxArray V

/-- The primitive of one layer. -/
structure CopyBlocksLayer where
  kernelName : String
  numelPerBlock : Int
  numPairs : Nat
  deriving DecidableEq, Repr

section
variable {V : Type}

/-- The body of the loop over the layers. -/
def copyBlocksLayer (numPairs : Nat) (kc vc : TypedArray V) : Except String CopyBlocksLayer := do
  throwIf (kc.array.shape.length = 0 ∨ vc.array.shape.length = 0 ∨ kc.array.dim 0 = 0 ∨ vc.array.dim 0 = 0 ∨
    kc.array.dim 0 ≠ vc.array.dim 0) "key/value caches must have matching block counts"
  throwIf (kc.dtype ≠ vc.dtype ∨ kc.array.size / kc.array.dim 0 ≠ vc.array.size / vc.array.dim 0)
    "key/value cache block layouts must match"
  let dtype ← kc.dtype.cacheDtypeStr
  pure
    { kernelName := "copy_blocks_" ++ dtype
      numelPerBlock := int32 (kc.array.size / kc.array.dim 0 : Nat)
      numPairs }

/-- The host function: the primitives that it makes of the arrays. -/
def copyBlocks (keyCaches valueCaches : List (TypedArray V)) (blockMapping : MlxArray Int) :
    Except String (List CopyBlocksLayer) := do
  throwIf (keyCaches.length ≠ valueCaches.length) "key_caches and value_caches size mismatch"
  throwIf (blockMapping.shape.length ≠ 2 ∨ blockMapping.dim 1 ≠ 2) "block_mapping must have shape [num_pairs, 2]"
  (keyCaches.zip valueCaches).mapM fun c => copyBlocksLayer (blockMapping.dim 0) c.1 c.2

end

inductive CacheKind where
  | key
  | value
  deriving DecidableEq, Repr

/-- An element of one of the caches. -/
abbrev CacheCell := CacheKind × Int

/-- `src_block_number` and `dst_block_number`. -/
def blockPair (blockMapping : MlxArray Int) (tgid : Nat) : Int × Int :=
  let pairIdx := int32 tgid
  (blockMapping.data (int32 (2 * pairIdx)), blockMapping.data (int32 (2 * pairIdx + 1)))

namespace CopyBlocksLayer
variable (p : CopyBlocksLayer)

/-- `std::min<uint32_t>(256, numel_per_block)`. -/
def threads : Nat := min 256 (p.numelPerBlock % 2 ^ 32).toNat

def offset (block i : Int) : Int := int64 (block * p.numelPerBlock + i)

/-- What the loop over the key cache and the loop over the value cache copy. -/
def copies (blockMapping : MlxArray Int) (tgid : Nat) (is : List Int) : List (CacheCell × CacheCell) :=
  let (src, dst) := blockPair blockMapping tgid
  is.map (fun i => ((.key, p.offset src i), (.key, p.offset dst i))) ++
    is.map fun i => ((.value, p.offset src i), (.value, p.offset dst i))

/-- The copies of a thread, if its loops end. -/
def ThreadRun (blockMapping : MlxArray Int) (tgid tid : Nat) (moves : List (CacheCell × CacheCell)) : Prop :=
  ∃ fuel is, forLoop p.numelPerBlock p.threads fuel (int32 tid) = some is ∧ moves = p.copies blockMapping tgid is

/-- The kernel leads from the first to the second contents of the buffers, in some order
    of its threads. -/
def Copies {V : Type} (blockMapping : MlxArray Int) (before after : CacheCell → V) : Prop :=
  ∃ moves : Fin p.numPairs × Fin p.threads → List (CacheCell × CacheCell),
    (∀ t, p.ThreadRun blockMapping t.1 t.2 (moves t)) ∧
    ∃ s s' : State (Fin p.numPairs × Fin p.threads) V CacheCell V, s.mem = before ∧ s'.mem = after ∧
      Runs (fun _ => ()) (copyPhase moves) s s'

end CopyBlocksLayer

/-- The buffers of a layer. -/
def cells {V : Type} (kc vc : MlxArray V) : CacheCell → V
  | (.key, i) => kc.data i
  | (.value, i) => vc.data i

end SglangMlx
