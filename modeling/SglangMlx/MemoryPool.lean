import Mathlib

/- The KV memory pool (`sglang_mlx/srt/mem_cache/memory_pool.py`): the free
   list of pool slots, the per-layer K/V buffers, and the per-request adapter
   that stores the new rows of a forward step and gathers all rows.

   An MLX array is a function of its indices; its sequence length is carried
   beside it, its head and element axes are not bounded (no function here reads
   them). Fancy indexing is gather and scatter, `mx.transpose` with axes
   `(1, 0, 2)` swaps the first two axes. -/
namespace SglangMlx

abbrev Token := Nat
abbrev Slot := Nat

/-- The exceptions the modelled code raises. -/
inductive PyError where
  | valueError (msg : String)
  | memoryError (msg : String)
  /-- Raised inside the model call or the sampler. -/
  | callee (msg : String)
  deriving DecidableEq, Repr

/-! ## TokenPoolAllocator -/

structure TokenPoolAllocator where
  poolSize : Nat
  freeSlots : List Slot
  deriving DecidableEq, Repr

namespace TokenPoolAllocator

/-- `range(pool_size, 0, -1)`: slots `pool_size, …, 1`; slot 0 is reserved padding. -/
def allSlots (poolSize : Nat) : List Slot := (List.range' 1 poolSize).reverse

/-- `TokenPoolAllocator.__init__`. -/
def init (poolSize : Int) : Except PyError TokenPoolAllocator :=
  if poolSize ≤ 0 then .error (.valueError s!"pool_size must be positive, got {poolSize}")
  else .ok { poolSize := poolSize.toNat, freeSlots := allSlots poolSize.toNat }

/-- Pop the last `n` slots of the free list. -/
def alloc (a : TokenPoolAllocator) (n : Int) : Except PyError (TokenPoolAllocator × List Slot) :=
  let available := a.freeSlots.length
  if n ≤ 0 then .ok (a, [])
  else if (available : Int) < n then
    .error (.memoryError s!"Cannot allocate {n} slots: only {available} available")
  else
    let keep := available - n.toNat
    .ok ({ a with freeSlots := a.freeSlots.take keep }, a.freeSlots.drop keep)

def free (a : TokenPoolAllocator) (indices : List Slot) : TokenPoolAllocator :=
  { a with freeSlots := a.freeSlots ++ indices }

def availableSize (a : TokenPoolAllocator) : Nat := a.freeSlots.length

def clear (a : TokenPoolAllocator) : TokenPoolAllocator :=
  { a with freeSlots := allSlots a.poolSize }

theorem mem_allSlots {n s : Nat} : s ∈ allSlots n ↔ 1 ≤ s ∧ s ≤ n := by
  rw [allSlots, List.mem_reverse, List.mem_range'_1]; omega

theorem allSlots_nodup (n : Nat) : (allSlots n).Nodup := by
  simp [allSlots, List.nodup_range']

theorem allSlots_length (n : Nat) : (allSlots n).length = n := by simp [allSlots]

/-- What a successful `alloc` does: the free list splits into what is kept and
    what is handed out. -/
theorem alloc_ok {a a' : TokenPoolAllocator} {n : Int} {s : List Slot} (h : a.alloc n = .ok (a', s)) :
    a.freeSlots = a'.freeSlots ++ s ∧ a'.poolSize = a.poolSize ∧ s.length = n.toNat := by
  unfold alloc at h
  by_cases hn : n ≤ 0
  · simp only [hn, if_true, Except.ok.injEq, Prod.mk.injEq] at h
    obtain ⟨rfl, rfl⟩ := h
    simp; omega
  · by_cases ha : (a.freeSlots.length : Int) < n
    · simp [hn, ha] at h
    · simp only [hn, ha, if_false, Except.ok.injEq, Prod.mk.injEq] at h
      obtain ⟨rfl, rfl⟩ := h
      refine ⟨by simp, rfl, ?_⟩
      rw [List.length_drop]; omega

theorem alloc_error {a : TokenPoolAllocator} {n : Int} {e : PyError} (h : a.alloc n = .error e) :
    (a.freeSlots.length : Int) < n ∧
      e = .memoryError s!"Cannot allocate {n} slots: only {a.freeSlots.length} available" := by
  unfold alloc at h
  by_cases hn : n ≤ 0
  · simp [hn] at h
  · by_cases ha : (a.freeSlots.length : Int) < n
    · simp only [hn, ha, if_true, if_false, Except.error.injEq] at h
      exact ⟨ha, h.symm⟩
    · simp [hn, ha] at h

end TokenPoolAllocator

/-! ## MHATokenPool -/

/-- An array in mlx-lm's layout `(1, n_kv_heads, S, head_dim)`, batch axis
    stripped: `elem head position dim`. -/
structure HeadFirst (α : Type) where
  seqLen : Nat
  elem : Nat → Nat → Nat → α

/-- `mx.transpose(·, axes=(1, 0, 2))`. -/
def transpose102 {α : Type} (x : Nat → Nat → Nat → α) : Nat → Nat → Nat → α := fun i j k => x j i k

/-- `buffer[idx] = rows`, the rows numbered from `i`. -/
def scatterFrom {α : Type} (rows : Nat → Nat → Nat → α) :
    Nat → List Slot → (Slot → Nat → Nat → α) → Slot → Nat → Nat → α
  | _, [], buf => buf
  | i, s :: rest, buf => scatterFrom rows (i + 1) rest (Function.update buf s (rows i))

/-- `buffer[idx]`. -/
def gather {α : Type} (indices : List Slot) (buf : Slot → Nat → Nat → α) : Nat → Nat → Nat → α :=
  fun t => buf (indices.getD t 0)

/-- Buffer layout per layer: `(pool_size + 1, n_kv_heads, head_dim)`, token first. -/
structure MHATokenPool (α : Type) where
  poolSize : Nat
  numLayers : Nat
  kBuffer : Nat → Slot → Nat → Nat → α
  vBuffer : Nat → Slot → Nat → Nat → α

namespace MHATokenPool
variable {α : Type}

/-- `MHATokenPool.__init__`: every buffer is `mx.zeros`. -/
def init (zero : α) (poolSize numLayers : Nat) : MHATokenPool α :=
  { poolSize, numLayers, kBuffer := fun _ _ _ _ => zero, vBuffer := fun _ _ _ _ => zero }

/-- Scatter `keys` and `values` into one layer. MLX raises on a right-hand side whose
    length is neither the number of indices nor 1, and on no indices at all:
    `mx.array([])` holds floats. -/
def store (pool : MHATokenPool α) (layerIdx : Nat) (indices : List Slot) (keys values : HeadFirst α) :
    Except PyError (MHATokenPool α) :=
  if keys.seqLen ≠ indices.length ∧ keys.seqLen ≠ 1 then
    .error (.valueError "shapes cannot be broadcast")
  else if indices = [] then
    .error (.valueError "indices must be integral")
  else
    let row (i : Nat) := if keys.seqLen = 1 then 0 else i
    let k := transpose102 keys.elem
    let v := transpose102 values.elem
    .ok { pool with
      kBuffer := Function.update pool.kBuffer layerIdx
        (scatterFrom (fun i => k (row i)) 0 indices (pool.kBuffer layerIdx))
      vBuffer := Function.update pool.vBuffer layerIdx
        (scatterFrom (fun i => v (row i)) 0 indices (pool.vBuffer layerIdx)) }

/-- The rows at `indices` of one layer, in mlx-lm's layout. -/
def gathered (pool : MHATokenPool α) (layerIdx : Nat) (indices : List Slot) : HeadFirst α × HeadFirst α :=
  ({ seqLen := indices.length, elem := transpose102 (gather indices (pool.kBuffer layerIdx)) },
   { seqLen := indices.length, elem := transpose102 (gather indices (pool.vBuffer layerIdx)) })

/-- Gather the rows at `indices`; as in `store`, there must be one. -/
def fetch (pool : MHATokenPool α) (layerIdx : Nat) (indices : List Slot) :
    Except PyError (HeadFirst α × HeadFirst α) :=
  if indices = [] then .error (.valueError "indices must be integral")
  else .ok (pool.gathered layerIdx indices)

end MHATokenPool

/-! ## PooledKVCache -/

/-- The adapter of one request and layer. The pool it refers to is passed to
    its methods. -/
structure PooledKVCache where
  layerIdx : Nat
  prefixIndices : List Slot := []
  newIndices : List Slot := []
  storeOffset : Nat := 0
  deriving DecidableEq, Repr

namespace PooledKVCache
variable {α : Type}

def setIndices (c : PooledKVCache) (prefixIndices newIndices : List Slot) : PooledKVCache :=
  { c with prefixIndices, newIndices, storeOffset := 0 }

/-- RoPE position offset for new tokens. -/
def offset (c : PooledKVCache) : Nat := c.prefixIndices.length

/-- Store the new K/V rows, then gather all rows stored so far. -/
def updateAndFetch (c : PooledKVCache) (pool : MHATokenPool α) (keys values : HeadFirst α) :
    Except PyError (PooledKVCache × MHATokenPool α × HeadFirst α × HeadFirst α) := do
  let nNew := keys.seqLen
  let storeIndices := (c.newIndices.drop c.storeOffset).take nNew
  let c := { c with storeOffset := c.storeOffset + nNew }
  let pool ← pool.store c.layerIdx storeIndices keys values
  let allIndices := c.prefixIndices ++ c.newIndices.take c.storeOffset
  let (k, v) ← pool.fetch c.layerIdx allIndices
  return (c, pool, k, v)

end PooledKVCache

end SglangMlx
