import SglangMlx.ModelRunner

/- The paths through the methods of a runner. `forward_prefill` and `forward_decode`
   end without slots, by an exception of the model, or with the request in
   `_active_requests` and its tokens inserted; there is one equation for each. On the
   last path only `logits[0, -1, :]` is left to raise. -/
namespace SglangMlx

/-- The state that a prefill builds. -/
def RequestState.prefilled (id : String) (promptTokens : List Token) (plan : PrefillPlan) (radixNode : NodeId)
    (kvCaches : List PooledKVCache) : RequestState where
  requestId := id
  promptTokens := promptTokens
  outputTokens := []
  allSlotIndices := plan.prefixIndices ++ plan.newSlotIndices
  radixNode := radixNode
  prefixLen := plan.prefixIndices.length
  kvCaches := kvCaches

/-- The state after a decode. -/
def RequestState.decoded (st : RequestState) (kvCaches : List PooledKVCache) (tokenId : Token) (new : List Slot) :
    RequestState :=
  { st with
    kvCaches
    outputTokens := st.outputTokens ++ [tokenId]
    allSlotIndices := st.allSlotIndices ++ new }

@[simp] theorem RequestState.prefilled_tokens (id : String) (promptTokens : List Token) (plan : PrefillPlan)
    (radixNode : NodeId) (kvCaches : List PooledKVCache) :
    (prefilled id promptTokens plan radixNode kvCaches).tokens = promptTokens := List.append_nil _

@[simp] theorem RequestState.decoded_tokens (st : RequestState) (kvCaches : List PooledKVCache) (tokenId : Token)
    (new : List Slot) : (st.decoded kvCaches tokenId new).tokens = st.tokens ++ [tokenId] :=
  (List.append_assoc _ _ _).symm

namespace ModelRunner
variable {α Λ : Type}

theorem alloc_eq {r : ModelRunner α} {a : TokenPoolAllocator} (ha : r.radixCache.allocator = some a) (n : Int) :
    r.alloc n = some (match a.alloc n with
      | .error e => (r, .error e)
      | .ok (a', slots) => ({ r with radixCache := r.radixCache.setAllocator a' }, .ok slots)) := by
  unfold ModelRunner.alloc
  rw [ha]
  cases hal : a.alloc n with
  | error e => simp [hal]
  | ok x => simp [hal]

theorem freeSlots_eq {r : ModelRunner α} {a : TokenPoolAllocator} (ha : r.radixCache.allocator = some a) :
    r.freeSlots = a.freeSlots := by
  unfold freeSlots RadixCache.freeList
  rw [ha]
  rfl

/-! ## forward_prefill -/

section
variable {model : Model α Λ} {r : ModelRunner α} {id : String} {promptTokens : List Token} {c₁ : RadixCache}
  {found : MatchResult} (hmatch : r.radixCache.matchPrefix promptTokens = some (c₁, found))
include hmatch

theorem forwardPrefill_starved {e : PyError} (hplan : ({ r with radixCache := c₁ } : ModelRunner α).planPrefill
    promptTokens found.deviceIndices = some ({ r with radixCache := c₁ }, .error e)) :
    r.forwardPrefill model id promptTokens = some ({ r with radixCache := c₁ }, .error e) := by
  simp only [forwardPrefill, hmatch, Option.bind_eq_bind, Option.bind_some, hplan]
  rfl

section
variable {c₂ : RadixCache} {plan : PrefillPlan} {pool : MHATokenPool α} {kvCaches : List PooledKVCache}
  (hplan : ({ r with radixCache := c₁ } : ModelRunner α).planPrefill promptTokens found.deviceIndices =
    some ({ r with radixCache := c₂ }, .ok plan))
include hplan

theorem forwardPrefill_raised {e : PyError} (hcall : model plan.newTokens r.pool
    (freshCaches (List.range r.config.numLayers) plan.prefixIndices plan.newSlotIndices) =
    (pool, kvCaches, .error e)) :
    r.forwardPrefill model id promptTokens = some ({ r with pool, radixCache := c₂ }, .error e) := by
  have hcall : model plan.newTokens r.pool ((List.range r.config.numLayers).map fun layerIdx =>
    PooledKVCache.setIndices { layerIdx } plan.prefixIndices plan.newSlotIndices) =
      (pool, kvCaches, .error e) := hcall
  simp only [forwardPrefill, hmatch, Option.bind_eq_bind, Option.bind_some, hplan, hcall]
  rfl

theorem forwardPrefill_served {logits : List Λ} (hcall : model plan.newTokens r.pool
    (freshCaches (List.range r.config.numLayers) plan.prefixIndices plan.newSlotIndices) =
    (pool, kvCaches, .ok logits)) {c₃ c₄ c₅ : RadixCache} {k : Nat} {after : MatchResult} {delta : Int}
    (hinsert : c₂.insert promptTokens (some (plan.prefixIndices ++ plan.newSlotIndices)) 0 = some (c₃, k))
    (hafter : c₃.matchPrefix promptTokens = some (c₄, after))
    (hlock : c₄.incLockRef after.lastNode = some (c₅, delta)) :
    r.forwardPrefill model id promptTokens = some ({ r with
        pool, radixCache := c₅
        activeRequests := r.activeRequests.insert id
          (RequestState.prefilled id promptTokens plan after.lastNode kvCaches) },
      (lastLogits logits).map fun logits =>
        (RequestState.prefilled id promptTokens plan after.lastNode kvCaches,
          { logits, forwardMode := .prefill })) := by
  have hcall : model plan.newTokens r.pool ((List.range r.config.numLayers).map fun layerIdx =>
    PooledKVCache.setIndices { layerIdx } plan.prefixIndices plan.newSlotIndices) =
      (pool, kvCaches, .ok logits) := hcall
  simp only [forwardPrefill, hmatch, Option.bind_eq_bind, Option.bind_some, hplan, hcall, hinsert, hafter, hlock]
  rfl

end

end

/-! ## forward_decode -/

theorem map_setIndices (kvCaches : List PooledKVCache) (pre new : List Slot) :
    (kvCaches.map fun cache => cache.setIndices pre new) =
      freshCaches (kvCaches.map PooledKVCache.layerIdx) pre new := by
  rw [freshCaches, List.map_map]
  rfl

section
variable {model : Model α Λ} {r : ModelRunner α} {id : String} {st : RequestState}
  (hst : r.activeRequests.lookup id = some st) {a : TokenPoolAllocator} (ha : r.radixCache.allocator = some a)
  {tokenId : Token}
include hst ha

theorem forwardDecode_starved {e : PyError} (hal : a.alloc 1 = .error e) :
    r.forwardDecode model id tokenId = some (r, .error e) := by
  simp only [forwardDecode, hst, Option.bind_eq_bind, Option.bind_some, alloc_eq ha, hal]
  rfl

section
variable {a' : TokenPoolAllocator} {new : List Slot} (hal : a.alloc 1 = .ok (a', new)) {pool : MHATokenPool α}
  {kvCaches : List PooledKVCache}
include hal

theorem forwardDecode_raised {e : PyError} (hcall : model [tokenId] r.pool
    (freshCaches (st.kvCaches.map PooledKVCache.layerIdx) st.allSlotIndices new) = (pool, kvCaches, .error e)) :
    r.forwardDecode model id tokenId = some ({ r with
        pool, radixCache := r.radixCache.setAllocator a'
        activeRequests := r.activeRequests.insert id { st with kvCaches } }, .error e) := by
  simp only [forwardDecode, hst, Option.bind_eq_bind, Option.bind_some, alloc_eq ha, hal, map_setIndices, hcall]
  rfl

theorem forwardDecode_served {logits : List Λ} (hcall : model [tokenId] r.pool
    (freshCaches (st.kvCaches.map PooledKVCache.layerIdx) st.allSlotIndices new) = (pool, kvCaches, .ok logits))
    {c : RadixCache} {k : Nat} (hinsert : (r.radixCache.setAllocator a').insert (st.tokens ++ [tokenId])
      (some (st.allSlotIndices ++ new)) 0 = some (c, k)) :
    r.forwardDecode model id tokenId = some ({ r with
        pool, radixCache := c
        activeRequests := r.activeRequests.insert id (st.decoded kvCaches tokenId new) },
      (lastLogits logits).map fun logits => { logits, forwardMode := .decode }) := by
  rw [← RequestState.decoded_tokens st kvCaches tokenId new] at hinsert
  simp only [forwardDecode, hst, Option.bind_eq_bind, Option.bind_some, alloc_eq ha, hal, map_setIndices, hcall]
  exact Option.bind_eq_some_iff.mpr ⟨_, hinsert, rfl⟩

end

end

end ModelRunner

end SglangMlx
