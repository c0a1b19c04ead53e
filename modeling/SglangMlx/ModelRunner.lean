import SglangMlx.RadixRun

/- The model runner (`sglang_mlx/model_runner.py`): prefill with prefix reuse,
   decoding one token at a time, and releasing a request.

   The model is a parameter: its call reads the new tokens, the pool and the
   caches of the request, and leaves pool and caches changed also when it raises.
   `_allocator` is the object attached to the radix cache and lives there. The
   `RequestState` of an active request is the object in `_active_requests`, so
   `forward_decode` and `finish_request` are given its id. A method returns the
   runner it leaves behind beside what it returns or raises; `none` stands for
   the exceptions of a broken radix tree and for an id that is not active. -/
namespace SglangMlx

inductive ForwardMode where
  | prefill | decode
  deriving DecidableEq, Repr

/-- The fields of `ModelConfig` that the runner reads; the head dimensions only
    size the buffers. -/
structure ModelConfig where
  numLayers : Nat
  deriving DecidableEq, Repr

structure RequestState where
  requestId : String
  promptTokens : List Token
  outputTokens : List Token
  /-- prefix + generated pool slots -/
  allSlotIndices : List Slot
  radixNode : NodeId
  prefixLen : Nat
  kvCaches : List PooledKVCache

/-- All tokens of the request so far. -/
def RequestState.tokens (s : RequestState) : List Token := s.promptTokens ++ s.outputTokens

/-- `logits` is the row of the last position. -/
structure ForwardResult (Λ : Type) where
  logits : Λ
  forwardMode : ForwardMode

/-- The call of an mlx-lm model: what it leaves behind, and the logits of the new
    positions or the exception it raises. -/
structure Model (α Λ : Type) where
  call : List Token → MHATokenPool α → List PooledKVCache →
    MHATokenPool α × List PooledKVCache × Except PyError (List Λ)
  /-- The logits are `(1, N, V)`. -/
  shape : ∀ newTokens pool kvCaches logits, (call newTokens pool kvCaches).2.2 = .ok logits →
    logits.length = newTokens.length

instance {α Λ : Type} : CoeFun (Model α Λ) fun _ => List Token → MHATokenPool α → List PooledKVCache →
    MHATokenPool α × List PooledKVCache × Except PyError (List Λ) := ⟨Model.call⟩

/-- `logits[0, -1, :]`; without a position MLX cannot drop the middle axis. -/
def lastLogits {Λ : Type} (logits : List Λ) : Except PyError Λ :=
  match logits.getLast? with
  | some row => .ok row
  | none => .error (.valueError "cannot squeeze an axis of size 0")

theorem lastLogits_of_getLast? {Λ : Type} {logits : List Λ} {row : Λ} (h : logits.getLast? = some row) :
    lastLogits logits = .ok row := by
  unfold lastLogits
  rw [h]

theorem map_eq_ok {β γ : Type} {x : Except PyError β} {f : β → γ} {c : γ} (h : x.map f = .ok c) :
    ∃ b, x = .ok b ∧ f b = c := by
  cases x with
  | error e => cases h
  | ok b => exact ⟨b, rfl, Except.ok.inj h⟩

theorem map_eq_error {β γ : Type} {x : Except PyError β} {f : β → γ} {e : PyError} (h : x.map f = .error e) :
    x = .error e := by
  cases x with
  | error e' => exact congrArg Except.error (Except.error.inj h)
  | ok b => cases h

theorem map_lastLogits {Λ β γ : Type} (logits : List Λ) (f : Λ → β) (g : β → γ) :
    ((lastLogits logits).map f).map g = (lastLogits logits).map fun row => g (f row) := by
  cases lastLogits logits <;> rfl

theorem Model.lastLogits_eq {α Λ : Type} {model : Model α Λ} {newTokens : List Token}
    {pool pool' : MHATokenPool α} {kvCaches kvCaches' : List PooledKVCache} {logits : List Λ}
    (h : model newTokens pool kvCaches = (pool', kvCaches', .ok logits)) (hne : newTokens ≠ []) :
    ∃ row, logits.getLast? = some row ∧ lastLogits logits = .ok row := by
  have hlen := model.shape newTokens pool kvCaches logits (by rw [h])
  have hpos : logits ≠ [] := List.ne_nil_of_length_pos (by rw [hlen]; exact List.length_pos_of_ne_nil hne)
  have hlast := List.getLast?_eq_getLast_of_ne_nil hpos
  exact ⟨_, hlast, lastLogits_of_getLast? hlast⟩

structure ModelRunner (α : Type) where
  config : ModelConfig
  pool : MHATokenPool α
  radixCache : RadixCache
  activeRequests : AList (fun _ : String => RequestState)

/-- What step 2 of `forward_prefill` decides. -/
structure PrefillPlan where
  prefixIndices : List Slot
  newTokens : List Token
  newSlotIndices : List Slot
  deriving DecidableEq, Repr

namespace ModelRunner
variable {α Λ : Type}

/-- `ModelRunner.__init__`. -/
protected def init (zero : α) (config : ModelConfig) (poolSize : Int) : Except PyError (ModelRunner α) := do
  let allocator ← TokenPoolAllocator.init poolSize
  return {
    config
    pool := MHATokenPool.init zero poolSize.toNat config.numLayers
    radixCache := (RadixCache.init false .lru).setAllocator allocator
    activeRequests := ∅ }

/-- `self._allocator.alloc(n)`. -/
def alloc (r : ModelRunner α) (n : Int) : Option (ModelRunner α × Except PyError (List Slot)) := do
  let allocator ← r.radixCache.allocator
  match allocator.alloc n with
  | .error e => return (r, .error e)
  | .ok (allocator, slots) =>
    return ({ r with radixCache := r.radixCache.setAllocator allocator }, .ok slots)

/-- Step 2 of `forward_prefill`: a full cache hit reprocesses the last token for
    its logits, anything else allocates slots for the tokens that are missing. -/
def planPrefill (r : ModelRunner α) (promptTokens : List Token) (prefixIndices : List Slot) :
    Option (ModelRunner α × Except PyError PrefillPlan) :=
  let prefixLen := prefixIndices.length
  if promptTokens.length ≤ prefixLen ∧ 0 < prefixLen then
    let prefixLen := prefixLen - 1
    some (r, .ok {
      prefixIndices := prefixIndices.take prefixLen
      newTokens := promptTokens.drop prefixLen
      newSlotIndices := prefixIndices[prefixLen]?.toList })
  else do
    let newTokens := promptTokens.drop prefixLen
    let (r, slots) ← r.alloc newTokens.length
    return (r, slots.map fun newSlotIndices => { prefixIndices, newTokens, newSlotIndices })

/-- Process prompt tokens, reusing any cached prefix. -/
def forwardPrefill (model : Model α Λ) (r : ModelRunner α) (requestId : String) (promptTokens : List Token) :
    Option (ModelRunner α × Except PyError (RequestState × ForwardResult Λ)) := do
  -- 1. match prefix in radix cache
  let (radixCache, found) ← r.radixCache.matchPrefix promptTokens
  -- 2. slots for what is missing
  let (r, plan) ← ({ r with radixCache } : ModelRunner α).planPrefill promptTokens found.deviceIndices
  match plan with
  | .error e => return (r, .error e)
  | .ok plan =>
    -- 3. per-layer caches, 4. model forward
    let kvCaches := (List.range r.config.numLayers).map fun layerIdx =>
      PooledKVCache.setIndices { layerIdx } plan.prefixIndices plan.newSlotIndices
    let (pool, kvCaches, logits) := model plan.newTokens r.pool kvCaches
    let r := { r with pool }
    match logits with
    | .error e => return (r, .error e)
    | .ok logits =>
      -- 5. insert into radix cache
      let allSlotIndices := plan.prefixIndices ++ plan.newSlotIndices
      let (radixCache, _) ← r.radixCache.insert promptTokens (some allSlotIndices) 0
      -- 6. lock the node to prevent eviction during decoding
      let (radixCache, matchAfter) ← radixCache.matchPrefix promptTokens
      let radixNode := matchAfter.lastNode
      let (radixCache, _) ← radixCache.incLockRef radixNode
      -- 7. build state
      let state : RequestState := {
        requestId, promptTokens, outputTokens := [], allSlotIndices, radixNode
        prefixLen := plan.prefixIndices.length, kvCaches }
      let r := { r with radixCache, activeRequests := r.activeRequests.insert requestId state }
      return (r, (lastLogits logits).map fun logits => (state, { logits, forwardMode := .prefill }))

/-- Process one generated token and extend the KV cache. -/
def forwardDecode (model : Model α Λ) (r : ModelRunner α) (requestId : String) (tokenId : Token) :
    Option (ModelRunner α × Except PyError (ForwardResult Λ)) := do
  let state ← r.activeRequests.lookup requestId
  -- 1. allocate 1 new slot
  let (r, newSlot) ← r.alloc 1
  match newSlot with
  | .error e => return (r, .error e)
  | .ok newSlot =>
    -- 2. all existing slots become prefix, 3. model forward
    let kvCaches := state.kvCaches.map fun cache => cache.setIndices state.allSlotIndices newSlot
    let (pool, kvCaches, logits) := model [tokenId] r.pool kvCaches
    let r := { r with pool }
    let state := { state with kvCaches }
    match logits with
    | .error e => return ({ r with activeRequests := r.activeRequests.insert requestId state }, .error e)
    | .ok logits =>
      -- 4. update state
      let state := { state with
        outputTokens := state.outputTokens ++ [tokenId]
        allSlotIndices := state.allSlotIndices ++ newSlot }
      -- 5. insert into radix cache
      let (radixCache, _) ← r.radixCache.insert state.tokens (some state.allSlotIndices) 0
      let r := { r with radixCache, activeRequests := r.activeRequests.insert requestId state }
      return (r, (lastLogits logits).map fun logits => { logits, forwardMode := .decode })

/-- Release radix cache lock and clean up request state. -/
def finishRequest (r : ModelRunner α) (requestId : String) : Option (ModelRunner α) := do
  let state ← r.activeRequests.lookup requestId
  let (radixCache, _) ← r.radixCache.decLockRef state.radixNode
  return { r with radixCache, activeRequests := r.activeRequests.erase requestId }

/-- `sampler(result.logits)`, or the exception it raises. The callable may have a
    state, so it is also given the number of tokens it returned before. -/
abbrev Sampler (Λ : Type) := Nat → Λ → Except PyError Token

/-- The loop of `generate`, with the iterations that are left. -/
def generateLoop (model : Model α Λ) (sampler : Sampler Λ) (stopTokens : Finset Token) (requestId : String) :
    Nat → ModelRunner α → Λ → List Token → Option (ModelRunner α × Except PyError (List Token))
  | 0, r, _, generated => some (r, .ok generated)
  | n + 1, r, logits, generated =>
    match sampler generated.length logits with
    | .error e => some (r, .error e)
    | .ok token =>
      let generated := generated ++ [token]
      if token ∈ stopTokens then some (r, .ok generated)
      else do
        let (r, result) ← r.forwardDecode model requestId token
        match result with
        | .error e => return (r, .error e)
        | .ok result => generateLoop model sampler stopTokens requestId n r result.logits generated

/-- Prefill, then decode until a stop token or `max_tokens`. `requestId` is the
    `uuid.uuid4().hex` of the call. -/
def generate (model : Model α Λ) (r : ModelRunner α) (requestId : String) (promptTokens : List Token)
    (maxTokens : Int) (sampler : Sampler Λ) (stopTokens : Finset Token) :
    Option (ModelRunner α × Except PyError (List Token)) := do
  let (r, result) ← r.forwardPrefill model requestId promptTokens
  match result with
  | .error e => return (r, .error e)
  | .ok (_, result) =>
    let (r, generated) ← generateLoop model sampler stopTokens requestId maxTokens.toNat r result.logits []
    match generated with
    | .error e => return (r, .error e)
    | .ok generated =>
      let r ← r.finishRequest requestId
      return (r, .ok generated)

/-! ## Runs -/

/-- What a user of the runner and of its cache may call. -/
inductive Call where
  | prefill (requestId : String) (promptTokens : List Token)
  | decode (requestId : String) (tokenId : Token)
  | finish (requestId : String)
  | evict (tie : TieBreak) (numTokens : Int)

/-- The runner after a call, with the logits the call returns or what it raises. -/
def exec (model : Model α Λ) (now : Clock) (r : ModelRunner α) :
    Call → Option (ModelRunner α × Except PyError (Option Λ))
  | .prefill requestId promptTokens =>
    (r.forwardPrefill model requestId promptTokens).map fun x => (x.1, x.2.map fun y => some y.2.logits)
  | .decode requestId tokenId =>
    (r.forwardDecode model requestId tokenId).map fun x => (x.1, x.2.map fun y => some y.logits)
  | .finish requestId => (r.finishRequest requestId).map fun r => (r, .ok none)
  | .evict tie numTokens => (r.radixCache.evict now tie numTokens).map fun x =>
    ({ r with radixCache := x.1 }, .ok none)

/-- Make the calls one after the other, whatever they raise; `none` when `ok`
    rejects one. -/
def run (model : Model α Λ) (now : Clock) (ok : ModelRunner α → Call → Except PyError (Option Λ) → Bool) :
    List Call → ModelRunner α → Option (ModelRunner α)
  | [], r => some r
  | call :: rest, r => (r.exec model now call).bind fun x =>
    if ok r call x.2 then run model now ok rest x.1 else none

/-- The runners reachable from `r₀` by calls of which `ok` approves, given the
    runner before the call and what the call returns or raises. -/
inductive Reaches (model : Model α Λ) (now : Clock)
    (ok : ModelRunner α → Call → Except PyError (Option Λ) → Prop) (r₀ : ModelRunner α) : ModelRunner α → Prop
  | refl : Reaches model now ok r₀ r₀
  | step {r r' : ModelRunner α} {call : Call} {res : Except PyError (Option Λ)} :
      Reaches model now ok r₀ r → r.exec model now call = some (r', res) → ok r call res →
      Reaches model now ok r₀ r'

theorem Reaches.mono {model : Model α Λ} {now : Clock}
    {ok ok' : ModelRunner α → Call → Except PyError (Option Λ) → Prop} {r₀ r : ModelRunner α}
    (hok : ∀ r call res, ok r call res → ok' r call res) (h : Reaches model now ok r₀ r) :
    Reaches model now ok' r₀ r := by
  induction h with
  | refl => exact .refl
  | step _ heq hc ih => exact .step ih heq (hok _ _ _ hc)

theorem Reaches.unrestricted {model : Model α Λ} {now : Clock}
    {ok : ModelRunner α → Call → Except PyError (Option Λ) → Prop} {r₀ r : ModelRunner α}
    (h : Reaches model now ok r₀ r) : Reaches model now (fun _ _ _ => True) r₀ r := h.mono fun _ _ _ _ => trivial

theorem Reaches.of_run {model : Model α Λ} {now : Clock} {r₀ : ModelRunner α}
    {ok : ModelRunner α → Call → Except PyError (Option Λ) → Bool} : ∀ (calls : List Call) {r r' : ModelRunner α},
    Reaches model now (fun r call res => ok r call res = true) r₀ r → r.run model now ok calls = some r' →
    Reaches model now (fun r call res => ok r call res = true) r₀ r' := by
  intro calls
  induction calls with
  | nil => intro r r' h heq; cases heq; exact h
  | cons call rest ih =>
    intro r r' h heq
    obtain ⟨⟨r₁, res⟩, h1, h2⟩ := Option.bind_eq_some_iff.mp heq
    split at h2
    · next hok => exact ih (.step h h1 hok) h2
    · cases h2

/-- A runner to evaluate: an executed run of a fresh runner. -/
theorem Reaches.of_init (zero : α) (config : ModelConfig) (poolSize : Int) (model : Model α Λ) (now : Clock)
    (ok : ModelRunner α → Call → Except PyError (Option Λ) → Bool) (calls : List Call) {P : ModelRunner α → Prop}
    [DecidablePred P]
    (h : ((ModelRunner.init zero config poolSize).toOption.any fun r =>
      (r.run model now ok calls).any fun r => decide (P r)) = true) :
    ∃ r₀ r, ModelRunner.init zero config poolSize = .ok r₀ ∧
      Reaches model now (fun r call res => ok r call res = true) r₀ r ∧ P r := by
  obtain ⟨r₀, h₀, h⟩ := (Option.any_eq_true _ _).mp h
  obtain ⟨r, hr, hp⟩ := (Option.any_eq_true _ _).mp h
  have hinit : ModelRunner.init zero config poolSize = .ok r₀ := by
    cases hi : ModelRunner.init zero config poolSize with
    | error e => rw [hi] at h₀; cases h₀
    | ok r => rw [hi] at h₀; cases h₀; rfl
  exact ⟨r₀, r, hinit, .of_run calls .refl hr, of_decide_eq_true hp⟩

/-- The caches a call hands to the model, one for each layer. -/
def freshCaches (layers : List Nat) (pre new : List Slot) : List PooledKVCache :=
  layers.map fun layerIdx => { layerIdx, prefixIndices := pre, newIndices := new }

/-- The free list of `self._allocator`. -/
def freeSlots (r : ModelRunner α) : List Slot := r.radixCache.freeList

/-- Evict only while no request is active. -/
def evictsIdle (r : ModelRunner α) : Call → Bool
  | .evict _ _ => r.activeRequests.entries.isEmpty
  | _ => true

theorem lookup_of_idle {r : ModelRunner α} (h : r.activeRequests.entries.isEmpty = true) (id : String) :
    r.activeRequests.lookup id = none := by
  rw [AList.lookup_eq_none, AList.mem_keys, AList.keys, List.isEmpty_iff.mp h]
  exact List.not_mem_nil

end ModelRunner

end SglangMlx
