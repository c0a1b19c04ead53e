import SglangMlx.RunnerStep
import SglangMlx.TokenLocks

/- What the calls of a runner do to its tree, its locks and its free list, in any
   run at all. `Sound` is the part of the invariant that no eviction can break: the
   tree is well formed under the locks of the active requests, and every request
   has one slot for each token. Under it no call meets a broken tree, and a call
   that computes tokens ends in one of three ways (`Ending`): without the slots it
   asks for, by an exception of the model, which then has cost it those slots, or
   with the request inserted. The last one returns `logits[0, -1, :]`, if the model
   was called on any token. -/
namespace SglangMlx

/-- The fields of a request that a forward step that raises leaves alone. -/
def RequestState.record (s : RequestState) : RequestState := { s with kvCaches := [] }

namespace ModelRunner
variable {α Λ : Type}

/-- The tree, the locks and the lengths of the requests. -/
structure Sound (r : ModelRunner α) (T : Tree) (orphans : List NodeId) : Prop where
  wf : r.radixCache.Wf T (orphans ++ heldLocks r.activeRequests)
  allocator : ∃ a, r.radixCache.allocator = some a
  slots : ∀ id st, r.activeRequests.lookup id = some st → st.allSlotIndices.length = st.tokens.length

/-- The active requests are the same, up to what their caches point at. -/
def SameRequests (r r' : ModelRunner α) : Prop := ∀ id,
  (r'.activeRequests.lookup id).map RequestState.record = (r.activeRequests.lookup id).map RequestState.record

/-- `r'` has handed out the last `missing` of the free slots of `r`. -/
structure Takes (r : ModelRunner α) (missing : Nat) (r' : ModelRunner α) : Prop where
  room : missing ≤ r.freeSlots.length
  free : r'.freeSlots = r.freeSlots.take (r.freeSlots.length - missing)

theorem Takes.length {r r' : ModelRunner α} {missing : Nat} (h : r.Takes missing r') :
    r'.freeSlots.length + missing = r.freeSlots.length := by
  rw [h.free, List.length_take, min_eq_left (Nat.sub_le _ _), Nat.sub_add_cancel h.room]

/-- How a call ends that asks for `missing` slots for request `id`, and calls the model
    on `newTokens`: the slots `pre` hold the tokens before these, and `new` is for them. -/
inductive Ending (model : Model α Λ) (r : ModelRunner α) (T : Tree) (orphans orphans' : List NodeId) (id : String)
    (newTokens : List Token) (layers : List Nat) (pre new : List Slot) (missing : Nat) :
    ModelRunner α → Except PyError (Option Λ) → Prop
  | starved {c : RadixCache} {T' : Tree} {msg : String} : Sound { r with radixCache := c } T' orphans →
      RadixCache.Retains T T' → (∀ q, T'.Pos q ↔ T.Pos q) → c.allocator = r.radixCache.allocator →
      r.freeSlots.length < missing →
      Ending model r T orphans orphans' id newTokens layers pre new missing { r with radixCache := c }
        (.error (.memoryError msg))
  | raised {r' : ModelRunner α} {T' : Tree} {e : PyError} : r'.Sound T' orphans → RadixCache.Retains T T' →
      (∀ q, T'.Pos q ↔ T.Pos q) → r.Takes missing r' →
      (model newTokens r.pool (freshCaches layers pre new)).2.2 = .error e →
      r.SameRequests r' → (heldLocks r'.activeRequests).Perm (heldLocks r.activeRequests) →
      Ending model r T orphans orphans' id newTokens layers pre new missing r' (.error e)
  | served {r' : ModelRunner α} {T' : Tree} {st : RequestState} {logits : List Λ} : r'.Sound T' orphans' →
      RadixCache.Retains T T' → r.Takes missing r' →
      model newTokens r.pool (freshCaches layers pre new) = (r'.pool, st.kvCaches, .ok logits) →
      st.allSlotIndices = pre ++ new → r'.activeRequests = r.activeRequests.insert id st →
      Ending model r T orphans orphans' id newTokens layers pre new missing r' ((lastLogits logits).map some)

theorem SameRequests.refl (r : ModelRunner α) : r.SameRequests r := fun _ => rfl

theorem Sound.init {zero : α} {config : ModelConfig} {poolSize : Int} {r : ModelRunner α}
    (h : ModelRunner.init zero config poolSize = .ok r) : r.Sound RadixCache.rootTree [] := by
  obtain ⟨hinv, _, hactive, _, _⟩ := inv_init h
  refine ⟨hinv.wf, hinv.allocator, fun id st hl => ?_⟩
  rw [hactive] at hl
  cases hl

theorem Inv.sound {r : ModelRunner α} {T : Tree} {orphans : List NodeId} {own : Slot → List Token}
    (h : r.Inv T orphans own) : r.Sound T orphans :=
  ⟨h.wf, h.allocator, fun id st hl => (h.ledger.claimed_own _ _ ⟨id, st, hl, rfl, rfl⟩).1⟩

/-- The slots of a prefill whose prompt has `cached` stored for its start: those that
    it reuses, and those that it fills. -/
def prefillSlots (r : ModelRunner α) (promptTokens : List Token) (cached : List Slot) : List Slot × List Slot :=
  if promptTokens.length ≤ cached.length ∧ 0 < cached.length then
    (cached.take (cached.length - 1), cached[cached.length - 1]?.toList)
  else (cached, r.freeSlots.drop (r.freeSlots.length - (promptTokens.length - cached.length)))

theorem prefillSlots_lt (r : ModelRunner α) {promptTokens : List Token} {cached pre new : List Slot}
    (hlen : cached.length ≤ promptTokens.length) (hne : promptTokens ≠ [])
    (hslots : r.prefillSlots promptTokens cached = (pre, new)) : pre.length < promptTokens.length := by
  have hpos := List.length_pos_of_ne_nil hne
  unfold prefillSlots at hslots
  by_cases hfull : promptTokens.length ≤ cached.length ∧ 0 < cached.length
  · rw [if_pos hfull] at hslots
    cases hslots
    rw [List.length_take]
    omega
  · rw [if_neg hfull] at hslots
    cases hslots
    omega

theorem prefillSlots_length (r : ModelRunner α) {promptTokens : List Token} {cached pre new : List Slot}
    (hlen : cached.length ≤ promptTokens.length)
    (hroom : promptTokens.length - cached.length ≤ r.freeSlots.length)
    (hslots : r.prefillSlots promptTokens cached = (pre, new)) : (pre ++ new).length = promptTokens.length := by
  unfold prefillSlots at hslots
  by_cases hfull : promptTokens.length ≤ cached.length ∧ 0 < cached.length
  · rw [if_pos hfull] at hslots
    cases hslots
    rw [← List.take_add_one, Nat.sub_add_cancel hfull.2, List.take_length]
    exact Nat.le_antisymm hlen hfull.1
  · rw [if_neg hfull] at hslots
    cases hslots
    rw [List.length_append, List.length_drop]
    omega

theorem prefillSlots_nil (r : ModelRunner α) {promptTokens : List Token} {cached pre new : List Slot}
    (hnil : promptTokens = []) (hlen : cached.length ≤ promptTokens.length)
    (hslots : r.prefillSlots promptTokens cached = (pre, new)) : pre = [] ∧ new = [] := by
  obtain rfl : cached = [] := List.length_eq_zero_iff.mp (Nat.le_zero.mp (by rwa [hnil] at hlen))
  rw [hnil, prefillSlots, if_neg (fun h => absurd h.2 (Nat.lt_irrefl 0))] at hslots
  cases hslots
  exact ⟨rfl, List.drop_length⟩

theorem alloc_takes {a a' : TokenPoolAllocator} {n : Nat} {new : List Slot} (h : a.alloc n = .ok (a', new)) :
    n ≤ a.freeSlots.length ∧ a'.freeSlots = a.freeSlots.take (a.freeSlots.length - n) ∧
      new = a.freeSlots.drop (a.freeSlots.length - n) := by
  obtain ⟨hsplit, _, hnew⟩ := TokenPoolAllocator.alloc_ok h
  rw [Int.toNat_natCast] at hnew
  have hlen : a.freeSlots.length - n = a'.freeSlots.length := by
    rw [hsplit, List.length_append, hnew, Nat.add_sub_cancel]
  rw [hlen, hsplit]
  refine ⟨?_, List.take_left.symm, List.drop_left.symm⟩
  rw [List.length_append, hnew]
  exact Nat.le_add_left _ _

/-- Step 2 of a prefill asks for a slot for every token that is not stored. -/
theorem planPrefill_cases {r : ModelRunner α} {a : TokenPoolAllocator} (ha : r.radixCache.allocator = some a)
    {promptTokens : List Token} {cached : List Slot} (hlen : cached.length ≤ promptTokens.length) :
    (∃ msg, r.planPrefill promptTokens cached = some (r, .error (.memoryError msg)) ∧
      a.freeSlots.length < promptTokens.length - cached.length) ∨
    ∃ a' plan, r.planPrefill promptTokens cached =
        some ({ r with radixCache := r.radixCache.setAllocator a' }, .ok plan) ∧
      promptTokens.length - cached.length ≤ a.freeSlots.length ∧
      a'.freeSlots = a.freeSlots.take (a.freeSlots.length - (promptTokens.length - cached.length)) ∧
      (plan.prefixIndices, plan.newSlotIndices) = r.prefillSlots promptTokens cached ∧
      plan.newTokens = promptTokens.drop plan.prefixIndices.length ∧
      (plan.prefixIndices ++ plan.newSlotIndices).length = promptTokens.length := by
  unfold planPrefill prefillSlots
  by_cases hfull : promptTokens.length ≤ cached.length ∧ 0 < cached.length
  · simp only [hfull, and_self, if_true]
    have hsame : r.radixCache.setAllocator a = r.radixCache := by
      unfold RadixCache.setAllocator
      rw [← ha]
    have hzero : promptTokens.length - cached.length = 0 := Nat.sub_eq_zero_of_le hfull.1
    refine Or.inr ⟨a, _, by rw [hsame], hzero.le.trans (Nat.zero_le _), ?_, rfl, ?_, ?_⟩
    · rw [hzero, Nat.sub_zero, List.take_length]
    · rw [List.length_take, min_eq_left (Nat.sub_le _ _)]
    · rw [← List.take_add_one, Nat.sub_add_cancel hfull.2, List.take_length]
      exact Nat.le_antisymm hlen hfull.1
  · simp only [hfull, if_false, alloc_eq ha, Option.bind_eq_bind, Option.bind_some, freeSlots_eq ha]
    cases hal : a.alloc ((promptTokens.drop cached.length).length : Nat) with
    | error e =>
      obtain ⟨hlt, rfl⟩ := TokenPoolAllocator.alloc_error hal
      rw [List.length_drop] at hlt
      exact Or.inl ⟨_, rfl, by omega⟩
    | ok x =>
      obtain ⟨a', new⟩ := x
      obtain ⟨hroom, hkept, hnew⟩ := alloc_takes hal
      rw [List.length_drop] at hroom hkept hnew
      refine Or.inr ⟨a', _, rfl, hroom, hkept, by rw [hnew], rfl, ?_⟩
      show (cached ++ new).length = promptTokens.length
      rw [List.length_append, hnew, List.length_drop]
      omega

theorem Sound.slots_insert {r : ModelRunner α} {T : Tree} {orphans : List NodeId} (h : r.Sound T orphans)
    {id : String} {st : RequestState} (hst : st.allSlotIndices.length = st.tokens.length) :
    ∀ id' st', (r.activeRequests.insert id st).lookup id' = some st' → st'.allSlotIndices.length =
      st'.tokens.length := by
  intro id' st' hl
  rcases lookup_insert_cases hl with ⟨_, rfl⟩ | ⟨_, hl⟩
  · exact hst
  · exact h.slots id' st' hl

/-- A prefill asks for the tokens beyond the longest stored prefix. It leaves the
    requests alone when the model raises. -/
theorem Sound.prefill {r : ModelRunner α} {T : Tree} {orphans : List NodeId} (h : r.Sound T orphans)
    (model : Model α Λ) (id : String) {promptTokens : List Token} {q : List (Token × Slot)}
    (hq : T.Longest promptTokens q) {pre new : List Slot}
    (hslots : r.prefillSlots promptTokens (q.map Prod.snd) = (pre, new)) :
    ∃ r' res, r.forwardPrefill model id promptTokens = some (r', res) ∧
      Ending model r T orphans (r.abandoned id ++ orphans) id (promptTokens.drop pre.length)
        (List.range r.config.numLayers) pre new (promptTokens.length - q.length) r'
        (res.map fun x => some x.2.logits) ∧
      ∀ e, (model (promptTokens.drop pre.length) r.pool
          (freshCaches (List.range r.config.numLayers) pre new)).2.2 = .error e →
        r'.activeRequests = r.activeRequests := by
  obtain ⟨a, ha⟩ := h.allocator
  obtain ⟨c₁, T₁, found, q₁, heq₁, hw₁, href, hq₁, hres, _, _⟩ := h.wf.matchPrefix promptTokens
  cases hq₁.unique hq
  have ha₁ : c₁.allocator = some a := href.allocator.trans ha
  have hret := href.retains
  have hlen : (q.map Prod.snd).length ≤ promptTokens.length := by
    rw [List.length_map]
    exact hq.length_le
  have hsame : freeSlots { r with radixCache := c₁ } = r.freeSlots :=
    (freeSlots_eq ha₁).trans (freeSlots_eq ha).symm
  rcases planPrefill_cases (r := { r with radixCache := c₁ }) ha₁ hlen with
    ⟨msg, hplan, hlt⟩ | ⟨a', plan, hplan, hroom, hkept, hpre, htokens, hall⟩
  · rw [← hres] at hplan
    rw [List.length_map, ← freeSlots_eq ha] at hlt
    have hsound : Sound { r with radixCache := c₁ } T₁ orphans := ⟨hw₁, ⟨a, ha₁⟩, h.slots⟩
    exact ⟨_, _, forwardPrefill_starved heq₁ hplan, .starved hsound hret href.pos href.allocator hlt,
      fun _ _ => rfl⟩
  · obtain ⟨rfl, rfl⟩ : plan.prefixIndices = pre ∧ plan.newSlotIndices = new := by
      rw [prefillSlots, hsame] at hpre
      exact Prod.mk.inj (hpre.trans hslots)
    rw [← hres] at hplan
    rw [List.length_map, ← freeSlots_eq ha] at hroom hkept
    have hw₂ : (c₁.setAllocator a').Wf T₁ (orphans ++ heldLocks r.activeRequests) := hw₁.setAllocator (some a')
    rcases hcall : model plan.newTokens r.pool
      (freshCaches (List.range r.config.numLayers) plan.prefixIndices plan.newSlotIndices) with ⟨pool,
        kvCaches, logits⟩
    rw [← htokens]
    cases logits with
    | error e =>
      exact ⟨_, _, forwardPrefill_raised heq₁ hplan hcall, .raised ⟨hw₂, ⟨a', rfl⟩, h.slots⟩ hret href.pos
        ⟨hroom, hkept⟩ (by rw [hcall]) (.refl r) (.refl _), fun _ _ => rfl⟩
    | ok logits =>
      obtain ⟨c₃, T₃, q₃, heq₃, hw₃, _, hgrown⟩ := hw₂.insert promptTokens
        (some (plan.prefixIndices ++ plan.newSlotIndices)) 0 hall
      obtain ⟨c₄, T₄, after, q₄, heq₄, hw₄, href₄, _, _, hmem, _⟩ := hw₃.matchPrefix promptTokens
      obtain ⟨c₅, heq₅, hw₅, hlock⟩ := hw₄.incLockRef hmem
      let st := RequestState.prefilled id promptTokens plan after.lastNode kvCaches
      let r' : ModelRunner α := { r with pool, radixCache := c₅, activeRequests := r.activeRequests.insert id st }
      have ha₅ : c₅.allocator = some a' := by
        rw [hlock.eq]
        exact href₄.allocator.trans hgrown.allocator
      have hst : st.allSlotIndices.length = st.tokens.length :=
        hall.trans (congrArg List.length (RequestState.prefilled_tokens ..).symm)
      have hsound : r'.Sound T₄ (r.abandoned id ++ orphans) :=
        ⟨hw₅.perm (r.locks_insert orphans id st), ⟨a', ha₅⟩, h.slots_insert hst⟩
      refine ⟨r', _, forwardPrefill_served heq₁ hplan hcall heq₃ heq₄ heq₅, ?_, fun e he => ?_⟩
      · rw [map_lastLogits]
        exact .served hsound (hret.trans (hgrown.retains.trans href₄.retains))
          ⟨hroom, (freeSlots_eq (r := r') ha₅).trans hkept⟩ hcall rfl rfl
      · rw [hcall] at he
        cases he

theorem Sound.decode {r : ModelRunner α} {T : Tree} {orphans : List NodeId} (h : r.Sound T orphans)
    (model : Model α Λ) {id : String} {st : RequestState} (hst : r.activeRequests.lookup id = some st)
    (tokenId : Token) :
    ∃ r' res, r.forwardDecode model id tokenId = some (r', res) ∧
      Ending model r T orphans orphans id [tokenId] (st.kvCaches.map PooledKVCache.layerIdx) st.allSlotIndices
        (r.freeSlots.drop (r.freeSlots.length - 1)) 1 r' (res.map fun x => some x.logits) := by
  obtain ⟨a, ha⟩ := h.allocator
  have hlen := h.slots id st hst
  cases hal : a.alloc 1 with
  | error e =>
    obtain ⟨hlt, he⟩ := TokenPoolAllocator.alloc_error hal
    obtain ⟨msg, rfl⟩ : ∃ msg, e = .memoryError msg := ⟨_, he⟩
    have hsound : Sound { r with radixCache := r.radixCache } T orphans := h
    refine ⟨_, _, forwardDecode_starved hst ha hal, .starved hsound (.refl T) (fun _ => Iff.rfl) rfl ?_⟩
    rw [freeSlots_eq ha]
    omega
  | ok x =>
    obtain ⟨a', new⟩ := x
    obtain ⟨hroom, hkept, hnew⟩ := alloc_takes (n := 1) hal
    rw [← freeSlots_eq ha] at hroom hkept hnew
    rw [← hnew]
    have hone : new.length = 1 := (TokenPoolAllocator.alloc_ok hal).2.2
    have hw₁ : (r.radixCache.setAllocator a').Wf T (orphans ++ heldLocks r.activeRequests) :=
      h.wf.setAllocator (some a')
    rcases hcall : model [tokenId] r.pool
      (freshCaches (st.kvCaches.map PooledKVCache.layerIdx) st.allSlotIndices new)
      with ⟨pool, kvCaches, logits⟩
    cases logits with
    | error e =>
      let st' : RequestState := { st with kvCaches }
      have hheld : (heldLocks (r.activeRequests.insert id st')).Perm (heldLocks r.activeRequests) :=
        heldLocks_update hst rfl
      refine ⟨_, _, forwardDecode_raised hst ha hal hcall,
        .raised ⟨hw₁.perm (hheld.append_left orphans), ⟨a', rfl⟩,
        h.slots_insert hlen⟩ (.refl T) (fun _ => Iff.rfl) ⟨hroom, hkept⟩ (by rw [hcall]) (fun id' => ?_) hheld⟩
      show ((r.activeRequests.insert id st').lookup id').map _ = _
      by_cases he : id' = id
      · rw [he, AList.lookup_insert, hst]
        rfl
      · rw [AList.lookup_insert_ne he]
    | ok logits =>
      let st' := st.decoded kvCaches tokenId new
      have htok : st'.tokens = st.tokens ++ [tokenId] := RequestState.decoded_tokens ..
      have hlen' : (st.allSlotIndices ++ new).length = (st.tokens ++ [tokenId]).length := by
        rw [List.length_append, List.length_append, hlen, hone, List.length_singleton]
      obtain ⟨c₂, T₂, q, heq₂, hw₂, _, hgrown⟩ := hw₁.insert (st.tokens ++ [tokenId])
        (some (st.allSlotIndices ++ new)) 0 hlen'
      have ha₂ : c₂.allocator = some a' := hgrown.allocator
      let r' : ModelRunner α :=
        { r with pool, radixCache := c₂, activeRequests := r.activeRequests.insert id st' }
      have hsound : r'.Sound T₂ orphans := ⟨hw₂.perm ((heldLocks_update hst rfl).append_left orphans), ⟨a', ha₂⟩,
        h.slots_insert (by rw [htok]; exact hlen')⟩
      refine ⟨r', _, forwardDecode_served hst ha hal hcall heq₂, ?_⟩
      rw [map_lastLogits]
      exact .served hsound hgrown.retains ⟨hroom, (freeSlots_eq (r := r') ha₂).trans hkept⟩ hcall rfl rfl

theorem Sound.finish {r : ModelRunner α} {T : Tree} {orphans : List NodeId} (h : r.Sound T orphans)
    {id : String} {st : RequestState} (hst : r.activeRequests.lookup id = some st) :
    ∃ r', r.finishRequest id = some r' ∧ r'.Sound T orphans ∧ r'.activeRequests = r.activeRequests.erase id ∧
      r'.freeSlots = r.freeSlots := by
  have hmem : st.radixNode ∈ orphans ++ heldLocks r.activeRequests := List.mem_append_right _ (mem_heldLocks hst)
  obtain ⟨c', heq, hw, hlock⟩ := h.wf.decLockRef hmem
  have hall : c'.allocator = r.radixCache.allocator := by rw [hlock.eq]; rfl
  refine ⟨{ r with radixCache := c', activeRequests := r.activeRequests.erase id }, ?_,
    ⟨hw.perm ?_, by rw [hall]; exact h.allocator, fun id' st' hl => h.slots id' st' (lookup_erase_cases hl).2⟩,
      rfl, ?_⟩
  · simp only [finishRequest, hst, Option.bind_eq_bind, Option.bind_some, heq]
    rfl
  · have h1 := List.perm_cons_erase hmem
    have h2 := ((heldLocks_erase hst).append_left orphans).trans List.perm_middle
    exact (h2.symm.trans h1).cons_inv
  · unfold freeSlots RadixCache.freeList
    rw [hall]

theorem Sound.evict {r : ModelRunner α} {T : Tree} {orphans : List NodeId} (h : r.Sound T orphans) (now : Clock)
    (tie : TieBreak) (numTokens : Int) :
    ∃ c' n T' xs, r.radixCache.evict now tie numTokens = some (c', n) ∧
      Sound { r with radixCache := c' } T' orphans ∧
      RadixCache.Shrunk xs r.radixCache.beginOp T c' T' ∧ c'.freeList = r.freeSlots ++ RadixCache.slotsOf T xs ∧
      (numTokens ≤ RadixCache.tokens T xs ∨ ∀ n, ¬RadixCache.Frontier c' T' n) := by
  obtain ⟨a, ha⟩ := h.allocator
  obtain ⟨c', T', xs, heq, hw, hev, hstop, _⟩ := h.wf.evict now tie numTokens
  have hsh := hev.shrunk
  have ha' : c'.allocator = r.radixCache.allocator.map fun a => a.free (RadixCache.slotsOf T xs) := by
    rw [hsh.eq]; rfl
  rw [ha] at ha'
  refine ⟨c', _, T', xs, heq, ⟨hw, ⟨_, ha'⟩, h.slots⟩, hsh, ?_, hstop⟩
  unfold freeSlots RadixCache.freeList
  rw [ha', ha]
  rfl

section
variable {model : Model α Λ} {r r' : ModelRunner α} {T : Tree} {orphans orphans' : List NodeId} {id : String}
  {newTokens : List Token} {layers : List Nat} {pre new : List Slot} {missing : Nat}

theorem Ending.sound {res : Except PyError (Option Λ)}
    (h : Ending model r T orphans orphans' id newTokens layers pre new missing r' res) :
    ∃ T' orphans', r'.Sound T' orphans' := by
  cases h with
  | starved h => exact ⟨_, _, h⟩
  | raised h => exact ⟨_, _, h⟩
  | served h => exact ⟨_, _, h⟩

end

theorem Sound.exec {r r' : ModelRunner α} {T : Tree} {orphans : List NodeId} (h : r.Sound T orphans)
    {model : Model α Λ} {now : Clock} {call : Call} {res : Except PyError (Option Λ)}
    (heq : r.exec model now call = some (r', res)) : ∃ T' orphans', r'.Sound T' orphans' := by
  cases call with
  | prefill id promptTokens =>
    obtain ⟨_, _, _, q, _, _, _, hq, _⟩ := h.wf.matchPrefix promptTokens
    obtain ⟨r₁, res₁, heq₁, hend, _⟩ := h.prefill model id hq rfl
    cases (exec_prefill heq₁).symm.trans heq
    exact hend.sound
  | decode id tokenId =>
    cases hst : r.activeRequests.lookup id with
    | none => simp [ModelRunner.exec, forwardDecode, hst] at heq
    | some st =>
      obtain ⟨r₁, res₁, heq₁, hend⟩ := h.decode model hst tokenId
      cases (exec_decode heq₁).symm.trans heq
      exact hend.sound
  | finish id =>
    cases hst : r.activeRequests.lookup id with
    | none => simp [ModelRunner.exec, finishRequest, hst] at heq
    | some st =>
      obtain ⟨r₁, heq₁, h', _⟩ := h.finish hst
      rw [ModelRunner.exec, heq₁] at heq
      cases heq
      exact ⟨_, _, h'⟩
  | evict tie numTokens =>
    obtain ⟨c', n, T', xs, heq₁, h', _⟩ := h.evict now tie numTokens
    rw [ModelRunner.exec, heq₁] at heq
    cases heq
    exact ⟨_, _, h'⟩

theorem Reaches.sound {zero : α} {config : ModelConfig} {poolSize : Int} {model : Model α Λ} {now : Clock}
    {ok : ModelRunner α → Call → Except PyError (Option Λ) → Prop} {r₀ r : ModelRunner α}
    (h₀ : ModelRunner.init zero config poolSize = .ok r₀) (hr : Reaches model now ok r₀ r) :
    ∃ T orphans, r.Sound T orphans := by
  induction hr with
  | refl => exact ⟨_, _, Sound.init h₀⟩
  | step _ heq _ ih =>
    obtain ⟨T, orphans, h⟩ := ih
    exact h.exec heq

end ModelRunner

end SglangMlx
