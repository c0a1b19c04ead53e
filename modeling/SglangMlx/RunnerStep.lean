import SglangMlx.RunnerInvariant
import SglangMlx.RunnerMethods

/- What each call does to a runner that satisfies the invariant. A prefill and a
   decode have one outcome type: both compute the keys and values of the tokens
   behind some slots `pre` into slots `new`, and insert the request into the tree.
   `Served` is what the later results read off: how free list, tree, requests and
   slot owners change.

   A prefill under an id that is active replaces its request, whose lock nobody
   releases any more; such locks are the `orphans`. -/
namespace SglangMlx

namespace ModelRunner
variable {α Λ : Type}

/-! ## The requests -/

/-- The nodes that the active requests lock. -/
def heldLocks (a : AList fun _ : String => RequestState) : List NodeId := a.entries.map fun e => e.2.radixNode

/-- The tokens and slots of the active requests. -/
def Claims (a : AList fun _ : String => RequestState) (tokens : List Token) (slots : List Slot) : Prop :=
  ∃ id st, a.lookup id = some st ∧ tokens = st.tokens ∧ slots = st.allSlotIndices

/-- The nodes that the active requests lock, with their prompts and the slots of these. -/
def Pins (a : AList fun _ : String => RequestState) (n : NodeId) (q : List (Token × Slot)) : Prop :=
  ∃ id st, a.lookup id = some st ∧ n = st.radixNode ∧
    q = st.promptTokens.zip (st.allSlotIndices.take st.promptTokens.length)

theorem heldLocks_insert (a : AList fun _ : String => RequestState) (id : String) (st : RequestState) :
    heldLocks (a.insert id st) = st.radixNode :: heldLocks (a.erase id) := rfl

theorem heldLocks_erase {a : AList fun _ : String => RequestState} {id : String} {st : RequestState}
    (h : a.lookup id = some st) : (heldLocks a).Perm (st.radixNode :: heldLocks (a.erase id)) := by
  have hmem : id ∈ a := AList.lookup_isSome.mp (by rw [h]; rfl)
  obtain ⟨st', l, l', hl, hl', he⟩ := List.exists_of_kerase (AList.mem_keys.mp hmem)
  have hst : st' = st := by
    have := AList.mem_lookup_iff.mpr (show (⟨id, st'⟩ : Sigma _) ∈ a.entries by rw [hl']; simp)
    exact Option.some.inj (this.symm.trans h)
  have herase : (a.erase id).entries = l ++ l' := he
  unfold heldLocks
  rw [hl', herase, hst, List.map_append, List.map_cons, List.map_append]
  exact List.perm_middle

theorem heldLocks_erase_of_none {a : AList fun _ : String => RequestState} {id : String}
    (h : a.lookup id = none) : heldLocks (a.erase id) = heldLocks a := by
  have : (a.erase id).entries = a.entries := List.kerase_of_notMem_keys (AList.lookup_eq_none.mp h)
  unfold heldLocks
  rw [this]

theorem mem_heldLocks {a : AList fun _ : String => RequestState} {id : String} {st : RequestState}
    (h : a.lookup id = some st) : st.radixNode ∈ heldLocks a :=
  List.mem_map.mpr ⟨⟨id, st⟩, AList.mem_lookup_iff.mp h, rfl⟩

theorem lookup_insert_cases {a : AList fun _ : String => RequestState} {id id' : String} {st st' : RequestState}
    (h : (a.insert id st).lookup id' = some st') :
    (id' = id ∧ st' = st) ∨ (id' ≠ id ∧ a.lookup id' = some st') := by
  by_cases he : id' = id
  · rw [he, AList.lookup_insert] at h
    exact Or.inl ⟨he, (Option.some.inj h).symm⟩
  · rw [AList.lookup_insert_ne he] at h
    exact Or.inr ⟨he, h⟩

theorem lookup_erase_cases {a : AList fun _ : String => RequestState} {id id' : String} {st' : RequestState}
    (h : (a.erase id).lookup id' = some st') : id' ≠ id ∧ a.lookup id' = some st' := by
  by_cases he : id' = id
  · rw [he, AList.lookup_erase] at h
    cases h
  · rw [AList.lookup_erase_ne he] at h
    exact ⟨he, h⟩

/-- The lock that a prefill under `id` leaves without an owner. -/
def abandoned (r : ModelRunner α) (id : String) : List NodeId :=
  (r.activeRequests.lookup id).toList.map RequestState.radixNode

theorem locks_insert (r : ModelRunner α) (orphans : List NodeId) (id : String) (st : RequestState) :
    ((r.abandoned id ++ orphans) ++ heldLocks (r.activeRequests.insert id st)).Perm
      (st.radixNode :: (orphans ++ heldLocks r.activeRequests)) := by
  rw [heldLocks_insert, abandoned]
  refine List.perm_middle.trans (List.Perm.cons _ ?_)
  cases hl : r.activeRequests.lookup id with
  | none =>
    rw [heldLocks_erase_of_none hl]
    exact List.Perm.refl _
  | some old => exact (List.perm_middle.symm).trans ((heldLocks_erase hl).symm.append_left orphans)

theorem Claims.of_insert {a : AList fun _ : String => RequestState} {id : String} {st : RequestState}
    {tokens : List Token} {slots : List Slot} (h : Claims (a.insert id st) tokens slots) :
    Claims a tokens slots ∨ (tokens = st.tokens ∧ slots = st.allSlotIndices) := by
  obtain ⟨id', st', hl, hk, hv⟩ := h
  rcases lookup_insert_cases hl with ⟨_, rfl⟩ | ⟨_, hl⟩
  · exact Or.inr ⟨hk, hv⟩
  · exact Or.inl ⟨id', st', hl, hk, hv⟩

theorem Pins.of_insert {a : AList fun _ : String => RequestState} {id : String} {st : RequestState}
    {n : NodeId} {q : List (Token × Slot)} (h : Pins (a.insert id st) n q) :
    Pins a n q ∨ (n = st.radixNode ∧
      q = st.promptTokens.zip (st.allSlotIndices.take st.promptTokens.length)) := by
  obtain ⟨id', st', hl, hn, hq⟩ := h
  rcases lookup_insert_cases hl with ⟨_, rfl⟩ | ⟨_, hl⟩
  · exact Or.inr ⟨hn, hq⟩
  · exact Or.inl ⟨id', st', hl, hn, hq⟩

theorem heldLocks_update {a : AList fun _ : String => RequestState} {id : String} {st st' : RequestState}
    (h : a.lookup id = some st) (hn : st'.radixNode = st.radixNode) :
    (heldLocks (a.insert id st')).Perm (heldLocks a) := by
  rw [heldLocks_insert, hn]
  exact (heldLocks_erase h).symm

theorem Pins.of_update {a : AList fun _ : String => RequestState} {id : String}
    {st st' : RequestState} {n : NodeId}
    {q : List (Token × Slot)} (h : Pins (a.insert id st') n q) (hst : a.lookup id = some st)
    (hn : st'.radixNode = st.radixNode) (hprompt : st'.promptTokens = st.promptTokens)
    (hslots : st'.allSlotIndices.take st.promptTokens.length = st.allSlotIndices.take st.promptTokens.length) :
    Pins a n q := by
  rcases h.of_insert with h | ⟨rfl, rfl⟩
  · exact h
  · exact ⟨id, st, hst, hn, by rw [hprompt, hslots]⟩

/-! ## The invariant -/

/-- The cache is ready with the active requests as claims; beside their locks
    there are `orphans`. -/
def Inv (r : ModelRunner α) (T : Tree) (orphans : List NodeId) (own : Slot → List Token) : Prop :=
  Ready r.radixCache T (orphans ++ heldLocks r.activeRequests) (Claims r.activeRequests)
    (Pins r.activeRequests) own

theorem inv_init {zero : α} {config : ModelConfig} {poolSize : Int} {r : ModelRunner α}
    (h : ModelRunner.init zero config poolSize = .ok r) :
    r.Inv RadixCache.rootTree [] (fun _ => []) ∧ r.config = config ∧ r.activeRequests = ∅ ∧
      0 < poolSize ∧ r.freeSlots = TokenPoolAllocator.allSlots poolSize.toNat := by
  unfold ModelRunner.init TokenPoolAllocator.init at h
  split at h
  · cases h
  · next hp =>
    cases h
    have hstored : RadixCache.rootTree.stored = 0 := by simp [PrefixTree.stored, RadixCache.rootTree]
    have hnone : ∀ k v, ¬Claims ∅ k v := by
      rintro k v ⟨id, st, hl, _⟩
      simp at hl
    refine ⟨⟨(RadixCache.wf_init .lru).setAllocator _, ⟨_, rfl⟩,
      ⟨TokenPoolAllocator.allSlots_nodup _, fun s _ => ?_,
      fun s _ k v hc => absurd hc (hnone k v), ?_, fun key s hl => ?_, fun k v hc => absurd hc (hnone k v)⟩,
      fun n q hpin => ?_⟩, rfl, rfl, by omega, rfl⟩
    · rw [hstored]; exact Multiset.notMem_zero s
    · rw [hstored]; exact Multiset.nodup_zero
    · have := PrefixTree.Labels.stored hl
      rw [hstored] at this
      exact absurd this (Multiset.notMem_zero s)
    · obtain ⟨id, st, hl, _⟩ := hpin
      simp at hl

/-! ## Planning a prefill -/

/-- A plan covers the prompt: its slots are claimed, those it reuses are stored. -/
structure Planned (r : ModelRunner α) (T : Tree) (locks : List NodeId) (claimed : List Token → List Slot → Prop)
    (pins : NodeId → List (Token × Slot) → Prop) (own : Slot → List Token) (promptTokens : List Token)
    (q : List (Token × Slot)) (plan : PrefillPlan) (r' : ModelRunner α) (own' : Slot → List Token) : Prop where
  ready : Ready r'.radixCache T locks
    (fun k v => claimed k v ∨ (k = promptTokens ∧ v = plan.prefixIndices ++ plan.newSlotIndices)) pins own'
  eq : r' = { r with radixCache := r'.radixCache }
  newTokens : plan.newTokens = promptTokens.drop plan.prefixIndices.length
  matched : q.map Prod.snd <+: plan.prefixIndices ++ plan.newSlotIndices
  progress : promptTokens ≠ [] → plan.newSlotIndices ≠ []
  own : ∀ s, s ∉ plan.newSlotIndices → own' s = own s
  pre : ∀ s ∈ plan.prefixIndices, s ∈ T.stored
  fresh : ∀ s ∈ plan.newSlotIndices, s ∈ T.stored ∨ s ∈ r.freeSlots
  free : ∀ s ∈ r.freeSlots, s ∈ r'.freeSlots ∨ s ∈ plan.newSlotIndices
  free_sub : ∀ s ∈ r'.freeSlots, s ∈ r.freeSlots

theorem planPrefill_spec {r : ModelRunner α} {T : Tree} {locks : List NodeId}
    {claimed : List Token → List Slot → Prop} {pins : NodeId → List (Token × Slot) → Prop}
    {own : Slot → List Token}
    (h : Ready r.radixCache T locks claimed pins own) {promptTokens : List Token} {q : List (Token × Slot)}
    (hq : T.Longest promptTokens q) :
    (∃ e, r.planPrefill promptTokens (q.map Prod.snd) = some (r, .error e) ∧
      r.freeSlots.length < promptTokens.length) ∨
    ∃ r' plan own', r.planPrefill promptTokens (q.map Prod.snd) = some (r', .ok plan) ∧
      Planned r T locks claimed pins own promptTokens q plan r' own' := by
  have hlen := hq.length_le
  have hstored : ∀ s ∈ q.map Prod.snd, s ∈ T.stored := fun s hs => by
    obtain ⟨i, hi⟩ := List.mem_iff_getElem?.mp hs
    exact PrefixTree.Labels.stored (hq.labels hi)
  unfold planPrefill
  by_cases hfull : promptTokens.length ≤ (q.map Prod.snd).length ∧ 0 < (q.map Prod.snd).length
  · -- a full hit: the last stored slot is the one to be rewritten
    simp only [hfull, and_self, if_true]
    have hall : (q.map Prod.snd).take ((q.map Prod.snd).length - 1) ++
        (q.map Prod.snd)[(q.map Prod.snd).length - 1]?.toList = q.map Prod.snd := by
      rw [← List.take_add_one, Nat.sub_add_cancel hfull.2, List.take_length]
    refine Or.inr ⟨r, _, own, rfl, ?_, rfl, ?_, by rw [hall], fun _ => ?_, fun _ _ => rfl, fun s hs => ?_,
      fun s hs => ?_, fun s hs => Or.inl hs, fun s hs => hs⟩
    · rw [hall]
      exact h.claimStored hq (by rw [List.length_map] at hfull; omega)
    · rw [List.length_take, min_eq_left (Nat.sub_le _ _)]
    · rw [List.getElem?_eq_getElem (Nat.sub_lt hfull.2 Nat.one_pos)]
      exact List.cons_ne_nil _ _
    · exact hstored s (List.mem_of_mem_take hs)
    · exact Or.inl (hstored s (List.mem_of_getElem? (Option.mem_toList.mp hs)))
  · obtain ⟨a, ha⟩ := h.allocator
    have hfree : r.freeSlots = a.freeSlots := by unfold freeSlots RadixCache.freeList; rw [ha]; rfl
    have hbase : ∀ i s, (q.map Prod.snd)[i]? = some s → own s = promptTokens.take (i + 1) := fun i s hs =>
      h.ledger.stored_own _ _ (hq.labels hs)
    simp only [hfull, if_false, alloc_eq ha, Option.bind_eq_bind, Option.bind_some]
    cases hal : a.alloc ((promptTokens.drop (q.map Prod.snd).length).length : Nat) with
    | error e =>
      refine Or.inl ⟨e, rfl, ?_⟩
      have := (TokenPoolAllocator.alloc_error hal).1
      rw [hfree]
      rw [List.length_drop] at this
      omega
    | ok x =>
      obtain ⟨a', new⟩ := x
      have hnew := (TokenPoolAllocator.alloc_ok hal).2.2
      rw [List.length_drop, List.length_map, Int.toNat_natCast] at hnew
      obtain ⟨own', hown, h', hsplit⟩ := h.alloc ha hal (by rw [List.length_map]; omega) hbase
        (fun s hs hm => h.ledger.free_stored s hm (hstored s hs))
      have hsplit : r.freeSlots = (r.radixCache.setAllocator a').freeList ++ new := hsplit
      refine Or.inr ⟨_, _, own', rfl, ⟨h', rfl, rfl, List.prefix_append _ _, fun hne => ?_, hown, hstored,
        fun s hs => ?_, fun s hs => ?_, fun s hs => ?_⟩⟩
      · have hpos := List.length_pos_of_ne_nil hne
        rw [List.length_map] at hfull
        have : 0 < new.length := by omega
        exact List.ne_nil_of_length_pos this
      · exact Or.inr (hsplit ▸ List.mem_append_right _ hs)
      · exact List.mem_append.mp (hsplit ▸ hs)
      · exact hsplit ▸ List.mem_append_left _ hs

/-! ## Prefill and decode -/

/-- The slots of a call that computes `tokens` for request `id`: `pre` holds the
    start of them already, `new` is for the rest. -/
structure Slotted (r : ModelRunner α) (T : Tree) (own : Slot → List Token) (id : String) (tokens : List Token)
    (pre new : List Slot) (own' : Slot → List Token) : Prop where
  length : (pre ++ new).length = tokens.length
  progress : tokens ≠ [] → new ≠ []
  owners : ∀ i s, (pre ++ new)[i]? = some s → own' s = tokens.take (i + 1)
  own : ∀ s, s ∉ new → own' s = own s
  pre : ∀ s ∈ pre, s ∈ T.stored ∨ ∃ old, r.activeRequests.lookup id = some old ∧ s ∈ old.allSlotIndices

/-- What a call changes that gives request `id` the state `st`. -/
structure Served (r : ModelRunner α) (T : Tree) (id : String) (st : RequestState) (pre new : List Slot)
    (r' : ModelRunner α) (T' : Tree) : Prop where
  slots : st.allSlotIndices = pre ++ new
  active : r'.activeRequests = r.activeRequests.insert id st
  config : r'.config = r.config
  fresh : ∀ s ∈ new, s ∈ T.stored ∨ s ∈ r.freeSlots
  free : ∀ s ∈ r.freeSlots, s ∈ r'.freeSlots ∨ s ∈ new
  free_sub : ∀ s ∈ r'.freeSlots, s ∈ r.freeSlots
  tree : Extends T T' st.tokens st.allSlotIndices

/-- How a call ends that computes `tokens` for request `id`: without free slots,
    by an exception of the model, or with the tokens inserted and `logits[0, -1, :]`. -/
inductive Outcome (model : Model α Λ) (r : ModelRunner α) (T : Tree) (orphans orphans' : List NodeId)
    (own : Slot → List Token) (id : String) (tokens : List Token) (layers : List Nat) :
    ModelRunner α → Except PyError (Option Λ) → Prop
  | starved {r' : ModelRunner α} {T' : Tree} {e : PyError} : r'.Inv T' orphans own → T'.stored = T.stored →
      r' = { r with radixCache := r'.radixCache } → r.freeSlots.length < tokens.length →
      Outcome model r T orphans orphans' own id tokens layers r' (.error e)
  | raised {r' : ModelRunner α} {T' : Tree} {own' : Slot → List Token} {pre new : List Slot} {e : PyError} :
      Slotted r T own id tokens pre new own' →
      (model (tokens.drop pre.length) r.pool (freshCaches layers pre new)).2.2 = .error e →
      r'.Inv T' orphans own' → Outcome model r T orphans orphans' own id tokens layers r' (.error e)
  | served {r' : ModelRunner α} {T' : Tree} {own' : Slot → List Token} {pre new : List Slot} {st : RequestState}
      {logits : List Λ} : Slotted r T own id tokens pre new own' →
      model (tokens.drop pre.length) r.pool (freshCaches layers pre new) = (r'.pool, st.kvCaches, .ok logits) →
      st.tokens = tokens → Served r T id st pre new r' T' → r'.Inv T' orphans' own' →
      Outcome model r T orphans orphans' own id tokens layers r' ((lastLogits logits).map some)

theorem exec_prefill {model : Model α Λ} {now : Clock} {r r' : ModelRunner α} {id : String}
    {promptTokens : List Token} {res : Except PyError (RequestState × ForwardResult Λ)}
    (heq : r.forwardPrefill model id promptTokens = some (r', res)) :
    r.exec model now (.prefill id promptTokens) = some (r', res.map fun x => some x.2.logits) := by
  rw [exec, heq, Option.map_some]

theorem exec_decode {model : Model α Λ} {now : Clock} {r r' : ModelRunner α} {id : String} {tokenId : Token}
    {res : Except PyError (ForwardResult Λ)} (heq : r.forwardDecode model id tokenId = some (r', res)) :
    r.exec model now (.decode id tokenId) = some (r', res.map fun x => some x.logits) := by
  rw [exec, heq, Option.map_some]

/-- A prefill never meets a broken tree, and ends in one of the three ways. -/
theorem Inv.prefill {r : ModelRunner α} {T : Tree} {orphans : List NodeId} {own : Slot → List Token}
    (h : r.Inv T orphans own) (model : Model α Λ) (now : Clock) (id : String) (promptTokens : List Token) :
    ∃ r' res, r.exec model now (.prefill id promptTokens) = some (r', res) ∧
      Outcome model r T orphans (r.abandoned id ++ orphans) own id promptTokens (List.range r.config.numLayers)
        r' res := by
  obtain ⟨c₁, T₁, found, q, heq₁, h₁, ha₁, hpos₁, hst₁, hq₁, hres, _, _⟩ := Ready.matchPrefix h promptTokens
  have hfree₁ : c₁.freeList = r.freeSlots := by unfold freeSlots RadixCache.freeList; rw [ha₁]
  rcases planPrefill_spec (r := { r with radixCache := c₁ }) h₁ hq₁ with ⟨e, hp, hlt⟩ | ⟨r₂, plan,
    own', hp, hplan⟩
  · have hlt : c₁.freeList.length < promptTokens.length := hlt
    rw [← hres] at hp
    exact ⟨_, _, exec_prefill (forwardPrefill_starved heq₁ hp),
      .starved h₁ hst₁ rfl (by rw [← hfree₁]; exact hlt)⟩
  · obtain ⟨c₂, rfl⟩ : ∃ c₂, r₂ = { r with radixCache := c₂ } := ⟨_, hplan.eq⟩
    rw [← hres] at hp
    have h₂ := hplan.ready
    have hclaim := h₂.ledger.claimed_own _ _ (Or.inr ⟨rfl, rfl⟩)
    have hslot : Slotted r T own id promptTokens plan.prefixIndices plan.newSlotIndices own' :=
      ⟨hclaim.1, hplan.progress, hclaim.2, hplan.own, fun s hs => Or.inl (hst₁ ▸ hplan.pre s hs)⟩
    rcases hcall : model plan.newTokens r.pool
      (freshCaches (List.range r.config.numLayers) plan.prefixIndices plan.newSlotIndices) with ⟨pool,
        kvCaches, logits⟩
    have hcall' := hplan.newTokens ▸ hcall
    cases logits with
    | error e =>
      have hinv : Inv { r with pool, radixCache := c₂ } T₁ orphans own' :=
        h₂.mono (List.Perm.refl _) (fun k v hc => Or.inl hc) fun n q hp => hp
      exact ⟨_, _, exec_prefill (forwardPrefill_raised heq₁ hp hcall), .raised hslot (by rw [hcall']) hinv⟩
    | ok logits =>
      obtain ⟨c₃, k, c₄, after, c₅, delta, T₅, heq₃, heq₄, heq₅, h₅, ha₅, hext⟩ :=
        h₂.insertLocked (Or.inr ⟨rfl, rfl⟩) hq₁ hplan.matched
      have hfree₅ : c₅.freeList = c₂.freeList := by unfold RadixCache.freeList; rw [ha₅]
      let st := RequestState.prefilled id promptTokens plan after.lastNode kvCaches
      let r' : ModelRunner α := { r with pool, radixCache := c₅, activeRequests := r.activeRequests.insert id st }
      have htok : st.tokens = promptTokens := RequestState.prefilled_tokens ..
      have hserved : Served r T id st plan.prefixIndices plan.newSlotIndices r' T₅ := by
        refine ⟨rfl, rfl, rfl, fun s hs => ?_, fun s hs => ?_, fun s hs => ?_, ?_⟩
        · exact (hplan.fresh s hs).imp (fun h => hst₁ ▸ h) (hfree₁ ▸ ·)
        · have := hplan.free s (show s ∈ c₁.freeList from hfree₁.symm ▸ hs)
          exact this.imp_left fun h => show s ∈ c₅.freeList from hfree₅ ▸ h
        · have hs : s ∈ c₅.freeList := hs
          exact hfree₁ ▸ hplan.free_sub s (show s ∈ c₂.freeList from hfree₅ ▸ hs)
        · rw [htok]
          exact (hext.congr hpos₁ hst₁)
      have hinv : r'.Inv T₅ (r.abandoned id ++ orphans) own' := by
        refine h₅.mono (r.locks_insert orphans id st) (fun k v hc => ?_) fun n p hnp => ?_
        · rw [← htok]
          exact hc.of_insert
        · have hzip : plan.prefixIndices ++ plan.newSlotIndices = st.allSlotIndices.take st.promptTokens.length :=
            (List.take_of_length_le hclaim.1.le).symm
          rw [hzip]
          exact hnp.of_insert
      have hrun : r.exec model now (.prefill id promptTokens) = some (r', _) :=
        exec_prefill (forwardPrefill_served heq₁ hp hcall heq₃ heq₄ heq₅)
      rw [map_lastLogits] at hrun
      exact ⟨r', _, hrun, .served hslot hcall' htok hserved hinv⟩

theorem Inv.claim {r : ModelRunner α} {T : Tree} {orphans : List NodeId} {own : Slot → List Token}
    (h : r.Inv T orphans own) {a a' : TokenPoolAllocator} (ha : r.radixCache.allocator = some a) {id : String}
    {st : RequestState} (hst : r.activeRequests.lookup id = some st) (tokenId : Token) {new : List Slot}
    (hal : a.alloc 1 = .ok (a', new)) :
    ∃ own', Ready (r.radixCache.setAllocator a') T (orphans ++ heldLocks r.activeRequests)
        (fun k v => Claims r.activeRequests k v ∨ (k = st.tokens ++ [tokenId] ∧ v = st.allSlotIndices ++ new))
        (Pins r.activeRequests) own' ∧
      Slotted r T own id (st.tokens ++ [tokenId]) st.allSlotIndices new own' ∧
      r.freeSlots = (r.radixCache.setAllocator a').freeList ++ new := by
  have hclaim : Claims r.activeRequests st.tokens st.allSlotIndices := ⟨id, st, hst, rfl, rfl⟩
  obtain ⟨hlen, hown⟩ := h.ledger.claimed_own _ _ hclaim
  have hnew : new.length = 1 := (TokenPoolAllocator.alloc_ok hal).2.2
  have htot : st.allSlotIndices.length + new.length = (st.tokens ++ [tokenId]).length := by
    rw [hlen, hnew, List.length_append, List.length_singleton]
  have hbase : ∀ i s, st.allSlotIndices[i]? = some s → own s = (st.tokens ++ [tokenId]).take (i + 1) := by
    intro i s hs
    have hi := (List.getElem?_eq_some_iff.mp hs).1
    rw [hown i s hs, List.take_append_of_le_length (by omega)]
  obtain ⟨own', hown', h', hsplit⟩ := h.alloc ha hal htot hbase
    fun s hs hm => h.ledger.free_claimed s hm _ _ hclaim hs
  obtain ⟨hlen', howners⟩ := h'.ledger.claimed_own _ _ (Or.inr ⟨rfl, rfl⟩)
  exact ⟨own', h', ⟨hlen', fun _ => List.ne_nil_of_length_pos (by omega), howners, hown',
    fun s hs => Or.inr ⟨st, hst, hs⟩⟩, hsplit⟩

/-- A decode of an active request. It keeps the slots the request has. -/
theorem Inv.decode {r : ModelRunner α} {T : Tree} {orphans : List NodeId} {own : Slot → List Token}
    (h : r.Inv T orphans own) (model : Model α Λ) (now : Clock) {id : String} {st : RequestState}
    (hst : r.activeRequests.lookup id = some st) (tokenId : Token) :
    ∃ r' res, r.exec model now (.decode id tokenId) = some (r', res) ∧
      Outcome model r T orphans orphans own id (st.tokens ++ [tokenId]) (st.kvCaches.map PooledKVCache.layerIdx)
        r' res ∧
      ∃ st', r'.activeRequests.lookup id = some st' ∧ st.allSlotIndices <+: st'.allSlotIndices := by
  obtain ⟨a, ha⟩ := h.allocator
  have hclaim : Claims r.activeRequests st.tokens st.allSlotIndices := ⟨id, st, hst, rfl, rfl⟩
  have hlen := (h.ledger.claimed_own _ _ hclaim).1
  have hdrop : (st.tokens ++ [tokenId]).drop st.allSlotIndices.length = [tokenId] := by rw [hlen, List.drop_left]
  cases hal : a.alloc 1 with
  | error e =>
    have hshort := (TokenPoolAllocator.alloc_error hal).1
    refine ⟨r, _, exec_decode (forwardDecode_starved hst ha hal), .starved h rfl rfl ?_, st, hst,
      List.prefix_refl _⟩
    rw [freeSlots_eq ha, List.length_append, List.length_singleton]
    omega
  | ok x =>
    obtain ⟨a', new⟩ := x
    obtain ⟨own', h₁, hslot, hsplit⟩ := h.claim ha hst tokenId hal
    rcases hcall : model [tokenId] r.pool
      (freshCaches (st.kvCaches.map PooledKVCache.layerIdx) st.allSlotIndices new)
      with ⟨pool, kvCaches, logits⟩
    have hcall' := hcall
    rw [← hdrop] at hcall'
    cases logits with
    | error e =>
      let st' : RequestState := { st with kvCaches }
      have hinv : Inv { r with
          pool, radixCache := r.radixCache.setAllocator a', activeRequests := r.activeRequests.insert id st' }
          T orphans own' := by
        refine h₁.mono ((heldLocks_update hst rfl).append_left orphans) (fun k v hc => ?_) fun n q hnq =>
          hnq.of_update hst rfl rfl rfl
        rcases hc.of_insert with hc | ⟨rfl, rfl⟩
        · exact Or.inl hc
        · exact Or.inl hclaim
      exact ⟨_, _, exec_decode (forwardDecode_raised hst ha hal hcall), .raised hslot (by rw [hcall']) hinv, st',
        AList.lookup_insert _, List.prefix_refl _⟩
    | ok logits =>
      let st' := st.decoded kvCaches tokenId new
      have htok : st'.tokens = st.tokens ++ [tokenId] := RequestState.decoded_tokens ..
      obtain ⟨c₂, T₂, q, heq₂, h₂, ha₂, _, _, hext⟩ := h₁.insert (Or.inr ⟨rfl, rfl⟩) 0
      have hfree₂ : c₂.freeList = (r.radixCache.setAllocator a').freeList := by
        unfold RadixCache.freeList; rw [ha₂]
      let r' : ModelRunner α :=
        { r with pool, radixCache := c₂, activeRequests := r.activeRequests.insert id st' }
      have hserved : Served r T id st' st.allSlotIndices new r' T₂ := by
        refine ⟨rfl, rfl, rfl, fun s hs => ?_, fun s hs => ?_, fun s hs => ?_, ?_⟩
        · exact Or.inr (hsplit ▸ List.mem_append_right _ hs)
        · exact (List.mem_append.mp (hsplit ▸ hs)).imp_left fun h => show s ∈ c₂.freeList from hfree₂ ▸ h
        · have hs : s ∈ c₂.freeList := hs
          exact hsplit ▸ List.mem_append_left _ (hfree₂ ▸ hs)
        · rw [htok]
          exact hext
      have hinv : r'.Inv T₂ orphans own' := by
        refine h₂.mono ((heldLocks_update hst rfl).append_left orphans) (fun k v hc => ?_) fun n q hnq =>
          hnq.of_update hst rfl rfl ?_
        · rw [← htok]
          exact hc.of_insert
        · -- the slots of the prompt come first
          show (st.allSlotIndices ++ new).take st.promptTokens.length = _
          rw [List.take_append_of_le_length]
          rw [hlen, RequestState.tokens, List.length_append]
          exact Nat.le_add_right _ _
      have hrun : r.exec model now (.decode id tokenId) = some (r', _) :=
        exec_decode (forwardDecode_served hst ha hal hcall heq₂)
      rw [map_lastLogits] at hrun
      exact ⟨r', _, hrun, .served hslot hcall' htok hserved hinv, st', AList.lookup_insert _,
        List.prefix_append _ _⟩

/-! ## Finish and evict -/

theorem Inv.finish {r : ModelRunner α} {T : Tree} {orphans : List NodeId} {own : Slot → List Token}
    (h : r.Inv T orphans own) (model : Model α Λ) (now : Clock) {id : String} {st : RequestState}
    (hst : r.activeRequests.lookup id = some st) :
    ∃ c', r.exec model now (.finish id) =
        some ({ r with radixCache := c', activeRequests := r.activeRequests.erase id }, .ok none) ∧
      Inv { r with radixCache := c', activeRequests := r.activeRequests.erase id } T orphans own ∧
      c'.freeList = r.freeSlots := by
  have hmem : st.radixNode ∈ orphans ++ heldLocks r.activeRequests := List.mem_append_right _ (mem_heldLocks hst)
  obtain ⟨c', delta, heq, h', ha⟩ := Ready.decLockRef h hmem
  refine ⟨c', ?_, ?_, by unfold freeSlots RadixCache.freeList; rw [ha]⟩
  · simp only [exec, finishRequest, hst, Option.bind_eq_bind, Option.bind_some, heq]
    rfl
  · refine h'.mono ?_ (fun k v ⟨id', st', hl, hk, hv⟩ => ?_) fun n q ⟨id', st', hl, hn, hq⟩ => ?_
    · have h1 := List.perm_cons_erase hmem
      have h2 := ((heldLocks_erase hst).append_left orphans).trans List.perm_middle
      exact (h2.symm.trans h1).cons_inv
    · exact ⟨id', st', (lookup_erase_cases hl).2, hk, hv⟩
    · exact ⟨id', st', (lookup_erase_cases hl).2, hn, hq⟩

/-- An eviction, when no node without a lock stores a claimed slot. -/
theorem Inv.evict {r : ModelRunner α} {T : Tree} {orphans : List NodeId} {own : Slot → List Token}
    (h : r.Inv T orphans own) (model : Model α Λ) (now : Clock) (tie : TieBreak) (numTokens : Int)
    (hno : 0 < numTokens → ∀ x ∈ T.nodes, x ≠ T.root → (r.radixCache.nodes x).lockRef = 0 →
      ∀ s ∈ (T.edge x).map Prod.snd, ∀ tokens slots, Claims r.activeRequests tokens slots → s ∉ slots) :
    ∃ c' T' xs, r.exec model now (.evict tie numTokens) = some ({ r with radixCache := c' }, .ok none) ∧
      Inv { r with radixCache := c' } T' orphans own ∧ RadixCache.Shrunk xs r.radixCache.beginOp T c' T' ∧
      c'.freeList = r.freeSlots ++ RadixCache.slotsOf T xs ∧
      (numTokens ≤ RadixCache.tokens T xs ∨ ∀ n, ¬RadixCache.Frontier c' T' n) := by
  obtain ⟨c', k, T', xs, heq, h', hsh, hfree, hstop⟩ := Ready.evict h now tie numTokens
    (fun n q ⟨id, st, hl, hn, _⟩ => List.mem_append_right _ (hn ▸ mem_heldLocks hl)) hno
  refine ⟨c', T', xs, ?_, h', hsh, hfree, hstop⟩
  simp only [exec, heq]
  rfl

end ModelRunner

end SglangMlx
