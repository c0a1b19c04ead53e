import SglangMlx.RunnerStep
import SglangMlx.CausalModel

/- Where slots leak. A decode always allocates a slot, but `insert` keeps the slot
   that the tree stores already for an extended sequence; the new one then belongs
   to the request alone, and `finish_request` forgets it. Runs that finish only
   requests whose slots are all stored keep every slot free, stored or live, and
   give the whole pool back in the end. -/
namespace SglangMlx

namespace ModelRunner
variable {α Λ : Type}

/-- `s` is in the `all_slot_indices` of an active request. -/
def Live (r : ModelRunner α) (s : Slot) : Prop :=
  ∃ id st, r.activeRequests.lookup id = some st ∧ s ∈ st.allSlotIndices

/-- Every slot of the pool is free, stored at a position of the tree, or live. -/
def Conserved (r : ModelRunner α) (poolSize : Int) : Prop :=
  ∀ s : Slot, 1 ≤ s → (s : Int) ≤ poolSize → s ∈ r.freeSlots ∨ r.radixCache.Stored s ∨ r.Live s

/-- A prefill is for a new request, and a finished request has all its slots stored. -/
def KeepsSlots (r : ModelRunner α) : Call → Prop
  | .prefill id _ => r.activeRequests.lookup id = none
  | .finish id => ∀ st, r.activeRequests.lookup id = some st → ∀ s ∈ st.allSlotIndices, r.radixCache.Stored s
  | _ => True

/-- The steps of the runs in question: nothing raises, evictions come between
    requests, and no slot is dropped. -/
def ThriftyStep (r : ModelRunner α) (call : Call) (res : Except PyError (Option Λ)) : Prop :=
  res.isOk = true ∧ r.evictsIdle call = true ∧ r.KeepsSlots call

/-- The slots in use are those of the pool that are not free, and a slot that two
    requests list is stored. -/
structure Tidy (r : ModelRunner α) (T : Tree) (poolSize : Nat) (own : Slot → List Token) : Prop where
  inv : r.Inv T [] own
  all : ∀ s : Slot, (1 ≤ s ∧ s ≤ poolSize) ↔ s ∈ r.freeSlots ∨ s ∈ T.stored ∨ r.Live s
  shared : ∀ id id' st st' s, r.activeRequests.lookup id = some st → r.activeRequests.lookup id' = some st' →
    id ≠ id' → s ∈ st.allSlotIndices → s ∈ st'.allSlotIndices → s ∈ T.stored

section
variable {r r' : ModelRunner α} {T T' : Tree} {poolSize : Nat} {own own' : Slot → List Token}

theorem Tidy.conserved (h : r.Tidy T poolSize own) {size : Int} (hs : size ≤ poolSize) : r.Conserved size := by
  intro s h1 h2
  rw [h.inv.wf.rep.stored_iff]
  exact (h.all s).mp ⟨h1, Int.ofNat_le.mp (h2.trans hs)⟩

theorem Tidy.served (h : r.Tidy T poolSize own) {id : String} {tokens : List Token} {pre new : List Slot}
    {st : RequestState} (hs : Slotted r T own id tokens pre new own') (hserved : Served r T id st pre new r' T')
    (hinv : r'.Inv T' [] own') (hold : ∀ old, r.activeRequests.lookup id = some old → old.allSlotIndices ⊆
      st.allSlotIndices) : r'.Tidy T' poolSize own' := by
  have hlive : ∀ s, r.Live s → r'.Live s := by
    intro s ⟨id', st', hl, hm⟩
    by_cases he : id' = id
    · exact ⟨id, st, by rw [hserved.active, AList.lookup_insert], hold st' (he ▸ hl) hm⟩
    · exact ⟨id', st', by rw [hserved.active, AList.lookup_insert_ne he]; exact hl, hm⟩
  have hmine : ∀ s ∈ st.allSlotIndices, s ∈ r.freeSlots ∨ s ∈ T.stored ∨ r.Live s := by
    intro s hm
    rw [hserved.slots] at hm
    rcases List.mem_append.mp hm with hm | hm
    · exact Or.inr ((hs.pre s hm).imp_right fun ⟨old, hl, ho⟩ => ⟨id, old, hl, ho⟩)
    · exact (hserved.fresh s hm).elim (fun h => Or.inr (Or.inl h)) Or.inl
  have hnew : r'.activeRequests.lookup id = some st := by rw [hserved.active, AList.lookup_insert]
  refine ⟨hinv, fun s => ?_, fun id₁ id₂ st₁ st₂ s h1 h2 hne hm1 hm2 => ?_⟩
  · rw [h.all s]
    constructor
    · rintro (hf | hst | hl)
      · refine (hserved.free s hf).imp_right fun hm => Or.inr ⟨id, st, hnew, ?_⟩
        rw [hserved.slots]
        exact List.mem_append_right _ hm
      · exact Or.inr (Or.inl (hserved.tree.stored_mono s hst))
      · exact Or.inr (Or.inr (hlive s hl))
    · rintro (hf | hst | ⟨id', st', hl, hm⟩)
      · exact Or.inl (hserved.free_sub s hf)
      · exact (hserved.tree.stored s hst).elim (fun h => Or.inr (Or.inl h)) (hmine s)
      · rw [hserved.active] at hl
        rcases lookup_insert_cases hl with ⟨_, rfl⟩ | ⟨_, hl⟩
        · exact hmine s hm
        · exact Or.inr (Or.inr ⟨id', st', hl, hm⟩)
  · -- a slot of the request that another one lists was not free
    have hother : ∀ {id' st'}, id' ≠ id → r.activeRequests.lookup id' = some st' → s ∈ st'.allSlotIndices →
        s ∈ st.allSlotIndices → s ∈ T'.stored := by
      intro id' st' hne hl hm hm'
      apply hserved.tree.stored_mono
      rw [hserved.slots] at hm'
      rcases List.mem_append.mp hm' with hm' | hm'
      · rcases hs.pre s hm' with hst | ⟨old, hl', ho⟩
        · exact hst
        · exact h.shared id' id st' old s hl hl' hne hm ho
      · refine (hserved.fresh s hm').resolve_right fun hf => ?_
        exact h.inv.ledger.free_claimed s hf _ _ ⟨id', st', hl, rfl, rfl⟩ hm
    rw [hserved.active] at h1 h2
    rcases lookup_insert_cases h1 with ⟨he1, e1⟩ | ⟨hn1, hl1⟩
    · rcases lookup_insert_cases h2 with ⟨he2, _⟩ | ⟨hn2, hl2⟩
      · exact absurd (he1.trans he2.symm) hne
      · exact hother hn2 hl2 hm2 (e1 ▸ hm1)
    · rcases lookup_insert_cases h2 with ⟨_, e2⟩ | ⟨hn2, hl2⟩
      · exact hother hn1 hl1 hm1 (e2 ▸ hm2)
      · exact hserved.tree.stored_mono s (h.shared id₁ id₂ st₁ st₂ s hl1 hl2 hne hm1 hm2)

theorem Tidy.outcome (h : r.Tidy T poolSize own) {model : Model α Λ} {id : String} {tokens : List Token}
    {layers : List Nat} {res : Except PyError (Option Λ)}
    (ho : Outcome model r T [] [] own id tokens layers r' res)
    (hok : res.isOk = true) (hold : ∀ old st, r.activeRequests.lookup id = some old →
      r'.activeRequests.lookup id = some st → old.allSlotIndices ⊆ st.allSlotIndices) :
    ∃ T' own', r'.Tidy T' poolSize own' := by
  cases ho with
  | starved => cases hok
  | raised => cases hok
  | served hs _ _ hserved hinv =>
    exact ⟨_, _, h.served hs hserved hinv fun old hl =>
      hold old _ hl (by rw [hserved.active, AList.lookup_insert])⟩

theorem Tidy.step (h : r.Tidy T poolSize own) {model : Model α Λ} {now : Clock} {call : Call}
    {res : Except PyError (Option Λ)} (heq : r.exec model now call = some (r', res))
    (hok : r.ThriftyStep call res) :
    ∃ T' own', r'.Tidy T' poolSize own' := by
  obtain ⟨hres, hidle, hkeep⟩ := hok
  cases call with
  | prefill id promptTokens =>
    have hnone : r.activeRequests.lookup id = none := hkeep
    obtain ⟨r₁, res₁, heq₁, ho⟩ := h.inv.prefill model now id promptTokens
    cases heq₁.symm.trans heq
    rw [abandoned, hnone] at ho
    exact h.outcome ho hres fun old st hl => by rw [hnone] at hl; cases hl
  | decode id tokenId =>
    cases hst : r.activeRequests.lookup id with
    | none => simp [ModelRunner.exec, forwardDecode, hst] at heq
    | some st =>
      obtain ⟨r₁, res₁, heq₁, ho, st', hst', hle⟩ := h.inv.decode model now hst tokenId
      cases heq₁.symm.trans heq
      refine h.outcome ho hres fun old new hl hl' => ?_
      rw [hst] at hl
      rw [hst'] at hl'
      cases hl
      cases hl'
      exact hle.subset
  | finish id =>
    cases hst : r.activeRequests.lookup id with
    | none => simp [ModelRunner.exec, finishRequest, hst] at heq
    | some st =>
      obtain ⟨c', heq₁, hinv', hfree⟩ := h.inv.finish model now hst
      cases heq₁.symm.trans heq
      have hfree : freeSlots { r with radixCache := c', activeRequests := r.activeRequests.erase id } =
        r.freeSlots := hfree
      refine ⟨T, own, hinv', fun s => ?_, fun id₁ id₂ st₁ st₂ s h1 h2 => ?_⟩
      · rw [h.all s, hfree]
        refine or_congr_right ⟨fun hs => ?_, fun hs => hs.imp_right ?_⟩
        · rcases hs with hs | ⟨id', st', hl, hm⟩
          · exact Or.inl hs
          · by_cases he : id' = id
            · exact Or.inl (h.inv.wf.rep.stored_iff.mp (hkeep st' (he ▸ hl) s hm))
            · exact Or.inr ⟨id', st', (AList.lookup_erase_ne he).trans hl, hm⟩
        · rintro ⟨id', st', hl, hm⟩
          exact ⟨id', st', (lookup_erase_cases hl).2, hm⟩
      · exact h.shared id₁ id₂ st₁ st₂ s (lookup_erase_cases h1).2 (lookup_erase_cases h2).2
  | evict tie numTokens =>
    have hnone := lookup_of_idle hidle
    obtain ⟨c', T', xs, heq₁, hinv', hsh, hfree, _⟩ := h.inv.evict model now tie numTokens
      fun _ x _ _ _ s _ k v hclaim => by
        obtain ⟨id, st, hl, _⟩ := hclaim
        rw [hnone] at hl
        cases hl
    cases heq₁.symm.trans heq
    have hfree : freeSlots { r with radixCache := c' } = r.freeSlots ++ RadixCache.slotsOf T xs := hfree
    refine ⟨T', own, hinv', fun s => ?_, fun id₁ id₂ st₁ st₂ s h1 => ?_⟩
    · rw [h.all s, hfree, hsh.stored, Multiset.mem_add, List.mem_append, Multiset.mem_coe,
        or_assoc, or_assoc]
      rfl
    · have h1 : r.activeRequests.lookup id₁ = some st₁ := h1
      rw [hnone] at h1
      cases h1

theorem Tidy.drain (h : r.Tidy T poolSize own) (hnone : ∀ id, r.activeRequests.lookup id = none)
    (model : Model α Λ)
    (now : Clock) (tie : TieBreak) {numTokens : Int} (hall : r.radixCache.evictableSize ≤ numTokens) :
    ∃ r', r.exec model now (.evict tie numTokens) = some (r', .ok none) ∧
      ∃ a, r'.radixCache.allocator = some a ∧ a.availableSize = poolSize := by
  obtain ⟨c', T', xs, heq, hinv, hsh, hfree, hstop⟩ := h.inv.evict model now tie numTokens
    fun _ x _ _ _ s _ k v hclaim => by
      obtain ⟨id, st, hl, _⟩ := hclaim
      rw [hnone] at hl
      cases hl
  have hlocks : heldLocks r.activeRequests = [] := by
    refine List.eq_nil_iff_forall_not_mem.mpr fun n hn => ?_
    obtain ⟨⟨id, st⟩, hm, _⟩ := List.mem_map.mp hn
    have := AList.mem_lookup_iff.mpr hm
    rw [hnone] at this
    cases this
  have hbook := hinv.wf.book
  -- a node that is left would be locked, and there are no locks
  have hroot : ∀ n ∈ T'.nodes, n = T'.root := by
    intro n hn
    by_contra hr
    have hpos := hsh.all_locked hbook hstop hall hn
    rw [hbook.lock n hn hr] at hpos
    simp [hlocks, RadixCache.lockCount] at hpos
  have hstored : T'.stored = 0 := by
    refine Finset.sum_eq_zero fun n hn => ?_
    rw [hroot n hn, T'.edge_root]
    rfl
  obtain ⟨a, ha⟩ := hinv.allocator
  refine ⟨_, heq, a, ha, ?_⟩
  have hfa : a.freeSlots = r.freeSlots ++ RadixCache.slotsOf T xs := by
    rw [← hfree]
    unfold RadixCache.freeList
    rw [show c'.allocator = some a from ha]
    rfl
  have hmem : ∀ s, s ∈ a.freeSlots ↔ s ∈ TokenPoolAllocator.allSlots poolSize := by
    intro s
    have hst := hsh.stored
    rw [hstored, add_zero] at hst
    rw [TokenPoolAllocator.mem_allSlots, h.all s, hfa, List.mem_append, hst, Multiset.mem_coe]
    refine or_congr_right (or_iff_left fun hlive => ?_).symm
    obtain ⟨id, st, hl, _⟩ := hlive
    rw [hnone] at hl
    cases hl
  have hnd : a.freeSlots.Nodup := by
    rw [hfa, ← hfree]
    exact hinv.ledger.free_nodup
  have hperm := (List.perm_ext_iff_of_nodup hnd (TokenPoolAllocator.allSlots_nodup poolSize)).mpr hmem
  exact hperm.length_eq.trans (TokenPoolAllocator.allSlots_length poolSize)

/-- Finishing a request with a slot that the tree does not store loses the slot. -/
theorem Tidy.leak (h : r.Tidy T poolSize own) {id : String} {st : RequestState} {s : Slot}
    (hst : r.activeRequests.lookup id = some st) (hs : s ∈ st.allSlotIndices) (hno : ¬r.radixCache.Stored s)
    (model : Model α Λ) (now : Clock) :
    ∃ r', r.exec model now (.finish id) = some (r', .ok none) ∧ ¬r'.Conserved poolSize := by
  obtain ⟨c', heq, hinv, hfree⟩ := h.inv.finish model now hst
  rw [h.inv.wf.rep.stored_iff] at hno
  refine ⟨_, heq, fun hc => ?_⟩
  obtain ⟨h1, h2⟩ := (h.all s).mpr (Or.inr (Or.inr ⟨id, st, hst, hs⟩))
  rcases hc s h1 (Int.ofNat_le.mpr h2) with hf | hst' | ⟨id', st', hl, hm⟩
  · have hf : s ∈ c'.freeList := hf
    rw [hfree] at hf
    exact h.inv.ledger.free_claimed s hf _ _ ⟨id, st, hst, rfl, rfl⟩ hs
  · exact hno (hinv.wf.rep.stored_iff.mp hst')
  · obtain ⟨hne, hl⟩ := lookup_erase_cases hl
    exact hno (h.shared id' id st' st s hl hst hne hm hs)

end

theorem Reaches.tidy {zero : α} {config : ModelConfig} {poolSize : Int} {model : Model α Λ} {now : Clock}
    {r₀ r : ModelRunner α} (h₀ : ModelRunner.init zero config poolSize = .ok r₀)
    (hr : Reaches model now ThriftyStep r₀ r) : ∃ T own, r.Tidy T poolSize.toNat own := by
  induction hr with
  | refl =>
    obtain ⟨hinv, _, hactive, _, hfree⟩ := inv_init h₀
    have hnone : ∀ id, r₀.activeRequests.lookup id = none := fun id => by rw [hactive]; rfl
    refine ⟨_, _, hinv, fun s => ?_, fun id _ st _ s hl => by rw [hnone] at hl; cases hl⟩
    rw [hfree, TokenPoolAllocator.mem_allSlots]
    refine (or_iff_left ?_).symm
    rintro (hs | ⟨id, st, hl, _⟩)
    · exact absurd hs (by simp [PrefixTree.stored, RadixCache.rootTree])
    · rw [hnone] at hl
      cases hl
  | step _ heq hok ih =>
    obtain ⟨T, own, h⟩ := ih
    exact h.step heq hok

/-- Runs that finish only requests whose slots are all stored lose no slot, and
    give the whole pool back. Wherever a request has a slot that is not stored,
    finishing it loses the slot. -/
theorem no_slot_leaks (zero : α) (config : ModelConfig) (poolSize : Int) (model : Model α Λ) (now : Clock)
    (r₀ r : ModelRunner α) (h₀ : ModelRunner.init zero config poolSize = .ok r₀)
    (hr : Reaches model now ThriftyStep r₀ r) :
    r.Conserved poolSize ∧
    ((∀ id, r.activeRequests.lookup id = none) → ∀ tie numTokens, r.radixCache.evictableSize ≤ numTokens →
      ∃ r', r.exec model now (.evict tie numTokens) = some (r', .ok none) ∧
        ∃ a, r'.radixCache.allocator = some a ∧ a.availableSize = poolSize) ∧
    ∀ id st s, r.activeRequests.lookup id = some st → s ∈ st.allSlotIndices → ¬r.radixCache.Stored s →
      ∃ r', r.exec model now (.finish id) = some (r', .ok none) ∧ ¬r'.Conserved poolSize := by
  obtain ⟨T, own, h⟩ := hr.tidy h₀
  have hsize : (poolSize.toNat : Int) = poolSize := Int.toNat_of_nonneg (inv_init h₀).2.2.2.1.le
  refine ⟨h.conserved hsize.ge, fun hnone tie numTokens hall => ?_, fun id st s hst hs hno => ?_⟩
  · obtain ⟨r', heq, a, ha, hav⟩ := h.drain hnone model now tie hall
    exact ⟨r', heq, a, ha, by rw [hav, hsize]⟩
  · rw [← hsize]
    exact h.leak hst hs hno model now

/-- An executable test for `Stored`, over the nodes created so far. -/
def storedCheck (c : RadixCache) (s : Slot) : Bool :=
  (List.range c.counter).any fun n => c.climbsTo (c.counter + 1) n && ((c.nodes n).value.getD []).contains s

theorem stored_of_check {c : RadixCache} {s : Slot} (h : storedCheck c s = true) : c.Stored s := by
  obtain ⟨n, _, h⟩ := List.any_eq_true.mp h
  obtain ⟨hn, hs⟩ := Bool.and_eq_true_iff.mp h
  have hs := List.contains_iff_mem.mp hs
  cases hv : (c.nodes n).value with
  | none =>
    rw [hv] at hs
    cases hs
  | some v =>
    rw [hv] at hs
    exact ⟨n, v, RadixCache.inTree_of_climbsTo _ n hn, hv, hs⟩

/-- An executable test for `ThriftyStep`. -/
def thrifty (r : ModelRunner α) (call : Call) (res : Except PyError (Option Λ)) : Bool :=
  res.isOk && r.evictsIdle call && match call with
    | .prefill id _ => (r.activeRequests.lookup id).isNone
    | .finish id => (r.activeRequests.lookup id).all fun st => st.allSlotIndices.all (storedCheck r.radixCache)
    | _ => true

theorem ThriftyStep.of_check {r : ModelRunner α} {call : Call} {res : Except PyError (Option Λ)}
    (h : r.thrifty call res = true) : r.ThriftyStep call res := by
  obtain ⟨h, hkeep⟩ := Bool.and_eq_true_iff.mp h
  obtain ⟨hres, hidle⟩ := Bool.and_eq_true_iff.mp h
  refine ⟨hres, hidle, ?_⟩
  cases call with
  | prefill id promptTokens => exact Option.isNone_iff_eq_none.mp hkeep
  | finish id =>
    intro st hst s hs
    exact stored_of_check (List.all_eq_true.mp ((Option.all_eq_true _ _).mp hkeep st hst) s hs)
  | decode id tokenId => trivial
  | evict tie numTokens => trivial

/-- Two requests that decode different tokens after one prompt. -/
theorem no_slot_leaks_forks : ∃ r₀ r : ModelRunner Nat, ModelRunner.init 0 ⟨1⟩ 4 = .ok r₀ ∧
    Reaches CausalModel.tally.toModel (fun r => r.op) ThriftyStep r₀ r ∧ r.freeSlots = [4] ∧ r.Conserved 4 := by
  obtain ⟨r₀, r, h₀, hr, hfree⟩ := Reaches.of_init 0 ⟨1⟩ 4 CausalModel.tally.toModel (fun r => r.op)
    (fun r call res => r.thrifty call res)
    [.prefill "a" [1], .prefill "b" [1], .decode "a" 2, .decode "b" 3, .finish "a", .finish "b"]
    (P := fun r : ModelRunner Nat => r.freeSlots = [4]) (by decide +kernel)
  have hr := hr.mono fun r call res h => ThriftyStep.of_check h
  exact ⟨r₀, r, h₀, hr, hfree, (no_slot_leaks 0 ⟨1⟩ 4 _ _ r₀ r h₀ hr).1⟩

/-- Two requests that generate the same token after one prompt: the second one's
    slot is lost, and evicting everything leaves one slot short of the pool. -/
theorem equal_decodes_leak : ∃ r₀ r : ModelRunner Nat, ModelRunner.init 0 ⟨1⟩ 4 = .ok r₀ ∧
    Reaches CausalModel.tally.toModel (fun r => r.op)
      (fun r call res => (res.isOk && r.evictsIdle call) = true) r₀ r ∧
    (∀ id, r.activeRequests.lookup id = none) ∧ r.radixCache.evictableSize = 0 ∧ r.freeSlots.length = 3 ∧
    ¬r.Conserved 4 := by
  obtain ⟨r₀, r, h₀, hr, hp⟩ := Reaches.of_init 0 ⟨1⟩ 4 CausalModel.tally.toModel (fun r => r.op)
    (fun r call res => res.isOk && r.evictsIdle call)
    [.prefill "a" [1], .decode "a" 2, .finish "a", .prefill "b" [1], .decode "b" 2, .finish "b",
      .evict (fun _ => 0) 9]
    (P := fun r : ModelRunner Nat => r.activeRequests.entries.isEmpty = true ∧ r.radixCache.evictableSize = 0 ∧
      r.freeSlots.length = 3 ∧ 3 ∉ r.freeSlots ∧ r.radixCache.closedUnder [0] = true ∧
      (r.radixCache.nodes 0).value = some []) (by decide +kernel)
  obtain ⟨hidle, hsize, hlen, hfree, hclosed, hroot⟩ := hp
  have hnone := lookup_of_idle hidle
  refine ⟨r₀, r, h₀, hr, hnone, hsize, hlen, fun hc => ?_⟩
  rcases hc 3 (by decide) (by decide) with hf | ⟨n, v, hn, hv, hs⟩ | ⟨id, st, hl, _⟩
  · exact hfree hf
  · have hn := hn.mem_of_closedUnder hclosed
    rw [List.mem_singleton] at hn
    rw [hn, hroot] at hv
    cases hv
    cases hs
  · rw [hnone] at hl
    cases hl

end ModelRunner

end SglangMlx
