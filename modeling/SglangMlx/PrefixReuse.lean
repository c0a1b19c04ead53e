import SglangMlx.RunnerStep
import SglangMlx.CausalModel

/- Prefix reuse is transparent. With a causal model, every slot in use holds the
   rows of the token sequence that owns it, as if they were recomputed (`Cached`).
   So a call may reuse any slots for the start of its tokens, rewrite the last slot
   of a full hit, or write private copies of stored tokens: its logits are those of
   the whole sequence on a fresh runner. -/
namespace SglangMlx

namespace ModelRunner
variable {α Λ : Type}

/-- The tokens of a request after a call that computes logits for it. -/
def requestTokens (r : ModelRunner α) : Call → Option (List Token)
  | .prefill _ promptTokens => some promptTokens
  | .decode id tokenId => (r.activeRequests.lookup id).map fun st => st.tokens ++ [tokenId]
  | _ => none

/-- No prefill of an empty prompt. -/
def Call.nonEmpty : Call → Bool
  | .prefill _ promptTokens => !promptTokens.isEmpty
  | _ => true

/-- The slot is stored in the tree or listed by an active request. -/
def Used (r : ModelRunner α) (T : Tree) (s : Slot) : Prop :=
  s ∈ T.stored ∨ ∃ id st, r.activeRequests.lookup id = some st ∧ s ∈ st.allSlotIndices

/-- Every slot in use holds the rows of its owner, in every layer. -/
structure Cached (m : CausalModel α Λ) (layers : Nat) (r : ModelRunner α) (T : Tree) (own : Slot → List Token) :
    Prop where
  config : r.config.numLayers = layers
  caches : ∀ id st, r.activeRequests.lookup id = some st →
    st.kvCaches.map PooledKVCache.layerIdx = List.range layers
  rows : ∀ s, r.Used T s → ∀ l < layers, r.pool.slot l s = m.recomputeRow l (own s)

section
variable {m : CausalModel α Λ} {layers : Nat} {r r' : ModelRunner α} {T : Tree} {orphans orphans' : List NodeId}
  {own : Slot → List Token} {id : String} {tokens : List Token} {res : Except PyError (Option Λ)}

theorem Cached.pre_rows (hc : Cached m layers r T own) {pre new : List Slot} {own' : Slot → List Token}
    (hs : Slotted r T own id tokens pre new own') {l : Nat} (hl : l < layers) {i : Nat} {s : Slot}
    (hi : pre[i]? = some s) : r.pool.slot l s = m.recomputeRow l (tokens.take (i + 1)) := by
  have hmem := List.mem_of_getElem? hi
  have hnd := nodup_of_own hs.length.le hs.owners
  have hnew : s ∉ new := fun hm => (List.nodup_append.mp hnd).2.2 s hmem s hm rfl
  have howner := hs.owners i s (by rw [List.getElem?_append_left (List.getElem?_eq_some_iff.mp hi).1]; exact hi)
  rw [← howner, hs.own s hnew]
  exact hc.rows s ((hs.pre s hmem).imp_right fun ⟨old, hold, hso⟩ => ⟨id, old, hold, hso⟩) l hl

theorem Cached.call (hc : Cached m layers r T own) {pre new : List Slot} {own' : Slot → List Token}
    (hs : Slotted r T own id tokens pre new own') (hne : tokens ≠ []) :
    ∃ pool' caches logits, m.toModel (tokens.drop pre.length) r.pool (freshCaches (List.range layers) pre new) =
        (pool', caches, .ok logits) ∧
      caches.map PooledKVCache.layerIdx = List.range layers ∧
      (∀ l s, s ∉ new → pool'.slot l s = r.pool.slot l s) ∧
      (∀ l < layers, ∀ i s, (pre ++ new)[i]? = some s → pool'.slot l s = m.recomputeRow l (tokens.take (i + 1))) ∧
      logits.getLast? = some (m.recomputeLogits layers tokens) :=
  m.toModel_spec hs.length (nodup_of_own hs.length.le hs.owners) (hs.progress hne) r.pool
    fun _ hl _ _ hi => hc.pre_rows hs hl hi

/-- A call keeps the rows, returns the recomputed logits, and raises only for want
    of slots. -/
theorem Outcome.cached (ho : Outcome m.toModel r T orphans orphans' own id tokens (List.range layers) r' res)
    (hc : Cached m layers r T own) (hne : tokens ≠ []) :
    (∃ T' o own', r'.Inv T' o own' ∧ Cached m layers r' T' own') ∧
    (∀ logits, res = .ok logits → logits = some (m.recomputeLogits layers tokens)) ∧
    (tokens.length ≤ r.freeSlots.length → ∃ logits, res = .ok logits) := by
  cases ho with
  | @starved T' e hinv hst heq hlt =>
    refine ⟨⟨T', orphans, own, hinv, ?_⟩, fun _ h => (by cases h), fun h => absurd hlt (Nat.not_lt_of_le h)⟩
    refine ⟨heq ▸ hc.config, fun id' st h => hc.caches id' st (by rw [heq] at h; exact h), fun s hs l hl => ?_⟩
    rw [heq] at hs ⊢
    exact hc.rows s (by rw [Used, hst] at hs; exact hs) l hl
  | raised hs hraise hinv =>
    obtain ⟨pool', caches, logits, hcall, _⟩ := hc.call hs hne
    rw [hcall] at hraise
    cases hraise
  | @served T' own' pre new st logits hs hcall htok hserved hinv =>
    obtain ⟨pool', caches, logits', hcall', hidx, hsame, hrows, hlast⟩ := hc.call hs hne
    rw [hcall] at hcall'
    injection hcall' with hpool hcall'
    injection hcall' with hcaches hlogits
    cases hlogits
    rw [lastLogits_of_getLast? hlast]
    refine ⟨⟨T', orphans', own', hinv, ⟨by rw [hserved.config]; exact hc.config, fun id' st' h => ?_,
      fun s hused l hl => ?_⟩⟩, fun _ h => ?_, fun _ => ⟨_, rfl⟩⟩
    · rw [hserved.active] at h
      rcases lookup_insert_cases h with ⟨_, rfl⟩ | ⟨_, h⟩
      · rw [hcaches]
        exact hidx
      · exact hc.caches id' st' h
    · rw [hpool]
      -- a written slot has the row of its place, any other kept its row and its owner
      by_cases hnew : s ∈ new
      · obtain ⟨i, hi⟩ := List.mem_iff_getElem?.mp (List.mem_append_right pre hnew)
        rw [hrows l hl i s hi, hs.owners i s hi]
      · rw [hsame l s hnew, hs.own s hnew]
        refine hc.rows s ?_ l hl
        have hpre : s ∈ st.allSlotIndices → r.Used T s := fun hm => by
          rw [hserved.slots] at hm
          have hm := (List.mem_append.mp hm).resolve_right hnew
          exact (hs.pre s hm).imp_right fun ⟨old, hold, hso⟩ => ⟨id, old, hold, hso⟩
        rcases hused with hst | ⟨id', st', h, hso⟩
        · exact (hserved.tree.stored s hst).elim Or.inl hpre
        · rw [hserved.active] at h
          rcases lookup_insert_cases h with ⟨_, rfl⟩ | ⟨_, h⟩
          · exact hpre hso
          · exact Or.inr ⟨id', st', h, hso⟩
    · cases h
      rfl

end

/-! ## Runs -/

/-- A runner and its tree, in which every slot in use holds the rows of its owner. -/
def Warm (m : CausalModel α Λ) (layers : Nat) (r : ModelRunner α) : Prop :=
  ∃ T orphans own, r.Inv T orphans own ∧ Cached m layers r T own

theorem warm_init (m : CausalModel α Λ) {zero : α} {config : ModelConfig} {poolSize : Int} {r : ModelRunner α}
    (h : ModelRunner.init zero config poolSize = .ok r) : r.Warm m config.numLayers := by
  obtain ⟨hinv, hconfig, hactive, _, _⟩ := inv_init h
  refine ⟨_, _, _, hinv, ⟨by rw [hconfig], fun id st hl => ?_, fun s hs => ?_⟩⟩
  · rw [hactive] at hl
    cases hl
  · rcases hs with hs | ⟨id, st, hl, _⟩
    · exact absurd hs (by simp [PrefixTree.stored, RadixCache.rootTree])
    · rw [hactive] at hl
      cases hl

theorem requestTokens_ne_nil {r : ModelRunner α} {call : Call} {tokens : List Token}
    (ht : r.requestTokens call = some tokens) (hcall : call.nonEmpty = true) : tokens ≠ [] := by
  cases call with
  | prefill id promptTokens =>
    cases ht
    intro e
    rw [e] at hcall
    cases hcall
  | decode id tokenId =>
    obtain ⟨st, _, rfl⟩ := Option.map_eq_some_iff.mp ht
    exact List.concat_ne_nil _ _
  | finish id => cases ht
  | evict tie numTokens => cases ht

theorem Warm.serve {m : CausalModel α Λ} {layers : Nat} {r : ModelRunner α} (h : r.Warm m layers) (now : Clock)
    (call : Call) {tokens : List Token} (ht : r.requestTokens call = some tokens) (hne : tokens ≠ []) :
    ∃ r' res, r.exec m.toModel now call = some (r', res) ∧ r'.Warm m layers ∧
      (∀ logits, res = .ok logits → logits = some (m.recomputeLogits layers tokens)) ∧
      (tokens.length ≤ r.freeSlots.length → ∃ logits, res = .ok logits) := by
  obtain ⟨T, orphans, own, hinv, hc⟩ := h
  cases call with
  | prefill id promptTokens =>
    cases ht
    obtain ⟨r', res, heq, ho⟩ := hinv.prefill m.toModel now id tokens
    rw [hc.config] at ho
    exact ⟨r', res, heq, ho.cached hc hne⟩
  | decode id tokenId =>
    obtain ⟨st, hst, rfl⟩ := Option.map_eq_some_iff.mp ht
    obtain ⟨r', res, heq, ho, _⟩ := hinv.decode m.toModel now hst tokenId
    rw [hc.caches id st hst] at ho
    exact ⟨r', res, heq, ho.cached hc hne⟩
  | finish id => cases ht
  | evict tie numTokens => cases ht

theorem Warm.step {m : CausalModel α Λ} {layers : Nat} {r r' : ModelRunner α} (h : r.Warm m layers) {now : Clock}
    {call : Call} {res : Except PyError (Option Λ)} (heq : r.exec m.toModel now call = some (r', res))
    (hidle : r.evictsIdle call = true) (hcall : call.nonEmpty = true) : r'.Warm m layers := by
  cases ht : r.requestTokens call with
  | some tokens =>
    obtain ⟨r₁, res₁, heq₁, hw, _⟩ := h.serve now call ht (requestTokens_ne_nil ht hcall)
    cases heq₁.symm.trans heq
    exact hw
  | none =>
    obtain ⟨T, orphans, own, hinv, hc⟩ := h
    cases call with
    | prefill id promptTokens => cases ht
    | decode id tokenId =>
      have hst := Option.map_eq_none_iff.mp ht
      simp [ModelRunner.exec, forwardDecode, hst] at heq
    | finish id =>
      cases hst : r.activeRequests.lookup id with
      | none => simp [ModelRunner.exec, finishRequest, hst] at heq
      | some st =>
        obtain ⟨c', heq₁, hinv', _⟩ := hinv.finish m.toModel now hst
        cases heq₁.symm.trans heq
        refine ⟨T, orphans, own, hinv', hc.config, fun id' st' h => hc.caches id' st' (lookup_erase_cases h).2,
          fun s hs => hc.rows s (hs.imp_right ?_)⟩
        rintro ⟨id', st', h, hso⟩
        exact ⟨id', st', (lookup_erase_cases h).2, hso⟩
    | evict tie numTokens =>
      have hnone := lookup_of_idle hidle
      obtain ⟨c', T', xs, heq₁, hinv', hsh, _⟩ := hinv.evict m.toModel now tie numTokens
        fun _ x _ _ _ s _ k v hclaim => by
          obtain ⟨id, st, hl, _⟩ := hclaim
          rw [hnone] at hl
          cases hl
      cases heq₁.symm.trans heq
      refine ⟨T', orphans, own, hinv', hc.config, hc.caches, fun s hs => hc.rows s (hs.imp_left fun hs => ?_)⟩
      rw [hsh.stored]
      exact Multiset.mem_add.mpr (Or.inr hs)

theorem Reaches.warm {m : CausalModel α Λ} {zero : α} {config : ModelConfig} {poolSize : Int} {now : Clock}
    {r₀ r : ModelRunner α} (h₀ : ModelRunner.init zero config poolSize = .ok r₀)
    (hr : Reaches m.toModel now (fun r call _ => (r.evictsIdle call && call.nonEmpty) = true) r₀ r) :
    r.Warm m config.numLayers := by
  induction hr with
  | refl => exact warm_init m h₀
  | step _ heq hok ih =>
    obtain ⟨hidle, hcall⟩ := Bool.and_eq_true_iff.mp hok
    exact ih.step heq hidle hcall

/-- Whatever calls came before, a call that does not raise returns the logits that
    a prefill of all tokens of its request returns on a fresh runner. -/
theorem prefix_reuse_transparent (m : CausalModel α Λ) (now : Clock) (zero : α) (config : ModelConfig)
    (poolSize : Int) (r₀ r r' : ModelRunner α) (h₀ : ModelRunner.init zero config poolSize = .ok r₀)
    (hr : Reaches m.toModel now (fun r call _ => (r.evictsIdle call && call.nonEmpty) = true) r₀ r)
    (call : Call) (hcall : call.nonEmpty = true) (tokens : List Token) (ht : r.requestTokens call = some tokens)
    (logits : Option Λ) (hexec : r.exec m.toModel now call = some (r', .ok logits)) :
    logits.isSome ∧ ∀ (freshSize : Int) (fresh : ModelRunner α) (id : String), tokens.length ≤ freshSize →
      ModelRunner.init zero config freshSize = .ok fresh →
      ∃ fresh', fresh.exec m.toModel now (.prefill id tokens) = some (fresh', .ok logits) := by
  have hne := requestTokens_ne_nil ht hcall
  obtain ⟨r₁, res₁, heq₁, _, hlog, _⟩ := (hr.warm h₀).serve now call ht hne
  cases heq₁.symm.trans hexec
  have hlog := hlog logits rfl
  refine ⟨by rw [hlog]; rfl, fun freshSize fresh id hsize hinit => ?_⟩
  obtain ⟨fresh', res, heq, _, hfresh, hok⟩ := (warm_init m hinit).serve now (.prefill id tokens) rfl hne
  have hfree : tokens.length ≤ fresh.freeSlots.length := by
    rw [(inv_init hinit).2.2.2.2, TokenPoolAllocator.allSlots_length]
    omega
  obtain ⟨logits', rfl⟩ := hok hfree
  exact ⟨fresh', by rw [heq, hlog, hfresh logits' rfl]⟩

/-- A prompt that an earlier request has cached, decoded token included. -/
theorem prefix_reuse_transparent_hit : ∃ r₀ r r' : ModelRunner Nat, ModelRunner.init 0 ⟨2⟩ 6 = .ok r₀ ∧
    Reaches CausalModel.tally.toModel (fun r => r.op)
      (fun r call _ => (r.evictsIdle call && call.nonEmpty) = true) r₀ r ∧
    r.exec CausalModel.tally.toModel (fun r => r.op) (.prefill "b" [1, 2, 3]) = some (r', .ok (some 38)) ∧
    ∀ fresh, ModelRunner.init 0 ⟨2⟩ 3 = .ok fresh → ∃ fresh', fresh.exec CausalModel.tally.toModel (fun r => r.op)
      (.prefill "c" [1, 2, 3]) = some (fresh', .ok (some 38)) := by
  obtain ⟨r₀, r, h₀, hr, hp⟩ := Reaches.of_init 0 ⟨2⟩ 6 CausalModel.tally.toModel (fun r => r.op)
    (fun r call _ => r.evictsIdle call && call.nonEmpty) [.prefill "a" [1, 2], .decode "a" 3]
    (P := fun r : ModelRunner Nat =>
      ((r.exec CausalModel.tally.toModel (fun r => r.op) (.prefill "b" [1, 2, 3])).any fun x =>
        match x.2 with | .ok logits => decide (logits = some 38) | .error _ => false) = true) (by decide +kernel)
  obtain ⟨⟨r', res⟩, hexec, hres⟩ := (Option.any_eq_true _ _).mp hp
  cases res with
  | error e => cases hres
  | ok logits =>
    cases of_decide_eq_true hres
    refine ⟨r₀, r, r', h₀, hr, hexec, fun fresh hfresh => ?_⟩
    exact (prefix_reuse_transparent _ _ 0 ⟨2⟩ 6 r₀ r r' h₀ hr _ rfl _ rfl _ hexec).2 3 fresh "c"
      (by decide) hfresh

end ModelRunner

end SglangMlx
