import SglangMlx.Generate
import SglangMlx.PrefixReuse
import SglangMlx.ChunkedUpdates

/- `generate` decodes like the model without a cache. `reference` samples each token
   from the logits of the whole sequence so far. A call of `generate`, after any calls,
   takes a slot for each prompt token that is not stored and one for each token that it
   decodes. With so many free slots it returns what the reference returns, and raises
   what the sampler raises there; with fewer, `alloc` raises. -/
namespace SglangMlx

/-! ## The reference -/

namespace CausalModel
variable {α Λ : Type} (m : CausalModel α Λ)

/-- At most `n` more tokens after `generated`, each sampled from the logits of all
    tokens before it, and how many of them are decoded. -/
def reference (layers : Nat) (sampler : ModelRunner.Sampler Λ) (stopTokens : Finset Token)
    (promptTokens : List Token) :
    Nat → List Token → Nat × Except PyError (List Token)
  | 0, generated => (0, .ok generated)
  | n + 1, generated =>
    match sampler generated.length (m.recomputeLogits layers (promptTokens ++ generated)) with
    | .error e => (0, .error e)
    | .ok token =>
      if token ∈ stopTokens then (0, .ok (generated ++ [token]))
      else
        let rest := reference layers sampler stopTokens promptTokens n (generated ++ [token])
        (rest.1 + 1, rest.2)

theorem forward_returns {newTokens : List Token} (hne : newTokens ≠ []) : ∀ (caches : List PooledKVCache)
    (pool : MHATokenPool α)
    (fetched : List (Fetched α)), (∀ c ∈ caches, c.storeOffset + newTokens.length ≤ c.newIndices.length) →
    ∃ pool' caches' out, m.forward newTokens caches pool fetched = (pool', caches', .ok out) := by
  intro caches
  induction caches with
  | nil => exact fun pool fetched _ => ⟨pool, [], fetched, rfl⟩
  | cons c rest ih =>
    intro pool fetched hroom
    let new (j : Nat) := m.row fetched.length (c.offset + j) (newTokens.getD j 0) (fetched.map (·.visible j))
    let keys : HeadFirst α := { seqLen := newTokens.length, elem := fun head j dim => (new j).1 head dim }
    let values : HeadFirst α := { seqLen := newTokens.length, elem := fun head j dim => (new j).2 head dim }
    have hkeys : c.storeOffset + keys.seqLen ≤ c.newIndices.length := hroom c List.mem_cons_self
    obtain ⟨pool₁, k, v, heq, -⟩ := c.updateAndFetch_ok pool values (List.length_pos_of_ne_nil hne) hkeys
    obtain ⟨pool', caches', out, hrest⟩ := ih pool₁ (fetched ++ [⟨c.offset, rows k v⟩])
      fun c' hc => hroom c' (List.mem_cons_of_mem _ hc)
    exact ⟨_, _, _, m.forward_cons (fun _ => rfl) rfl rfl heq hrest⟩

theorem toModel_returns {newTokens : List Token} (hne : newTokens ≠ []) {pre new : List Slot}
    (hlen : newTokens.length = new.length) (layers : List Nat) (pool : MHATokenPool α) (e : PyError) :
    (m.toModel newTokens pool (ModelRunner.freshCaches layers pre new)).2.2 ≠ .error e := by
  have hroom : ∀ c ∈ ModelRunner.freshCaches layers pre new,
      c.storeOffset + newTokens.length ≤ c.newIndices.length := by
    intro c hc
    obtain ⟨l, -, rfl⟩ := List.mem_map.mp hc
    exact (Nat.zero_add _).trans_le hlen.le
  obtain ⟨pool', caches', out, heq⟩ :=
    m.forward_returns hne (ModelRunner.freshCaches layers pre new) pool [] hroom
  intro he
  have he : Except.map _ (m.forward newTokens (ModelRunner.freshCaches layers pre new) pool []).2.2 =
      .error e := he
  rw [heq] at he
  cases he

end CausalModel

namespace ModelRunner
variable {α Λ : Type}

/-! ## A step on a warm runner -/

section
variable {m : CausalModel α Λ} {layers : Nat} {r r' : ModelRunner α} {T : Tree} {orphans orphans' : List NodeId}
  {own : Slot → List Token} {id : String} {tokens : List Token} {missing : Nat} {res : Except PyError (Option Λ)}

/-- With the slots it asks for, a step returns the logits of the whole sequence, takes
    the slots and caches the sequence; without, `alloc` raises. -/
def Computes (m : CausalModel α Λ) (layers : Nat) (r : ModelRunner α) (id : String) (tokens : List Token)
    (missing : Nat) (r' : ModelRunner α) (res : Except PyError (Option Λ)) : Prop :=
  (missing ≤ r.freeSlots.length → res = .ok (some (m.recomputeLogits layers tokens)) ∧
    r'.freeSlots.length + missing = r.freeSlots.length ∧
    (r'.activeRequests.lookup id).map RequestState.tokens = some tokens ∧ ∃ s, r'.radixCache.Maps tokens s) ∧
  (r.freeSlots.length < missing → ∃ msg, res = .error (.memoryError msg))

theorem Outcome.request {logits : Option Λ} {caches : List Nat}
    (ho : Outcome m.toModel r T orphans orphans' own id tokens caches r' (.ok logits)) (hne : tokens ≠ []) :
    (r'.activeRequests.lookup id).map RequestState.tokens = some tokens ∧ ∃ s, r'.radixCache.Maps tokens s := by
  generalize hres : Except.ok logits = res at ho
  cases ho with
  | starved => cases hres
  | raised => cases hres
  | served _ _ htok hserved hinv =>
    have hlast : tokens.take (tokens.length - 1 + 1) = tokens := by
      rw [Nat.sub_add_cancel (List.length_pos_of_ne_nil hne), List.take_length]
    obtain ⟨s, hs⟩ := hserved.tree.labels (tokens.length - 1) (by
      rw [htok]
      exact Nat.sub_lt (List.length_pos_of_ne_nil hne) Nat.one_pos)
    rw [htok, hlast] at hs
    exact ⟨by rw [hserved.active, AList.lookup_insert, Option.map_some, htok], s, hinv.wf.rep.maps_iff.mpr hs⟩

theorem Ending.computes {newTokens : List Token} {caches : List Nat} {pre new : List Slot}
    (hend : Ending m.toModel r T orphans orphans' id newTokens caches pre new missing r' res)
    (hnew : newTokens ≠ []) (hroom : missing ≤ r.freeSlots.length → newTokens.length = new.length)
    (ho : Outcome m.toModel r T orphans orphans' own id tokens (List.range layers) r' res)
    (hc : Cached m layers r T own) (hne : tokens ≠ []) : Computes m layers r id tokens missing r' res := by
  have hlogits := (ho.cached hc hne).2.1
  cases hend with
  | @starved _ _ msg _ _ _ _ hlt => exact ⟨fun hle => absurd hlt (Nat.not_lt_of_le hle), fun _ => ⟨msg, rfl⟩⟩
  | @raised _ _ e _ _ _ htakes hraise =>
    exact absurd hraise (m.toModel_returns hnew (hroom htakes.room) caches r.pool e)
  | served _ _ htakes hcall =>
    obtain ⟨row, _, hrow⟩ := Model.lastLogits_eq hcall hnew
    rw [hrow] at ho hlogits ⊢
    refine ⟨fun _ => ⟨?_, htakes.length, ho.request hne⟩, fun hlt => absurd hlt (Nat.not_lt_of_le htakes.room)⟩
    exact congrArg Except.ok (hlogits _ rfl)

end

/-! ## Runs -/

section
variable {m : CausalModel α Λ} {zero : α} {config : ModelConfig} {poolSize : Int} {now : Clock}
  {r₀ r : ModelRunner α} (h₀ : ModelRunner.init zero config poolSize = .ok r₀)
  (hr : Reaches m.toModel now (fun r call _ => (r.evictsIdle call && call.nonEmpty) = true) r₀ r)
include h₀ hr

theorem Reaches.prefill_computes (id : String) {promptTokens : List Token} (hne : promptTokens ≠ []) :
    ∃ k r' res, r.radixCache.LongestCached promptTokens k ∧
      r.forwardPrefill m.toModel id promptTokens = some (r', res) ∧
      Reaches m.toModel now (fun r call _ => (r.evictsIdle call && call.nonEmpty) = true) r₀ r' ∧
      Computes m config.numLayers r id promptTokens (promptTokens.length - k) r'
        (res.map fun x => some x.2.logits) := by
  obtain ⟨T, orphans, own, hinv, hc⟩ := hr.warm h₀
  obtain ⟨_, _, _, q, _, _, _, hq, _⟩ := hinv.wf.matchPrefix promptTokens
  rcases hslots : r.prefillSlots promptTokens (q.map Prod.snd) with ⟨pre, new⟩
  obtain ⟨r', res, heq, hend, _⟩ := hinv.sound.prefill m.toModel id hq hslots
  obtain ⟨r₁, res₁, hexec, ho⟩ := hinv.prefill m.toModel now id promptTokens
  cases (exec_prefill heq).symm.trans hexec
  rw [hc.config] at ho
  have hlen : (q.map Prod.snd).length ≤ promptTokens.length := by
    rw [List.length_map]
    exact hq.length_le
  have hlt := r.prefillSlots_lt hlen hne hslots
  have hdrop : promptTokens.drop pre.length ≠ [] := fun hdrop =>
    absurd (List.drop_eq_nil_iff.mp hdrop) (Nat.not_le_of_lt hlt)
  refine ⟨q.length, r', res, hinv.wf.rep.longestCached hq, heq, hr.step (exec_prefill heq) ?_,
    hend.computes hdrop (fun hroom => ?_) ho hc hne⟩
  · cases promptTokens with
    | nil => exact absurd rfl hne
    | cons t rest => rfl
  · have hall := r.prefillSlots_length hlen (by rwa [List.length_map]) hslots
    rw [List.length_append] at hall
    rw [List.length_drop]
    omega

theorem Reaches.decode_computes {id : String} {tokens : List Token}
    (htok : (r.activeRequests.lookup id).map RequestState.tokens = some tokens) (tokenId : Token) :
    ∃ r' res, r.forwardDecode m.toModel id tokenId = some (r', res) ∧
      Reaches m.toModel now (fun r call _ => (r.evictsIdle call && call.nonEmpty) = true) r₀ r' ∧
      Computes m config.numLayers r id (tokens ++ [tokenId]) 1 r' (res.map fun x => some x.logits) := by
  obtain ⟨st, hst, rfl⟩ := Option.map_eq_some_iff.mp htok
  obtain ⟨T, orphans, own, hinv, hc⟩ := hr.warm h₀
  obtain ⟨r', res, heq, hend⟩ := hinv.sound.decode m.toModel hst tokenId
  obtain ⟨r₁, res₁, hexec, ho, _⟩ := hinv.decode m.toModel now hst tokenId
  cases (exec_decode heq).symm.trans hexec
  rw [hc.caches id st hst] at ho
  refine ⟨r', res, heq, hr.step (exec_decode heq) rfl, hend.computes (List.cons_ne_nil _ _)
    (fun hroom => ?_) ho hc (List.concat_ne_nil _ _)⟩
  rw [List.length_drop, Nat.sub_sub_self hroom]
  rfl

end

section
variable {m : CausalModel α Λ} {zero : α} {config : ModelConfig} {poolSize : Int} {now : Clock}
  {r₀ : ModelRunner α}
  (h₀ : ModelRunner.init zero config poolSize = .ok r₀) (sampler : Sampler Λ) (stopTokens : Finset Token)
  {id : String} {promptTokens : List Token}
include h₀

/-- The loop takes the slots that the reference decodes tokens for, and returns or
    raises what the reference does. -/
theorem generateLoop_reference : ∀ (n : Nat) (r : ModelRunner α) (generated : List Token),
    Reaches m.toModel now (fun r call _ => (r.evictsIdle call && call.nonEmpty) = true) r₀ r →
    (r.activeRequests.lookup id).map RequestState.tokens = some (promptTokens ++ generated) →
    (∃ s, r.radixCache.Maps (promptTokens ++ generated) s) →
    ∃ r' res, generateLoop m.toModel sampler stopTokens id n r
        (m.recomputeLogits config.numLayers (promptTokens ++ generated)) generated = some (r', res) ∧
      Reaches m.toModel now (fun r call _ => (r.evictsIdle call && call.nonEmpty) = true) r₀ r' ∧
      ((m.reference config.numLayers sampler stopTokens promptTokens n generated).1 ≤ r.freeSlots.length →
        res = (m.reference config.numLayers sampler stopTokens promptTokens n generated).2 ∧
        r'.freeSlots.length + (m.reference config.numLayers sampler stopTokens promptTokens n generated).1 =
          r.freeSlots.length ∧ (∃ st, r'.activeRequests.lookup id = some st) ∧
        ∀ xs, res = .ok xs → ∃ s, r'.radixCache.Maps (promptTokens ++ xs.take (generated.length +
          (m.reference config.numLayers sampler stopTokens promptTokens n generated).1)) s) ∧
      (r.freeSlots.length < (m.reference config.numLayers sampler stopTokens promptTokens n generated).1 →
        ∃ msg, res = .error (.memoryError msg)) := by
  intro n
  induction n with
  | zero =>
    intro r generated hr htok hcached
    obtain ⟨st, hst, -⟩ := Option.map_eq_some_iff.mp htok
    refine ⟨r, .ok generated, rfl, hr, fun _ => ⟨rfl, rfl, ⟨st, hst⟩, fun xs hxs => ?_⟩, fun hlt =>
      absurd hlt (Nat.not_lt_zero _)⟩
    cases hxs
    rw [CausalModel.reference, Nat.add_zero, List.take_length]
    exact hcached
  | succ n ih =>
    intro r generated hr htok hcached
    obtain ⟨st, hst, -⟩ := Option.map_eq_some_iff.mp htok
    cases hs : sampler generated.length (m.recomputeLogits config.numLayers (promptTokens ++ generated)) with
    | error e =>
      refine ⟨r, .error e, by simp only [generateLoop, hs], hr, ?_⟩
      rw [CausalModel.reference, hs]
      exact ⟨fun _ => ⟨rfl, rfl, ⟨st, hst⟩, fun xs hxs => by cases hxs⟩, fun hlt =>
        absurd hlt (Nat.not_lt_zero _)⟩
    | ok token =>
      by_cases hstop : token ∈ stopTokens
      · refine ⟨r, .ok (generated ++ [token]), by simp only [generateLoop, hs, hstop, if_true], hr, ?_⟩
        simp only [CausalModel.reference, hs, if_pos hstop]
        refine ⟨fun _ => ⟨trivial, rfl, ⟨st, hst⟩, fun xs hxs => ?_⟩, fun hlt => absurd hlt (Nat.not_lt_zero _)⟩
        -- the stop token is not decoded
        cases hxs
        rw [Nat.add_zero, List.take_left]
        exact hcached
      · obtain ⟨r₁, res₁, heq, hr₁, henough, hshort⟩ := hr.decode_computes h₀ htok token
        cases res₁ with
        | error e =>
          have hlt : r.freeSlots.length < 1 := Nat.lt_of_not_le fun hle => by cases (henough hle).1
          obtain ⟨msg, he⟩ := hshort hlt
          refine ⟨r₁, .error e, ?_, hr₁, ?_⟩
          · simp only [generateLoop, hs, hstop, if_false, heq]
            rfl
          · simp only [CausalModel.reference, hs, hstop, if_false]
            cases he
            exact ⟨fun hle => absurd hle (by omega), fun _ => ⟨msg, rfl⟩⟩
        | ok result =>
          have hle : 1 ≤ r.freeSlots.length := Nat.le_of_not_lt fun hlt => by
            obtain ⟨msg, he⟩ := hshort hlt
            cases he
          obtain ⟨hlogits, hspent, htok₁, hcached₁⟩ := henough hle
          have hlogits := Option.some.inj (Except.ok.inj hlogits)
          rw [List.append_assoc] at hlogits htok₁ hcached₁
          obtain ⟨r', res, hrun, hr', hdone, hraise⟩ := ih r₁ (generated ++ [token]) hr₁ htok₁ hcached₁
          have hstep : generateLoop m.toModel sampler stopTokens id (n + 1) r
              (m.recomputeLogits config.numLayers (promptTokens ++ generated)) generated =
              generateLoop m.toModel sampler stopTokens id n r₁ result.logits (generated ++ [token]) := by
            simp only [generateLoop, hs, hstop, if_false, heq]
            rfl
          refine ⟨r', res, by rw [hstep, hlogits, hrun], hr', ?_⟩
          simp only [CausalModel.reference, hs, hstop, if_false]
          refine ⟨fun hroom => ?_, fun hlt => hraise (by omega)⟩
          obtain ⟨hres, hfree, hst', hcached'⟩ := hdone (by omega)
          rw [List.length_append, List.length_singleton, Nat.add_assoc, Nat.add_comm 1] at hcached'
          exact ⟨hres, by omega, hst', hcached'⟩

end

/-- How a call of `generate` ends that asks for `missing` slots, where decoding without a
    cache is `reference`: with the slots it returns or raises the same, takes them and
    caches what it decoded; without, `alloc` raises. -/
structure Generates (reference : Nat × Except PyError (List Token)) (promptTokens : List Token)
    (r : ModelRunner α) (missing : Nat) (r' : ModelRunner α) (res : Except PyError (List Token)) : Prop where
  done : missing ≤ r.freeSlots.length → res = reference.2 ∧ r'.freeSlots.length + missing = r.freeSlots.length
  cached : ∀ xs, res = .ok xs → ∃ s, r'.radixCache.Maps (promptTokens ++ xs.take reference.1) s
  short : r.freeSlots.length < missing → ∃ msg, res = .error (.memoryError msg)

theorem Reaches.generates {m : CausalModel α Λ} {now : Clock} {zero : α} {config : ModelConfig} {poolSize : Int}
    {r₀ r : ModelRunner α} (h₀ : ModelRunner.init zero config poolSize = .ok r₀)
    (hr : Reaches m.toModel now (fun r call _ => (r.evictsIdle call && call.nonEmpty) = true) r₀ r)
    (requestId : String) {promptTokens : List Token} (hne : promptTokens ≠ []) (maxTokens : Int)
    (sampler : Sampler Λ) (stopTokens : Finset Token) :
    ∃ k r' res, r.radixCache.LongestCached promptTokens k ∧
      r.generate m.toModel requestId promptTokens maxTokens sampler stopTokens = some (r', res) ∧
      Reaches m.toModel now (fun r call _ => (r.evictsIdle call && call.nonEmpty) = true) r₀ r' ∧
      Generates (m.reference config.numLayers sampler stopTokens promptTokens maxTokens.toNat []) promptTokens r
        (promptTokens.length - k +
          (m.reference config.numLayers sampler stopTokens promptTokens maxTokens.toNat []).1) r' res := by
  obtain ⟨k, r₁, res₁, hk, heq, hr₁, henough, hshort⟩ := hr.prefill_computes h₀ requestId hne
  cases res₁ with
  | error e =>
    have hlt : r.freeSlots.length < promptTokens.length - k :=
      Nat.lt_of_not_le fun hle => by cases (henough hle).1
    obtain ⟨msg, he⟩ := hshort hlt
    refine ⟨k, r₁, .error e, hk, ?_, hr₁, fun hle => absurd hle (by omega), fun xs hxs => (by cases hxs),
      fun _ => ⟨msg, ?_⟩⟩
    · simp only [generate, heq, Option.bind_eq_bind, Option.bind_some]
      rfl
    · cases he
      rfl
  | ok x =>
    obtain ⟨st, result⟩ := x
    have hle : promptTokens.length - k ≤ r.freeSlots.length := Nat.le_of_not_lt fun hlt => by
      obtain ⟨msg, he⟩ := hshort hlt
      cases he
    obtain ⟨hlogits, hspent, htok, hcached⟩ := henough hle
    have hlogits : result.logits = m.recomputeLogits config.numLayers promptTokens :=
      Option.some.inj (Except.ok.inj hlogits)
    rw [← List.append_nil promptTokens] at htok hcached
    obtain ⟨r₂, res₂, hrun, hr₂, hdone, hraise⟩ :=
      generateLoop_reference h₀ sampler stopTokens maxTokens.toNat r₁ [] hr₁ htok hcached
    rw [List.append_nil, ← hlogits] at hrun
    cases res₂ with
    | error e =>
      refine ⟨k, r₂, .error e, hk, ?_, hr₂, fun hroom => ?_, fun xs hxs => (by cases hxs), fun hlt =>
        hraise (by omega)⟩
      · simp only [generate, heq, Option.bind_eq_bind, Option.bind_some, hrun]
        rfl
      · obtain ⟨hres, hfree, -⟩ := hdone (by omega)
        exact ⟨hres, by omega⟩
    | ok xs =>
      have hroom : (m.reference config.numLayers sampler stopTokens promptTokens maxTokens.toNat []).1 ≤
          r₁.freeSlots.length := Nat.le_of_not_lt fun hlt => by
        obtain ⟨msg, he⟩ := hraise hlt
        cases he
      obtain ⟨hres, hfree, ⟨st', hst'⟩, hcached₂⟩ := hdone hroom
      obtain ⟨T, orphans, h⟩ := hr₂.sound h₀
      obtain ⟨r₃, hfin, h₃, -, hfree₃⟩ := h.finish hst'
      have hcall : r₂.exec m.toModel now (.finish requestId) = some (r₃, .ok none) := by
        rw [exec, hfin, Option.map_some]
      refine ⟨k, r₃, .ok xs, hk, ?_, hr₂.step hcall rfl,
        fun _ => ⟨hres, by rw [hfree₃]; omega⟩, fun xs' hxs => ?_, fun hlt => by omega⟩
      · simp only [generate, heq, Option.bind_eq_bind, Option.bind_some, hrun, hfin]
        rfl
      · obtain ⟨s, hs⟩ := hcached₂ xs' hxs
        rw [List.length_nil, Nat.zero_add] at hs
        exact ⟨s, h₃.wf.rep.maps_iff.mpr (h.wf.rep.maps_iff.mp hs)⟩

/-- After any calls, `generate` takes a slot for each prompt token that is not stored and
    for each token it decodes. If these are free it returns, or raises, what decoding
    without a cache does; else `alloc` raises. -/
theorem generate_decodes_reference (m : CausalModel α Λ) (now : Clock) (zero : α) (config : ModelConfig)
    (poolSize : Int) (r₀ r : ModelRunner α) (h₀ : ModelRunner.init zero config poolSize = .ok r₀)
    (hr : Reaches m.toModel now (fun r call _ => (r.evictsIdle call && call.nonEmpty) = true) r₀ r)
    (requestId : String) (promptTokens : List Token) (hne : promptTokens ≠ []) (maxTokens : Int)
    (sampler : Sampler Λ) (stopTokens : Finset Token) :
    ∃ k r' res, r.radixCache.LongestCached promptTokens k ∧
      r.generate m.toModel requestId promptTokens maxTokens sampler stopTokens = some (r', res) ∧
      (promptTokens.length - k +
          (m.reference config.numLayers sampler stopTokens promptTokens maxTokens.toNat []).1 ≤
            r.freeSlots.length →
        res = (m.reference config.numLayers sampler stopTokens promptTokens maxTokens.toNat []).2 ∧
        r'.freeSlots.length + (promptTokens.length - k +
          (m.reference config.numLayers sampler stopTokens promptTokens maxTokens.toNat []).1) =
            r.freeSlots.length) ∧ (r.freeSlots.length < promptTokens.length - k +
          (m.reference config.numLayers sampler stopTokens promptTokens maxTokens.toNat []).1 →
        ∃ msg, res = .error (.memoryError msg)) := by
  obtain ⟨k, r', res, hk, heq, -, hgen⟩ := hr.generates h₀ requestId hne maxTokens sampler stopTokens
  exact ⟨k, r', res, hk, heq, hgen.done, hgen.short⟩

/-- The prompt is cached, a second token equals the first, and the third is a stop token. -/
theorem generate_decodes_reference_hit : ∃ r₀ r r' : ModelRunner Nat, ModelRunner.init 0 ⟨2⟩ 8 = .ok r₀ ∧
    Reaches CausalModel.tally.toModel (fun r => r.op)
      (fun r call _ => (r.evictsIdle call && call.nonEmpty) = true) r₀ r ∧
    r.generate CausalModel.tally.toModel "b" [1, 2, 3] 4 (fun _ logits => .ok (logits % 7)) {5} =
      some (r', .ok [3, 3, 5]) := by
  obtain ⟨r₀, r, h₀, hr, hfree⟩ := Reaches.of_init 0 ⟨2⟩ 8 CausalModel.tally.toModel (fun r => r.op)
    (fun r call _ => r.evictsIdle call && call.nonEmpty) [.prefill "a" [1, 2], .decode "a" 3]
    (P := fun r : ModelRunner Nat => r.freeSlots.length = 5) (by decide +kernel)
  obtain ⟨k, r', res, -, heq, hroom, -⟩ := generate_decodes_reference CausalModel.tally (fun r => r.op) 0
    ⟨2⟩ 8 r₀ r h₀ hr "b" [1, 2, 3] (List.cons_ne_nil _ _) 4 (fun _ logits => .ok (logits % 7)) {5}
  have hneed : (CausalModel.tally.reference 2 (fun _ logits => .ok (logits % 7)) {5} [1, 2, 3] 4 []).1 = 2 := by
    decide +kernel
  have hres : (CausalModel.tally.reference 2 (fun _ logits => .ok (logits % 7)) {5} [1, 2, 3] 4 []).2 =
      .ok [3, 3, 5] := by
    rfl
  have hle : [1, 2, 3].length - k + 2 ≤ r.freeSlots.length := by
    rw [hfree]
    exact Nat.add_le_add_right (Nat.sub_le _ _) _
  obtain ⟨hdone, -⟩ := hroom (hneed.symm ▸ hle)
  exact ⟨r₀, r, r', h₀, hr, by rw [heq, hdone, ← hres]; rfl⟩

end ModelRunner

end SglangMlx
