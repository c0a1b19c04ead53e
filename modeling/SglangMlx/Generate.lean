import SglangMlx.StepFailure
import SglangMlx.CausalModel

/- What `generate` leaves behind. Its steps run without `try`: the lock and the entry
   in `_active_requests` that `forward_prefill` makes are taken back by the
   `finish_request` after the loop, which an exception of the sampler, of a decode or of
   `logits[0, -1, :]` skips. On every other exit the runner is clean
   (`generate_cleans_up`).

   Whether that happens is read off the sampler, the model and the free slots alone.
   `rowAfter` is what the model returns for the prompt and some tokens after it, each
   with a free slot of its own. -/
namespace SglangMlx

/-! ## The calls of the model -/

section
variable {α Λ : Type}

/-- The model is called on one token after the other, each with its slot behind those
    before; `row` is the last row of logits so far. -/
def Model.feed (model : Model α Λ) : List (Token × Slot) → List Slot → MHATokenPool α → List PooledKVCache → Λ →
    Except PyError Λ
  | [], _, _, _, row => .ok row
  | (token, slot) :: rest, held, pool, kvCaches, _ =>
    match model [token] pool (ModelRunner.freshCaches (kvCaches.map PooledKVCache.layerIdx) held [slot]) with
    | (_, _, .error e) => .error e
    | (pool, kvCaches, .ok logits) => (lastLogits logits).bind (model.feed rest (held ++ [slot]) pool kvCaches)

/-- Sampling from `row`, with slots for `room` tokens, is interrupted before `maxTokens`:
    after some tokens, none of which stops it, the sampler raises, or it returns a token
    to be decoded and there is no slot left or the model raises. -/
def Interrupted (row : List Token → Except PyError Λ) (sampler : ModelRunner.Sampler Λ)
    (stopTokens : Finset Token) (maxTokens room : Nat) : Prop :=
  ∃ tokens : List Token, tokens.length < maxTokens ∧ tokens.length ≤ room ∧
    (∀ i token, tokens[i]? = some token →
      ∃ logits, row (tokens.take i) = .ok logits ∧ sampler i logits = .ok token ∧ token ∉ stopTokens) ∧
    ∃ logits, row tokens = .ok logits ∧
      ((∃ e, sampler tokens.length logits = .error e) ∨
        ∃ token, sampler tokens.length logits = .ok token ∧ token ∉ stopTokens ∧
          (tokens.length = room ∨ ∃ e, row (tokens ++ [token]) = .error e))

section
variable {row : List Token → Except PyError Λ} {sampler : ModelRunner.Sampler Λ} {stopTokens : Finset Token}
  {n room : Nat} {logits : Λ}

theorem not_interrupted_zero : ¬Interrupted row sampler stopTokens 0 room :=
  fun ⟨_, hlt, _⟩ => Nat.not_lt_zero _ hlt

theorem Interrupted.row_nil (h : Interrupted row sampler stopTokens n room) : ∃ logits, row [] = .ok logits := by
  obtain ⟨tokens, -, -, hsampled, logits, hrow, -⟩ := h
  cases tokens with
  | nil => exact ⟨logits, hrow⟩
  | cons token rest =>
    obtain ⟨logits', hrow', -⟩ := hsampled 0 token rfl
    exact ⟨logits', hrow'⟩

section
variable (h0 : row [] = .ok logits)
include h0

theorem interrupted_of_sampler {e : PyError} (hs : sampler 0 logits = .error e) :
    Interrupted row sampler stopTokens (n + 1) room :=
  ⟨[], Nat.succ_pos n, Nat.zero_le _, fun _ _ h => (by cases h), logits, h0, Or.inl ⟨e, hs⟩⟩

variable {token : Token} (hs : sampler 0 logits = .ok token)
include hs

theorem interrupted_of_decode (hn : token ∉ stopTokens) (hor : room = 0 ∨ ∃ e, row [token] = .error e) :
    Interrupted row sampler stopTokens (n + 1) room :=
  ⟨[], Nat.succ_pos n, Nat.zero_le _, fun _ _ h => (by cases h), logits, h0,
    Or.inr ⟨token, hs, hn, hor.imp_left Eq.symm⟩⟩

theorem not_interrupted_of_stop (hstop : token ∈ stopTokens) : ¬Interrupted row sampler stopTokens n room := by
  intro ⟨tokens, _, _, hsampled, logits', hrow', hend⟩
  cases tokens with
  | nil =>
    cases h0.symm.trans hrow'
    rcases hend with ⟨e, he⟩ | ⟨token', ht, hn, -⟩
    · cases hs.symm.trans he
    · cases hs.symm.trans ht
      exact hn hstop
  | cons first rest =>
    obtain ⟨logits₁, hrow₁, ht, hn⟩ := hsampled 0 first rfl
    cases h0.symm.trans hrow₁
    cases hs.symm.trans ht
    exact hn hstop

theorem interrupted_cons (hn : token ∉ stopTokens) (hroom : 0 < room)
    (hok : ∃ logits', row [token] = .ok logits') :
    Interrupted row sampler stopTokens (n + 1) room ↔
      Interrupted (fun tokens => row (token :: tokens)) (fun i => sampler (i + 1)) stopTokens n (room - 1) := by
  constructor
  · intro ⟨tokens, hlt, hle, hsampled, logits', hrow', hend⟩
    cases tokens with
    | nil =>
      exfalso
      cases h0.symm.trans hrow'
      rcases hend with ⟨e, he⟩ | ⟨token', ht, -, hfull | ⟨e, he⟩⟩
      · cases hs.symm.trans he
      · exact absurd hfull.symm hroom.ne'
      · cases hs.symm.trans ht
        obtain ⟨logits₁, hok⟩ := hok
        cases hok.symm.trans he
    | cons first rest =>
      obtain ⟨logits₁, hrow₁, ht, -⟩ := hsampled 0 first rfl
      cases h0.symm.trans hrow₁
      cases hs.symm.trans ht
      rw [List.length_cons] at hlt hle
      refine ⟨rest, Nat.lt_of_succ_lt_succ hlt, Nat.le_sub_one_of_lt hle, fun i t hi => hsampled (i + 1) t hi,
        logits', hrow', hend.imp_right fun ⟨t, ht, htn, hor⟩ => ⟨t, ht, htn, hor.imp_left fun hfull => ?_⟩⟩
      rw [List.length_cons] at hfull
      omega
  · intro ⟨rest, hlt, hle, hsampled, logits', hrow', hend⟩
    refine ⟨token :: rest, Nat.succ_lt_succ hlt, ?_, fun i t hi => ?_, logits', hrow',
      hend.imp_right fun ⟨t, ht, htn, hor⟩ => ⟨t, ht, htn, hor.imp_left fun hfull => ?_⟩⟩
    · rw [List.length_cons]
      omega
    · cases i with
      | zero =>
        cases hi
        exact ⟨logits, h0, hs, hn⟩
      | succ i => exact hsampled i t hi
    · rw [List.length_cons]
      omega

end

end

end

namespace ModelRunner
variable {α Λ : Type}

/-- No request and no lock more than before. -/
structure Clean (r r' : ModelRunner α) : Prop where
  active : ∀ id, r'.activeRequests.lookup id = r.activeRequests.lookup id
  locks : r.radixCache.KeepsLocks r'.radixCache
  added : r.radixCache.AddsUnlocked r'.radixCache
  guarded : r'.radixCache.protectedSize = r.radixCache.protectedSize

theorem Sound.clean {r r' : ModelRunner α} {T T' : Tree} {orphans : List NodeId} (h : r.Sound T orphans)
    (h' : r'.Sound T' orphans) (hret : RadixCache.Retains T T') (hactive : r'.activeRequests = r.activeRequests) :
    r.Clean r' := by
  have hw := h'.wf
  rw [hactive] at hw
  exact ⟨fun id => by rw [hactive], hret.keepsLocks h.wf hw, hret.addsUnlocked h.wf hw,
    hret.protectedSize h.wf hw⟩

/-- The last row of logits after the prompt and `tokens`: `cached` are the slots of the
    stored start of the prompt, the other slots are taken from the end of the free list. -/
def rowAfter (model : Model α Λ) (r : ModelRunner α) (promptTokens : List Token) (cached : List Slot)
    (tokens : List Token) : Except PyError Λ :=
  let (pre, new) := r.prefillSlots promptTokens cached
  let left := r.freeSlots.take (r.freeSlots.length - (promptTokens.length - cached.length))
  match model (promptTokens.drop pre.length) r.pool (freshCaches (List.range r.config.numLayers) pre new) with
  | (_, _, .error e) => .error e
  | (pool, kvCaches, .ok logits) =>
    (lastLogits logits).bind (model.feed (tokens.zip left.reverse) (pre ++ new) pool kvCaches)

/-- The prompt has its slots, and then it was empty and the model returned, or sampling
    is interrupted. -/
def Strands (model : Model α Λ) (r : ModelRunner α) (promptTokens : List Token) (cached : List Slot)
    (maxTokens : Int) (sampler : Sampler Λ) (stopTokens : Finset Token) : Prop :=
  promptTokens.length - cached.length ≤ r.freeSlots.length ∧
    ((promptTokens = [] ∧ ¬r.RaisesOnNothing model) ∨
      Interrupted (r.rowAfter model promptTokens cached) sampler stopTokens maxTokens.toNat
        (r.freeSlots.length - (promptTokens.length - cached.length)))

/-- The last row of logits after a request with the state `st` has decoded `tokens` too. -/
def rowFrom (model : Model α Λ) (r : ModelRunner α) (st : RequestState) (row : Λ) (tokens : List Token) :
    Except PyError Λ :=
  model.feed (tokens.zip r.freeSlots.reverse) st.allSlotIndices r.pool st.kvCaches row

section
variable {model : Model α Λ} {r r₁ : ModelRunner α} {T T₁ : Tree} {orphans orphans' : List NodeId} {id : String}
  {st st₁ : RequestState}

/-- A decode with a free slot calls the model like `rowFrom`. -/
theorem rowFrom_cons (hroom : 0 < r.freeSlots.length) (row : Λ) (token : Token) (tokens : List Token) :
    r.rowFrom model st row (token :: tokens) =
      match model [token] r.pool (freshCaches (st.kvCaches.map PooledKVCache.layerIdx) st.allSlotIndices
        (r.freeSlots.drop (r.freeSlots.length - 1))) with
      | (_, _, .error e) => .error e
      | (pool, kvCaches, .ok logits) => (lastLogits logits).bind (model.feed
          (tokens.zip (r.freeSlots.take (r.freeSlots.length - 1)).reverse)
          (st.allSlotIndices ++ r.freeSlots.drop (r.freeSlots.length - 1)) pool kvCaches) := by
  rcases List.eq_nil_or_concat r.freeSlots with hnil | ⟨free, slot, hsplit⟩
  · rw [hnil] at hroom
    exact absurd hroom (Nat.lt_irrefl 0)
  · rw [List.concat_eq_append] at hsplit
    have hlen : (free ++ [slot]).length - 1 = free.length := by rw [List.length_append]; rfl
    rw [rowFrom, hsplit, hlen, List.take_left, List.drop_left, List.reverse_append]
    rfl

theorem rowFrom_of_served {token : Token} {logits : List Λ} {row row' : Λ} (htakes : r.Takes 1 r₁)
    (hcall : model [token] r.pool (freshCaches (st.kvCaches.map PooledKVCache.layerIdx) st.allSlotIndices
      (r.freeSlots.drop (r.freeSlots.length - 1))) = (r₁.pool, st₁.kvCaches, .ok logits))
    (hslots : st₁.allSlotIndices = st.allSlotIndices ++ r.freeSlots.drop (r.freeSlots.length - 1))
    (hrow : lastLogits logits = .ok row') (tokens : List Token) :
    r.rowFrom model st row (token :: tokens) = r₁.rowFrom model st₁ row' tokens := by
  rw [rowFrom_cons htakes.room, hcall]
  simp only [hrow]
  rw [rowFrom, htakes.free, hslots]
  rfl

theorem rowFrom_of_raised {token : Token} {e : PyError} (htakes : r.Takes 1 r₁)
    (hraise : (model [token] r.pool (freshCaches (st.kvCaches.map PooledKVCache.layerIdx) st.allSlotIndices
      (r.freeSlots.drop (r.freeSlots.length - 1)))).2.2 = .error e) (row : Λ) :
    r.rowFrom model st row [token] = .error e := by
  rw [rowFrom_cons htakes.room]
  revert hraise
  rcases model [token] r.pool _ with ⟨pool, kvCaches, logits⟩
  intro hraise
  have hraise : logits = .error e := hraise
  rw [hraise]

theorem interrupted_iff_of_served {token : Token} {logits : List Λ} {row row' : Λ} {sampler : Sampler Λ}
    {stopTokens : Finset Token} {generated : List Token} (hs : sampler generated.length row = .ok token)
    (hstop : token ∉ stopTokens) (htakes : r.Takes 1 r₁)
    (hcall : model [token] r.pool (freshCaches (st.kvCaches.map PooledKVCache.layerIdx) st.allSlotIndices
      (r.freeSlots.drop (r.freeSlots.length - 1))) = (r₁.pool, st₁.kvCaches, .ok logits))
    (hslots : st₁.allSlotIndices = st.allSlotIndices ++ r.freeSlots.drop (r.freeSlots.length - 1))
    (hlast : lastLogits logits = .ok row') (n : Nat) :
    Interrupted (r.rowFrom model st row) (fun i => sampler (generated.length + i)) stopTokens (n + 1)
        r.freeSlots.length ↔
      Interrupted (r₁.rowFrom model st₁ row') (fun i => sampler ((generated ++ [token]).length + i)) stopTokens n
        r₁.freeSlots.length := by
  have hrows : (fun tokens => r.rowFrom model st row (token :: tokens)) = r₁.rowFrom model st₁ row' :=
    funext fun tokens => rowFrom_of_served htakes hcall hslots hlast tokens
  have hshift : (fun i => sampler ((generated ++ [token]).length + i)) =
      fun i => sampler (generated.length + (i + 1)) := by
    funext i
    rw [List.length_append, List.length_singleton, Nat.add_assoc, Nat.add_comm 1]
  have hroom : r₁.freeSlots.length = r.freeSlots.length - 1 := by
    rw [← htakes.length, Nat.add_sub_cancel]
  rw [← hrows, hshift, hroom]
  have h0 : r.rowFrom model st row [] = .ok row := rfl
  apply interrupted_cons h0 hs hstop htakes.room
  exact ⟨row', rowFrom_of_served htakes hcall hslots hlast []⟩

theorem rowAfter_of_served {promptTokens : List Token} {cached pre new : List Slot} {logits : List Λ} {row : Λ}
    (hslots : r.prefillSlots promptTokens cached = (pre, new))
    (htakes : r.Takes (promptTokens.length - cached.length) r₁)
    (hcall : model (promptTokens.drop pre.length) r.pool (freshCaches (List.range r.config.numLayers) pre new) =
      (r₁.pool, st₁.kvCaches, .ok logits)) (hst : st₁.allSlotIndices = pre ++ new)
    (hrow : lastLogits logits = .ok row) : r.rowAfter model promptTokens cached = r₁.rowFrom model st₁ row := by
  funext tokens
  simp only [rowAfter, hslots, hcall, hrow]
  rw [rowFrom, htakes.free, hst]
  rfl

theorem strands_iff_of_served {promptTokens : List Token} (hne : promptTokens ≠ []) {cached pre new : List Slot}
    {logits : List Λ} {row : Λ} (hslots : r.prefillSlots promptTokens cached = (pre, new))
    (htakes : r.Takes (promptTokens.length - cached.length) r₁)
    (hcall : model (promptTokens.drop pre.length) r.pool (freshCaches (List.range r.config.numLayers) pre new) =
      (r₁.pool, st₁.kvCaches, .ok logits)) (hst : st₁.allSlotIndices = pre ++ new)
    (hrow : lastLogits logits = .ok row) {maxTokens : Int} {sampler : Sampler Λ} {stopTokens : Finset Token} :
    r.Strands model promptTokens cached maxTokens sampler stopTokens ↔
      Interrupted (r₁.rowFrom model st₁ row) sampler stopTokens maxTokens.toNat r₁.freeSlots.length := by
  have hroom : r.freeSlots.length - (promptTokens.length - cached.length) = r₁.freeSlots.length := by
    rw [← htakes.length, Nat.add_sub_cancel]
  rw [Strands, rowAfter_of_served hslots htakes hcall hst hrow, hroom]
  exact ⟨fun hs => hs.2.resolve_left fun hs => hne hs.1, fun hs => ⟨htakes.room, Or.inr hs⟩⟩

theorem rowAfter_of_raised {promptTokens : List Token} {cached pre new : List Slot} {e : PyError}
    (hslots : r.prefillSlots promptTokens cached = (pre, new))
    (hraise : (model (promptTokens.drop pre.length) r.pool
      (freshCaches (List.range r.config.numLayers) pre new)).2.2 =
      .error e) (tokens : List Token) : r.rowAfter model promptTokens cached tokens = .error e := by
  rcases hcall : model (promptTokens.drop pre.length) r.pool
    (freshCaches (List.range r.config.numLayers) pre new) with
    ⟨pool, kvCaches, logits⟩
  rw [hcall] at hraise
  have hraise : logits = .error e := hraise
  simp only [rowAfter, hslots, hcall, hraise]

end

section
variable (model : Model α Λ) (sampler : Sampler Λ) (stopTokens : Finset Token) {id : String}
  {orphans : List NodeId}

/-- The loop returns or is interrupted. When it returns, the request is still the only
    new one and the tree has only grown; when it raises, the request is still active. -/
theorem generateLoop_spec (a : AList fun _ : String => RequestState) : ∀ (n : Nat) (r : ModelRunner α) (row : Λ)
    (generated : List Token) (T : Tree) (st : RequestState), r.Sound T orphans →
    r.activeRequests = a.insert id st →
    (∃ r' xs, generateLoop model sampler stopTokens id n r row generated = some (r', .ok xs) ∧
      ¬Interrupted (r.rowFrom model st row) (fun i => sampler (generated.length + i)) stopTokens n
        r.freeSlots.length ∧
      (∃ T', r'.Sound T' orphans ∧ RadixCache.Retains T T') ∧ ∃ st', r'.activeRequests = a.insert id st') ∨
    ∃ r' e, generateLoop model sampler stopTokens id n r row generated = some (r', .error e) ∧
      Interrupted (r.rowFrom model st row) (fun i => sampler (generated.length + i)) stopTokens n
        r.freeSlots.length ∧ ∃ st', r'.activeRequests.lookup id = some st' := by
  intro n
  induction n with
  | zero =>
    intro r row generated T st h hst
    exact Or.inl ⟨r, generated, rfl, not_interrupted_zero, ⟨T, h, .refl T⟩, st, hst⟩
  | succ n ih =>
    intro r row generated T st h hactive
    have hst : r.activeRequests.lookup id = some st := by rw [hactive, AList.lookup_insert]
    have h0 : r.rowFrom model st row [] = .ok row := rfl
    cases hs : sampler generated.length row with
    | error e =>
      exact Or.inr ⟨r, e, by simp only [generateLoop, hs], interrupted_of_sampler h0 hs, st, hst⟩
    | ok token =>
      by_cases hstop : token ∈ stopTokens
      · exact Or.inl ⟨r, generated ++ [token], by simp only [generateLoop, hs, hstop, if_true],
          not_interrupted_of_stop h0 hs hstop, ⟨T, h, .refl T⟩, st, hactive⟩
      · obtain ⟨r₁, res, heq, hend⟩ := h.decode model hst token
        have hraised : ∀ {e}, res = .error e →
            generateLoop model sampler stopTokens id (n + 1) r row generated = some (r₁, .error e) := by
          rintro e rfl
          simp only [generateLoop, hs, hstop, if_false, heq]
          rfl
        generalize hres : res.map (fun x => some x.logits) = out at hend
        cases hend with
        | @starved c T' msg _ _ _ _ hlt =>
          exact Or.inr ⟨_, _, hraised (map_eq_error hres),
            interrupted_of_decode h0 hs hstop (Or.inl (Nat.lt_one_iff.mp hlt)), st, hst⟩
        | @raised _ T' e' _ _ _ htakes hcall hreq =>
          have hrow := rowFrom_of_raised htakes hcall row
          have hlook := hreq id
          rw [hst, Option.map_some] at hlook
          obtain ⟨st', hst', _⟩ := Option.map_eq_some_iff.mp hlook
          exact Or.inr ⟨r₁, _, hraised (map_eq_error hres),
            interrupted_of_decode h0 hs hstop (Or.inr ⟨e', hrow⟩), st', hst'⟩
        | @served _ T₁ st₁ logits h₁ hret htakes hcall hslots hactive₁ =>
          obtain ⟨row', -, hlast⟩ := Model.lastLogits_eq hcall (List.cons_ne_nil _ _)
          rw [hlast] at hres
          obtain ⟨result, rfl, hresult⟩ := map_eq_ok hres
          have hresult : result.logits = row' := Option.some.inj hresult
          have hstep : generateLoop model sampler stopTokens id (n + 1) r row generated =
              generateLoop model sampler stopTokens id n r₁ row' (generated ++ [token]) := by
            simp only [generateLoop, hs, hstop, if_false, heq, ← hresult]
            rfl
          have hiff := interrupted_iff_of_served hs hstop htakes hcall hslots hlast n
          rw [hiff, hstep]
          rcases ih r₁ row' (generated ++ [token]) T₁ st₁ h₁ (by rw [hactive₁, hactive, AList.insert_insert]) with
            ⟨r', xs, hrun, hno, ⟨T', h', hret'⟩, hst'⟩ | hraise
          · exact Or.inl ⟨r', xs, hrun, hno, ⟨T', h', hret.trans hret'⟩, hst'⟩
          · exact Or.inr hraise

end

theorem erase_insert {a : AList fun _ : String => RequestState} {id : String} {st : RequestState}
    (h : a.lookup id = none) : (a.insert id st).erase id = a := by
  have hkeys := AList.lookup_eq_none.mp h
  apply AList.ext
  calc List.kerase id (⟨id, st⟩ :: List.kerase id a.entries)
      = List.kerase id a.entries := List.kerase_cons_eq rfl
    _ = a.entries := List.kerase_of_notMem_keys hkeys

theorem not_clean {r r' : ModelRunner α} {id : String} (hfresh : r.activeRequests.lookup id = none)
    {st : RequestState} (hst : r'.activeRequests.lookup id = some st) : ¬r.Clean r' := by
  intro hc
  have := hc.active id
  rw [hst, hfresh] at this
  cases this

/-- Once the prefill has returned, the loop decides. -/
theorem Sound.generate_served {model : Model α Λ} {r r₁ : ModelRunner α} {T T₁ : Tree} {orphans : List NodeId}
    {id : String} {st st₀ : RequestState} {result : ForwardResult Λ} {promptTokens : List Token}
    (h : r.Sound T orphans) (h₁ : r₁.Sound T₁ orphans) (hret : RadixCache.Retains T T₁)
    (hfresh : r.activeRequests.lookup id = none) (hactive : r₁.activeRequests = r.activeRequests.insert id st)
    (heq : r.forwardPrefill model id promptTokens = some (r₁, .ok (st₀, result))) (maxTokens : Int)
    (sampler : Sampler Λ) (stopTokens : Finset Token) :
    ∃ r' res, r.generate model id promptTokens maxTokens sampler stopTokens = some (r', res) ∧
      (r.Clean r' ↔ ¬Interrupted (r₁.rowFrom model st result.logits) sampler stopTokens maxTokens.toNat
        r₁.freeSlots.length) := by
  have hshift : (fun i => sampler (([] : List Token).length + i)) = sampler := by
    funext i
    rw [List.length_nil, Nat.zero_add]
  rcases generateLoop_spec model sampler stopTokens r.activeRequests maxTokens.toNat r₁ result.logits
    [] T₁ st h₁ hactive with
    ⟨r₂, xs, hrun, hno, ⟨T₂, h₂, hret₂⟩, st₂, hactive₂⟩ | ⟨r₂, e, hrun, hraise, st₂, hst₂⟩
  · rw [hshift] at hno
    have hlookup : r₂.activeRequests.lookup id = some st₂ := by rw [hactive₂, AList.lookup_insert]
    obtain ⟨r₃, hfin, h₃, hactive₃, _⟩ := h₂.finish hlookup
    refine ⟨r₃, .ok xs, ?_, iff_of_true (h.clean h₃ (hret.trans hret₂) ?_) hno⟩
    · simp only [generate, heq, Option.bind_eq_bind, Option.bind_some, hrun, hfin]
      rfl
    · rw [hactive₃, hactive₂, erase_insert hfresh]
  · rw [hshift] at hraise
    refine ⟨r₂, .error e, ?_, iff_of_false (not_clean hfresh hst₂) (not_not_intro hraise)⟩
    simp only [generate, heq, Option.bind_eq_bind, Option.bind_some, hrun]
    rfl

/-- Whatever `generate` meets, it leaves the runner clean exactly when its request is not
    stranded. -/
theorem generate_cleans_up (zero : α) (config : ModelConfig) (poolSize : Int) (model : Model α Λ) (now : Clock)
    (r₀ r : ModelRunner α) (h₀ : ModelRunner.init zero config poolSize = .ok r₀)
    (hr : Reaches model now (fun _ _ _ => True) r₀ r) (requestId : String)
    (hfresh : r.activeRequests.lookup requestId = none) (promptTokens : List Token) (maxTokens : Int)
    (sampler : Sampler Λ) (stopTokens : Finset Token) :
    ∃ cached, (∀ i s, cached[i]? = some s → r.radixCache.Maps (promptTokens.take (i + 1)) s) ∧
      r.radixCache.LongestCached promptTokens cached.length ∧
      ∃ r' res, r.generate model requestId promptTokens maxTokens sampler stopTokens = some (r', res) ∧
        (r.Clean r' ↔ ¬r.Strands model promptTokens cached maxTokens sampler stopTokens) := by
  obtain ⟨T, orphans, h⟩ := hr.sound h₀
  obtain ⟨_, _, _, q, _, _, _, hq, _⟩ := h.wf.matchPrefix promptTokens
  have hlen : (q.map Prod.snd).length = q.length := List.length_map _
  refine ⟨q.map Prod.snd, fun i s hs => h.wf.rep.maps_iff.mpr (hq.labels hs), ?_, ?_⟩
  · rw [hlen]
    exact h.wf.rep.longestCached hq
  rcases hslots : r.prefillSlots promptTokens (q.map Prod.snd) with ⟨pre, new⟩
  obtain ⟨r₁, res, heq, hend, hkept⟩ := h.prefill model requestId hq hslots
  have habandoned : r.abandoned requestId = [] := by rw [abandoned, hfresh]; rfl
  rw [habandoned, List.nil_append, ← hlen] at hend
  have hraised : ∀ {e}, res = .error e →
      r.generate model requestId promptTokens maxTokens sampler stopTokens = some (r₁, .error e) := by
    rintro e rfl
    simp only [generate, heq, Option.bind_eq_bind, Option.bind_some]
    rfl
  have hlen' : (q.map Prod.snd).length ≤ promptTokens.length := by
    rw [hlen]
    exact hq.length_le
  generalize hres : res.map (fun x => some x.2.logits) = out at hend
  cases hend with
  | @starved c T' msg h₁ hret _ _ hlt =>
    exact ⟨_, _, hraised (map_eq_error hres), iff_of_true (h.clean h₁ hret rfl) fun hs =>
      absurd hs.1 (Nat.not_le_of_lt hlt)⟩
  | @raised _ T' e' h₁ hret _ _ hcall =>
    refine ⟨_, _, hraised (map_eq_error hres), iff_of_true (h.clean h₁ hret (hkept e' hcall)) fun hs => ?_⟩
    rcases hs.2 with ⟨hnil, hno⟩ | hs
    · exact hno ((raisesOnNothing_iff hnil hlen' hslots).mpr ⟨e', hcall⟩)
    · obtain ⟨row, hrow⟩ := hs.row_nil
      cases hrow.symm.trans (rowAfter_of_raised hslots hcall [])
  | @served _ T₁ st logits h₁ hret htakes hcall hst hactive =>
    by_cases hnil : promptTokens = []
    · -- nothing is left for `logits[0, -1, :]`
      have hlogits : logits = [] := by
        have := model.shape _ _ _ logits (congrArg (fun x => x.2.2) hcall)
        rw [hnil, List.drop_nil] at this
        exact List.length_eq_zero_iff.mp this
      rw [hlogits] at hres
      have hst₁ : r₁.activeRequests.lookup requestId = some st := by rw [hactive, AList.lookup_insert]
      refine ⟨_, _, hraised (map_eq_error hres), iff_of_false (not_clean hfresh hst₁) ?_⟩
      apply not_not_intro
      refine ⟨htakes.room, Or.inl ⟨hnil, fun hraise => ?_⟩⟩
      obtain ⟨e, he⟩ := (raisesOnNothing_iff hnil hlen' hslots).mp hraise
      rw [hcall] at he
      cases he
    · have hdrop : promptTokens.drop pre.length ≠ [] := fun hdrop =>
        absurd (List.drop_eq_nil_iff.mp hdrop) (Nat.not_le_of_lt (r.prefillSlots_lt hlen' hnil hslots))
      obtain ⟨row, -, hlast⟩ := Model.lastLogits_eq hcall hdrop
      rw [hlast] at hres
      obtain ⟨⟨st₀, result⟩, rfl, hresult⟩ := map_eq_ok hres
      have hresult : result.logits = row := Option.some.inj hresult
      rw [strands_iff_of_served hnil hslots htakes hcall hst hlast, ← hresult]
      exact h.generate_served h₁ hret hfresh hactive heq maxTokens sampler stopTokens

/-- A call that stops at its first token, beside an active request. -/
theorem generate_cleans_up_stop : ∃ r₀ r r' : ModelRunner Nat, ∃ res, ModelRunner.init 0 ⟨1⟩ 6 = .ok r₀ ∧
    Reaches CausalModel.tally.toModel (fun r => r.op) (fun _ _ _ => True) r₀ r ∧
    (∃ st, r.activeRequests.lookup "a" = some st) ∧
    r.generate CausalModel.tally.toModel "b" [1, 5] 3 (fun _ _ => .ok 7) {7} = some (r', res) ∧ r.Clean r' := by
  obtain ⟨r₀, r, h₀, hr, hidle, hactive⟩ := Reaches.of_init 0 ⟨1⟩ 6 CausalModel.tally.toModel (fun r => r.op)
    (fun _ _ _ => true) [.prefill "a" [1, 2], .decode "a" 3] (P := fun r : ModelRunner Nat =>
      (r.activeRequests.lookup "b").isNone = true ∧ (r.activeRequests.lookup "a").isSome = true)
        (by decide +kernel)
  have hr := hr.unrestricted
  obtain ⟨cached, -, -, r', res, heq, hiff⟩ := generate_cleans_up 0 ⟨1⟩ 6 CausalModel.tally.toModel
    (fun r => r.op) r₀ r h₀ hr "b" (Option.isNone_iff_eq_none.mp hidle) [1, 5] 3 (fun _ _ => .ok 7) {7}
  refine ⟨r₀, r, r', res, h₀, hr, Option.isSome_iff_exists.mp hactive, heq, hiff.mpr fun ⟨_, hs⟩ => ?_⟩
  rcases hs with ⟨hnil, -⟩ | hs
  · cases hnil
  · obtain ⟨row, hrow⟩ := hs.row_nil
    exact not_interrupted_of_stop hrow rfl (Finset.mem_singleton_self 7) hs

/-- The pool is full after the prefill, so the first decode raises, and the request
    stays active. -/
theorem full_pool_strands_request : ∃ r₀ r r' : ModelRunner Nat, ∃ e, ModelRunner.init 0 ⟨1⟩ 1 = .ok r₀ ∧
    Reaches CausalModel.tally.toModel (fun r => r.op) (fun _ _ _ => True) r₀ r ∧
    r.activeRequests.lookup "a" = none ∧
    r.generate CausalModel.tally.toModel "a" [1] 1 (fun _ _ => .ok 2) ∅ = some (r', .error e) ∧ ¬r.Clean r' := by
  obtain ⟨r₀, r, h₀, hr, hidle, hraise⟩ := Reaches.of_init 0 ⟨1⟩ 1 CausalModel.tally.toModel (fun r => r.op)
    (fun _ _ _ => true) [] (P := fun r : ModelRunner Nat => (r.activeRequests.lookup "a").isNone = true ∧
      raises (fun r' => (r'.activeRequests.lookup "a").isSome)
        (r.generate CausalModel.tally.toModel "a" [1] 1 (fun _ _ => .ok 2) ∅) = true) (by decide +kernel)
  obtain ⟨r', e, heq, hleft⟩ := of_raises hraise
  have hidle := Option.isNone_iff_eq_none.mp hidle
  refine ⟨r₀, r, r', e, h₀, hr.unrestricted, hidle, heq, fun hc => ?_⟩
  rw [hc.active "a", hidle] at hleft
  cases hleft

end ModelRunner

end SglangMlx
