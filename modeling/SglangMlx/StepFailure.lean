import SglangMlx.RunnerSound

/- What a forward step that raises leaves behind. `alloc` checks before it pops, so
   a step that cannot have its slots changes nothing but the access stamps and the
   cut of an edge. A step whose model call raises has popped its slots already, and
   nobody gives them back: they are neither free, nor stored, nor in a request. -/
namespace SglangMlx

namespace RadixCache

/-- The tree stores the first `k` tokens of `key` and no more of it. -/
def LongestCached (c : RadixCache) (key : List Token) (k : Nat) : Prop :=
  IsGreatest {j | j ≤ key.length ∧ (j = 0 ∨ ∃ s, Maps c (key.take j) s)} k

theorem Rep.longestCached {c : RadixCache} {T : Tree} (h : Rep c T) {key : List Token} {q : List (Token × Slot)}
    (hq : T.Longest key q) : LongestCached c key q.length := by
  have hle := hq.length_le
  refine ⟨⟨hle, ?_⟩, fun j ⟨hj, hj'⟩ => ?_⟩
  · rcases List.eq_nil_or_concat q with e | ⟨q₀, ⟨t, s⟩, e⟩
    · exact Or.inl (by rw [e]; rfl)
    · refine Or.inr ⟨s, h.maps_iff.mpr ⟨q₀, t, ?_, ?_⟩⟩
      · rw [List.concat_eq_append] at e
        have hpos := hq.pos.resolve_left (by rw [e]; exact List.concat_ne_nil _ _)
        rwa [e] at hpos
      · have := List.prefix_iff_eq_take.mp hq.letters
        rw [List.length_map] at this
        rw [← this, e, List.concat_eq_append, List.map_append]
        rfl
  · rcases hj' with rfl | ⟨s, hs⟩
    · exact Nat.zero_le _
    · obtain ⟨q₀, t, hpos, hk⟩ := h.maps_iff.mp hs
      have hfst : (q₀ ++ [(t, s)]).map Prod.fst = key.take j := by rw [List.map_append]; exact hk
      have := hq.longest _ hpos (by rw [hfst]; exact List.take_prefix _ _)
      have hlen := congrArg List.length hfst
      rw [List.length_map, List.length_take, min_eq_left hj] at hlen
      omega

theorem Wf.indices_congr {c c' : RadixCache} {T T' : Tree} {locks locks' : List NodeId} (h : Wf c T locks)
    (h' : Wf c' T' locks') (hpos : ∀ q, T'.Pos q ↔ T.Pos q) (key : List Token) :
    (c'.matchPrefix key).map (fun m => m.2.deviceIndices) = (c.matchPrefix key).map fun m =>
      m.2.deviceIndices := by
  obtain ⟨_, _, _, q, heq, _, _, hq, hres, _⟩ := h.matchPrefix key
  obtain ⟨_, _, _, q', heq', _, _, hq', hres', _⟩ := h'.matchPrefix key
  cases hq'.unique (hq.congr hpos)
  rw [heq, heq', Option.map_some, Option.map_some, hres, hres']

end RadixCache

namespace ModelRunner
variable {α Λ : Type}

/-- A step that raised left free list, tree, locks and requests as they were. -/
structure Untouched (r r' : ModelRunner α) : Prop where
  free : r'.freeSlots.Perm r.freeSlots
  indices : ∀ key, (r'.radixCache.matchPrefix key).map (fun m => m.2.deviceIndices) =
    (r.radixCache.matchPrefix key).map fun m => m.2.deviceIndices
  locks : r.radixCache.KeepsLocks r'.radixCache
  requests : r.SameRequests r'

theorem Sound.untouched {r r' : ModelRunner α} {T T' : Tree} {orphans : List NodeId} (h : r.Sound T orphans)
    (h' : r'.Sound T' orphans) (hret : RadixCache.Retains T T') (hpos : ∀ q, T'.Pos q ↔ T.Pos q)
    (hfree : r'.freeSlots = r.freeSlots) (hreq : r.SameRequests r')
    (hheld : (heldLocks r'.activeRequests).Perm (heldLocks r.activeRequests)) : r.Untouched r' where
  free := by rw [hfree]
  indices := h.wf.indices_congr h'.wf hpos
  locks := hret.keepsLocks h.wf (h'.wf.perm (hheld.append_left orphans).symm)
  requests := hreq

/-- A call whose model call raised, or that did not come to it, is undone unless it had
    been given slots. -/
theorem Ending.untouched_iff {model : Model α Λ} {r r' : ModelRunner α} {T : Tree}
    {orphans orphans' : List NodeId}
    {id : String} {newTokens : List Token} {layers : List Nat} {pre new : List Slot} {missing : Nat} {e : PyError}
    (h : r.Sound T orphans)
    (hend : Ending model r T orphans orphans' id newTokens layers pre new missing r' (.error e))
    (hcause : newTokens = [] → ∃ e, (model newTokens r.pool (freshCaches layers pre new)).2.2 = .error e) :
    r.Untouched r' ↔ r.freeSlots.length < missing ∨ missing = 0 := by
  have hshape : ∀ {r'' : ModelRunner α} {T' : Tree}, r''.Sound T' orphans → RadixCache.Retains T T' →
      (∀ q, T'.Pos q ↔ T.Pos q) → r.Takes missing r'' → r.SameRequests r'' →
      (heldLocks r''.activeRequests).Perm (heldLocks r.activeRequests) →
      (r.Untouched r'' ↔ r.freeSlots.length < missing ∨ missing = 0) := by
    intro r'' T' h' hret hpos htakes hreq hheld
    have hlen := htakes.length
    refine ⟨fun hu => ?_, fun hor => ?_⟩
    · -- the slots handed out are missing from the free list
      have := hu.free.length_eq
      omega
    · have hfree : r''.freeSlots = r.freeSlots := by
        rw [htakes.free, show missing = 0 by omega, Nat.sub_zero, List.take_length]
      exact h.untouched h' hret hpos hfree hreq hheld
  generalize hres : Except.error e = res at hend
  cases hend with
  | @starved c T' msg h' hret hpos ha hlt =>
    have hfree : freeSlots { r with radixCache := c } = r.freeSlots := by
      unfold freeSlots RadixCache.freeList
      rw [ha]
    exact ⟨fun _ => Or.inl hlt, fun _ => h.untouched h' hret hpos hfree (.refl r) (.refl _)⟩
  | raised h' hret hpos htakes _ hreq hheld => exact hshape h' hret hpos htakes hreq hheld
  | served _ _ _ hcall =>
    exfalso
    by_cases hne : newTokens = []
    · obtain ⟨e', he'⟩ := hcause hne
      rw [hcall] at he'
      cases he'
    · obtain ⟨row, _, hrow⟩ := Model.lastLogits_eq hcall hne
      rw [hrow] at hres
      cases hres

/-- The model raises when it is called on no token. -/
def RaisesOnNothing (model : Model α Λ) (r : ModelRunner α) : Prop :=
  ∃ e, (model [] r.pool (freshCaches (List.range r.config.numLayers) [] [])).2.2 = .error e

theorem raisesOnNothing_iff {model : Model α Λ} {r : ModelRunner α} {promptTokens : List Token}
    {cached pre new : List Slot} (hnil : promptTokens = []) (hlen : cached.length ≤ promptTokens.length)
    (hslots : r.prefillSlots promptTokens cached = (pre, new)) : r.RaisesOnNothing model ↔
      ∃ e, (model (promptTokens.drop pre.length) r.pool
        (freshCaches (List.range r.config.numLayers) pre new)).2.2 = .error e := by
  obtain ⟨rfl, rfl⟩ := r.prefillSlots_nil hnil hlen hslots
  rw [hnil]
  exact Iff.rfl

/-- A forward step that `alloc` or the model makes raise is undone exactly when `alloc`
    raised, or when it asked for no slot: a prompt with `k` cached tokens asks for the
    others, a decode for one. Only on an empty prompt can anything else raise. -/
theorem failed_step_undone (zero : α) (config : ModelConfig) (poolSize : Int) (model : Model α Λ) (now : Clock)
    (r₀ r : ModelRunner α) (h₀ : ModelRunner.init zero config poolSize = .ok r₀)
    (hr : Reaches model now (fun _ _ _ => True) r₀ r) :
    (∀ id promptTokens r' e, r.forwardPrefill model id promptTokens = some (r', .error e) →
      (promptTokens = [] → r.RaisesOnNothing model) →
      ∃ k, r.radixCache.LongestCached promptTokens k ∧
        (r.Untouched r' ↔ r.freeSlots.length < promptTokens.length - k ∨ k = promptTokens.length)) ∧
    ∀ id tokenId r' e, r.forwardDecode model id tokenId = some (r', .error e) →
      (r.Untouched r' ↔ r.freeSlots = []) := by
  obtain ⟨T, orphans, h⟩ := hr.sound h₀
  refine ⟨fun id promptTokens r' e heq hcause => ?_, fun id tokenId r' e heq => ?_⟩
  · obtain ⟨_, _, _, q, _, _, _, hq, _⟩ := h.wf.matchPrefix promptTokens
    have hlong := h.wf.rep.longestCached hq
    have hle := hlong.1.1
    rcases hslots : r.prefillSlots promptTokens (q.map Prod.snd) with ⟨pre, new⟩
    obtain ⟨r₁, res, heq₁, hend, _⟩ := h.prefill model id hq hslots
    cases heq₁.symm.trans heq
    refine ⟨q.length, hlong, (hend.untouched_iff h fun hnil => ?_).trans (or_congr_right ?_)⟩
    · have hlen : (q.map Prod.snd).length ≤ promptTokens.length := by rwa [List.length_map]
      have hprompt : promptTokens = [] := by
        by_contra hne
        have hlt := r.prefillSlots_lt hlen hne hslots
        have := List.drop_eq_nil_iff.mp hnil
        omega
      exact (raisesOnNothing_iff hprompt hlen hslots).mp (hcause hprompt)
    · omega
  · cases hst : r.activeRequests.lookup id with
    | none => simp [forwardDecode, hst] at heq
    | some st =>
      obtain ⟨r₁, res, heq₁, hend⟩ := h.decode model hst tokenId
      cases heq₁.symm.trans heq
      rw [hend.untouched_iff h fun hnil => absurd hnil (List.cons_ne_nil _ _), ← List.length_eq_zero_iff]
      omega

/-- A model that raises when it is given the token 13 alone. -/
def superstitious : Model Nat Nat where
  call newTokens pool kvCaches :=
    (pool, kvCaches, if newTokens = [13] then .error (.callee "13") else .ok newTokens)
  shape newTokens _ _ logits h := by
    by_cases h13 : newTokens = [13]
    · rw [if_pos h13] at h
      cases h
    · rw [if_neg h13] at h
      cases h
      rfl

/-- What an executed step raises. -/
def raises {β : Type} (ok : ModelRunner α → Bool) : Option (ModelRunner α × Except PyError β) → Bool
  | some (r, .error _) => ok r
  | _ => false

theorem of_raises {β : Type} {ok : ModelRunner α → Bool} {x : Option (ModelRunner α × Except PyError β)}
    (h : raises ok x = true) : ∃ r e, x = some (r, .error e) ∧ ok r = true := by
  match x, h with
  | some (r, .error e), h => exact ⟨r, e, rfl, h⟩

/-- With a full pool a decode and a prefill raise, and both are undone. -/
theorem failed_step_undone_full : ∃ r₀ r r₁ r₂ : ModelRunner Nat, ∃ e₁ e₂, ModelRunner.init 0 ⟨1⟩ 1 = .ok r₀ ∧
    Reaches superstitious (fun r => r.op) (fun _ _ _ => True) r₀ r ∧
    r.forwardDecode superstitious "a" 2 = some (r₁, .error e₁) ∧ r.Untouched r₁ ∧
    r.forwardPrefill superstitious "b" [5, 6] = some (r₂, .error e₂) ∧ r.Untouched r₂ := by
  obtain ⟨r₀, r, h₀, hr, hfree, hdecode, hprefill⟩ := Reaches.of_init 0 ⟨1⟩ 1 superstitious (fun r => r.op)
    (fun _ _ _ => true) [.prefill "a" [1]] (P := fun r : ModelRunner Nat => r.freeSlots = [] ∧
      raises (fun _ => true) (r.forwardDecode superstitious "a" 2) = true ∧
      raises (fun _ => true) (r.forwardPrefill superstitious "b" [5, 6]) = true) (by decide +kernel)
  have hr := hr.unrestricted
  obtain ⟨r₁, e₁, heq₁, _⟩ := of_raises hdecode
  obtain ⟨r₂, e₂, heq₂, _⟩ := of_raises hprefill
  obtain ⟨hp, hd⟩ := failed_step_undone 0 ⟨1⟩ 1 superstitious (fun r => r.op) r₀ r h₀ hr
  obtain ⟨k, hk, hiff⟩ := hp "b" [5, 6] r₂ e₂ heq₂ fun hnil => absurd hnil (List.cons_ne_nil _ _)
  refine ⟨r₀, r, r₁, r₂, e₁, e₂, h₀, hr, heq₁, (hd "a" 2 r₁ e₁ heq₁).mpr hfree, heq₂, hiff.mpr ?_⟩
  -- whatever is cached, what is missing is not free
  have hle : k ≤ [5, 6].length := hk.1.1
  rw [hfree, List.length_nil]
  omega

/-- When the model raises, the slot of the prompt is gone. -/
theorem raising_model_loses_slot : ∃ r₀ r r' : ModelRunner Nat, ∃ e, ModelRunner.init 0 ⟨1⟩ 4 = .ok r₀ ∧
    Reaches superstitious (fun r => r.op) (fun _ _ _ => True) r₀ r ∧
    r.forwardPrefill superstitious "a" [13] = some (r', .error e) ∧ ¬r.Untouched r' := by
  obtain ⟨r₀, r, h₀, hr, hfree, hraise⟩ := Reaches.of_init 0 ⟨1⟩ 4 superstitious (fun r => r.op)
    (fun _ _ _ => true) [] (P := fun r : ModelRunner Nat => r.freeSlots.length = 4 ∧
      raises (fun r' => r'.freeSlots.length == 3) (r.forwardPrefill superstitious "a" [13]) = true)
        (by decide +kernel)
  obtain ⟨r', e, heq, hlost⟩ := of_raises hraise
  refine ⟨r₀, r, r', e, h₀, hr.unrestricted, heq, fun hu => ?_⟩
  have := hu.free.length_eq
  rw [hfree, beq_iff_eq.mp hlost] at this
  cases this

end ModelRunner

end SglangMlx
