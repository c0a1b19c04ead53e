import SglangMlx.RunnerStep
import SglangMlx.CausalModel
import SglangMlx.RadixPin

/- Which slots of a live request an eviction can take. The lock of a request is on
   the node that prefill matched, so it protects the slots of the prompt. The slots
   of decoded tokens are stored below that node, where nobody holds a lock:
   between the decode and the end of the request an eviction may free them. Every
   run without such an eviction keeps the slots of all active requests in use. -/
namespace SglangMlx

namespace ModelRunner
variable {α Λ : Type}

/-- The slots of every active request are distinct and not free. -/
def SlotsSafe (r : ModelRunner α) : Prop :=
  ∀ id st, r.activeRequests.lookup id = some st →
    st.allSlotIndices.Nodup ∧ ∀ s ∈ st.allSlotIndices, s ∉ r.freeSlots

/-- The tree stores a slot of a decoded token of an active request at a node
    without a lock. -/
def Exposed (r : ModelRunner α) : Prop :=
  ∃ id st s n, r.activeRequests.lookup id = some st ∧ s ∈ st.allSlotIndices.drop st.promptTokens.length ∧
    RadixCache.InTree r.radixCache n ∧ (r.radixCache.nodes n).lockRef = 0 ∧
    s ∈ (r.radixCache.nodes n).value.getD []

/-- An eviction that asks for something meets no exposed slot. -/
def EvictsSafely (r : ModelRunner α) : Call → Prop
  | .evict _ numTokens => 0 < numTokens → ¬r.Exposed
  | _ => True

theorem Inv.slotsSafe {r : ModelRunner α} {T : Tree} {orphans : List NodeId} {own : Slot → List Token}
    (h : r.Inv T orphans own) : r.SlotsSafe := fun id st hst => by
  have hc : Claims r.activeRequests st.tokens st.allSlotIndices := ⟨id, st, hst, rfl, rfl⟩
  exact ⟨h.ledger.claimed_nodup hc, fun s hs hf => h.ledger.free_claimed s hf _ _ hc hs⟩

/-- Without exposed slots, what a node without a lock stores is nobody's. -/
theorem Inv.unclaimed {r : ModelRunner α} {T : Tree} {orphans : List NodeId} {own : Slot → List Token}
    (h : r.Inv T orphans own) (hex : ¬r.Exposed) {x : NodeId} (hx : x ∈ T.nodes)
    (hx0 : (r.radixCache.nodes x).lockRef = 0) {s : Slot} (hs : s ∈ (T.edge x).map Prod.snd)
    {tokens : List Token} {slots : List Slot} (hc : Claims r.activeRequests tokens slots) : s ∉ slots := by
  intro hm
  obtain ⟨hlen, hown⟩ := h.ledger.claimed_own _ _ hc
  obtain ⟨id, st, hst, rfl, rfl⟩ := hc
  obtain ⟨i, hi⟩ := List.mem_iff_getElem?.mp hm
  by_cases hip : i < st.promptTokens.length
  · -- a slot of the prompt is stored on the locked path
    obtain ⟨key, hkey, hoff⟩ := h.wf.book.off_locked hx hx0 hs
    have howner := h.ledger.stored_own key s hkey
    rw [hown i s hi, RequestState.tokens, List.take_append_of_le_length hip] at howner
    obtain ⟨_, hpath⟩ := h.pinned _ _ ⟨id, st, hst, rfl, rfl⟩
    have hletters : T.letters st.radixNode = st.promptTokens := by
      rw [RequestState.tokens, List.length_append] at hlen
      rw [PrefixTree.letters, hpath, List.map_fst_zip]
      rw [List.length_take, hlen]
      omega
    refine hoff st.radixNode (List.mem_append_right _ (mem_heldLocks hst)) ?_
    rw [hletters, ← howner]
    exact List.take_prefix _ _
  · -- a slot of a decoded token is exposed
    refine hex ⟨id, st, s, x, hst, List.mem_iff_getElem?.mpr ⟨i - st.promptTokens.length, ?_⟩,
      h.wf.rep.inTree_iff.mpr hx, hx0, ?_⟩
    · rw [List.getElem?_drop, Nat.add_sub_cancel' (Nat.le_of_not_lt hip)]
      exact hi
    · rw [h.wf.rep.value x hx]
      exact hs

/-- A call that evicts safely keeps the invariant, whatever it raises. -/
theorem Inv.exec {r r' : ModelRunner α} {T : Tree} {orphans : List NodeId} {own : Slot → List Token}
    (h : r.Inv T orphans own) {model : Model α Λ} {now : Clock} {call : Call} {res : Except PyError (Option Λ)}
    (heq : r.exec model now call = some (r', res)) (hsafe : r.EvictsSafely call) :
    ∃ T' orphans' own', r'.Inv T' orphans' own' := by
  have hout : ∀ {r₁ orphans' id tokens layers res₁}, some (r₁, res₁) = some (r', res) →
      Outcome model r T orphans orphans' own id tokens layers r₁ res₁ → ∃ T' orphans' own',
        r'.Inv T' orphans' own' := by
    intro r₁ orphans' id tokens layers res₁ he ho
    cases he
    cases ho with
    | starved h' => exact ⟨_, _, _, h'⟩
    | raised _ _ h' => exact ⟨_, _, _, h'⟩
    | served _ _ _ _ h' => exact ⟨_, _, _, h'⟩
  cases call with
  | prefill id promptTokens =>
    obtain ⟨r₁, res₁, heq₁, ho⟩ := h.prefill model now id promptTokens
    exact hout (heq₁.symm.trans heq) ho
  | decode id tokenId =>
    cases hst : r.activeRequests.lookup id with
    | none => simp [ModelRunner.exec, forwardDecode, hst] at heq
    | some st =>
      obtain ⟨r₁, res₁, heq₁, ho, _⟩ := h.decode model now hst tokenId
      exact hout (heq₁.symm.trans heq) ho
  | finish id =>
    cases hst : r.activeRequests.lookup id with
    | none => simp [ModelRunner.exec, finishRequest, hst] at heq
    | some st =>
      obtain ⟨c', heq₁, h', _⟩ := h.finish model now hst
      cases heq₁.symm.trans heq
      exact ⟨T, orphans, own, h'⟩
  | evict tie numTokens =>
    obtain ⟨c', T', xs, heq₁, h', _⟩ := h.evict model now tie numTokens
      fun hpos x hx _ hx0 s hs tokens slots hc => h.unclaimed (hsafe hpos) hx hx0 hs hc
    cases heq₁.symm.trans heq
    exact ⟨T', orphans, own, h'⟩

theorem Reaches.inv {zero : α} {config : ModelConfig} {poolSize : Int} {model : Model α Λ} {now : Clock}
    {r₀ r : ModelRunner α} (h₀ : ModelRunner.init zero config poolSize = .ok r₀)
    (hr : Reaches model now (fun r call _ => r.EvictsSafely call) r₀ r) :
    ∃ T orphans own, r.Inv T orphans own := by
  induction hr with
  | refl => exact ⟨_, _, _, (inv_init h₀).1⟩
  | step _ heq hsafe ih =>
    obtain ⟨T, orphans, own, h⟩ := ih
    exact h.exec heq hsafe

theorem Inv.evict_exposed {r : ModelRunner α} {T : Tree} {orphans : List NodeId} {own : Slot → List Token}
    (h : r.Inv T orphans own) (hex : r.Exposed) (model : Model α Λ) (now : Clock) (tie : TieBreak)
    {numTokens : Int} (hall : r.radixCache.evictableSize ≤ numTokens) :
    ∃ r', r.exec model now (.evict tie numTokens) = some (r', .ok none) ∧ ¬r'.SlotsSafe := by
  obtain ⟨id, st, s, n, hst, hs, hn, hn0, hsn⟩ := hex
  have hn := h.wf.rep.inTree_iff.mp hn
  rw [h.wf.rep.value n hn, Option.getD_some] at hsn
  obtain ⟨c', T', xs, heq, hw, hev, hstop, _⟩ := h.wf.evict now tie numTokens
  have hsh := hev.shrunk
  -- the node of the exposed slot is gone
  have hgone : n ∈ xs := by
    refine ((hsh.mem n).mp hn).resolve_left fun hn' => ?_
    have := hsh.all_locked hw.book hstop hall hn'
    rw [(hsh.stamps n).1] at this
    exact absurd hn0 this.ne'
  refine ⟨{ r with radixCache := c' }, by simp only [ModelRunner.exec, heq]; rfl, fun hsafe => ?_⟩
  refine (hsafe id st hst).2 s (List.mem_of_mem_drop hs) ?_
  obtain ⟨a, ha⟩ := h.allocator
  have hfree : c'.freeList = r.radixCache.freeList ++ RadixCache.slotsOf T xs := by
    have ha' : c'.allocator = r.radixCache.allocator.map fun a => a.free (RadixCache.slotsOf T xs) := by
      rw [hsh.eq]; rfl
    unfold RadixCache.freeList
    rw [ha', ha]
    rfl
  show s ∈ c'.freeList
  rw [hfree]
  exact List.mem_append_right _ (List.mem_flatMap.mpr ⟨n, hgone, hsn⟩)

/-- Runs whose evictions meet no exposed slot keep the slots of live requests in
    use. Wherever a slot is exposed, evicting everything frees it. -/
theorem live_slots_safe (zero : α) (config : ModelConfig) (poolSize : Int) (model : Model α Λ) (now : Clock)
    (r₀ r : ModelRunner α) (h₀ : ModelRunner.init zero config poolSize = .ok r₀)
    (hr : Reaches model now (fun r call _ => r.EvictsSafely call) r₀ r) :
    r.SlotsSafe ∧ (r.Exposed → ∀ tie numTokens, r.radixCache.evictableSize ≤ numTokens →
      ∃ r', r.exec model now (.evict tie numTokens) = some (r', .ok none) ∧ ¬r'.SlotsSafe) := by
  obtain ⟨T, orphans, own, h⟩ := hr.inv h₀
  exact ⟨h.slotsSafe, fun hex tie numTokens hall => h.evict_exposed hex model now tie hall⟩

theorem EvictsSafely.of_idle {r : ModelRunner α} {call : Call} (h : r.evictsIdle call = true) :
    r.EvictsSafely call := by
  cases call with
  | evict tie numTokens =>
    intro _ ⟨id, st, s, n, hst, _⟩
    rw [lookup_of_idle h id] at hst
    cases hst
  | _ => trivial

theorem live_slots_safe_turns : ∃ r₀ r : ModelRunner Nat, ModelRunner.init 0 ⟨1⟩ 4 = .ok r₀ ∧
    Reaches CausalModel.tally.toModel (fun r => r.op) (fun r call _ => r.EvictsSafely call) r₀ r ∧
    (∃ st, r.activeRequests.lookup "b" = some st ∧ st.allSlotIndices = [2, 3, 4]) ∧ r.SlotsSafe := by
  obtain ⟨r₀, r, h₀, hr, hp⟩ := Reaches.of_init 0 ⟨1⟩ 4 CausalModel.tally.toModel (fun r => r.op)
    (fun r call _ => r.evictsIdle call)
    [.prefill "a" [1, 2], .decode "a" 3, .finish "a", .evict (fun _ => 0) 1, .prefill "b" [1, 5], .decode "b" 6]
    (P := fun r : ModelRunner Nat =>
      ((r.activeRequests.lookup "b").any fun st => decide (st.allSlotIndices = [2, 3, 4])) = true)
        (by decide +kernel)
  have hr := hr.mono fun r call _ h => EvictsSafely.of_idle h
  obtain ⟨st, hst, hslots⟩ := (Option.any_eq_true _ _).mp hp
  exact ⟨r₀, r, h₀, hr, ⟨st, hst, of_decide_eq_true hslots⟩,
    (live_slots_safe 0 ⟨1⟩ 4 CausalModel.tally.toModel _ r₀ r h₀ hr).1⟩

/-- After a decode, `evict(1)` takes the slot of the decoded token. -/
theorem live_slot_recycled : ∃ r₀ r : ModelRunner Nat, ModelRunner.init 0 ⟨1⟩ 4 = .ok r₀ ∧
    Reaches CausalModel.tally.toModel (fun r => r.op) (fun _ _ _ => True) r₀ r ∧ ¬r.SlotsSafe := by
  obtain ⟨r₀, r, h₀, hr, hp⟩ := Reaches.of_init 0 ⟨1⟩ 4 CausalModel.tally.toModel (fun r => r.op)
    (fun _ _ _ => true) [.prefill "a" [1], .decode "a" 2, .evict (fun _ => 0) 1]
    (P := fun r : ModelRunner Nat =>
      ((r.activeRequests.lookup "a").any fun st => st.allSlotIndices.any r.freeSlots.contains) = true)
    (by decide +kernel)
  obtain ⟨st, hst, hp⟩ := (Option.any_eq_true _ _).mp hp
  obtain ⟨s, hs, hf⟩ := List.any_eq_true.mp hp
  exact ⟨r₀, r, h₀, hr.mono fun _ _ _ _ => trivial,
    fun hsafe => (hsafe "a" st hst).2 s hs (List.contains_iff_mem.mp hf)⟩

end ModelRunner

end SglangMlx
