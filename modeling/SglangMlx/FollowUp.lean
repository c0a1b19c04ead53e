import SglangMlx.ReferenceDecoding
import SglangMlx.FullCache

/- A conversation. The prompt of a follow-up is the prompt before, what was generated for
   it, and new tokens. What `generate` decoded stays cached while nothing is evicted, so a
   follow-up asks for slots for the new tokens only, and for the stop token, which was
   not decoded. -/
namespace SglangMlx

namespace CausalModel
variable {α Λ : Type} (m : CausalModel α Λ)

theorem reference_length {layers : Nat} {sampler : ModelRunner.Sampler Λ} {stopTokens : Finset Token}
    {promptTokens xs : List Token} : ∀ {n : Nat} {generated : List Token},
    (m.reference layers sampler stopTokens promptTokens n generated).2 = .ok xs →
    xs.length ≤ generated.length + (m.reference layers sampler stopTokens promptTokens n generated).1 + 1 := by
  intro n
  induction n with
  | zero =>
    intro generated h
    cases h
    exact Nat.le_succ _
  | succ n ih =>
    intro generated h
    cases hs : sampler generated.length (m.recomputeLogits layers (promptTokens ++ generated)) with
    | error e =>
      rw [reference, hs] at h
      cases h
    | ok token =>
      by_cases hstop : token ∈ stopTokens
      · simp only [reference, hs, if_pos hstop] at h ⊢
        cases h
        simp
      · simp only [reference, hs, if_neg hstop] at h ⊢
        have hlen := ih h
        rw [List.length_append, List.length_singleton] at hlen
        omega

end CausalModel

theorem RadixCache.LongestCached.le {c : RadixCache} {key key' : List Token} {k : Nat} (h : LongestCached c key k)
    (hle : key' <+: key) {s : Slot} (hs : Maps c key' s) : key'.length ≤ k :=
  h.2 ⟨hle.length_le, Or.inr ⟨s, by rwa [← List.prefix_iff_eq_take.mp hle]⟩⟩

namespace ModelRunner
variable {α Λ : Type}

section
variable {model : Model α Λ} {now : Clock} {r r' : ModelRunner α} {T : Tree} {orphans : List NodeId}

theorem Sound.exec_retains (h : r.Sound T orphans) {call : Call} {res : Except PyError (Option Λ)}
    (heq : r.exec model now call = some (r', res)) (hown : call.own = true) :
    ∃ T' orphans', r'.Sound T' orphans' ∧ RadixCache.Retains T T' := by
  have hending : ∀ {id newTokens layers pre new missing orphans' r' res},
      Ending model r T orphans orphans' id newTokens layers pre new missing r' res →
      ∃ T' orphans', r'.Sound T' orphans' ∧ RadixCache.Retains T T' := by
    intro id newTokens layers pre new missing orphans' r' res hend
    cases hend with
    | starved h' hret => exact ⟨_, _, h', hret⟩
    | raised h' hret => exact ⟨_, _, h', hret⟩
    | served h' hret => exact ⟨_, _, h', hret⟩
  cases call with
  | prefill id promptTokens =>
    obtain ⟨_, _, _, q, _, _, _, hq, _⟩ := h.wf.matchPrefix promptTokens
    obtain ⟨r₁, res₁, heq₁, hend, _⟩ := h.prefill model id hq rfl
    cases (exec_prefill heq₁).symm.trans heq
    exact hending hend
  | decode id tokenId =>
    cases hst : r.activeRequests.lookup id with
    | none => simp [ModelRunner.exec, forwardDecode, hst] at heq
    | some st =>
      obtain ⟨r₁, res₁, heq₁, hend⟩ := h.decode model hst tokenId
      cases (exec_decode heq₁).symm.trans heq
      exact hending hend
  | finish id =>
    cases hst : r.activeRequests.lookup id with
    | none => simp [ModelRunner.exec, finishRequest, hst] at heq
    | some st =>
      obtain ⟨r₁, heq₁, h₁, _⟩ := h.finish hst
      rw [ModelRunner.exec, heq₁] at heq
      cases heq
      exact ⟨T, orphans, h₁, .refl T⟩
  | evict tie numTokens => cases hown

theorem Reaches.keeps_cached (h : ∃ T orphans, r.Sound T orphans)
    (hr : Reaches model now (fun _ call _ => (call.own && call.nonEmpty) = true) r r')
    {key : List Token} {s : Slot} (hs : r.radixCache.Maps key s) : r'.radixCache.Maps key s := by
  obtain ⟨T, orphans, h⟩ := h
  suffices hkeep : ∃ T' orphans', r'.Sound T' orphans' ∧ RadixCache.Retains T T' by
    obtain ⟨T', orphans', h', hret⟩ := hkeep
    obtain ⟨q, t, hq, hk⟩ := h.wf.rep.maps_iff.mp hs
    exact h'.wf.rep.maps_iff.mpr ⟨q, t, hret.pos hq, hk⟩
  clear hs
  induction hr with
  | refl => exact ⟨T, orphans, h, .refl T⟩
  | step _ heq hok ih =>
    obtain ⟨T₁, orphans₁, h₁, hret₁⟩ := ih
    obtain ⟨T₂, orphans₂, h₂, hret₂⟩ := h₁.exec_retains heq (Bool.and_eq_true_iff.mp hok).1
    exact ⟨T₂, orphans₂, h₂, hret₁.trans hret₂⟩

theorem Reaches.append {r₀ : ModelRunner α}
    (hr : Reaches model now (fun r call _ => (r.evictsIdle call && call.nonEmpty) = true) r₀ r)
    (hr' : Reaches model now (fun _ call _ => (call.own && call.nonEmpty) = true) r r') :
    Reaches model now (fun r call _ => (r.evictsIdle call && call.nonEmpty) = true) r₀ r' := by
  induction hr' with
  | refl => exact hr
  | @step r₁ r₂ call res _ heq hok ih =>
    refine ih.step heq ?_
    cases call with
    | evict tie numTokens => cases hok
    | prefill id promptTokens => exact hok
    | decode id tokenId => rfl
    | finish id => rfl

end

/-- A follow-up to what `generate` returned asks for a slot for each new token, one more,
    and those it decodes, whatever calls but evictions came in between. -/
theorem follow_up_pays_for_new_tokens (m : CausalModel α Λ) (now : Clock) (zero : α) (config : ModelConfig)
    (poolSize : Int) (r₀ r r₁ r₂ : ModelRunner α) (h₀ : ModelRunner.init zero config poolSize = .ok r₀)
    (hr : Reaches m.toModel now (fun r call _ => (r.evictsIdle call && call.nonEmpty) = true) r₀ r)
    (id id' : String) (promptTokens : List Token) (hne : promptTokens ≠ []) (maxTokens maxTokens' : Int)
    (sampler sampler' : Sampler Λ) (stopTokens stopTokens' : Finset Token) (generated : List Token)
    (hgen : r.generate m.toModel id promptTokens maxTokens sampler stopTokens = some (r₁, .ok generated))
    (hr₂ : Reaches m.toModel now (fun _ call _ => (call.own && call.nonEmpty) = true) r₁ r₂)
    (followUp : List Token) (hroom : followUp.length + 1 + (m.reference config.numLayers sampler' stopTokens'
      (promptTokens ++ generated ++ followUp) maxTokens'.toNat []).1 ≤ r₂.freeSlots.length) :
    ∃ r₃, r₂.generate m.toModel id' (promptTokens ++ generated ++ followUp) maxTokens' sampler' stopTokens' =
      some (r₃, (m.reference config.numLayers sampler' stopTokens' (promptTokens ++ generated ++ followUp)
        maxTokens'.toNat []).2) ∧
      r₂.freeSlots.length ≤ r₃.freeSlots.length + (followUp.length + 1 + (m.reference config.numLayers sampler'
        stopTokens' (promptTokens ++ generated ++ followUp) maxTokens'.toNat []).1) := by
  obtain ⟨k, r', res, hk, heq, hr', hfirst⟩ := hr.generates h₀ id hne maxTokens sampler stopTokens
  cases heq.symm.trans hgen
  have hr₂' := hr'.append hr₂
  have hne' : promptTokens ++ generated ++ followUp ≠ [] := by simp [hne]
  obtain ⟨k', r₃, res', hk', heq', -, hsecond⟩ := hr₂'.generates h₀ id' hne' maxTokens' sampler' stopTokens'
  -- the start of the new prompt is cached
  obtain ⟨s, hs⟩ := hfirst.cached generated rfl
  have hcached := hr₂.keeps_cached (hr'.sound h₀) hs
  have hprefix : promptTokens ++ generated.take (m.reference config.numLayers sampler stopTokens promptTokens
      maxTokens.toNat []).1 <+: promptTokens ++ generated ++ followUp := by
    rw [List.append_assoc]
    exact (List.prefix_append_right_inj promptTokens).mpr ((List.take_prefix _ _).trans (List.prefix_append _ _))
  have hlong := hk'.le hprefix hcached
  have hdecoded : generated.length ≤
    (m.reference config.numLayers sampler stopTokens promptTokens maxTokens.toNat []).1 + 1 := by
    have hfits : promptTokens.length - k + (m.reference config.numLayers sampler stopTokens promptTokens
        maxTokens.toNat []).1 ≤ r.freeSlots.length := by
      by_contra hlt
      obtain ⟨msg, he⟩ := hfirst.short (Nat.lt_of_not_le hlt)
      cases he
    have hlen := m.reference_length (hfirst.done hfits).1.symm
    rwa [List.length_nil, Nat.zero_add] at hlen
  rw [List.length_append, List.length_take] at hlong
  have hmissing : (promptTokens ++ generated ++ followUp).length - k' ≤ followUp.length + 1 := by
    rw [List.length_append, List.length_append]
    omega
  obtain ⟨hres, hspent⟩ := hsecond.done (by omega)
  exact ⟨r₃, by rw [heq', hres], by omega⟩

/-- A prompt of 7 tokens on 3 free slots, after a request of another user. -/
theorem follow_up_pays_for_new_tokens_two : ∃ r r₁ r₂ r₃ : ModelRunner Nat, ∃ res,
    r.generate CausalModel.tally.toModel "a" [1, 2, 3] 4 (fun _ logits => .ok (logits % 7)) {5} =
      some (r₁, .ok [3, 3, 5]) ∧
    r₁.exec CausalModel.tally.toModel (fun r => r.op) (.prefill "c" [1]) = some (r₂, res) ∧
    r₂.freeSlots.length = 3 ∧
    r₂.generate CausalModel.tally.toModel "b" [1, 2, 3, 3, 3, 5, 4] 1 (fun _ logits => .ok (logits % 7)) ∅ =
      some (r₃, .ok [3]) := by
  obtain ⟨r₀, r, h₀, hr, hp⟩ := Reaches.of_init 0 ⟨2⟩ 8 CausalModel.tally.toModel (fun r => r.op)
    (fun r call _ => r.evictsIdle call && call.nonEmpty) []
    (P := fun r : ModelRunner Nat =>
      ((r.generate CausalModel.tally.toModel "a" [1, 2, 3] 4 (fun _ logits => .ok (logits % 7)) {5}).any fun x =>
        (match x.2 with | .ok xs => decide (xs = [3, 3, 5]) | .error _ => false) &&
        (x.1.exec CausalModel.tally.toModel (fun r => r.op) (.prefill "c" [1])).any fun y =>
          decide (y.1.freeSlots.length = 3)) = true) (by decide +kernel)
  obtain ⟨⟨r₁, res₁⟩, hgen, hp⟩ := (Option.any_eq_true _ _).mp hp
  obtain ⟨hres₁, hp⟩ := Bool.and_eq_true_iff.mp hp
  obtain ⟨⟨r₂, res₂⟩, hexec, hfree⟩ := (Option.any_eq_true _ _).mp hp
  have hfree : r₂.freeSlots.length = 3 := of_decide_eq_true hfree
  cases res₁ with
  | error e => cases hres₁
  | ok generated =>
    cases of_decide_eq_true hres₁
    have hdecoded : (CausalModel.tally.reference 2 (fun _ logits => .ok (logits % 7)) ∅
      [1, 2, 3, 3, 3, 5, 4] 1 []).1 = 1 := by decide +kernel
    have hres : (CausalModel.tally.reference 2 (fun _ logits => .ok (logits % 7)) ∅
      [1, 2, 3, 3, 3, 5, 4] 1 []).2 = .ok [3] := rfl
    obtain ⟨r₃, heq, -⟩ := follow_up_pays_for_new_tokens CausalModel.tally (fun r => r.op) 0 ⟨2⟩ 8 r₀ r r₁ r₂
      h₀ hr "a" "b" [1, 2, 3] (List.cons_ne_nil _ _) 4 1 (fun _ logits => .ok (logits % 7))
      (fun _ logits => .ok (logits % 7)) {5} ∅ [3, 3, 5] hgen (.step .refl hexec rfl) [4] (by
        show [4].length + 1 + (CausalModel.tally.reference 2 (fun _ logits => .ok (logits % 7)) ∅
          [1, 2, 3, 3, 3, 5, 4] 1 []).1 ≤ _
        rw [hdecoded, hfree]
        decide)
    exact ⟨r, r₁, r₂, r₃, res₂, hgen, hexec, hfree, by rw [← hres]; exact heq⟩

end ModelRunner

end SglangMlx
