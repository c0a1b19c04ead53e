import SglangMlx.RadixRun
import SglangMlx.Lib.PrefixMap

/- Who owns a pool slot. A slot is free, or stored at a position of the radix
   tree, or claimed by a request, and the last two may overlap. `own` says which
   token sequence a slot in use holds the last token of: a stored slot that of its
   position, a claimed slot that of its place in the request. Because a slot has
   one owner, a request's slots are pairwise distinct, and inserting a request
   into the tree never stores a slot twice.

   A ledger survives taking slots from the free list (`Ledger.claim`), inserting a
   claim (`Ledger.insert`), giving a claim up (`Ledger.mono`), and freeing stored
   slots that nobody claims (`Ledger.evict`). -/
namespace SglangMlx

variable {T T' : Tree} {free : List Slot} {own : Slot → List Token}

/-- `claimed tokens slots`: some request holds `slots` for `tokens`. -/
structure Ledger (T : Tree) (free : List Slot) (claimed : List Token → List Slot → Prop)
    (own : Slot → List Token) : Prop where
  free_nodup : free.Nodup
  free_stored : ∀ s ∈ free, s ∉ T.stored
  free_claimed : ∀ s ∈ free, ∀ tokens slots, claimed tokens slots → s ∉ slots
  stored_nodup : T.stored.Nodup
  stored_own : ∀ key s, T.Labels key s → own s = key
  claimed_own : ∀ tokens slots, claimed tokens slots → slots.length = tokens.length ∧
    ∀ i s, slots[i]? = some s → own s = tokens.take (i + 1)

theorem nodup_of_own {tokens : List Token} {slots : List Slot} (hlen : slots.length ≤ tokens.length)
    (h : ∀ i s, slots[i]? = some s → own s = tokens.take (i + 1)) : slots.Nodup := by
  rw [List.nodup_iff_injective_get]
  intro ⟨i, hi⟩ ⟨j, hj⟩ heq
  have h1 := h i _ (List.getElem?_eq_getElem hi)
  have h2 := h j _ (List.getElem?_eq_getElem hj)
  have heq : slots[i] = slots[j] := heq
  rw [heq, h2] at h1
  have := congrArg List.length h1
  rw [List.length_take, List.length_take] at this
  apply Fin.ext
  show i = j
  omega

namespace Ledger
variable {claimed : List Token → List Slot → Prop}

theorem claimed_nodup (h : Ledger T free claimed own) {tokens : List Token} {slots : List Slot}
    (hc : claimed tokens slots) : slots.Nodup :=
  nodup_of_own (h.claimed_own tokens slots hc).1.le (h.claimed_own tokens slots hc).2

theorem congr (h : Ledger T free claimed own) (hpos : ∀ q, T'.Pos q ↔ T.Pos q) (hst : T'.stored = T.stored) :
    Ledger T' free claimed own where
  free_nodup := h.free_nodup
  free_stored := by rw [hst]; exact h.free_stored
  free_claimed := h.free_claimed
  stored_nodup := by rw [hst]; exact h.stored_nodup
  stored_own key s hl := by
    obtain ⟨q, t, hq, hk⟩ := hl
    exact h.stored_own key s ⟨q, t, (hpos _).mp hq, hk⟩
  claimed_own := h.claimed_own

theorem mono {claimed' : List Token → List Slot → Prop} (h : Ledger T free claimed own)
    (hc : ∀ tokens slots, claimed' tokens slots → claimed tokens slots) : Ledger T free claimed' own where
  free_nodup := h.free_nodup
  free_stored := h.free_stored
  free_claimed s hs tokens slots hcl := h.free_claimed s hs tokens slots (hc _ _ hcl)
  stored_nodup := h.stored_nodup
  stored_own := h.stored_own
  claimed_own tokens slots hcl := h.claimed_own tokens slots (hc _ _ hcl)

/-- Take `new` from the free list and claim it behind `base`, whose slots are in
    use for the start of `tokens` already. -/
theorem claim {kept new base : List Slot} {tokens : List Token} (h : Ledger T (kept ++ new) claimed own)
    (hlen : base.length + new.length = tokens.length)
    (hbase : ∀ i s, base[i]? = some s → own s = tokens.take (i + 1)) (hused : ∀ s ∈ base, s ∉ kept ++ new) :
    ∃ own', (∀ s, s ∉ new → own' s = own s) ∧
      Ledger T kept (fun k v => claimed k v ∨ (k = tokens ∧ v = base ++ new)) own' := by
  obtain ⟨hk, hn, hkn⟩ := List.nodup_append.mp h.free_nodup
  refine ⟨fun s => if s ∈ new then tokens.take (base.length + new.idxOf s + 1) else own s,
    fun s hs => if_neg hs, ⟨hk, fun s hs => h.free_stored s (List.mem_append_left _ hs), ?_,
      h.stored_nodup, ?_, ?_⟩⟩
  · intro s hs k v hc
    rcases hc with hc | ⟨_, rfl⟩
    · exact h.free_claimed s (List.mem_append_left _ hs) k v hc
    · intro hm
      rcases List.mem_append.mp hm with hm | hm
      · exact hused s hm (List.mem_append_left _ hs)
      · exact hkn s hs s hm rfl
  · intro key s hl
    have hs : s ∉ new := fun hs => h.free_stored s (List.mem_append_right _ hs) (PrefixTree.Labels.stored hl)
    simp only [hs, if_false]
    exact h.stored_own key s hl
  · intro k v hc
    rcases hc with hc | ⟨rfl, rfl⟩
    · refine ⟨(h.claimed_own k v hc).1, fun i s hs => ?_⟩
      have hs' : s ∉ new := fun hm =>
        h.free_claimed s (List.mem_append_right _ hm) k v hc (List.mem_of_getElem? hs)
      simp only [hs', if_false]
      exact (h.claimed_own k v hc).2 i s hs
    · refine ⟨by rw [List.length_append]; exact hlen, fun i s hs => ?_⟩
      by_cases hi : i < base.length
      · rw [List.getElem?_append_left hi] at hs
        have hs' : s ∉ new := fun hm => hused s (List.mem_of_getElem? hs) (List.mem_append_right _ hm)
        simp only [hs', if_false]
        exact hbase i s hs
      · have hi := Nat.le_of_not_lt hi
        rw [List.getElem?_append_right hi] at hs
        obtain ⟨hlt, he⟩ := List.getElem?_eq_some_iff.mp hs
        have hm : s ∈ new := List.mem_of_getElem? hs
        have hidx : new.idxOf s = i - base.length := by rw [← he]; exact hn.idxOf_getElem _ hlt
        simp only [hm, if_true, hidx, Nat.add_sub_cancel' hi]

/-- Insert a claim into the tree: the slots past the longest stored prefix of its
    tokens are stored now. -/
theorem insert (h : Ledger T free claimed own) {tokens : List Token} {slots : List Slot}
    (hc : claimed tokens slots) {q : List (Token × Slot)} (hq : T.Longest tokens q)
    (hpos : ∀ r, T'.Pos r ↔ T.Pos r ∨
      (r ≠ [] ∧ r <+: q ++ (tokens.drop q.length).zip (slots.drop q.length)))
    (hst : T'.stored = ((slots.drop q.length : List Slot) : Multiset Slot) + T.stored) :
    Ledger T' free claimed own := by
  obtain ⟨hlen, hown⟩ := h.claimed_own tokens slots hc
  have hdrop : ∀ s ∈ slots.drop q.length, s ∈ slots := fun s hs => List.mem_of_mem_drop hs
  refine ⟨h.free_nodup, fun s hs => ?_, h.free_claimed, ?_, fun key s hl => ?_, h.claimed_own⟩
  · rw [hst, Multiset.mem_add, not_or]
    exact ⟨fun hm => h.free_claimed s hs tokens slots hc (hdrop s (Multiset.mem_coe.mp hm)), h.free_stored s hs⟩
  · rw [hst]
    refine Multiset.nodup_add.mpr ⟨(h.claimed_nodup hc).sublist (List.drop_sublist _ _), h.stored_nodup, ?_⟩
    -- a slot past the longest prefix that is stored would be stored at its own position
    rw [Multiset.disjoint_left]
    intro s hm hs
    obtain ⟨key, hl⟩ := PrefixTree.labels_of_stored hs
    obtain ⟨i, hi⟩ := List.mem_iff_getElem?.mp (Multiset.mem_coe.mp hm)
    rw [List.getElem?_drop] at hi
    have hlt := (List.getElem?_eq_some_iff.mp hi).1
    have hkey := h.stored_own key s hl
    rw [hown _ s hi] at hkey
    rw [← hkey] at hl
    exact hq.not_labels (Nat.le_add_right _ _) (hlen ▸ hlt) hl
  · have hget := PrefixTree.toMap_get.mpr hl
    rw [PrefixTree.toMap_insert hlen hq hpos] at hget
    rcases PrefixMap.insert_get.mp hget with hk | ⟨_, hle, hne, hs⟩
    · exact h.stored_own key s (PrefixTree.toMap_get.mp hk)
    · rw [hown _ s hs, Nat.sub_add_cancel (List.length_pos_of_ne_nil hne)]
      exact (List.prefix_iff_eq_take.mp hle).symm

theorem evict {freed : List Slot} (h : Ledger T free claimed own)
    (hst : T.stored = (freed : Multiset Slot) + T'.stored) (hpos : ∀ q, T'.Pos q → T.Pos q)
    (hno : ∀ s ∈ freed, ∀ tokens slots, claimed tokens slots → s ∉ slots) :
    Ledger T' (free ++ freed) claimed own := by
  have hnd := h.stored_nodup
  rw [hst] at hnd
  obtain ⟨hf, ht, hdisj⟩ := Multiset.nodup_add.mp hnd
  have hsub : ∀ s, s ∈ freed ∨ s ∈ T'.stored → s ∈ T.stored := fun s hs => by
    rw [hst, Multiset.mem_add, Multiset.mem_coe]
    exact hs
  refine ⟨List.nodup_append.mpr ⟨h.free_nodup, hf, fun a ha b hb hab => ?_⟩, fun s hs => ?_, fun s hs => ?_, ht,
    fun key s hl => ?_, h.claimed_own⟩
  · exact h.free_stored a ha (hsub a (Or.inl (hab ▸ hb)))
  · rcases List.mem_append.mp hs with hs | hs
    · exact fun hm => h.free_stored s hs (hsub s (Or.inr hm))
    · exact Multiset.disjoint_left.mp hdisj hs
  · rcases List.mem_append.mp hs with hs | hs
    · exact h.free_claimed s hs
    · exact hno s hs
  · obtain ⟨q, t, hq, hk⟩ := hl
    exact h.stored_own key s ⟨q, t, hpos _ hq, hk⟩

end Ledger

end SglangMlx
