import SglangMlx.RadixRun

/- Locks token by token. A split moves a token to another node, so a token's lock
   count is that of the node which stores it now: it is the number of outstanding
   locks on nodes that spell the token (`Wf.lockRef_holder`). Likewise
   `protected_size()` counts the token sequences that some locked node spells
   (`Wf.protectedSize_eq`). Neither depends on how the tree is cut into nodes. -/
namespace SglangMlx

namespace RadixCache

/-- Every token stored in `c` is stored in `c'`, under the same lock count. -/
def KeepsLocks (c c' : RadixCache) : Prop :=
  ∀ key n, Holds c n key → ∃ n', Holds c' n' key ∧ (c'.nodes n').lockRef = (c.nodes n).lockRef

/-- The tokens stored in `c'` that were not stored in `c` have no lock. -/
def AddsUnlocked (c c' : RadixCache) : Prop :=
  ∀ key n', Holds c' n' key → (∀ n, ¬Holds c n key) → (c'.nodes n').lockRef = 0

/-- The nodes of `T` are nodes of `T'`, with the same root paths. -/
structure Retains (T T' : Tree) : Prop where
  subset : T.nodes ⊆ T'.nodes
  path : ∀ n ∈ T.nodes, T'.path n = T.path n

theorem Retains.refl (T : Tree) : Retains T T := ⟨fun _ h => h, fun _ _ => rfl⟩

theorem Retains.trans {T T' T'' : Tree} (h : Retains T T') (h' : Retains T' T'') : Retains T T'' :=
  ⟨h.subset.trans h'.subset, fun n hn => (h'.path n (h.subset hn)).trans (h.path n hn)⟩

theorem Retains.letters {T T' : Tree} (h : Retains T T') {n : NodeId} (hn : n ∈ T.nodes) :
    T'.letters n = T.letters n := by
  rw [PrefixTree.letters, h.path n hn]
  rfl

theorem Retains.pos {T T' : Tree} (h : Retains T T') {q : List (Token × Slot)} (hq : T.Pos q) : T'.Pos q := by
  obtain ⟨hne, n, hn, hle⟩ := hq
  exact ⟨hne, n, h.subset hn, by rw [h.path n hn]; exact hle⟩

section
variable {c c' : RadixCache} {T T' : Tree} {locks : List NodeId}

theorem Refined.retains (h : Refined c T c' T') : Retains T T' := ⟨h.subset, h.path⟩

theorem Grown.retains {q e : List (Token × Slot)} (h : Grown c T c' T' q e) : Retains T T' := ⟨h.subset, h.path⟩

theorem Rep.exists_holder (h : Rep c T) {n : NodeId} {key : List Token} (hn : n ∈ T.nodes)
    (hk : key <+: T.letters n) (hne : key ≠ []) : ∃ m, Holds c m key := by
  obtain ⟨q, hq, _, rfl⟩ := PrefixTree.exists_pos hn hk hne
  obtain ⟨m, hm, hr, hlt, hqm⟩ := hq.holder
  exact ⟨m, h.holds_iff.mpr ⟨hm, hr, hqm.map _, by rwa [List.length_map]⟩⟩

theorem Holds.ne_nil (h : Rep c T) {n : NodeId} {key : List Token} (hk : Holds c n key) : key ≠ [] := by
  obtain ⟨_, _, _, hlt⟩ := h.holds_iff.mp hk
  exact List.ne_nil_of_length_pos (Nat.lt_of_le_of_lt (Nat.zero_le _) hlt)

theorem Rep.below_holder (h : Rep c T) {n m : NodeId} {key : List Token} (hk : Holds c n key) (hm : m ∈ T.nodes) :
    T.path n <+: T.path m ↔ key <+: T.letters m := by
  have hne := Holds.ne_nil h hk
  obtain ⟨hn, hr, hle, hlt⟩ := h.holds_iff.mp hk
  refine ⟨fun hnm => hle.trans (hnm.map _), fun hkm => ?_⟩
  obtain ⟨q, _, hqn, rfl⟩ := PrefixTree.exists_pos hn hle hne
  exact PrefixTree.holder_le hn hr (by rwa [List.length_map] at hlt) hqn hm hkm

theorem Wf.lockRef_holder (h : Wf c T locks) {n : NodeId} {key : List Token} (hk : Holds c n key) :
    (c.nodes n).lockRef = locks.countP fun m => decide (key <+: T.letters m) := by
  obtain ⟨hn, hr, _⟩ := h.rep.holds_iff.mp hk
  rw [h.book.lock n hn hr, lockCount]
  refine congrArg Nat.cast (List.countP_congr fun m hm => ?_)
  rw [decide_eq_true_eq, decide_eq_true_eq, h.rep.below_holder hk (h.book.locks_mem m hm)]

/-! ## The protected size -/

/-- The token sequences that some locked node spells. -/
def lockedKeys (T : Tree) (locks : List NodeId) : Finset (List Token) :=
  ((locks.flatMap fun m => (T.letters m).inits).toFinset).erase []

theorem mem_lockedKeys {key : List Token} : key ∈ lockedKeys T locks ↔ key ≠ [] ∧
    ∃ m ∈ locks, key <+: T.letters m := by
  rw [lockedKeys, Finset.mem_erase, List.mem_toFinset, List.mem_flatMap]
  simp only [List.mem_inits]

/-- The token sequences whose last token `n` stores. -/
def heldKeys (T : Tree) (n : NodeId) : Finset (List Token) :=
  (Finset.range (T.edge n).length).image fun i => (T.letters n).take ((T.path (T.parent n)).length + i + 1)

theorem mem_heldKeys {n : NodeId} {key : List Token} (hn : n ∈ T.nodes) (hr : n ≠ T.root) :
    key ∈ heldKeys T n ↔ key <+: T.letters n ∧ (T.path (T.parent n)).length < key.length := by
  have hlen := PrefixTree.path_length hn hr
  rw [heldKeys, Finset.mem_image]
  constructor
  · rintro ⟨i, hi, rfl⟩
    have hi := Finset.mem_range.mp hi
    refine ⟨List.take_prefix _ _, ?_⟩
    rw [List.length_take, PrefixTree.letters_length]
    omega
  · intro ⟨hk, hlt⟩
    have hle := hk.length_le
    rw [PrefixTree.letters_length] at hle
    refine ⟨key.length - (T.path (T.parent n)).length - 1, Finset.mem_range.mpr (by omega), ?_⟩
    rw [show (T.path (T.parent n)).length + (key.length - (T.path (T.parent n)).length - 1) + 1 =
      key.length by omega]
    exact (List.prefix_iff_eq_take.mp hk).symm

theorem card_heldKeys {n : NodeId} (hn : n ∈ T.nodes) (hr : n ≠ T.root) :
    (heldKeys T n).card = (T.edge n).length := by
  have hlen := PrefixTree.path_length hn hr
  rw [heldKeys, Finset.card_image_of_injOn, Finset.card_range]
  intro i hi j hj heq
  have hi := Finset.mem_range.mp hi
  have hj := Finset.mem_range.mp hj
  have := congrArg List.length heq
  simp only [List.length_take, PrefixTree.letters_length] at this
  omega

/-- The protected tokens, counted by the sequences that end in them. -/
theorem Wf.protectedSize_eq (h : Wf c T locks) : c.protectedSize = ((lockedKeys T locks).card : Int) := by
  have hlocked : ∀ n ∈ T.nodes, n ≠ T.root → (0 < (c.nodes n).lockRef ↔ ∃ m ∈ locks, T.path n <+: T.path m) := by
    intro n hn hr
    rw [h.book.lock n hn hr, lockCount, Int.natCast_pos, List.countP_pos_iff]
    simp only [decide_eq_true_eq]
  have hunion : lockedKeys T locks =
      ((T.nodes.erase T.root).filter fun n => 0 < (c.nodes n).lockRef).biUnion (heldKeys T) := by
    ext key
    rw [mem_lockedKeys, Finset.mem_biUnion]
    constructor
    · rintro ⟨hne, m, hm, hk⟩
      have hmT := h.book.locks_mem m hm
      obtain ⟨n, hnk⟩ := h.rep.exists_holder hmT hk hne
      have hnm := (h.rep.below_holder hnk hmT).mpr hk
      obtain ⟨hn, hr, hle, hlt⟩ := h.rep.holds_iff.mp hnk
      exact ⟨n, Finset.mem_filter.mpr ⟨Finset.mem_erase.mpr ⟨hr, hn⟩, (hlocked n hn hr).mpr ⟨m, hm, hnm⟩⟩,
        (mem_heldKeys hn hr).mpr ⟨hle, hlt⟩⟩
    · rintro ⟨n, hn, hkn⟩
      obtain ⟨hn, hpos⟩ := Finset.mem_filter.mp hn
      obtain ⟨hr, hn⟩ := Finset.mem_erase.mp hn
      obtain ⟨hle, hlt⟩ := (mem_heldKeys hn hr).mp hkn
      obtain ⟨m, hm, hnm⟩ := (hlocked n hn hr).mp hpos
      exact ⟨List.ne_nil_of_length_pos (Nat.lt_of_le_of_lt (Nat.zero_le _) hlt), m, hm, hle.trans (hnm.map _)⟩
  have hdisj : (((T.nodes.erase T.root).filter fun n => 0 < (c.nodes n).lockRef : Finset NodeId) : Set
    NodeId).PairwiseDisjoint
      (heldKeys T) := by
    intro n hn m hm hne
    obtain ⟨hnr, hn⟩ := Finset.mem_erase.mp (Finset.mem_filter.mp hn).1
    obtain ⟨hmr, hm⟩ := Finset.mem_erase.mp (Finset.mem_filter.mp hm).1
    refine Finset.disjoint_left.mpr fun key hkn hkm => hne ?_
    obtain ⟨hln, hltn⟩ := (mem_heldKeys hn hnr).mp hkn
    obtain ⟨hlm, hltm⟩ := (mem_heldKeys hm hmr).mp hkm
    have hHn := h.rep.holds_iff.mpr ⟨hn, hnr, hln, hltn⟩
    have hHm := h.rep.holds_iff.mpr ⟨hm, hmr, hlm, hltm⟩
    have h1 := (h.rep.below_holder hHn hm).mpr hlm
    have h2 := (h.rep.below_holder hHm hn).mpr hln
    exact PrefixTree.path_inj hn hm (h1.eq_of_length_le h2.length_le)
  have hcard : (lockedKeys T locks).card =
      ∑ n ∈ (T.nodes.erase T.root).filter fun n => 0 < (c.nodes n).lockRef, (T.edge n).length := by
    rw [hunion, Finset.card_biUnion hdisj]
    refine Finset.sum_congr rfl fun n hn => ?_
    obtain ⟨hr, hn⟩ := Finset.mem_erase.mp (Finset.mem_filter.mp hn).1
    exact card_heldKeys hn hr
  calc c.protectedSize = sizeWhere T fun n => 0 < (c.nodes n).lockRef := h.book.guarded
    _ = ∑ n ∈ T.nodes.erase T.root, if 0 < (c.nodes n).lockRef then ((T.edge n).length : Int) else 0 := by
      rw [sizeWhere, ← Finset.add_sum_erase T.nodes _ T.root_mem, T.edge_root]
      simp only [List.length_nil, Nat.cast_zero, ite_self, zero_add]
    _ = ((lockedKeys T locks).card : Int) := by
      rw [hcard, Finset.sum_filter, Nat.cast_sum]
      exact Finset.sum_congr rfl fun n _ => by split <;> simp

/-! ## Two caches with the same outstanding locks -/

theorem Retains.keepsLocks (hr : Retains T T') (h : Wf c T locks) (h' : Wf c' T' locks) : KeepsLocks c c' := by
  intro key n hk
  obtain ⟨hn, _, hle, _⟩ := h.rep.holds_iff.mp hk
  obtain ⟨n', hk'⟩ := h'.rep.exists_holder (hr.subset hn) (by rw [hr.letters hn]; exact hle)
    (Holds.ne_nil h.rep hk)
  refine ⟨n', hk', ?_⟩
  rw [h.lockRef_holder hk, h'.lockRef_holder hk']
  refine congrArg Nat.cast (List.countP_congr fun m hm => ?_)
  rw [hr.letters (h.book.locks_mem m hm)]

theorem Retains.addsUnlocked (hr : Retains T T') (h : Wf c T locks) (h' : Wf c' T' locks) :
    AddsUnlocked c c' := by
  intro key n' hk' hnew
  rw [h'.lockRef_holder hk', Nat.cast_eq_zero, List.countP_eq_zero]
  intro m hm hle
  have hmT := h.book.locks_mem m hm
  rw [decide_eq_true_eq, hr.letters hmT] at hle
  obtain ⟨n, hk⟩ := h.rep.exists_holder hmT hle (Holds.ne_nil h'.rep hk')
  exact hnew n hk

theorem Retains.protectedSize (hr : Retains T T') (h : Wf c T locks) (h' : Wf c' T' locks) :
    c'.protectedSize = c.protectedSize := by
  rw [h.protectedSize_eq, h'.protectedSize_eq]
  congr 2
  ext key
  rw [mem_lockedKeys, mem_lockedKeys]
  refine and_congr_right fun _ => exists_congr fun m => and_congr_right fun hm => ?_
  rw [hr.letters (h.book.locks_mem m hm)]

end

end RadixCache

end SglangMlx
