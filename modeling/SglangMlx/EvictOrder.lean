import SglangMlx.RadixRun

/- The order of eviction. The heap of `evict` only sees leaves, but along a root
   path access stamps and priorities fall (`Aged`), so the leaf below an unlocked
   survivor that was passed over speaks for the survivor: under `lru` everything
   evicted was last used no later than everything unlocked that stays, under
   `priority` it comes no later in the order of priority and last use. -/
namespace SglangMlx

namespace RadixCache

theorem Book.unlocked_below {c : RadixCache} {T : Tree} {locks : List NodeId} (h : Book c T locks) :
    ∀ n ∈ T.nodes, ∀ m ∈ T.nodes, n ≠ T.root → T.path n <+: T.path m → (c.nodes n).lockRef = 0 →
      (c.nodes m).lockRef = 0 := by
  intro n hn m hm hr hle h0
  have h1 := h.lock_antitone hn hm hr hle
  have h2 := h.lock_nonneg hm
  omega

/-- Between an evicted node and an unlocked survivor there is a node that bounds
    both: the heap preferred `x` to it, and it lies below `y`. -/
theorem Wf.evict_between {c c' : RadixCache} {T : Tree} {locks : List NodeId} (h : Wf c T locks) {now : Clock}
    {tie : TieBreak} {numTokens r : Int} (he : c.evict now tie numTokens = some (c', r)) {x y : NodeId}
    (hx : InTree c x) (hx' : ¬InTree c' x) (hy : InTree c' y) (hyr : y ≠ c'.rootNode)
    (hy0 : (c'.nodes y).lockRef = 0) :
    ∃ z, c.entryKey now (c.heapEntry now x) ≤ c.entryKey now (c.heapEntry now z) ∧
      (c.nodes z).lastAccessTime.op ≤ (c'.nodes y).lastAccessTime.op ∧
      (c.nodes z).priority ≤ (c'.nodes y).priority := by
  obtain ⟨c'', T', xs, heq, hw', hev, _⟩ := h.evict now tie numTokens
  rw [he] at heq
  cases heq
  have hsh := hev.shrunk
  have hxs : x ∈ xs := ((hsh.mem x).mp (h.rep.inTree_iff.mp hx)).resolve_left
    fun hm => hx' (hw'.rep.inTree_iff.mpr hm)
  have hyT' := hw'.rep.inTree_iff.mp hy
  obtain ⟨h1, h2, _, _, h5⟩ := hsh.stamps y
  rw [hw'.rep.root, hsh.root] at hyr
  obtain ⟨z, hz, hyz, hle⟩ := hev.ordered h.beginOp.book.unlocked_below x hxs y hyT' hyr (h1 ▸ hy0)
  have hbelow := h.aged.below (hsh.subset hyT') hz hyz
  exact ⟨z, hle, h2 ▸ hbelow.1, h5 ▸ hbelow.2⟩

/-- LRU and priority eviction are globally ordered, inner nodes included. -/
theorem evict_ordered (now : Clock) (hnow : now.Monotonic) (strategy : EvictionStrategy) (h : History)
    (hr : Reachable now strategy h) (tie : TieBreak) (numTokens r : Int) (c' : RadixCache)
    (he : h.cache.evict now tie numTokens = some (c', r)) (x y : NodeId) (hx : InTree h.cache x)
    (hx' : ¬InTree c' x) (hy : InTree c' y) (hyr : y ≠ c'.rootNode) (hy0 : (c'.nodes y).lockRef = 0) :
    (strategy = .lru → (h.cache.nodes x).lastAccessTime.op ≤ (c'.nodes y).lastAccessTime.op) ∧
    (strategy = .priority →
      toLex ((h.cache.nodes x).priority, (h.cache.nodes x).lastAccessTime.op) ≤
        toLex ((c'.nodes y).priority, (c'.nodes y).lastAccessTime.op)) := by
  obtain ⟨hst, T, hw⟩ := hr.wf
  obtain ⟨z, hle, hop, hprio⟩ := hw.evict_between he hx hx' hy hyr hy0
  refine ⟨fun hs => ?_, fun hs => ?_⟩
  · -- the first component of both entries is the stamp
    have h1 := Prod.Lex.monotone_fst _ _ hle
    unfold heapEntry at h1
    rw [hst, hs] at h1
    have h2 := hnow.op_le (Prod.Lex.monotone_fst _ _ h1)
    exact Nat.le_trans h2 hop
  · have h1 := Prod.Lex.monotone_fst _ _ hle
    unfold heapEntry at h1
    rw [hst, hs] at h1
    rw [Prod.Lex.toLex_le_toLex]
    rcases Prod.Lex.toLex_le_toLex.mp h1 with h2 | ⟨h2, h3⟩
    · exact Or.inl (lt_of_lt_of_le h2 hprio)
    · have h3 := hnow.op_le h3
      have h2 : (h.cache.nodes x).priority = (h.cache.nodes z).priority := h2
      rcases hprio.lt_or_eq with hlt | heq
      · exact Or.inl (h2 ▸ hlt)
      · exact Or.inr ⟨h2.trans heq, Nat.le_trans h3 hop⟩

/-- Evicting one token after two insertions and a lookup: the leaf `3`, last used
    by the second insertion, goes before the inner node `2`. -/
theorem evict_ordered_shared : ∃ (h : History) (c' : RadixCache) (r : Int),
    Reachable (fun r => r.op) .lru h ∧ h.cache.evict (fun r => r.op) (fun _ => 0) 1 = some (c', r) ∧
    InTree h.cache 3 ∧ ¬InTree c' 3 ∧ InTree c' 2 ∧ 2 ≠ c'.rootNode ∧ (c'.nodes 2).lockRef = 0 ∧
    (h.cache.nodes 3).lastAccessTime.op ≤ (c'.nodes 2).lastAccessTime.op := by
  obtain ⟨h, hr, hp⟩ := Reachable.of_run (fun r => r.op) .lru (sharedCalls.take 3)
    (P := fun h : History => (h.cache.climbsTo 9 3 && (h.cache.evict (fun r => r.op) (fun _ => 0) 1).any fun e =>
      e.1.closedUnder [0, 1, 2, 4] && e.1.climbsTo 9 2 && decide (2 ≠ e.1.rootNode ∧
        (e.1.nodes 2).lockRef = 0)) = true)
    (by decide +kernel)
  obtain ⟨hx, hp⟩ := Bool.and_eq_true_iff.mp hp
  obtain ⟨⟨c', r⟩, he, hp⟩ := (Option.any_eq_true _ _).mp hp
  obtain ⟨hp, hy⟩ := Bool.and_eq_true_iff.mp hp
  obtain ⟨hclosed, h2⟩ := Bool.and_eq_true_iff.mp hp
  obtain ⟨hyr, hy0⟩ := of_decide_eq_true hy
  have hx' : ¬InTree c' 3 := fun h3 => by
    have := h3.mem_of_closedUnder hclosed
    simp at this
  have hx := inTree_of_climbsTo 9 3 hx
  have hy := inTree_of_climbsTo 9 2 h2
  obtain ⟨hlru, -⟩ := evict_ordered _ Clock.op_monotonic .lru h hr _ _ r c' he 3 2 hx hx' hy hyr hy0
  exact ⟨h, c', r, hr, he, hx, hx', hy, hyr, hy0, hlru rfl⟩

end RadixCache

end SglangMlx
