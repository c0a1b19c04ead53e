import SglangMlx.RadixRun

/- The two invariants of a radix cache, in terms of the heap: the shape of the
   tree with its set of evictable leaves (`WellFormed`), and the lock counts with
   the two size counters (`Accounted`). Every reachable history has both. -/
namespace SglangMlx

namespace RadixCache

/-! ## The shape of the tree -/

/-- The representation invariant of the radix tree. -/
structure WellFormed (c : RadixCache) : Prop where
  finite : {n | InTree c n}.Finite
  /-- Children are deeper than the node that holds them, so there is no cycle. -/
  acyclic : ∃ depth : NodeId → Nat, ∀ n t m, InTree c n →
    (c.nodes n).children.lookup t = some m → depth n < depth m
  /-- Only one node holds a child, and none holds the root. -/
  parent : ∀ n t m, InTree c n → (c.nodes n).children.lookup t = some m →
    m ≠ c.rootNode ∧ (c.nodes m).parent = some n
  filed : ∀ n t m, InTree c n → (c.nodes n).children.lookup t = some m → (c.nodes m).key.head? = some t
  siblings : ∀ n t m t' m', InTree c n → (c.nodes n).children.lookup t = some m →
    (c.nodes n).children.lookup t' = some m' → m ≠ m' → (c.nodes m).key.head? ≠ (c.nodes m').key.head?
  entries : ∀ n, InTree c n → n ≠ c.rootNode → (c.nodes n).key ≠ [] ∧
    ∃ v, (c.nodes n).value = some v ∧ v.length = (c.nodes n).key.length
  root : (c.nodes c.rootNode).key = [] ∧ 0 < (c.nodes c.rootNode).lockRef
  leaves : c.evictableLeaves.Nodup ∧ ∀ n, n ∈ c.evictableLeaves ↔
    InTree c n ∧ n ≠ c.rootNode ∧ (c.nodes n).children = ∅ ∧ (c.nodes n).lockRef = 0

theorem Rep.children_eq_empty {c : RadixCache} {T : Tree} (h : Rep c T) {n : NodeId} (hn : n ∈ T.nodes) :
    (c.nodes n).children = ∅ ↔ T.Leaf n := by
  rw [← h.childValues_eq_nil hn, childValues, List.map_eq_nil_iff]
  exact ⟨fun e => by rw [e]; rfl, fun e => AList.ext e⟩

theorem Wf.wellFormed {c : RadixCache} {T : Tree} {locks : List NodeId} (h : Wf c T locks) : WellFormed c := by
  have hr := h.rep
  have hfiled : ∀ n t m, InTree c n → (c.nodes n).children.lookup t = some m → T.Filed n t m :=
    fun n t m hn hl => (hr.children n (hr.inTree_iff.mp hn) t m).mp hl
  have hhead : ∀ n t m, InTree c n → (c.nodes n).children.lookup t = some m →
      (c.nodes m).key.head? = some t := by
    intro n t m hn hl
    obtain ⟨hm, _, _, hf⟩ := hfiled n t m hn hl
    rw [hr.key m hm, List.head?_map]
    exact hf
  refine ⟨?_, ⟨fun n => (T.path n).length, ?_⟩, ?_, hhead, ?_, ?_, ⟨?_, ?_⟩, h.book.leaves_nodup, ?_⟩
  · exact T.nodes.finite_toSet.subset fun n hn => hr.inTree_iff.mp hn
  · intro n t m hn hl
    obtain ⟨hm, hmr, hmp, _⟩ := hfiled n t m hn hl
    rw [← hmp]
    exact PrefixTree.path_parent_lt hm hmr
  · intro n t m hn hl
    obtain ⟨hm, hmr, hmp, _⟩ := hfiled n t m hn hl
    exact ⟨hr.root ▸ hmr, hmp ▸ hr.parent m hm hmr⟩
  · intro n t m t' m' hn hl hl' hne he
    rw [hhead n t m hn hl, hhead n t' m' hn hl'] at he
    obtain rfl := Option.some.inj he
    exact hne (Option.some.inj (hl.symm.trans hl'))
  · intro n hn hnr
    have hn := hr.inTree_iff.mp hn
    rw [hr.root] at hnr
    refine ⟨fun e => T.edge_ne n hn hnr ?_, _, hr.value n hn, ?_⟩
    · rw [hr.key n hn, List.map_eq_nil_iff] at e
      exact e
    · rw [hr.key n hn, List.length_map, List.length_map]
  · rw [hr.root, hr.key _ T.root_mem, T.edge_root]
    rfl
  · rw [hr.root, h.book.rootLock]
    exact Int.one_pos
  · intro n
    rw [h.book.mem_leaves n, hr.inTree_iff, hr.root]
    constructor
    · intro ⟨hn, hl, h0⟩
      refine ⟨hn, fun e => ?_, (hr.children_eq_empty hn).mpr hl, h0⟩
      rw [e, h.book.rootLock] at h0
      cases h0
    · intro ⟨hn, _, he, h0⟩
      exact ⟨hn, (hr.children_eq_empty hn).mp he, h0⟩

/-- Whatever its clients do, the tree of a cache is well formed. -/
theorem reachable_wellFormed (now : Clock) (strategy : EvictionStrategy) (h : History)
    (hr : Reachable now strategy h) : WellFormed h.cache := by
  obtain ⟨_, T, hw⟩ := hr.wf
  exact hw.wellFormed

theorem reachable_wellFormed_shared :
    ∃ h : History, (h.locks = [4] ∧ h.cache.totalSize = some 3) ∧ WellFormed h.cache := by
  obtain ⟨h, hr, hp⟩ := Reachable.of_run (fun r => r.op) .lru sharedCalls
    (P := fun h : History => h.locks = [4] ∧ h.cache.totalSize = some 3) (by decide +kernel)
  exact ⟨h, hp, reachable_wellFormed _ _ h hr⟩

/-! ## Locks and sizes -/

open Classical in
/-- Lock counts against outstanding locks, and the counters against the nodes
    of the tree other than the root. -/
structure Accounted (c : RadixCache) (locks : List NodeId) (nodes : Finset NodeId) : Prop where
  mem : ∀ n, n ∈ nodes ↔ InTree c n ∧ n ≠ c.rootNode
  lock : ∀ n ∈ nodes, (c.nodes n).lockRef = locks.countP fun m => decide (InSubtree c n m)
  evictable : c.evictableSize = ∑ n ∈ nodes with (c.nodes n).lockRef = 0, ((c.nodes n).key.length : Int)
  guarded : c.protectedSize = ∑ n ∈ nodes with 0 < (c.nodes n).lockRef, ((c.nodes n).key.length : Int)
  total : ∃ k : Nat, c.totalSize = some k ∧ c.evictableSize + c.protectedSize = k

theorem Rep.sizeWhere_eq {c : RadixCache} {T : Tree} (h : Rep c T) (P : Int → Prop) [DecidablePred P] :
    sizeWhere T (fun n => P (c.nodes n).lockRef) =
      ∑ n ∈ T.nodes.erase T.root with P (c.nodes n).lockRef, ((c.nodes n).key.length : Int) := by
  rw [sizeWhere, ← Finset.add_sum_erase T.nodes _ T.root_mem, Finset.sum_filter, T.edge_root]
  simp only [List.length_nil, Nat.cast_zero, ite_self, zero_add]
  refine Finset.sum_congr rfl fun n hn => ?_
  rw [h.key_length (Finset.mem_of_mem_erase hn)]

theorem Book.total {c : RadixCache} {T : Tree} {locks : List NodeId} (h : Book c T locks) :
    c.evictableSize_ + c.protectedSize_ = ((∑ n ∈ T.nodes, (T.edge n).length : Nat) : Int) := by
  rw [h.evictable, h.guarded, sizeWhere, sizeWhere, ← Finset.sum_add_distrib, Nat.cast_sum]
  refine Finset.sum_congr rfl fun n hn => ?_
  have h0 := h.lock_nonneg hn
  by_cases e : (c.nodes n).lockRef = 0
  · simp [e]
  · have : 0 < (c.nodes n).lockRef := by omega
    simp [e, this]

theorem Wf.accounted {c : RadixCache} {T : Tree} {locks : List NodeId} (h : Wf c T locks) :
    Accounted c locks (T.nodes.erase T.root) := by
  classical
  have hr := h.rep
  refine ⟨fun n => ?_, fun n hn => ?_, ?_, ?_, _, hr.totalSize, h.book.total⟩
  · rw [Finset.mem_erase, hr.inTree_iff, hr.root, and_comm]
  · have hnt := Finset.mem_of_mem_erase hn
    rw [h.book.lock n hnt (Finset.ne_of_mem_erase hn)]
    refine congrArg Nat.cast (List.countP_congr fun m hm => ?_)
    rw [decide_eq_true_eq, decide_eq_true_eq, hr.inSubtree_iff hnt, and_iff_right (h.book.locks_mem m hm)]
  · exact h.book.evictable.trans (hr.sizeWhere_eq fun l => l = 0)
  · exact h.book.guarded.trans (hr.sizeWhere_eq fun l => 0 < l)

/-- In every reachable history the accounting is exact, and both lock operations
    return the change they make to `evictable_size()`. -/
theorem reachable_accounted (now : Clock) (strategy : EvictionStrategy) (h : History)
    (hr : Reachable now strategy h) :
    (∃ nodes, Accounted h.cache h.locks nodes) ∧
    (∀ n, InTree h.cache n → ∃ c' delta, h.cache.incLockRef n = some (c', delta) ∧
      delta = c'.evictableSize - h.cache.evictableSize) ∧
    (∀ n ∈ h.locks, ∃ c' delta, h.cache.decLockRef n = some (c', delta) ∧
      delta = c'.evictableSize - h.cache.evictableSize) := by
  obtain ⟨_, T, hw⟩ := hr.wf
  refine ⟨⟨_, hw.accounted⟩, fun n hn => ?_, fun n hn => ?_⟩
  · obtain ⟨c', heq, _⟩ := hw.incLockRef (hw.rep.inTree_iff.mp hn)
    exact ⟨c', _, heq, rfl⟩
  · obtain ⟨c', heq, _⟩ := hw.decLockRef hn
    exact ⟨c', _, heq, rfl⟩

theorem reachable_accounted_shared : ∃ h : History, (h.locks = [4] ∧ h.cache.protectedSize = 3) ∧
    ∃ nodes, Accounted h.cache h.locks nodes := by
  obtain ⟨h, hr, hp⟩ := Reachable.of_run (fun r => r.op) .lru sharedCalls
    (P := fun h : History => h.locks = [4] ∧ h.cache.protectedSize = 3) (by decide +kernel)
  exact ⟨h, hp, (reachable_accounted _ _ h hr).1⟩

end RadixCache

end SglangMlx
