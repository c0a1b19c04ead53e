import SglangMlx.RadixCache
import SglangMlx.Lib.PrefixTree

/- The heap of a radix cache as a prefix tree. `Rep c T` says that the objects
   reachable from the root are the nodes of `T` and that `key`, `value`, `parent`
   and `children` are what `T` says.

   What each primitive does to the heap is proved once here (`splitNode_spec`,
   `insertLeaf_spec`, `updateLeafStatus_mem`), and what that is on the tree
   (`Rep.splitNode`, `Rep.insertLeaf`, `Rep.evictable_iff`, `Rep.totalSize`). -/
namespace SglangMlx

abbrev Tree := PrefixTree NodeId Token Slot

namespace RadixCache

/-- The objects of `c` below the root are the nodes of `T`. -/
structure Rep (c : RadixCache) (T : Tree) : Prop where
  root : c.rootNode = T.root
  lt : ∀ n ∈ T.nodes, n < c.counter
  key : ∀ n ∈ T.nodes, (c.nodes n).key = (T.edge n).map Prod.fst
  value : ∀ n ∈ T.nodes, (c.nodes n).value = some ((T.edge n).map Prod.snd)
  parent : ∀ n ∈ T.nodes, n ≠ T.root → (c.nodes n).parent = some (T.parent n)
  children : ∀ n ∈ T.nodes, ∀ t m, (c.nodes n).children.lookup t = some m ↔ T.Filed n t m

/-- The fields that shape the tree. -/
def SameShape (x y : TreeNode) : Prop :=
  x.children = y.children ∧ x.parent = y.parent ∧ x.key = y.key ∧ x.value = y.value

theorem Rep.congr {c c' : RadixCache} {T : Tree} (h : Rep c T) (hroot : c'.rootNode = c.rootNode)
    (hcounter : c.counter ≤ c'.counter) (hn : ∀ n ∈ T.nodes, SameShape (c'.nodes n) (c.nodes n)) :
    Rep c' T where
  root := hroot.trans h.root
  lt n hm := Nat.lt_of_lt_of_le (h.lt n hm) hcounter
  key n hm := (hn n hm).2.2.1.trans (h.key n hm)
  value n hm := (hn n hm).2.2.2.trans (h.value n hm)
  parent n hm hr := (hn n hm).2.1.trans (h.parent n hm hr)
  children n hm t m := by rw [(hn n hm).1]; exact h.children n hm t m

section
variable {c : RadixCache} {T : Tree} (h : Rep c T)
include h

theorem Rep.not_mem_counter : c.counter ∉ T.nodes := fun hn => Nat.lt_irrefl _ (h.lt _ hn)

theorem Rep.evicted_eq {n : NodeId} (hn : n ∈ T.nodes) : (c.nodes n).evicted = false := by
  simp [TreeNode.evicted, h.value n hn]

theorem Rep.key_length {n : NodeId} (hn : n ∈ T.nodes) :
    (c.nodes n).key.length = (T.edge n).length := by simp [h.key n hn]

theorem Rep.mem_childValues {n m : NodeId} (hn : n ∈ T.nodes) :
    m ∈ c.childValues n ↔ m ∈ T.nodes ∧ m ≠ T.root ∧ T.parent m = n := by
  unfold childValues
  rw [List.mem_map]
  constructor
  · rintro ⟨⟨t, m'⟩, he, rfl⟩
    have := (h.children n hn t m').mp (AList.mem_lookup_iff.mpr he)
    exact ⟨this.1, this.2.1, this.2.2.1⟩
  · rintro ⟨hm, hr, hp⟩
    obtain ⟨t, ht⟩ := PrefixTree.first_isSome hm hr
    exact ⟨⟨t, m⟩, AList.mem_lookup_iff.mp ((h.children n hn t m).mpr ⟨hm, hr, hp, ht⟩), rfl⟩

theorem Rep.childValues_eq_nil {n : NodeId} (hn : n ∈ T.nodes) :
    c.childValues n = [] ↔ T.Leaf n := by
  rw [List.eq_nil_iff_forall_not_mem]
  constructor
  · intro hnil m hm hr hp
    exact hnil m ((h.mem_childValues hn).mpr ⟨hm, hr, hp⟩)
  · intro hleaf m hm
    obtain ⟨hm, hr, hp⟩ := (h.mem_childValues hn).mp hm
    exact hleaf m hm hr hp

/-- No child in the tree is evicted, so the scan of `_update_leaf_status` asks
    whether there is a child. -/
theorem Rep.any_child {n : NodeId} (hn : n ∈ T.nodes) :
    ((c.childValues n).any fun child => !(c.nodes child).evicted) = true ↔ ¬T.Leaf n := by
  rw [← h.childValues_eq_nil hn, List.any_eq_true]
  constructor
  · rintro ⟨m, hm, _⟩ hnil
    rw [hnil] at hm
    simp at hm
  · intro hne
    obtain ⟨m, hm⟩ := List.exists_mem_of_ne_nil _ hne
    exact ⟨m, hm, by rw [h.evicted_eq ((h.mem_childValues hn).mp hm).1]; rfl⟩

theorem Rep.lookup_none {n : NodeId} {t : Token} (hn : n ∈ T.nodes)
    (hl : (c.nodes n).children.lookup t = none) :
    ∀ m ∈ T.nodes, m ≠ T.root → T.parent m = n → T.first m ≠ some t := by
  intro m hm hr hp hf
  rw [(h.children n hn t m).mpr ⟨hm, hr, hp, hf⟩] at hl
  cases hl

end

/-! ## Splitting a node -/

theorem lookup_singleton (t t' : Token) (n : NodeId) :
    (AList.singleton t n : AList (fun _ : Token => NodeId)).lookup t' =
      if t' = t then some n else none := by
  by_cases h : t' = t
  · subst h; simp [AList.lookup, AList.singleton]
  · simp [AList.lookup, AList.singleton, h]

@[simp] theorem modify_nodes_self (c : RadixCache) (n : NodeId) (f : TreeNode → TreeNode) :
    (c.modify n f).nodes n = f (c.nodes n) := by simp [modify]

theorem modify_nodes_ne (c : RadixCache) {n m : NodeId} (f : TreeNode → TreeNode) (h : m ≠ n) :
    (c.modify n f).nodes m = c.nodes m := by simp [modify, h]

@[simp] theorem stamp_nodes_self (c : RadixCache) (n : NodeId) (r : Reading) :
    (c.stamp n r).nodes n = { c.nodes n with lastAccessTime := r } := modify_nodes_self _ _ _

theorem stamp_nodes_ne (c : RadixCache) {n m : NodeId} (r : Reading) (h : m ≠ n) :
    (c.stamp n r).nodes m = c.nodes m := modify_nodes_ne _ _ h

@[simp] theorem raisePriority_nodes_self (c : RadixCache) (n : NodeId) (p : Int) :
    (c.raisePriority n p).nodes n = { c.nodes n with priority := max (c.nodes n).priority p } :=
  modify_nodes_self _ _ _

theorem raisePriority_nodes_ne (c : RadixCache) {n m : NodeId} (p : Int) (h : m ≠ n) :
    (c.raisePriority n p).nodes m = c.nodes m := modify_nodes_ne _ _ h

theorem splitNode_spec {c : RadixCache} {key : List Token} {child p : NodeId} {k : Nat} {t f : Token}
    {v : List Slot} (ht : (c.nodes child).key[k]? = some t) (hv : (c.nodes child).value = some v)
    (hp : (c.nodes child).parent = some p) (hf : key[0]? = some f) (hcn : child ≠ c.counter)
    (hpn : p ≠ c.counter) (hpc : p ≠ child) :
    ∃ c', c.splitNode key child k = some (c', c.counter) ∧
      c' = { c with
        nodes := c'.nodes, counter := c.counter + 1, clock := ⟨c.clock.op, c.clock.call + 2⟩ } ∧
      c'.nodes c.counter =
        { children := AList.singleton t child, parent := some p, key := (c.nodes child).key.take k
          value := some (v.take k), lockRef := (c.nodes child).lockRef, lastAccessTime := c.clock
          creationTime := ⟨c.clock.op, c.clock.call + 1⟩, priority := (c.nodes child).priority } ∧
      c'.nodes child = { c.nodes child with
        parent := some c.counter, key := (c.nodes child).key.drop k, value := some (v.drop k) } ∧
      c'.nodes p = { c.nodes p with children := (c.nodes p).children.insert f c.counter } ∧
      ∀ m, m ≠ c.counter → m ≠ child → m ≠ p → c'.nodes m = c.nodes m := by
  refine ⟨_, by simp [splitNode, newTreeNode, monotonic, modify, hcn, ht, hv, hp, hf]; rfl, rfl, ?_, ?_, ?_, ?_⟩
  · simp [hcn.symm, hpn.symm]
  · simp [hpc.symm]
  · simp [hpn, hpc]
  · intro m h1 h2 h3
    simp [h1, h2, h3]

/-- The fields the tree does not depend on. -/
def SameStamps (x y : TreeNode) : Prop :=
  x.lockRef = y.lockRef ∧ x.lastAccessTime = y.lastAccessTime ∧ x.creationTime = y.creationTime ∧
    x.hitCount = y.hitCount ∧ x.priority = y.priority

/-- `_split_node` on a heap that represents `T`: it succeeds, the result
    represents the split tree, the new node copies lock and priority of the
    child, and nothing else changes but the clock and the next identity. -/
theorem Rep.splitNode {c : RadixCache} {T : Tree} (h : Rep c T) {child : NodeId} {k : Nat}
    (hc : child ∈ T.nodes) (hr : child ≠ T.root) (hk : 0 < k) (hk' : k < (T.edge child).length) :
    ∃ c', c.splitNode (c.nodes child).key child k = some (c', c.counter) ∧
      Rep c' (T.split c.counter child k h.not_mem_counter hc hr hk hk') ∧
      c' = { c with
        nodes := c'.nodes, counter := c.counter + 1, clock := ⟨c.clock.op, c.clock.call + 2⟩ } ∧
      (c'.nodes c.counter).lockRef = (c.nodes child).lockRef ∧
      (c'.nodes c.counter).priority = (c.nodes child).priority ∧
      (c'.nodes c.counter).lastAccessTime = c.clock ∧ (c'.nodes c.counter).hitCount = 0 ∧
      ∀ n ∈ T.nodes, SameStamps (c'.nodes n) (c.nodes n) := by
  have hnew := h.not_mem_counter
  have hp := T.parent_mem child hc hr
  have hcn : child ≠ c.counter := fun e => hnew (e ▸ hc)
  have hpn : T.parent child ≠ c.counter := fun e => hnew (e ▸ hp)
  have hpc : T.parent child ≠ child := PrefixTree.parent_ne hc hr
  have hkey := h.key child hc
  obtain ⟨f, hf⟩ := PrefixTree.first_isSome hc hr
  have hf0 : (c.nodes child).key[0]? = some f := by
    rw [hkey, List.getElem?_map, ← List.head?_eq_getElem?]; exact hf
  obtain ⟨⟨t, s⟩, hts⟩ : ∃ a, (T.edge child)[k]? = some a := ⟨_, List.getElem?_eq_getElem hk'⟩
  have ht : (c.nodes child).key[k]? = some t := by rw [hkey, List.getElem?_map, hts]; rfl
  obtain ⟨c', heq, hc', nnew, nchild, np, nother⟩ :=
    splitNode_spec ht (h.value child hc) (h.parent child hc hr) hf0 hcn hpn hpc
  -- a node that is neither the new one nor the child keeps everything but its children
  have nold : ∀ n ∈ T.nodes, n ≠ child → (c'.nodes n).parent = (c.nodes n).parent ∧
      (c'.nodes n).key = (c.nodes n).key ∧ (c'.nodes n).value = (c.nodes n).value := by
    intro n hn hnc
    by_cases hnp : n = T.parent child
    · rw [hnp, np]; exact ⟨rfl, rfl, rfl⟩
    · rw [nother n (fun e => hnew (e ▸ hn)) hnc hnp]; exact ⟨rfl, rfl, rfl⟩
  refine ⟨c', heq, ⟨?_, ?_, ?_, ?_, ?_, ?_⟩, hc', by rw [nnew], by rw [nnew], by rw [nnew], by rw [nnew], ?_⟩
  · rw [hc']; exact h.root
  · intro n hn
    rw [hc']
    rcases Finset.mem_insert.mp hn with e | hn
    · rw [e]; exact Nat.lt_succ_self _
    · exact Nat.lt_succ_of_lt (h.lt n hn)
  · intro n hn
    rcases Finset.mem_insert.mp hn with e | hn
    · rw [e, nnew, PrefixTree.split_new.2.1, hkey, List.map_take]
    · by_cases hnc : n = child
      · rw [hnc, nchild, PrefixTree.split_child.2, hkey, List.map_drop]
      · rw [(PrefixTree.split_other hn hnc).2, (nold n hn hnc).2.1, h.key n hn]
  · intro n hn
    rcases Finset.mem_insert.mp hn with e | hn
    · rw [e, nnew, PrefixTree.split_new.2.1, List.map_take]
    · by_cases hnc : n = child
      · rw [hnc, nchild, PrefixTree.split_child.2, List.map_drop]
      · rw [(PrefixTree.split_other hn hnc).2, (nold n hn hnc).2.2, h.value n hn]
  · intro n hn hnr
    rcases Finset.mem_insert.mp hn with e | hn
    · rw [e, nnew, PrefixTree.split_new.1]
    · by_cases hnc : n = child
      · rw [hnc, nchild, PrefixTree.split_child.1]
      · rw [(PrefixTree.split_other hn hnc).1, (nold n hn hnc).1, h.parent n hn hnr]
  · intro n hn t' m
    rcases Finset.mem_insert.mp hn with e | hn
    · rw [e, nnew, PrefixTree.split_filed_new, hts, lookup_singleton]
      simp [eq_comm, and_comm]
    · by_cases hnp : n = T.parent child
      · rw [hnp, np, PrefixTree.split_filed_parent, hf]
        by_cases htf : t' = f
        · rw [htf, AList.lookup_insert]
          simp [eq_comm]
        · rw [AList.lookup_insert_ne htf, h.children _ hp]
          simp [Ne.symm htf]
      · rw [PrefixTree.split_filed_other hn hnp, ← h.children n hn]
        by_cases hnc : n = child
        · rw [hnc, nchild]
        · rw [nother n (fun e => hnew (e ▸ hn)) hnc hnp]
  · intro n hn
    by_cases hnc : n = child
    · rw [hnc, nchild]; exact ⟨rfl, rfl, rfl, rfl, rfl⟩
    · by_cases hnp : n = T.parent child
      · rw [hnp, np]; exact ⟨rfl, rfl, rfl, rfl, rfl⟩
      · rw [nother n (fun e => hnew (e ▸ hn)) hnc hnp]; exact ⟨rfl, rfl, rfl, rfl, rfl⟩

/-! ## The evictable leaves -/

/-- The test of `_update_leaf_status`. -/
def Evictable (c : RadixCache) (n : NodeId) : Prop :=
  (c.nodes n).evicted = false ∧ (c.nodes n).lockRef ≤ 0 ∧
    ((c.childValues n).any fun child => !(c.nodes child).evicted) = false

theorem updateLeafStatus_eq (c : RadixCache) (n : NodeId) : c.updateLeafStatus n =
    { c with evictableLeaves := (c.updateLeafStatus n).evictableLeaves } := by
  unfold updateLeafStatus discardLeaf addLeaf
  split_ifs <;> rfl

@[simp] theorem updateLeafStatus_nodes (c : RadixCache) (n : NodeId) :
    (c.updateLeafStatus n).nodes = c.nodes := by rw [updateLeafStatus_eq]

theorem discardLeaf_eq (c : RadixCache) (n : NodeId) : c.discardLeaf n =
    { c with evictableLeaves := (c.discardLeaf n).evictableLeaves } := by
  unfold discardLeaf
  split <;> rfl

@[simp] theorem discardLeaf_nodes (c : RadixCache) (n : NodeId) : (c.discardLeaf n).nodes = c.nodes := by
  rw [discardLeaf_eq]

theorem discardLeaf_mem {c : RadixCache} (n : NodeId) (hnd : c.evictableLeaves.Nodup) :
    (c.discardLeaf n).evictableLeaves.Nodup ∧
    ∀ m, m ∈ (c.discardLeaf n).evictableLeaves ↔ m ≠ n ∧ m ∈ c.evictableLeaves := by
  unfold discardLeaf
  split
  · exact ⟨hnd.erase n, fun m => hnd.mem_erase_iff⟩
  · next hn => exact ⟨hnd, fun m => ⟨fun hm => ⟨fun e => hn (e ▸ hm), hm⟩, fun hm => hm.2⟩⟩

theorem updateLeafStatus_mem {c : RadixCache} (n : NodeId) (hnd : c.evictableLeaves.Nodup) :
    (c.updateLeafStatus n).evictableLeaves.Nodup ∧
    ∀ m, m ∈ (c.updateLeafStatus n).evictableLeaves ↔
      (m = n ∧ c.Evictable n) ∨ (m ≠ n ∧ m ∈ c.evictableLeaves) := by
  have hdiscard := discardLeaf_mem n hnd
  have hadd : (c.addLeaf n).evictableLeaves.Nodup ∧
      ∀ m, m ∈ (c.addLeaf n).evictableLeaves ↔ m = n ∨ (m ≠ n ∧ m ∈ c.evictableLeaves) := by
    unfold addLeaf
    split
    · next hn =>
      refine ⟨hnd, fun m => ⟨fun hm => ?_, fun hm => ?_⟩⟩
      · by_cases e : m = n
        · exact Or.inl e
        · exact Or.inr ⟨e, hm⟩
      · rcases hm with e | hm
        · rw [e]; exact hn
        · exact hm.2
    · next hn =>
      refine ⟨List.nodup_append.mpr ⟨hnd, by simp, ?_⟩, fun m => ?_⟩
      · intro a ha b hb
        rw [List.mem_singleton.mp hb]
        exact fun e => hn (e ▸ ha)
      · by_cases e : m = n <;> simp [e]
  unfold updateLeafStatus Evictable
  by_cases h1 : (c.nodes n).evicted || decide (0 < (c.nodes n).lockRef)
  · rw [if_pos h1]
    refine ⟨hdiscard.1, fun m => (hdiscard.2 m).trans ?_⟩
    have : ¬((c.nodes n).evicted = false ∧ (c.nodes n).lockRef ≤ 0) := by
      intro ⟨h2, h3⟩
      simp [h2] at h1
      omega
    tauto
  · rw [if_neg h1]
    simp only [Bool.or_eq_true, decide_eq_true_eq, not_or, Bool.not_eq_true] at h1
    by_cases h2 : (c.childValues n).any fun child => !(c.nodes child).evicted
    · rw [if_pos h2]
      refine ⟨hdiscard.1, fun m => (hdiscard.2 m).trans ?_⟩
      simp [h2]
    · rw [if_neg h2]
      refine ⟨hadd.1, fun m => (hadd.2 m).trans ?_⟩
      have : (c.nodes n).lockRef ≤ 0 := by omega
      simp only [Bool.not_eq_true] at h2
      simp [h1.1, h2, this]

theorem Rep.evictable_iff {c : RadixCache} {T : Tree} (h : Rep c T) {n : NodeId} (hn : n ∈ T.nodes) :
    c.Evictable n ↔ (c.nodes n).lockRef ≤ 0 ∧ T.Leaf n := by
  unfold Evictable
  have := h.any_child hn
  rw [h.evicted_eq hn]
  cases hany : (c.childValues n).any fun child => !(c.nodes child).evicted
  · rw [hany] at this
    simp at this
    simp [this]
  · rw [hany] at this
    simp at this
    simp [this]

/-! ## Adding a leaf -/

theorem insertLeaf_spec {c : RadixCache} {node : NodeId} (childKey : Token) (key : List Token)
    (value : List Slot) (priority : Int) (hne : node ≠ c.counter) :
    let c' := c.insertLeaf node childKey key value priority
    c' = { c with
      nodes := c'.nodes, counter := c.counter + 1, clock := ⟨c.clock.op, c.clock.call + 2⟩
      evictableSize_ := c.evictableSize_ + key.length, evictableLeaves := c'.evictableLeaves } ∧
    c'.nodes c.counter =
      { parent := some node, key := key, value := some value, lastAccessTime := c.clock
        creationTime := ⟨c.clock.op, c.clock.call + 1⟩, priority := priority } ∧
    c'.nodes node = { c.nodes node with children := (c.nodes node).children.insert childKey c.counter } ∧
    ∀ m, m ≠ c.counter → m ≠ node → c'.nodes m = c.nodes m := by
  refine ⟨?_, ?_, ?_, ?_⟩
  · simp only [insertLeaf, attachLeaf, newTreeNode, monotonic, modify]
    rw [updateLeafStatus_eq, updateLeafStatus_eq]
  · simp [insertLeaf, attachLeaf, newTreeNode, monotonic, modify, hne.symm]
  · simp [insertLeaf, attachLeaf, newTreeNode, monotonic, modify, hne]
  · intro m h1 h2
    simp [insertLeaf, attachLeaf, newTreeNode, monotonic, modify, h1, h2]

theorem Rep.insertLeaf {c : RadixCache} {T : Tree} (h : Rep c T) {node : NodeId} {t : Token}
    {key : List Token} {value : List Slot} (priority : Int) (hn : node ∈ T.nodes)
    (hl : (c.nodes node).children.lookup t = none) (hlen : value.length = (t :: key).length)
    (he : (t :: key).zip value ≠ [])
    (hfree : ∀ m ∈ T.nodes, m ≠ T.root → T.parent m = node →
      T.first m ≠ ((t :: key).zip value).head?.map Prod.fst) :
    Rep (c.insertLeaf node t (t :: key) value priority)
      (T.graft c.counter node ((t :: key).zip value) h.not_mem_counter hn he hfree) := by
  have hnew := h.not_mem_counter
  have hnn : node ≠ c.counter := fun e => hnew (e ▸ hn)
  obtain ⟨hc', nnew, nnode, nother⟩ := insertLeaf_spec t (t :: key) value priority hnn
  have nold : ∀ n ∈ T.nodes, ((c.insertLeaf node t (t :: key) value priority).nodes n).parent =
        (c.nodes n).parent ∧
      ((c.insertLeaf node t (t :: key) value priority).nodes n).key = (c.nodes n).key ∧
      ((c.insertLeaf node t (t :: key) value priority).nodes n).value = (c.nodes n).value := by
    intro n hm
    by_cases e : n = node
    · rw [e, nnode]; exact ⟨rfl, rfl, rfl⟩
    · rw [nother n (fun e => hnew (e ▸ hm)) e]; exact ⟨rfl, rfl, rfl⟩
  have hfst : ((t :: key).zip value).map Prod.fst = t :: key :=
    List.map_fst_zip (by rw [hlen])
  have hsnd : ((t :: key).zip value).map Prod.snd = value := List.map_snd_zip (by rw [hlen])
  refine ⟨?_, ?_, ?_, ?_, ?_, ?_⟩
  · rw [hc']; exact h.root
  · intro n hm
    rw [hc']
    rcases Finset.mem_insert.mp hm with e | hm
    · rw [e]; exact Nat.lt_succ_self _
    · exact Nat.lt_succ_of_lt (h.lt n hm)
  · intro n hm
    rcases Finset.mem_insert.mp hm with e | hm
    · rw [e, nnew, PrefixTree.graft_new.2.1, hfst]
    · rw [(PrefixTree.graft_old hm).2.1, (nold n hm).2.1, h.key n hm]
  · intro n hm
    rcases Finset.mem_insert.mp hm with e | hm
    · rw [e, nnew, PrefixTree.graft_new.2.1, hsnd]
    · rw [(PrefixTree.graft_old hm).2.1, (nold n hm).2.2, h.value n hm]
  · intro n hm hr
    rcases Finset.mem_insert.mp hm with e | hm
    · rw [e, nnew, PrefixTree.graft_new.1]
    · rw [(PrefixTree.graft_old hm).1, (nold n hm).1, h.parent n hm hr]
  · intro n hm t' m
    rcases Finset.mem_insert.mp hm with e | hm
    · rw [e, nnew]
      exact iff_of_false (by simp) PrefixTree.graft_not_filed_new
    · by_cases e : n = node
      · have hhead : ((t :: key).zip value).head?.map Prod.fst = some t := by
          rw [← List.head?_map, hfst]; rfl
        rw [e, nnode, PrefixTree.graft_filed_parent, hhead, ← h.children node hn]
        by_cases htt : t' = t
        · rw [htt, AList.lookup_insert, hl]
          simp [eq_comm]
        · rw [AList.lookup_insert_ne htt]
          simp [Ne.symm htt]
      · rw [nother n (fun e => hnew (e ▸ hm)) e, PrefixTree.graft_filed_other e, h.children n hm]

/-! ## The traversal of total_size -/

/-- The nodes the traversal has still to visit. -/
def below (T : Tree) (stack : List NodeId) : Finset NodeId :=
  T.nodes.filter fun n => ∃ s ∈ stack, T.path s <+: T.path n

theorem mem_below {T : Tree} {stack : List NodeId} {n : NodeId} :
    n ∈ below T stack ↔ n ∈ T.nodes ∧ ∃ s ∈ stack, T.path s <+: T.path n := Finset.mem_filter

/-- Neither node lies below the other. -/
def Apart (T : Tree) (n m : NodeId) : Prop := ¬T.path n <+: T.path m ∧ ¬T.path m <+: T.path n

section
variable {c : RadixCache} {T : Tree} (h : Rep c T)
include h

theorem Rep.childValues_nodup {n : NodeId} (hn : n ∈ T.nodes) : (c.childValues n).Nodup := by
  refine List.Nodup.map_on ?_ (List.NodupKeys.nodup (c.nodes n).children.nodupKeys)
  intro ⟨t, m⟩ he ⟨t', m'⟩ he' hmm
  have hf := (h.children n hn t m).mp (AList.mem_lookup_iff.mpr he)
  have hf' := (h.children n hn t' m').mp (AList.mem_lookup_iff.mpr he')
  have hmm : m = m' := hmm
  subst hmm
  have : t = t' := Option.some.inj (hf.2.2.2.symm.trans hf'.2.2.2)
  rw [this]

theorem Rep.below_cons {n : NodeId} {stack : List NodeId} (hn : n ∈ T.nodes) :
    below T (n :: stack) = insert n (below T ((c.childValues n).reverse ++ stack)) := by
  ext m
  rw [Finset.mem_insert, mem_below, mem_below]
  constructor
  · intro ⟨hm, s, hs, hle⟩
    by_cases e : m = n
    · exact Or.inl e
    refine Or.inr ⟨hm, ?_⟩
    rcases List.mem_cons.mp hs with hsn | hs
    · rw [hsn] at hle
      obtain ⟨d, hd, hdr, hdp, hdm⟩ := PrefixTree.child_towards hn hm hle (Ne.symm e)
      exact ⟨d, by simp [h.mem_childValues hn, hd, hdr, hdp], hdm⟩
    · exact ⟨s, by simp [hs], hle⟩
  · intro hm
    rcases hm with e | ⟨hm, s, hs, hle⟩
    · exact ⟨e ▸ hn, n, by simp, by rw [e]⟩
    · refine ⟨hm, ?_⟩
      rcases List.mem_append.mp hs with hs | hs
      · obtain ⟨hs, hsr, hsp⟩ := (h.mem_childValues hn).mp (List.mem_reverse.mp hs)
        refine ⟨n, by simp, ?_⟩
        rw [← hsp]
        exact (PrefixTree.parent_path_le hs hsr).trans hle
      · exact ⟨s, by simp [hs], hle⟩

theorem Rep.apart_cons {n : NodeId} {stack : List NodeId} (hn : n ∈ T.nodes)
    (hstack : (n :: stack).Pairwise (Apart T)) :
    ((c.childValues n).reverse ++ stack).Pairwise (Apart T) ∧
      n ∉ below T ((c.childValues n).reverse ++ stack) := by
  rw [List.pairwise_cons] at hstack
  have hchild : ∀ m, m ∈ (c.childValues n).reverse → m ∈ T.nodes ∧ m ≠ T.root ∧ T.parent m = n :=
    fun m hm => (h.mem_childValues hn).mp (List.mem_reverse.mp hm)
  refine ⟨List.pairwise_append.mpr ⟨?_, hstack.2, fun a ha b hb => ?_⟩, fun hm => ?_⟩
  · -- siblings
    have half : ∀ a ∈ (c.childValues n).reverse, ∀ b ∈ (c.childValues n).reverse, a ≠ b →
        ¬T.path a <+: T.path b := by
      intro a ha b hb hab hle
      obtain ⟨ha, har, hap⟩ := hchild a ha
      obtain ⟨hb, hbr, hbp⟩ := hchild b hb
      have h1 := (PrefixTree.prefix_parent ha hb hle hab).2.length_le
      have h2 := PrefixTree.path_parent_lt ha har
      rw [hbp, ← hap] at h1
      omega
    refine List.Pairwise.imp_of_mem (fun ha hb hab => ?_)
      (List.nodup_reverse.mpr (h.childValues_nodup hn))
    exact ⟨half _ ha _ hb hab, half _ hb _ ha (Ne.symm hab)⟩
  · obtain ⟨ha, har, hap⟩ := hchild a ha
    have hnb := hstack.1 b hb
    refine ⟨fun hle => hnb.1 ?_, fun hle => ?_⟩
    · rw [← hap]
      exact (PrefixTree.parent_path_le ha har).trans hle
    · have hna := PrefixTree.parent_path_le ha har
      rw [hap] at hna
      rcases List.prefix_or_prefix_of_prefix hna hle with h1 | h1
      · exact hnb.1 h1
      · exact hnb.2 h1
  · obtain ⟨_, s, hs, hle⟩ := mem_below.mp hm
    rcases List.mem_append.mp hs with hs | hs
    · obtain ⟨hs, hsr, hsp⟩ := hchild s hs
      have h1 := PrefixTree.path_parent_lt hs hsr
      have h2 := hle.length_le
      rw [hsp] at h1
      omega
    · exact (hstack.1 s hs).2 hle

theorem Rep.totalSizeLoop : ∀ (fuel : Nat) (stack : List NodeId) (total : Nat), (∀ s ∈ stack, s ∈ T.nodes) →
    stack.Pairwise (Apart T) → (below T stack).card < fuel →
    c.totalSizeLoop fuel stack total = some (total + ∑ n ∈ below T stack, (T.edge n).length) := by
  intro fuel
  induction fuel with
  | zero => intro stack total _ _ hf; exact absurd hf (Nat.not_lt_zero _)
  | succ fuel ih =>
    intro stack total hmem hstack hf
    cases stack with
    | nil =>
      have : below T [] = ∅ := Finset.filter_eq_empty_iff.mpr fun n _ => by simp
      simp [RadixCache.totalSizeLoop, this]
    | cons n stack =>
      have hn := hmem n (List.mem_cons_self ..)
      obtain ⟨hapart, hnot⟩ := h.apart_cons hn hstack
      have hlive : (c.childValues n).filter (fun child => !(c.nodes child).evicted) = c.childValues n := by
        refine List.filter_eq_self.mpr fun m hm => ?_
        rw [h.evicted_eq ((h.mem_childValues hn).mp hm).1]
        rfl
      have hlen : ((c.nodes n).value.getD []).length = (T.edge n).length := by
        rw [h.value n hn, Option.getD_some, List.length_map]
      rw [h.below_cons hn, Finset.card_insert_of_notMem hnot] at hf
      rw [RadixCache.totalSizeLoop]
      simp only [hlive, hlen]
      rw [ih _ _ (fun s hs => ?_) hapart (Nat.lt_of_succ_lt_succ hf), h.below_cons hn, Finset.sum_insert hnot,
        Nat.add_assoc]
      rcases List.mem_append.mp hs with hs | hs
      · exact ((h.mem_childValues hn).mp (List.mem_reverse.mp hs)).1
      · exact hmem s (List.mem_cons_of_mem _ hs)

theorem Rep.card_le : T.nodes.card ≤ c.counter := by
  have : T.nodes ⊆ Finset.range c.counter := fun n hn => Finset.mem_range.mpr (h.lt n hn)
  simpa using Finset.card_le_card this

theorem Rep.totalSize : c.totalSize = some (∑ n ∈ T.nodes, (T.edge n).length) := by
  have hall : below T [c.rootNode] = T.nodes := by
    refine Finset.filter_true_of_mem fun n _ => ⟨c.rootNode, by simp, ?_⟩
    rw [h.root, T.path_root]
    exact List.nil_prefix
  have := h.totalSizeLoop (c.counter + 1) [c.rootNode] 0
    (fun s hs => by rw [List.mem_singleton.mp hs, h.root]; exact T.root_mem) (List.pairwise_singleton _ _)
    (by rw [hall]; exact Nat.lt_succ_of_le h.card_le)
  rw [hall, Nat.zero_add] at this
  exact this

end

end RadixCache

end SglangMlx
