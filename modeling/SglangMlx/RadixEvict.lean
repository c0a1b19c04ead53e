import SglangMlx.RadixLock

/- `evict`. The heap always holds the frontier: the unlocked nodes without
   children, each with its current priority. An iteration frees and deletes a
   smallest one and, when that leaves the parent bare and unlocked, pushes the
   parent. `Dropped` is one iteration, `Evicted` a run of them; `evictLoop_spec`
   is the induction on the fuel (a node is lost each time). `evictTrace` keeps the
   states in which the loop removes a node, for what is said about each removal. -/
namespace SglangMlx

namespace RadixCache

/-- The nodes `evict` may remove next. -/
def Frontier (c : RadixCache) (T : Tree) (n : NodeId) : Prop :=
  n ∈ T.nodes ∧ T.Leaf n ∧ (c.nodes n).lockRef = 0

theorem Frontier.ne_root {c : RadixCache} {T : Tree} {locks : List NodeId} {n : NodeId}
    (h : Frontier c T n) (hb : Book c T locks) : n ≠ T.root := by
  intro e
  have := hb.rootLock
  rw [← e, h.2.2] at this
  cases this

/-! ## Deleting a leaf -/

section
variable {c : RadixCache} {T : Tree} {locks : List NodeId} {x : NodeId}

/-- `_delete_leaf` before the set of leaves is patched. -/
def unfile (c : RadixCache) (x p : NodeId) (t : Token) : RadixCache :=
  { c.modify p fun y => { y with children := y.children.erase t } with
    evictableSize_ := c.evictableSize_ - (c.nodes x).key.length }

theorem deleteLeaf_eq {t : Token} {p : NodeId} (hkey : (c.nodes x).key[0]? = some t)
    (hp : (c.nodes x).parent = some p) (hl : (c.nodes p).children.lookup t = some x) (hpx : p ≠ x) :
    c.deleteLeaf x = some (((c.unfile x p t).discardLeaf x).updateLeafStatus p) := by
  simp only [deleteLeaf, hkey, hp, hl, Option.bind_eq_bind, Option.bind_some, if_true]
  rw [modify_nodes_ne c _ hpx.symm]
  rfl

theorem Rep.deleteLeaf (h : Rep c T) (hx : x ∈ T.nodes) (hr : x ≠ T.root) (hleaf : T.Leaf x) :
    ∃ c', c.deleteLeaf x = some c' ∧ Rep c' (T.prune x hr hleaf) ∧
      c' = { c with nodes := c'.nodes, evictableSize_ := c.evictableSize_ - (T.edge x).length
                    evictableLeaves := c'.evictableLeaves } ∧
      (∀ n, n ≠ T.parent x → c'.nodes n = c.nodes n) ∧ (∀ n, SameStamps (c'.nodes n) (c.nodes n)) ∧
      (c.evictableLeaves.Nodup → c'.evictableLeaves.Nodup ∧ ∀ m, m ∈ c'.evictableLeaves ↔
        (m = T.parent x ∧ c'.Evictable m) ∨ (m ≠ T.parent x ∧ m ≠ x ∧ m ∈ c.evictableLeaves)) := by
  have hp := T.parent_mem x hx hr
  have hpx := PrefixTree.parent_ne hx hr
  obtain ⟨t, ht⟩ := PrefixTree.first_isSome hx hr
  have hkey : (c.nodes x).key[0]? = some t := by
    rw [h.key x hx, List.getElem?_map, ← List.head?_eq_getElem?]; exact ht
  have hl := (h.children _ hp t x).mpr ⟨hx, hr, rfl, ht⟩
  have heq := deleteLeaf_eq hkey (h.parent x hx hr) hl hpx
  have hnp : (((c.unfile x (T.parent x) t).discardLeaf x).updateLeafStatus (T.parent x)).nodes (T.parent x) =
      { c.nodes (T.parent x) with children := (c.nodes (T.parent x)).children.erase t } := by
    simp [unfile]
  have hother : ∀ n, n ≠ T.parent x →
      (((c.unfile x (T.parent x) t).discardLeaf x).updateLeafStatus (T.parent x)).nodes n = c.nodes n := by
    intro n hn
    simp [unfile, modify_nodes_ne c _ hn]
  have hleaves : c.evictableLeaves.Nodup →
      (((c.unfile x (T.parent x) t).discardLeaf x).updateLeafStatus (T.parent x)).evictableLeaves.Nodup ∧
      ∀ m, m ∈ (((c.unfile x (T.parent x) t).discardLeaf x).updateLeafStatus (T.parent x)).evictableLeaves ↔
        (m = T.parent x ∧ ((c.unfile x (T.parent x) t).discardLeaf x).Evictable (T.parent x)) ∨
        (m ≠ T.parent x ∧ m ≠ x ∧ m ∈ c.evictableLeaves) := by
    intro hnd
    have h1 := discardLeaf_mem (c := c.unfile x (T.parent x) t) x hnd
    have h2 := updateLeafStatus_mem (T.parent x) h1.1
    exact ⟨h2.1, fun m => by rw [h2.2 m, h1.2 m]; rfl⟩
  have hev : ((c.unfile x (T.parent x) t).discardLeaf x).Evictable (T.parent x) ↔
      (((c.unfile x (T.parent x) t).discardLeaf x).updateLeafStatus (T.parent x)).Evictable (T.parent x) := by
    simp [Evictable, childValues]
  have hc : ((c.unfile x (T.parent x) t).discardLeaf x).updateLeafStatus (T.parent x) = { c with
      nodes := (((c.unfile x (T.parent x) t).discardLeaf x).updateLeafStatus (T.parent x)).nodes
      evictableSize_ := c.evictableSize_ - (T.edge x).length
      evictableLeaves :=
        (((c.unfile x (T.parent x) t).discardLeaf x).updateLeafStatus (T.parent x)).evictableLeaves } := by
    rw [← h.key_length hx, updateLeafStatus_eq, discardLeaf_eq]
    rfl
  generalize ((c.unfile x (T.parent x) t).discardLeaf x).updateLeafStatus (T.parent x) = c' at *
  have hshape : ∀ n, (c'.nodes n).parent = (c.nodes n).parent ∧ (c'.nodes n).key = (c.nodes n).key ∧
      (c'.nodes n).value = (c.nodes n).value ∧ SameStamps (c'.nodes n) (c.nodes n) := by
    intro n
    by_cases e : n = T.parent x
    · rw [e, hnp]; exact ⟨rfl, rfl, rfl, rfl, rfl, rfl, rfl, rfl⟩
    · rw [hother n e]; exact ⟨rfl, rfl, rfl, rfl, rfl, rfl, rfl, rfl⟩
  refine ⟨c', heq, ⟨?_, ?_, ?_, ?_, ?_, ?_⟩, hc, hother, fun n => (hshape n).2.2.2, fun hnd => ?_⟩
  · rw [hc]; exact h.root
  · intro n hn
    rw [hc]; exact h.lt n (Finset.mem_of_mem_erase hn)
  · intro n hn
    rw [(hshape n).2.1]; exact h.key n (Finset.mem_of_mem_erase hn)
  · intro n hn
    rw [(hshape n).2.2.1]; exact h.value n (Finset.mem_of_mem_erase hn)
  · intro n hn hnr
    rw [(hshape n).1]; exact h.parent n (Finset.mem_of_mem_erase hn) hnr
  · intro n hn t' m
    have hn := Finset.mem_of_mem_erase hn
    rw [PrefixTree.prune_filed, ← h.children n hn]
    by_cases e : n = T.parent x
    · rw [e, hnp]
      by_cases htt : t' = t
      · rw [htt, AList.lookup_erase, hl]
        simp [eq_comm]
      · rw [AList.lookup_erase_ne htt]
        refine ⟨fun hm => ⟨hm, fun hmx => htt ?_⟩, fun hm => hm.1⟩
        have := ((h.children _ hp t' m).mp hm).2.2.2
        rw [hmx, ht] at this
        exact (Option.some.inj this).symm
    · rw [hother n e]
      refine ⟨fun hm => ⟨hm, fun hmx => e ?_⟩, fun hm => hm.1⟩
      rw [← ((h.children n hn t' m).mp hm).2.2.1, hmx]
  · refine ⟨(hleaves hnd).1, fun m => ((hleaves hnd).2 m).trans (or_congr_left (and_congr_right fun e => ?_))⟩
    rw [e]; exact hev

theorem Book.deleteLeaf {c' : RadixCache} {hr : x ≠ T.root} {hleaf : T.Leaf x}
    (hs : Book c T locks) (hx : Frontier c T x) (h' : Rep c' (T.prune x hr hleaf))
    (hc : c' = { c with nodes := c'.nodes, evictableSize_ := c.evictableSize_ - (T.edge x).length
                        evictableLeaves := c'.evictableLeaves })
    (hsame : ∀ n, SameStamps (c'.nodes n) (c.nodes n))
    (hleaves : c.evictableLeaves.Nodup → c'.evictableLeaves.Nodup ∧ ∀ m, m ∈ c'.evictableLeaves ↔
      (m = T.parent x ∧ c'.Evictable m) ∨ (m ≠ T.parent x ∧ m ≠ x ∧ m ∈ c.evictableLeaves)) :
    Book c' (T.prune x hr hleaf) locks := by
  have hsize : ∀ (P : Int → Prop) [DecidablePred P], sizeWhere (T.prune x hr hleaf)
      (fun n => P (c'.nodes n).lockRef) = sizeWhere T (fun n => P (c.nodes n).lockRef) -
        if P 0 then ((T.edge x).length : Int) else 0 := by
    intro P _
    unfold sizeWhere
    rw [← Finset.add_sum_erase T.nodes _ hx.1]
    beta_reduce
    rw [hx.2.2, add_sub_cancel_left]
    refine Finset.sum_congr rfl fun n hn => ?_
    rw [(hsame n).1]
    rfl
  refine ⟨?_, fun n hn hnr => ?_, fun m hm => ?_, ?_, ?_, (hleaves hs.leaves_nodup).1, fun m => ?_⟩
  · exact (hsame _).1.trans hs.rootLock
  · rw [(hsame n).1]; exact hs.lock n (Finset.mem_of_mem_erase hn) hnr
  · refine Finset.mem_erase.mpr ⟨fun e => ?_, hs.locks_mem m hm⟩
    have := hs.lock_pos hx.1 hm (by rw [e])
    rw [hx.2.2] at this
    exact absurd this (Int.lt_irrefl 0)
  · rw [hsize (fun l => l = 0), if_pos rfl, ← hs.evictable, hc]
  · rw [hsize (fun l => 0 < l), if_neg (Int.lt_irrefl 0), sub_zero, ← hs.guarded, hc]
  · rw [(hleaves hs.leaves_nodup).2 m, hs.mem_leaves m, (hsame m).1]
    have hpx := PrefixTree.parent_ne hx.1 hr
    -- a leaf of the pruned tree was one before, except for the parent
    have hold : m ≠ T.parent x → ((T.prune x hr hleaf).Leaf m ↔ T.Leaf m) := by
      intro hmp
      refine ⟨fun hl n hn hnr hnm => ?_, fun hl n hn => hl n (Finset.mem_of_mem_erase hn)⟩
      by_cases e : n = x
      · exact hmp (by rw [← hnm, e])
      · exact hl n (Finset.mem_erase.mpr ⟨e, hn⟩) hnr hnm
    by_cases e : m = T.parent x
    · have hm : m ∈ (T.prune x hr hleaf).nodes :=
        Finset.mem_erase.mpr ⟨e ▸ hpx, e ▸ T.parent_mem x hx.1 hr⟩
      have h0 : 0 ≤ (c.nodes m).lockRef := hs.lock_nonneg (Finset.mem_of_mem_erase hm)
      have h0' : (c.nodes m).lockRef ≤ 0 ↔ (c.nodes m).lockRef = 0 := by omega
      refine (or_iff_left fun hm' => hm'.1 e).trans ((and_iff_right e).trans ?_)
      rw [h'.evictable_iff hm, (hsame m).1, h0', and_comm]
      exact (and_iff_right hm).symm
    · rw [hold e]
      show _ ∨ _ ↔ m ∈ T.nodes.erase x ∧ _
      rw [Finset.mem_erase]
      simp [e, and_assoc]

end

/-! ## One iteration -/

/-- One iteration of `evict` removed `x`: a smallest frontier node, whose slots
    went to the allocator. -/
structure Dropped (now : Clock) (x : NodeId) (c : RadixCache) (T : Tree) (c' : RadixCache) (T' : Tree) :
    Prop where
  frontier : Frontier c T x
  least : ∀ y, Frontier c T y →
    c.entryKey now (c.heapEntry now x) ≤ c.entryKey now (c.heapEntry now y)
  tree : ∃ hr hleaf, T' = T.prune x hr hleaf
  eq : c' = { c with
    nodes := c'.nodes, evictableSize_ := c.evictableSize_ - (T.edge x).length
    evictableLeaves := c'.evictableLeaves
    allocator := c.allocator.map fun a => a.free ((T.edge x).map Prod.snd) }
  stamps : ∀ n, SameStamps (c'.nodes n) (c.nodes n)

/-- The heap of `evict` holds the frontier, with current priorities. -/
structure Heaped (now : Clock) (c : RadixCache) (T : Tree) (heap : List HeapEntry) : Prop where
  nodup : heap.Nodup
  mem : ∀ e, e ∈ heap ↔ e = c.heapEntry now e.node ∧ Frontier c T e.node

theorem Book.heaped {c : RadixCache} {T : Tree} {locks : List NodeId} (h : Book c T locks) (now : Clock) :
    Heaped now c T (c.evictableLeaves.map (c.heapEntry now)) where
  nodup := h.leaves_nodup.map fun _ _ e => congrArg HeapEntry.node e
  mem e := by
    rw [List.mem_map]
    constructor
    · intro ⟨n, hn, he⟩
      rw [← he]
      exact ⟨rfl, (h.mem_leaves n).mp hn⟩
    · intro ⟨he, hf⟩
      exact ⟨e.node, (h.mem_leaves _).mpr hf, he.symm⟩

theorem heappop_spec (now : Clock) (tie : TieBreak) (c : RadixCache) {heap : List HeapEntry} (h : heap ≠ []) :
    ∃ e, c.heappop now tie heap = some (e, heap.erase e) ∧ e ∈ heap ∧
      ∀ e' ∈ heap, c.entryKey now e ≤ c.entryKey now e' := by
  have hmin : ∃ e ∈ heap, ∀ e' ∈ heap, c.entryKey now e ≤ c.entryKey now e' := by
    obtain ⟨e, he, hmin⟩ := heap.toFinset.exists_min_image (c.entryKey now)
      (List.toFinset_nonempty_iff _ |>.mpr h)
    exact ⟨e, List.mem_toFinset.mp he, fun e' he' => hmin e' (List.mem_toFinset.mpr he')⟩
  obtain ⟨m, hm, hmle⟩ := hmin
  generalize hs :
    heap.filter (fun e => heap.all fun e' => decide (c.entryKey now e ≤ c.entryKey now e')) = smallest
  have hmem : ∀ e, e ∈ smallest ↔ e ∈ heap ∧ ∀ e' ∈ heap, c.entryKey now e ≤ c.entryKey now e' := by
    intro e
    rw [← hs, List.mem_filter, List.all_eq_true]
    simp
  have hpos : 0 < smallest.length := List.length_pos_of_mem ((hmem m).mpr ⟨hm, hmle⟩)
  have hlt := Nat.mod_lt (tie heap) hpos
  have he := (hmem _).mp (List.getElem_mem hlt)
  refine ⟨smallest[tie heap % smallest.length], ?_, he.1, he.2⟩
  simp only [heappop, hs, List.getElem?_eq_getElem hlt]
  rfl

theorem heapEntry_congr (now : Clock) {c c' : RadixCache} {n : NodeId}
    (hs : c'.evictionStrategy = c.evictionStrategy) (h : SameStamps (c'.nodes n) (c.nodes n)) :
    c'.heapEntry now n = c.heapEntry now n := by
  obtain ⟨_, h2, h3, h4, h5⟩ := h
  unfold heapEntry
  rw [hs]
  congr 1
  cases c.evictionStrategy <;> simp [EvictionStrategy.getPriority, h2, h3, h4, h5]

theorem entryKey_congr (now : Clock) {c c' : RadixCache} {e : HeapEntry}
    (h : SameStamps (c'.nodes e.node) (c.nodes e.node)) : c'.entryKey now e = c.entryKey now e := by
  unfold entryKey
  rw [h.2.1]

section
variable {now : Clock} {c : RadixCache} {T : Tree} {locks : List NodeId} {heap : List HeapEntry}

/-- The frontier after `x` is gone: its parent may have joined. -/
theorem Dropped.frontier_iff {c' : RadixCache} {T' : Tree} {x : NodeId} (h : Dropped now x c T c' T')
    {n : NodeId} : Frontier c' T' n ↔ (Frontier c T n ∧ n ≠ x ∧ n ≠ T.parent x) ∨
      (n = T.parent x ∧ Frontier c' T' n) := by
  obtain ⟨hr, hleaf, hT⟩ := h.tree
  have hx := h.frontier
  by_cases e : n = T.parent x
  · simp [e]
  · simp only [e, ne_eq, not_false_eq_true, and_true, false_and, or_false]
    unfold Frontier
    rw [(h.stamps n).1, hT]
    refine ⟨fun ⟨hn, hl, h0⟩ => ⟨⟨Finset.mem_of_mem_erase hn, fun m hm hmr hmn => ?_, h0⟩,
      Finset.ne_of_mem_erase hn⟩, fun ⟨⟨hn, hl, h0⟩, hnx⟩ => ⟨Finset.mem_erase.mpr ⟨hnx, hn⟩,
      fun m hm => hl m (Finset.mem_of_mem_erase hm), h0⟩⟩
    by_cases hmx : m = x
    · exact e (by rw [← hmn, hmx])
    · exact hl m (Finset.mem_erase.mpr ⟨hmx, hm⟩) hmr hmn

theorem evict_step (h : Rep c T) (hb : Book c T locks) (hh : Heaped now c T heap) {e : HeapEntry}
    (he : e ∈ heap) (hmin : ∀ e' ∈ heap, c.entryKey now e ≤ c.entryKey now e') :
    ∃ c' T', (c.freeSlots ((T.edge e.node).map Prod.snd)).deleteLeaf e.node = some c' ∧ Rep c' T' ∧
      Book c' T' locks ∧ Dropped now e.node c T c' T' ∧ (c'.nodes e.node).parent = some (T.parent e.node) ∧
      Heaped now c' T' (if (c'.nodes (T.parent e.node)).children.entries.length = 0 ∧
          (c'.nodes (T.parent e.node)).lockRef = 0 then
        heap.erase e ++ [c'.heapEntry now (T.parent e.node)] else heap.erase e) := by
  obtain ⟨hee, hf⟩ := (hh.mem e).mp he
  generalize hx : e.node = x at *
  have hr := hf.ne_root hb
  have hpx := PrefixTree.parent_ne hf.1 hr
  have hp := T.parent_mem x hf.1 hr
  -- freeing slots changes the allocator only
  have h₁ : Rep (c.freeSlots ((T.edge x).map Prod.snd)) T :=
    h.congr rfl (Nat.le_refl _) fun _ _ => ⟨rfl, rfl, rfl, rfl⟩
  have hb₁ : Book (c.freeSlots ((T.edge x).map Prod.snd)) T locks := hb.congr (fun _ _ => rfl) rfl rfl rfl
  obtain ⟨c', heq, hrep, hc, hother, hsame, hleaves⟩ := h₁.deleteLeaf hf.1 hr hf.2.1
  have hbook := hb₁.deleteLeaf hf hrep hc hsame hleaves
  have hdrop : Dropped now x c T c' (T.prune x hr hf.2.1) := by
    refine ⟨hf, fun y hy => ?_, ⟨hr, hf.2.1, rfl⟩, hc, hsame⟩
    rw [← hee]
    exact hmin _ ((hh.mem _).mpr ⟨rfl, hy⟩)
  refine ⟨c', _, heq, hrep, hbook, hdrop, ?_, ?_⟩
  · rw [hother x hpx.symm]; exact h.parent x hf.1 hr
  · have hstrat : c'.evictionStrategy = c.evictionStrategy := by rw [hc]; rfl
    have hentry : ∀ n, c'.heapEntry now n = c.heapEntry now n := fun n => heapEntry_congr now hstrat (hsame n)
    have hp' : T.parent x ∈ (T.prune x hr hf.2.1).nodes := Finset.mem_erase.mpr ⟨hpx, hp⟩
    have hnotp : ∀ e' ∈ heap, e'.node ≠ T.parent x := fun e' he' hep =>
      ((hh.mem e').mp he').2.2.1 x hf.1 hr hep.symm
    -- what the test on the parent decides
    have htest : ((c'.nodes (T.parent x)).children.entries.length = 0 ∧ (c'.nodes (T.parent x)).lockRef = 0) ↔
        Frontier c' (T.prune x hr hf.2.1) (T.parent x) := by
      unfold Frontier
      rw [← hrep.childValues_eq_nil hp', and_iff_right hp', childValues, List.map_eq_nil_iff,
        List.length_eq_zero_iff]
    have hmem : ∀ e', e' ∈ heap.erase e ↔ e' = c'.heapEntry now e'.node ∧
        (Frontier c T e'.node ∧ e'.node ≠ x ∧ e'.node ≠ T.parent x) := by
      intro e'
      rw [hh.nodup.mem_erase_iff, hh.mem e', hentry]
      constructor
      · rintro ⟨hne, he', hf'⟩
        refine ⟨he', hf', fun hex => hne ?_, hnotp e' ((hh.mem e').mpr ⟨he', hf'⟩)⟩
        rw [he', hee, hex]
      · rintro ⟨he', hf', hne, _⟩
        exact ⟨fun heq => hne (by rw [heq, hx]), he', hf'⟩
    split
    · next ht =>
      refine ⟨?_, fun e' => ?_⟩
      · refine List.nodup_append.mpr ⟨hh.nodup.erase e, List.nodup_singleton _, fun a ha b hb' => ?_⟩
        rw [List.mem_singleton.mp hb']
        intro hab
        exact hnotp a (List.mem_of_mem_erase ha) (congrArg HeapEntry.node hab)
      · rw [List.mem_append, hmem e', List.mem_singleton, hdrop.frontier_iff]
        constructor
        · intro h'
          rcases h' with ⟨h1, h2⟩ | h'
          · exact ⟨h1, Or.inl h2⟩
          · rw [h']; exact ⟨rfl, Or.inr ⟨rfl, htest.mp ht⟩⟩
        · rintro ⟨h1, h2⟩
          rcases h2 with h2 | h2
          · exact Or.inl ⟨h1, h2⟩
          · exact Or.inr (by rw [h1, h2.1])
    · next ht =>
      refine ⟨hh.nodup.erase e, fun e' => ?_⟩
      rw [hmem e', hdrop.frontier_iff]
      refine and_congr_right fun _ => (or_iff_left fun h' => ht ?_).symm
      rw [htest, ← h'.1]
      exact h'.2

end

/-! ## A run of iterations -/

/-- The iterations that removed `xs`, in this order. -/
inductive Evicted (now : Clock) : List NodeId → RadixCache → Tree → RadixCache → Tree → Prop
  | nil {c : RadixCache} {T : Tree} : Evicted now [] c T c T
  | cons {x : NodeId} {xs : List NodeId} {c c₁ c' : RadixCache} {T T₁ T' : Tree} :
      Dropped now x c T c₁ T₁ → Evicted now xs c₁ T₁ c' T' → Evicted now (x :: xs) c T c' T'

/-- Tokens on the edges of `xs`. -/
def tokens (T : Tree) (xs : List NodeId) : Int := (xs.map fun x => ((T.edge x).length : Int)).sum

theorem Dropped.edge {now : Clock} {x : NodeId} {c c' : RadixCache} {T T' : Tree} (h : Dropped now x c T c' T') :
    T'.edge = T.edge := by
  obtain ⟨_, _, hT⟩ := h.tree
  rw [hT]
  rfl

/-! ## The loop -/

/-- The body of the `while` loop of `evict`: the node it removes, the cache and
    the heap it leaves, and how many tokens it evicts. -/
def evictBody (now : Clock) (tie : TieBreak) (c : RadixCache) (heap : List HeapEntry) :
    Option (NodeId × RadixCache × List HeapEntry × Nat) := do
  let (x, heap) ← c.heappop now tie heap
  let value ← (c.nodes x.node).value
  let c ← (c.freeSlots value).deleteLeaf x.node
  let parent ← (c.nodes x.node).parent
  let heap :=
    if (c.nodes parent).children.entries.length = 0 ∧ (c.nodes parent).lockRef = 0 then
      heap ++ [c.heapEntry now parent]
    else heap
  return (x.node, c, heap, value.length)

theorem evictLoop_succ (now : Clock) (tie : TieBreak) (numTokens : Int) (fuel : Nat) (c : RadixCache)
    (heap : List HeapEntry) (numEvicted : Int) : evictLoop now tie numTokens (fuel + 1) c heap numEvicted =
      if numEvicted < numTokens ∧ heap ≠ [] then
        (c.evictBody now tie heap).bind fun b => evictLoop now tie numTokens fuel b.2.1 b.2.2.1
        (numEvicted + b.2.2.2)
      else some (c, numEvicted) := by
  simp only [evictLoop, evictBody, Option.bind_eq_bind, Option.bind_assoc, Option.pure_def, Option.bind_some]

/-- The removals of the loop: the cache before each, and the node it removes. -/
def evictTrace (now : Clock) (tie : TieBreak) (numTokens : Int) :
    Nat → RadixCache → List HeapEntry → Int → List (RadixCache × NodeId)
  | 0, _, _, _ => []
  | fuel + 1, c, heap, numEvicted =>
    if numEvicted < numTokens ∧ heap ≠ [] then
      match c.evictBody now tie heap with
      | none => []
      | some (x, c', heap', k) => (c, x) :: evictTrace now tie numTokens fuel c' heap' (numEvicted + k)
    else []

/-- The removals of `evict(numTokens)`, in order. -/
def removals (now : Clock) (tie : TieBreak) (c : RadixCache) (numTokens : Int) : List (RadixCache × NodeId) :=
  let c := c.beginOp
  if c.disable then []
  else evictTrace now tie numTokens (c.counter + 1) c (c.evictableLeaves.map (c.heapEntry now)) 0

/-- At a removal of an eviction that started at `c`, `x` is a smallest frontier
    node of what is left of the tree. -/
structure Removal (now : Clock) (c : RadixCache) (T : Tree) (locks : List NodeId) (c' : RadixCache) (T' : Tree)
    (x : NodeId) : Prop where
  rep : Rep c' T'
  book : Book c' T' locks
  subset : T'.nodes ⊆ T.nodes
  root : T'.root = T.root
  path : T'.path = T.path
  parent : T'.parent = T.parent
  frontier : Frontier c' T' x
  least : ∀ y, Frontier c' T' y →
    c.entryKey now (c.heapEntry now x) ≤ c.entryKey now (c.heapEntry now y)
  stamps : ∀ n, SameStamps (c'.nodes n) (c.nodes n)

theorem SameStamps.trans {x y z : TreeNode} (h : SameStamps x y) (h' : SameStamps y z) : SameStamps x z :=
  ⟨h.1.trans h'.1, h.2.1.trans h'.2.1, h.2.2.1.trans h'.2.2.1, h.2.2.2.1.trans h'.2.2.2.1,
    h.2.2.2.2.trans h'.2.2.2.2⟩

/-- What is compared at a removal does not depend on the earlier iterations. -/
theorem Dropped.entryKey {now : Clock} {x : NodeId} {c c' : RadixCache} {T T' : Tree}
    (h : Dropped now x c T c' T')
    (n : NodeId) : c'.entryKey now (c'.heapEntry now n) = c.entryKey now (c.heapEntry now n) := by
  have hstrat : c'.evictionStrategy = c.evictionStrategy := by rw [h.eq]
  rw [heapEntry_congr now hstrat (h.stamps n)]
  exact entryKey_congr now (h.stamps n)

theorem Removal.dropped {now : Clock} {locks : List NodeId} {c c₁ c' : RadixCache} {T T₁ T' : Tree} {x y : NodeId}
    (h : Removal now c₁ T₁ locks c' T' x) (hd : Dropped now y c T c₁ T₁) : Removal now c T locks c' T' x := by
  obtain ⟨_, _, hT⟩ := hd.tree
  refine ⟨h.rep, h.book, h.subset.trans ?_, h.root.trans (by rw [hT]; rfl), h.path.trans (by rw [hT]; rfl),
    h.parent.trans (by rw [hT]; rfl), h.frontier, fun z hz => ?_, fun n => (h.stamps n).trans (hd.stamps n)⟩
  · rw [hT]; exact Finset.erase_subset _ _
  · rw [← hd.entryKey, ← hd.entryKey]
    exact h.least z hz

theorem evictLoop_spec (now : Clock) (tie : TieBreak) (numTokens : Int) {locks : List NodeId} :
    ∀ (fuel : Nat) (c : RadixCache) (T : Tree) (heap : List HeapEntry) (numEvicted : Int),
    Rep c T → Book c T locks → Heaped now c T heap → T.nodes.card < fuel →
    ∃ c' T' xs, evictLoop now tie numTokens fuel c heap numEvicted = some (c', numEvicted + tokens T xs) ∧
      Evicted now xs c T c' T' ∧ Rep c' T' ∧ Book c' T' locks ∧
      (numTokens ≤ numEvicted + tokens T xs ∨ ∀ n, ¬Frontier c' T' n) ∧
      (∀ ys y, xs = ys ++ [y] → numEvicted + tokens T ys < numTokens) ∧
      (evictTrace now tie numTokens fuel c heap numEvicted).map Prod.snd = xs ∧
      ∀ p ∈ evictTrace now tie numTokens fuel c heap numEvicted, ∃ T₁, Removal now c T locks p.1 T₁ p.2 := by
  intro fuel
  induction fuel with
  | zero => intro c T heap numEvicted _ _ _ hf; exact absurd hf (Nat.not_lt_zero _)
  | succ fuel ih =>
    intro c T heap numEvicted h hb hh hf
    by_cases hgo : numEvicted < numTokens ∧ heap ≠ []
    · obtain ⟨e, hpop, he, hmin⟩ := heappop_spec now tie c hgo.2
      obtain ⟨hee, hfr⟩ := (hh.mem e).mp he
      obtain ⟨c₁, T₁, hdel, h₁, hb₁, hdrop, hpar, hh₁⟩ := evict_step h hb hh he hmin
      have hcard : T₁.nodes.card < fuel := by
        obtain ⟨_, _, hT⟩ := hdrop.tree
        rw [hT]
        exact Nat.lt_of_lt_of_le (Finset.card_erase_lt_of_mem hfr.1) (Nat.le_of_lt_succ hf)
      obtain ⟨heap', hbody, hh₁⟩ : ∃ heap', c.evictBody now tie heap =
          some (e.node, c₁, heap', (T.edge e.node).length) ∧ Heaped now c₁ T₁ heap' := by
        refine ⟨_, ?_, hh₁⟩
        simp only [evictBody, hpop, h.value e.node hfr.1, hdel, hpar, List.length_map, Option.bind_eq_bind,
          Option.bind_some, Option.pure_def]
      obtain ⟨c', T', xs, heq, hev, h', hb', hstop, hlast, hxs, htrace⟩ :=
        ih c₁ T₁ heap' (numEvicted + (T.edge e.node).length) h₁ hb₁ hh₁ hcard
      have htok : ∀ ys, tokens T (e.node :: ys) = (T.edge e.node).length + tokens T₁ ys := by
        intro ys
        simp [tokens, hdrop.edge]
      refine ⟨c', T', e.node :: xs, ?_, .cons hdrop hev, h', hb', ?_, fun ys y hxs => ?_, ?_, fun p hp => ?_⟩
      · rw [htok, ← add_assoc, ← heq, evictLoop_succ, if_pos hgo, hbody]
        rfl
      · rw [htok, ← add_assoc]; exact hstop
      · cases ys with
        | nil => simpa [tokens] using hgo.1
        | cons z ys =>
          simp only [List.cons_append, List.cons.injEq] at hxs
          rw [← hxs.1, htok, ← add_assoc]
          exact hlast ys y hxs.2
      · rw [evictTrace, if_pos hgo, hbody]
        exact congrArg _ hxs
      · rw [evictTrace, if_pos hgo, hbody] at hp
        rcases List.mem_cons.mp hp with e' | hp
        · rw [e']
          exact ⟨T, h, hb, Finset.Subset.refl _, rfl, rfl, rfl, hdrop.frontier, hdrop.least,
            fun _ => ⟨rfl, rfl, rfl, rfl, rfl⟩⟩
        · obtain ⟨T₂, hrem⟩ := htrace p hp
          exact ⟨T₂, hrem.dropped hdrop⟩
    · refine ⟨c, T, [], ?_, .nil, h, hb, ?_, by simp, ?_, fun p hp => ?_⟩
      · rw [evictLoop, if_neg hgo]
        simp [tokens]
      · by_cases hn : numEvicted < numTokens
        · have hnil : heap = [] := by
            by_contra hne
            exact hgo ⟨hn, hne⟩
          refine Or.inr fun n hfn => ?_
          have := (hh.mem (c.heapEntry now n)).mpr ⟨rfl, hfn⟩
          rw [hnil] at this
          cases this
        · left
          simp only [tokens, List.map_nil, List.sum_nil, add_zero]
          omega
      · rw [evictTrace, if_neg hgo]
        rfl
      · rw [evictTrace, if_neg hgo] at hp
        cases hp

/-- The pool slots of the nodes `xs`, in this order. -/
def slotsOf (T : Tree) (xs : List NodeId) : List Slot := xs.flatMap fun x => (T.edge x).map Prod.snd

/-- What a run of `evict` that removes `xs` does. -/
structure Shrunk (xs : List NodeId) (c : RadixCache) (T : Tree) (c' : RadixCache) (T' : Tree) : Prop where
  nodup : xs.Nodup
  mem : ∀ n, n ∈ T.nodes ↔ n ∈ T'.nodes ∨ n ∈ xs
  gone : ∀ n ∈ xs, n ∉ T'.nodes
  root : T'.root = T.root
  path : T'.path = T.path
  parent : T'.parent = T.parent
  edge : T'.edge = T.edge
  stored : T.stored = (slotsOf T xs : Multiset Slot) + T'.stored
  unlocked : ∀ x ∈ xs, (c.nodes x).lockRef = 0
  eq : c' = { c with
    nodes := c'.nodes, evictableSize_ := c.evictableSize_ - tokens T xs, evictableLeaves := c'.evictableLeaves
    allocator := c.allocator.map fun a => a.free (slotsOf T xs) }
  stamps : ∀ n, SameStamps (c'.nodes n) (c.nodes n)

theorem Shrunk.subset {xs : List NodeId} {c c' : RadixCache} {T T' : Tree} (h : Shrunk xs c T c' T') :
    T'.nodes ⊆ T.nodes := fun n hn => (h.mem n).mpr (Or.inl hn)

theorem Shrunk.pos {xs : List NodeId} {c c' : RadixCache} {T T' : Tree} (h : Shrunk xs c T c' T')
    {q : List (Token × Slot)} (hq : T'.Pos q) : T.Pos q := by
  obtain ⟨hne, n, hn, hle⟩ := hq
  exact ⟨hne, n, h.subset hn, by rw [← h.path]; exact hle⟩

theorem Evicted.shrunk {now : Clock} {xs : List NodeId} {c c' : RadixCache} {T T' : Tree}
    (h : Evicted now xs c T c' T') : Shrunk xs c T c' T' := by
  induction h with
  | @nil c T =>
    refine ⟨List.nodup_nil, fun n => by simp, fun n hn => by simp at hn, rfl, rfl, rfl, rfl, by simp [slotsOf],
      fun x hx => by simp at hx, ?_, fun _ => ⟨rfl, rfl, rfl, rfl, rfl⟩⟩
    cases ha : c.allocator <;> simp [tokens, slotsOf, TokenPoolAllocator.free, ← ha]
  | @cons x xs c c₁ c' T T₁ T' hdrop _ ih =>
    obtain ⟨hr, hleaf, hT⟩ := hdrop.tree
    have hx := hdrop.frontier
    have hsub : ∀ n, n ∈ T.nodes ↔ n ∈ T₁.nodes ∨ n = x := by
      intro n
      rw [hT]
      show _ ↔ n ∈ T.nodes.erase x ∨ n = x
      rw [Finset.mem_erase]
      by_cases e : n = x
      · simp [e, hx.1]
      · simp [e]
    have hx₁ : x ∉ T₁.nodes := by
      rw [hT]
      exact Finset.notMem_erase x _
    have hedge := hdrop.edge
    refine ⟨List.nodup_cons.mpr ⟨fun hm => hx₁ ((ih.mem x).mpr (Or.inr hm)), ih.nodup⟩, fun n => ?_,
      fun n hn => ?_, ih.root.trans (by rw [hT]; rfl), ih.path.trans (by rw [hT]; rfl),
      ih.parent.trans (by rw [hT]; rfl), ih.edge.trans hedge, ?_, fun y hy => ?_, ?_,
      fun n => (ih.stamps n).trans (hdrop.stamps n)⟩
    · rw [hsub n, ih.mem n, List.mem_cons]
      tauto
    · rcases List.mem_cons.mp hn with e | hn
      · rw [e]
        exact fun hm => hx₁ (ih.subset hm)
      · exact ih.gone n hn
    · have h1 : T.stored = _ + (T.prune x hr hleaf).stored := PrefixTree.prune_stored hx.1
      rw [← hT, ih.stored] at h1
      rw [h1]
      simp only [slotsOf, List.flatMap_cons, ← Multiset.coe_add, add_assoc, hedge]
    · rcases List.mem_cons.mp hy with e | hy
      · rw [e]; exact hx.2.2
      · rw [← (hdrop.stamps y).1]; exact ih.unlocked y hy
    · rw [ih.eq, hdrop.eq]
      simp only [tokens, slotsOf, hedge, List.map_cons, List.sum_cons, List.flatMap_cons, Option.map_map]
      congr 1
      · congr 1
        funext a
        simp [TokenPoolAllocator.free, List.append_assoc]
      · omega

/-- The order of eviction: an unlocked node that survives has a leaf below it
    that was no smaller than `x` when `x` was removed. -/
theorem Evicted.ordered {now : Clock} {xs : List NodeId} {c c' : RadixCache} {T T' : Tree}
    (h : Evicted now xs c T c' T')
    (hanti : ∀ n ∈ T.nodes, ∀ m ∈ T.nodes, n ≠ T.root → T.path n <+: T.path m → (c.nodes n).lockRef = 0 →
      (c.nodes m).lockRef = 0) :
    ∀ x ∈ xs, ∀ y ∈ T'.nodes, y ≠ T.root → (c.nodes y).lockRef = 0 → ∃ z ∈ T.nodes, T.path y <+: T.path z ∧
      c.entryKey now (c.heapEntry now x) ≤ c.entryKey now (c.heapEntry now z) := by
  induction h with
  | nil => intro x hx; simp at hx
  | @cons w xs c c₁ c' T T₁ T' hdrop hev ih =>
    intro x hx y hy hyr hy0
    obtain ⟨hr, hleaf, hT⟩ := hdrop.tree
    have hsub : T₁.nodes ⊆ T.nodes := by rw [hT]; exact Finset.erase_subset _ _
    have hpath : T₁.path = T.path := by rw [hT]; rfl
    have hroot : T₁.root = T.root := by rw [hT]; rfl
    rcases List.mem_cons.mp hx with e | hx
    · -- `x` was a smallest frontier node, and the leaf is on the frontier
      have hyT := hsub (hev.shrunk.subset hy)
      obtain ⟨z, hz, hzl, hyz⟩ := PrefixTree.exists_leaf_below hyT
      refine ⟨z, hz, hyz, ?_⟩
      rw [e]
      exact hdrop.least z ⟨hz, hzl, hanti y hyT z hz hyr hyz hy0⟩
    · obtain ⟨z, hz, hyz, hle⟩ := ih
        (fun n hn m hm hnr hnm h0 => by
          rw [(hdrop.stamps n).1] at h0
          rw [(hdrop.stamps m).1]
          rw [hpath] at hnm
          rw [hroot] at hnr
          exact hanti n (hsub hn) m (hsub hm) hnr hnm h0)
        x hx y hy (by rw [hroot]; exact hyr) (by rw [(hdrop.stamps y).1]; exact hy0)
      rw [hpath] at hyz
      refine ⟨z, hsub hz, hyz, ?_⟩
      rw [hdrop.entryKey, hdrop.entryKey] at hle
      exact hle

/-! ## The operation -/

section
variable {c : RadixCache} {T : Tree} {locks : List NodeId}

theorem Aged.shrunk {c' : RadixCache} {T' : Tree} {xs : List NodeId} (hs : Aged c T)
    (h : Shrunk xs c T c' T') : Aged c' T' := by
  have hclock : c'.clock = c.clock := by rw [h.eq]
  refine ⟨fun n hn => ?_, fun n hn hr => ?_, fun n hn hr => ?_⟩
  · rw [(h.stamps n).2.1, hclock]; exact hs.past n (h.subset hn)
  · rw [(h.stamps n).2.1, (h.stamps _).2.1, h.parent]
    exact hs.op n (h.subset hn) (by rw [← h.root]; exact hr)
  · rw [(h.stamps n).2.2.2.2, (h.stamps _).2.2.2.2, h.parent]
    exact hs.priority n (h.subset hn) (by rw [← h.root]; exact hr)

/-- `evict` returns the tokens it removed; it stops when that is enough or no
    unlocked leaf is left, and not before the last removal was needed. -/
theorem Wf.evict (h : Wf c T locks) (now : Clock) (tie : TieBreak) (numTokens : Int) :
    ∃ c' T' xs, c.evict now tie numTokens = some (c', tokens T xs) ∧ Wf c' T' locks ∧
      Evicted now xs c.beginOp T c' T' ∧ (numTokens ≤ tokens T xs ∨ ∀ n, ¬Frontier c' T' n) ∧
      (∀ ys y, xs = ys ++ [y] → tokens T ys < numTokens) ∧
      (c.removals now tie numTokens).map Prod.snd = xs ∧
      ∀ p ∈ c.removals now tie numTokens, ∃ T₁, Removal now c.beginOp T locks p.1 T₁ p.2 := by
  have h0 := h.beginOp
  obtain ⟨c', T', xs, heq, hev, hrep, hbook, hstop, hlast, hxs, htrace⟩ :=
    evictLoop_spec now tie numTokens (c.counter + 1) c.beginOp T _ 0 h0.rep h0.book (h0.book.heaped now)
      (Nat.lt_succ_of_le h.rep.card_le)
  have hsh := hev.shrunk
  have hd : c.beginOp.disable = false := h.enabled
  simp only [zero_add] at heq hstop hlast
  have hrem : c.removals now tie numTokens = evictTrace now tie numTokens (c.counter + 1) c.beginOp
      (c.beginOp.evictableLeaves.map (c.beginOp.heapEntry now)) 0 := by
    simp only [removals, hd]
    rfl
  refine ⟨c', T', xs, ?_, ⟨hrep, hbook, h0.aged.shrunk hsh, ?_⟩, hev, hstop, hlast, hrem ▸ hxs, hrem ▸ htrace⟩
  · simp only [RadixCache.evict, hd]
    exact heq
  · rw [hsh.eq]; exact h.enabled

/-- An eviction that frees the whole evictable size, or stops for want of leaves,
    leaves only locked nodes. -/
theorem Shrunk.all_locked {c' : RadixCache} {T' : Tree} {xs : List NodeId} {numTokens : Int}
    (h : Shrunk xs c T c' T') (hb : Book c' T' locks)
    (hstop : numTokens ≤ tokens T xs ∨ ∀ n, ¬Frontier c' T' n) (hall : c.evictableSize ≤ numTokens) {n : NodeId}
    (hn : n ∈ T'.nodes) : 0 < (c'.nodes n).lockRef := by
  have hnn := hb.lock_nonneg hn
  by_contra hlt
  have h0 : (c'.nodes n).lockRef = 0 := by omega
  have hr : n ≠ T'.root := by
    intro e
    have := hb.rootLock
    rw [← e, h0] at this
    cases this
  rcases hstop with henough | hnone
  · have hsize : c'.evictableSize_ ≤ 0 := by
      have := congrArg RadixCache.evictableSize_ h.eq
      have hall : c.evictableSize_ ≤ numTokens := hall
      simp only at this
      omega
    have hone : ((T'.edge n).length : Int) ≤ sizeWhere T' fun m => (c'.nodes m).lockRef = 0 := by
      have := Finset.single_le_sum
        (f := fun m => if (c'.nodes m).lockRef = 0 then ((T'.edge m).length : Int) else 0)
        (fun m _ => by split <;> omega) hn
      simp only [h0, if_true] at this
      exact this
    have := PrefixTree.edge_length_pos hn hr
    rw [← hb.evictable] at hone
    omega
  · obtain ⟨m, hm, hleaf, hle⟩ := PrefixTree.exists_leaf_below hn
    have h1 := hb.lock_antitone hn hm hr hle
    have h2 := hb.lock_nonneg hm
    exact hnone m ⟨hm, hleaf, by omega⟩

end

end RadixCache

end SglangMlx
