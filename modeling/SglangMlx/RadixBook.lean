import SglangMlx.RadixTree

/- The bookkeeping of the radix cache. `Book c T locks` says that every lock
   count is the number of outstanding locks below the node, that the two size
   counters are sums over the tree and that the evictable leaves are the unlocked
   leaves; `Aged c T` orders access stamps and priorities along root paths.

   `Micro` lists what `match_prefix` and the loop of `insert` do to the cache,
   one primitive a constructor, with the guard under which the walks use it. A
   walk is a chain of them, so each invariant is checked once per primitive
   (`Micro.rep`, `Micro.book`, `Micro.aged`) and `Refined` is what a walk leaves
   alone: it cuts edges, and nothing else. -/
namespace SglangMlx.RadixCache

/-- Outstanding locks in the subtree of `n`. -/
def lockCount (T : Tree) (locks : List NodeId) (n : NodeId) : Nat :=
  locks.countP fun m => decide (T.path n <+: T.path m)

/-- Tokens stored in the nodes that satisfy `P`. -/
def sizeWhere (T : Tree) (P : NodeId → Prop) [DecidablePred P] : Int :=
  ∑ n ∈ T.nodes, if P n then ((T.edge n).length : Int) else 0

structure Book (c : RadixCache) (T : Tree) (locks : List NodeId) : Prop where
  rootLock : (c.nodes T.root).lockRef = 1
  lock : ∀ n ∈ T.nodes, n ≠ T.root → (c.nodes n).lockRef = lockCount T locks n
  locks_mem : ∀ m ∈ locks, m ∈ T.nodes
  evictable : c.evictableSize_ = sizeWhere T fun n => (c.nodes n).lockRef = 0
  guarded : c.protectedSize_ = sizeWhere T fun n => 0 < (c.nodes n).lockRef
  leaves_nodup : c.evictableLeaves.Nodup
  mem_leaves : ∀ n, n ∈ c.evictableLeaves ↔ n ∈ T.nodes ∧ T.Leaf n ∧ (c.nodes n).lockRef = 0

theorem sizeWhere_congr {T : Tree} {P Q : NodeId → Prop} [DecidablePred P] [DecidablePred Q]
    (h : ∀ n ∈ T.nodes, P n ↔ Q n) : sizeWhere T P = sizeWhere T Q :=
  Finset.sum_congr rfl fun n hn => by simp only [h n hn]

theorem Book.lock_nonneg {c : RadixCache} {T : Tree} {locks : List NodeId} (h : Book c T locks)
    {n : NodeId} (hn : n ∈ T.nodes) : 0 ≤ (c.nodes n).lockRef := by
  by_cases hr : n = T.root
  · rw [hr, h.rootLock]; decide
  · rw [h.lock n hn hr]; exact Int.natCast_nonneg _

theorem Book.lock_antitone {c : RadixCache} {T : Tree} {locks : List NodeId} (h : Book c T locks)
    {n m : NodeId} (hn : n ∈ T.nodes) (hm : m ∈ T.nodes) (hr : n ≠ T.root)
    (hle : T.path n <+: T.path m) : (c.nodes m).lockRef ≤ (c.nodes n).lockRef := by
  have hmr : m ≠ T.root := by
    intro e
    rw [e, T.path_root] at hle
    exact hr (PrefixTree.path_eq_nil hn (List.prefix_nil.mp hle))
  rw [h.lock n hn hr, h.lock m hm hmr, Nat.cast_le]
  exact List.countP_mono_left fun x _ hx => by
    rw [decide_eq_true_eq] at hx ⊢
    exact hle.trans hx

theorem Book.lock_pos {c : RadixCache} {T : Tree} {locks : List NodeId} (h : Book c T locks)
    {n m : NodeId} (hn : n ∈ T.nodes) (hm : m ∈ locks) (hle : T.path n <+: T.path m) :
    0 < (c.nodes n).lockRef := by
  by_cases hr : n = T.root
  · rw [hr, h.rootLock]; decide
  · rw [h.lock n hn hr]
    exact Int.natCast_pos.mpr (List.countP_pos_iff.mpr ⟨m, hm, by simpa using hle⟩)

theorem Book.congr {c c' : RadixCache} {T : Tree} {locks : List NodeId} (h : Book c T locks)
    (hlock : ∀ n ∈ T.nodes, (c'.nodes n).lockRef = (c.nodes n).lockRef)
    (he : c'.evictableSize_ = c.evictableSize_) (hp : c'.protectedSize_ = c.protectedSize_)
    (hl : c'.evictableLeaves = c.evictableLeaves) : Book c' T locks where
  rootLock := (hlock _ T.root_mem).trans h.rootLock
  lock n hn hr := (hlock n hn).trans (h.lock n hn hr)
  locks_mem := h.locks_mem
  evictable := by
    rw [he, h.evictable]
    exact sizeWhere_congr fun n hn => by rw [hlock n hn]
  guarded := by
    rw [hp, h.guarded]
    exact sizeWhere_congr fun n hn => by rw [hlock n hn]
  leaves_nodup := by rw [hl]; exact h.leaves_nodup
  mem_leaves n := by
    rw [hl, h.mem_leaves n]
    refine and_congr_right fun hn => ?_
    rw [hlock n hn]

/-- Access stamps and priorities do not grow from parent to child, and no stamp
    is from a later operation. -/
structure Aged (c : RadixCache) (T : Tree) : Prop where
  past : ∀ n ∈ T.nodes, (c.nodes n).lastAccessTime.op ≤ c.clock.op
  op : ∀ n ∈ T.nodes, n ≠ T.root →
    (c.nodes n).lastAccessTime.op ≤ (c.nodes (T.parent n)).lastAccessTime.op
  priority : ∀ n ∈ T.nodes, n ≠ T.root → (c.nodes n).priority ≤ (c.nodes (T.parent n)).priority

theorem Aged.falls {c : RadixCache} {T : Tree} (h : Aged c T) :
    T.Falls (fun n => (c.nodes n).lastAccessTime.op) ∧ T.Falls fun n => (c.nodes n).priority := ⟨h.op, h.priority⟩

theorem Aged.below {c : RadixCache} {T : Tree} (h : Aged c T) {n m : NodeId} (hn : n ∈ T.nodes)
    (hm : m ∈ T.nodes) (hle : T.path n <+: T.path m) :
    (c.nodes m).lastAccessTime.op ≤ (c.nodes n).lastAccessTime.op ∧
      (c.nodes m).priority ≤ (c.nodes n).priority :=
  ⟨h.falls.1.le_of_path hn hm hle, h.falls.2.le_of_path hn hm hle⟩

/-! ## The primitives of a walk -/

/-- One primitive of a walk during operation `op`. -/
inductive Micro (op : Nat) : RadixCache × Tree → RadixCache × Tree → Prop
  /-- `time.monotonic()`. -/
  | tick {c : RadixCache} {T : Tree} : Micro op (c, T) (c.monotonic.2, T)
  /-- Stamp a node whose parent was stamped in this operation. -/
  | touch {c : RadixCache} {T : Tree} {n : NodeId} {r : Reading} (hn : n ∈ T.nodes) (hr : r.op = op)
      (hp : n ≠ T.root → (c.nodes (T.parent n)).lastAccessTime.op = op) :
      Micro op (c, T) (c.stamp n r, T)
  /-- Raise the priority of a node whose parent already has it. -/
  | raise {c : RadixCache} {T : Tree} {n : NodeId} {p : Int} (hn : n ∈ T.nodes)
      (hp : n ≠ T.root → p ≤ (c.nodes (T.parent n)).priority) :
      Micro op (c, T) (c.raisePriority n p, T)
  /-- Split the edge of a node whose parent was stamped in this operation. -/
  | split {c c' : RadixCache} {T : Tree} {child : NodeId} {k : Nat} (h : Rep c T)
      (hc : child ∈ T.nodes) (hr : child ≠ T.root) (hk : 0 < k) (hk' : k < (T.edge child).length)
      (heq : c.splitNode (c.nodes child).key child k = some (c', c.counter))
      (hp : (c.nodes (T.parent child)).lastAccessTime.op = op) :
      Micro op (c, T) (c', T.split c.counter child k h.not_mem_counter hc hr hk hk')

/-- `T'` is `T` with some edges cut, and `c'` differs from `c` only in its objects
    and its clock. -/
structure Refined (c : RadixCache) (T : Tree) (c' : RadixCache) (T' : Tree) : Prop where
  subset : T.nodes ⊆ T'.nodes
  root : T'.root = T.root
  path : ∀ n ∈ T.nodes, T'.path n = T.path n
  pos : ∀ q, T'.Pos q ↔ T.Pos q
  stored : T'.stored = T.stored
  leaf : ∀ n ∈ T.nodes, T'.Leaf n ↔ T.Leaf n
  disable : c'.disable = c.disable
  strategy : c'.evictionStrategy = c.evictionStrategy
  allocator : c'.allocator = c.allocator
  evictable : c'.evictableSize_ = c.evictableSize_
  guarded : c'.protectedSize_ = c.protectedSize_
  leaves : c'.evictableLeaves = c.evictableLeaves
  lock : ∀ n ∈ T.nodes, (c'.nodes n).lockRef = (c.nodes n).lockRef
  op : c'.clock.op = c.clock.op

theorem Refined.refl (c : RadixCache) (T : Tree) : Refined c T c T :=
  ⟨fun _ h => h, rfl, fun _ _ => rfl, fun _ => Iff.rfl, rfl, fun _ _ => Iff.rfl, rfl, rfl, rfl, rfl, rfl,
    rfl, fun _ _ => rfl, rfl⟩

theorem Refined.trans {c c' c'' : RadixCache} {T T' T'' : Tree} (h : Refined c T c' T')
    (h' : Refined c' T' c'' T'') : Refined c T c'' T'' where
  subset := h.subset.trans h'.subset
  root := h'.root.trans h.root
  path n hn := (h'.path n (h.subset hn)).trans (h.path n hn)
  pos q := (h'.pos q).trans (h.pos q)
  stored := h'.stored.trans h.stored
  leaf n hn := (h'.leaf n (h.subset hn)).trans (h.leaf n hn)
  disable := h'.disable.trans h.disable
  strategy := h'.strategy.trans h.strategy
  allocator := h'.allocator.trans h.allocator
  evictable := h'.evictable.trans h.evictable
  guarded := h'.guarded.trans h.guarded
  leaves := h'.leaves.trans h.leaves
  lock n hn := (h'.lock n (h.subset hn)).trans (h.lock n hn)
  op := h'.op.trans h.op

/-- A primitive that only assigns to fields of one object. -/
theorem Refined.modify (c : RadixCache) (T : Tree) (n : NodeId) {f : TreeNode → TreeNode}
    (hf : ∀ x, (f x).lockRef = x.lockRef) : Refined c T (c.modify n f) T where
  subset _ h := h
  root := rfl
  path _ _ := rfl
  pos _ := Iff.rfl
  stored := rfl
  leaf _ _ := Iff.rfl
  disable := rfl
  strategy := rfl
  allocator := rfl
  evictable := rfl
  guarded := rfl
  leaves := rfl
  lock m _ := by
    by_cases e : m = n
    · rw [e, modify_nodes_self, hf]
    · rw [modify_nodes_ne c f e]
  op := rfl

section
variable {op : Nat} {s s' : RadixCache × Tree}

theorem Micro.rep (h : Micro op s s') (hs : Rep s.1 s.2) : Rep s'.1 s'.2 := by
  cases h with
  | tick => exact hs.congr rfl (Nat.le_refl _) fun n _ => ⟨rfl, rfl, rfl, rfl⟩
  | @touch c T n r hn hr hp =>
    refine hs.congr rfl (Nat.le_refl _) fun m _ => ?_
    by_cases e : m = n
    · rw [e, stamp_nodes_self]; exact ⟨rfl, rfl, rfl, rfl⟩
    · rw [stamp_nodes_ne c _ e]; exact ⟨rfl, rfl, rfl, rfl⟩
  | @raise c T n p hn hp =>
    refine hs.congr rfl (Nat.le_refl _) fun m _ => ?_
    by_cases e : m = n
    · rw [e, raisePriority_nodes_self]; exact ⟨rfl, rfl, rfl, rfl⟩
    · rw [raisePriority_nodes_ne c _ e]; exact ⟨rfl, rfl, rfl, rfl⟩
  | split h hc hr hk hk' heq hp =>
    obtain ⟨c'', heq', hrep, _⟩ := h.splitNode hc hr hk hk'
    rw [heq] at heq'
    cases heq'
    exact hrep

theorem Micro.refined (h : Micro op s s') : Refined s.1 s.2 s'.1 s'.2 := by
  cases h with
  | tick => exact { Refined.refl _ _ with }
  | @touch c T n r _ _ _ => exact Refined.modify c T n (f := fun x => { x with lastAccessTime := r }) fun _ => rfl
  | @raise c T n p _ _ =>
    exact Refined.modify c T n (f := fun x => { x with priority := max x.priority p }) fun _ => rfl
  | split h hc hr hk hk' heq hp =>
    obtain ⟨c'', heq', _, hc', _, _, _, _, hsame⟩ := h.splitNode hc hr hk hk'
    rw [heq] at heq'
    cases heq'
    dsimp only
    refine ⟨Finset.subset_insert _ _, rfl, fun n hn => PrefixTree.split_path hn,
      fun q => PrefixTree.split_pos, PrefixTree.split_stored, fun n hn => PrefixTree.split_leaf_old hn,
      ?_, ?_, ?_, ?_, ?_, ?_, fun n hn => (hsame n hn).1, ?_⟩ <;> rw [hc']

theorem lockCount_congr {T T' : Tree} {locks : List NodeId} {n n' : NodeId}
    (h : ∀ m ∈ locks, T'.path n' <+: T'.path m ↔ T.path n <+: T.path m) :
    lockCount T' locks n' = lockCount T locks n :=
  List.countP_congr fun m hm => by simp only [decide_eq_true_eq, h m hm]

theorem Micro.book {locks : List NodeId} (h : Micro op s s') (hs : Book s.1 s.2 locks) :
    Book s'.1 s'.2 locks := by
  have hr := h.refined
  cases h with
  | tick => exact hs.congr hr.lock hr.evictable hr.guarded hr.leaves
  | touch _ _ _ => exact hs.congr hr.lock hr.evictable hr.guarded hr.leaves
  | raise _ _ => exact hs.congr hr.lock hr.evictable hr.guarded hr.leaves
  | @split c c' T child k h hc hroot hk hk' heq hp =>
    obtain ⟨c'', heq', _, _, hlnew, _⟩ := h.splitNode hc hroot hk hk'
    rw [heq] at heq'
    cases heq'
    dsimp only at hr hs ⊢
    have hlen : (((T.edge child).take k).length : Int) + ((T.edge child).drop k).length =
        (T.edge child).length := by
      rw [← Nat.cast_add, ← List.length_append, List.take_append_drop]
    -- a size over the split tree, for a predicate on lock counts
    have hsize : ∀ (P : Int → Prop) [DecidablePred P],
        sizeWhere (T.split c.counter child k h.not_mem_counter hc hroot hk hk')
          (fun n => P (c'.nodes n).lockRef) = sizeWhere T fun n => P (c.nodes n).lockRef := by
      intro P _
      refine PrefixTree.split_sum (fun n hn hnc => ?_) ?_
      · beta_reduce
        rw [hr.lock n hn, (PrefixTree.split_other hn hnc).2]
      · beta_reduce
        rw [hlnew, hr.lock child hc, PrefixTree.split_new.2.1, PrefixTree.split_child.2]
        by_cases hP : P (c.nodes child).lockRef
        · simp only [hP, if_true]; exact hlen
        · simp [hP]
    refine ⟨?_, ?_, fun m hm => hr.subset (hs.locks_mem m hm), ?_, ?_, ?_, ?_⟩
    · exact (hr.lock _ T.root_mem).trans hs.rootLock
    · intro n hn hnr
      rcases Finset.mem_insert.mp hn with e | hn
      · rw [e, hlnew, hs.lock child hc hroot]
        refine congrArg Nat.cast (lockCount_congr fun m hm => ?_).symm
        exact PrefixTree.split_below_new (hs.locks_mem m hm)
      · refine (hr.lock n hn).trans ((hs.lock n hn hnr).trans ?_)
        refine congrArg Nat.cast (lockCount_congr fun m hm => ?_).symm
        rw [PrefixTree.split_path hn, PrefixTree.split_path (hs.locks_mem m hm)]
    · rw [hr.evictable, hs.evictable]
      exact (hsize (fun l => l = 0)).symm
    · rw [hr.guarded, hs.guarded]
      exact (hsize (fun l => 0 < l)).symm
    · rw [hr.leaves]; exact hs.leaves_nodup
    · intro n
      rw [hr.leaves, hs.mem_leaves n]
      by_cases hn : n ∈ T.nodes
      · have hleaf := hr.leaf n hn
        have hlock := hr.lock n hn
        simp only [hn, hr.subset hn, hleaf, hlock]
      · refine iff_of_false (fun e => hn e.1) fun e => ?_
        rcases Finset.mem_insert.mp e.1 with e' | e'
        · rw [e'] at e
          exact PrefixTree.split_leaf_new e.2.1
        · exact hn e'

section
variable {c : RadixCache} {T : Tree} (hs : Aged c T)
include hs

theorem Aged.stamp {n : NodeId} {r : Reading} (hn : n ∈ T.nodes) (hr : r.op = c.clock.op)
    (hp : n ≠ T.root → (c.nodes (T.parent n)).lastAccessTime.op = c.clock.op) : Aged (c.stamp n r) T := by
  have hself : ((c.stamp n r).nodes n).lastAccessTime.op = c.clock.op := by rw [stamp_nodes_self, hr]
  have hother : ∀ m, m ≠ n → ((c.stamp n r).nodes m).lastAccessTime.op = (c.nodes m).lastAccessTime.op :=
    fun m hm => by rw [stamp_nodes_ne c r hm]
  have hprio : ∀ m, ((c.stamp n r).nodes m).priority = (c.nodes m).priority := by
    intro m
    by_cases e : m = n
    · rw [e, stamp_nodes_self]
    · rw [stamp_nodes_ne c r e]
  have hpast : ∀ m ∈ T.nodes, ((c.stamp n r).nodes m).lastAccessTime.op ≤ c.clock.op := by
    intro m hm
    by_cases e : m = n
    · rw [e, hself]
    · rw [hother m e]
      exact hs.past m hm
  refine ⟨hpast, hs.falls.1.raise ?_ ?_ hother, hs.falls.2.congr fun m _ => hprio m⟩
  · exact (hs.past n hn).trans hself.ge
  · exact fun hnr => hself.le.trans (hp hnr).ge

theorem Aged.raisePriority {n : NodeId} {p : Int} (hn : n ∈ T.nodes)
    (hp : n ≠ T.root → p ≤ (c.nodes (T.parent n)).priority) : Aged (c.raisePriority n p) T := by
  have hself : ((c.raisePriority n p).nodes n).priority = max (c.nodes n).priority p := by
    rw [raisePriority_nodes_self]
  have hother : ∀ m, m ≠ n → ((c.raisePriority n p).nodes m).priority = (c.nodes m).priority :=
    fun m hm => by rw [raisePriority_nodes_ne c p hm]
  have hstamp : ∀ m, ((c.raisePriority n p).nodes m).lastAccessTime = (c.nodes m).lastAccessTime := by
    intro m
    by_cases e : m = n
    · rw [e, raisePriority_nodes_self]
    · rw [raisePriority_nodes_ne c p e]
  have hop : ∀ m ∈ T.nodes, ((c.raisePriority n p).nodes m).lastAccessTime.op = (c.nodes m).lastAccessTime.op :=
    fun m _ => by rw [hstamp]
  refine ⟨fun m hm => (hop m hm).trans_le (hs.past m hm), hs.falls.1.congr hop, hs.falls.2.raise ?_ ?_ hother⟩
  · exact (le_max_left _ p).trans hself.ge
  · exact fun hnr => hself.trans_le (max_le (hs.priority n hn hnr) (hp hnr))

/-- The new half of a cut edge gets the stamp of the operation and the old priority. -/
theorem Aged.split {c' : RadixCache} {child : NodeId} {k : Nat} (h : Rep c T) (hc : child ∈ T.nodes)
    (hr : child ≠ T.root) (hk : 0 < k) (hk' : k < (T.edge child).length)
    (heq : c.splitNode (c.nodes child).key child k = some (c', c.counter))
    (hp : (c.nodes (T.parent child)).lastAccessTime.op = c.clock.op) :
    Aged c' (T.split c.counter child k h.not_mem_counter hc hr hk hk') := by
  obtain ⟨c'', heq', _, hc', _, hprio, hstamp, _, hsame⟩ := h.splitNode hc hr hk hk'
  rw [heq] at heq'
  cases heq'
  have hclock : c'.clock.op = c.clock.op := by rw [hc']
  refine ⟨fun m hm => ?_, hs.falls.1.split ?_ ?_ ?_, hs.falls.2.split ?_ ?_ ?_⟩
  · rw [hclock]
    rcases Finset.mem_insert.mp hm with e | hm
    · rw [e, hstamp]
    · rw [(hsame m hm).2.1]
      exact hs.past m hm
  · exact fun m hm => congrArg Reading.op (hsame m hm).2.1
  · rw [hstamp]
    exact hs.past child hc
  · rw [hstamp, hp]
  · exact fun m hm => (hsame m hm).2.2.2.2
  · exact hprio.ge
  · exact hprio.trans_le (hs.priority child hc hr)

end

theorem Micro.aged (h : Micro op s s') (hop : s.1.clock.op = op) (hs : Aged s.1 s.2) :
    Aged s'.1 s'.2 := by
  subst hop
  cases h with
  | tick => exact ⟨hs.past, hs.op, hs.priority⟩
  | touch hn hr hp => exact hs.stamp hn hr hp
  | raise hn hp => exact hs.raisePriority hn hp
  | split h hc hroot hk hk' heq hp => exact hs.split h hc hroot hk hk' heq hp

end

/-! ## A new leaf -/

section
variable {c : RadixCache} {T : Tree} {locks : List NodeId} {node : NodeId} {t : Token}
  {key : List Token} {value : List Slot} {p : Int}

theorem insertLeaf_stamps (t : Token) (key : List Token) (value : List Slot) (p : Int) (h : Rep c T)
    (hn : node ∈ T.nodes) :
    let c' := c.insertLeaf node t key value p
    (∀ n ∈ T.nodes, SameStamps (c'.nodes n) (c.nodes n)) ∧ (c'.nodes c.counter).lockRef = 0 ∧
      (c'.nodes c.counter).lastAccessTime = c.clock ∧ (c'.nodes c.counter).priority = p := by
  have hnew := h.not_mem_counter
  obtain ⟨_, nnew, nnode, nother⟩ :=
    insertLeaf_spec t key value p (fun e : node = c.counter => hnew (e ▸ hn))
  refine ⟨fun n hm => ?_, by rw [nnew], by rw [nnew], by rw [nnew]⟩
  by_cases e : n = node
  · rw [e, nnode]; exact ⟨rfl, rfl, rfl, rfl, rfl⟩
  · rw [nother n (fun e => hnew (e ▸ hm)) e]; exact ⟨rfl, rfl, rfl, rfl, rfl⟩

theorem Book.insertLeaf (h : Rep c T) (hs : Book c T locks) (hn : node ∈ T.nodes)
    (hlen : value.length = (t :: key).length) (he : (t :: key).zip value ≠ [])
    (hfree : ∀ m ∈ T.nodes, m ≠ T.root → T.parent m = node →
      T.first m ≠ ((t :: key).zip value).head?.map Prod.fst)
    (h' : Rep (c.insertLeaf node t (t :: key) value p)
      (T.graft c.counter node ((t :: key).zip value) h.not_mem_counter hn he hfree)) :
    Book (c.insertLeaf node t (t :: key) value p)
      (T.graft c.counter node ((t :: key).zip value) h.not_mem_counter hn he hfree) locks := by
  have hnew := h.not_mem_counter
  obtain ⟨hsame, hl0, _, _⟩ := insertLeaf_stamps t (t :: key) value p h hn
  obtain ⟨hc', -⟩ := insertLeaf_spec t (t :: key) value p (fun e : node = c.counter => hnew (e ▸ hn))
  have hlock : ∀ n ∈ T.nodes, ((c.insertLeaf node t (t :: key) value p).nodes n).lockRef =
      (c.nodes n).lockRef := fun n hm => (hsame n hm).1
  have helen : (((t :: key).zip value).length : Int) = (t :: key).length := by
    rw [List.length_zip, hlen, min_self]
  -- the part of a size that comes from the old nodes
  have hold : ∀ (P : Int → Prop) [DecidablePred P], (∑ n ∈ T.nodes,
      if P ((c.insertLeaf node t (t :: key) value p).nodes n).lockRef then
        (((T.graft c.counter node ((t :: key).zip value) h.not_mem_counter hn he hfree).edge n).length : Int)
      else 0) = sizeWhere T fun n => P (c.nodes n).lockRef := by
    intro P _
    refine Finset.sum_congr rfl fun n hm => ?_
    rw [hlock n hm, (PrefixTree.graft_old hm).2.1]
  refine ⟨?_, ?_, fun m hm => Finset.mem_insert_of_mem (hs.locks_mem m hm), ?_, ?_, ?_, ?_⟩
  · exact (hlock _ T.root_mem).trans hs.rootLock
  · intro n hm hr
    rcases Finset.mem_insert.mp hm with e | hm
    · -- no lock lies below the new leaf
      rw [e, hl0]
      refine congrArg Nat.cast (List.countP_eq_zero.mpr fun m hm hle => ?_).symm
      have hm' := hs.locks_mem m hm
      have := PrefixTree.graft_leaf_new.eq_of_le (Finset.mem_insert_self _ _)
        (Finset.mem_insert_of_mem hm') (of_decide_eq_true hle)
      exact hnew (this ▸ hm')
    · rw [hlock n hm, hs.lock n hm hr]
      refine congrArg Nat.cast (lockCount_congr fun m hm' => ?_).symm
      rw [(PrefixTree.graft_old hm).2.2, (PrefixTree.graft_old (hs.locks_mem m hm')).2.2]
  · unfold sizeWhere
    rw [PrefixTree.graft_nodes, Finset.sum_insert hnew, hold (fun l => l = 0), ← hs.evictable, if_pos hl0,
      PrefixTree.graft_new.2.1, helen, hc', add_comm]
  · unfold sizeWhere
    rw [PrefixTree.graft_nodes, Finset.sum_insert hnew, hold (fun l => 0 < l), ← hs.guarded]
    beta_reduce
    rw [hl0, if_neg (Int.lt_irrefl 0), zero_add, hc']
  · have h1 := updateLeafStatus_mem (c := (c.attachLeaf node t (t :: key) value p).2) node hs.leaves_nodup
    exact (updateLeafStatus_mem c.counter h1.1).1
  · intro m
    have h1 := updateLeafStatus_mem (c := (c.attachLeaf node t (t :: key) value p).2) node hs.leaves_nodup
    have h2 := (updateLeafStatus_mem c.counter h1.1).2 m
    -- both tests see the heap of the result
    have hev : ∀ n, ((c.attachLeaf node t (t :: key) value p).2.Evictable n ↔
        (c.insertLeaf node t (t :: key) value p).Evictable n) ∧
        (((c.attachLeaf node t (t :: key) value p).2.updateLeafStatus node).Evictable n ↔
        (c.insertLeaf node t (t :: key) value p).Evictable n) := by
      intro n
      simp [Evictable, childValues, RadixCache.insertLeaf]
    refine h2.trans ?_
    rw [(hev _).2, h1.2 m, (hev _).1, h'.evictable_iff (Finset.mem_insert_self _ _),
      h'.evictable_iff (Finset.mem_insert_of_mem hn), PrefixTree.graft_leaf_old (n := node), hl0]
    show _ ∨ (_ ∧ (_ ∨ (_ ∧ m ∈ c.evictableLeaves))) ↔ _
    rw [hs.mem_leaves m, PrefixTree.graft_nodes, Finset.mem_insert]
    by_cases e : m = c.counter
    · subst e
      simp [PrefixTree.graft_leaf_new, hl0]
    · by_cases hm : m ∈ T.nodes
      · simp only [e, hm, false_and, false_or, true_and, or_true, ne_eq, not_false_eq_true, not_true,
          and_false, PrefixTree.graft_leaf_old, hlock m hm]
        tauto
      · simp [e, hm]

theorem Aged.insertLeaf (h : Rep c T) (hs : Aged c T) (hn : node ∈ T.nodes)
    (he : (t :: key).zip value ≠ [])
    (hfree : ∀ m ∈ T.nodes, m ≠ T.root → T.parent m = node →
      T.first m ≠ ((t :: key).zip value).head?.map Prod.fst)
    (hop : (c.nodes node).lastAccessTime.op = c.clock.op) (hp : p ≤ (c.nodes node).priority) :
    Aged (c.insertLeaf node t (t :: key) value p)
      (T.graft c.counter node ((t :: key).zip value) h.not_mem_counter hn he hfree) := by
  obtain ⟨hsame, _, hlat, hprio⟩ := insertLeaf_stamps t (t :: key) value p h hn
  obtain ⟨hc', -⟩ :=
    insertLeaf_spec t (t :: key) value p (fun e : node = c.counter => h.not_mem_counter (e ▸ hn))
  have hclock : (c.insertLeaf node t (t :: key) value p).clock.op = c.clock.op := by rw [hc']
  refine ⟨fun n hm => ?_, hs.falls.1.graft ?_ ?_, hs.falls.2.graft ?_ ?_⟩
  · rw [hclock]
    rcases Finset.mem_insert.mp hm with e | hm
    · rw [e, hlat]
    · rw [(hsame n hm).2.1]
      exact hs.past n hm
  · exact fun n hm => congrArg Reading.op (hsame n hm).2.1
  · rw [hlat, hop]
  · exact fun n hm => (hsame n hm).2.2.2.2
  · exact hprio.trans_le hp

end

/-! ## Walks -/

/-- A chain of primitives. -/
abbrev Walk (op : Nat) : RadixCache × Tree → RadixCache × Tree → Prop := Relation.ReflTransGen (Micro op)

section
variable {op : Nat} {s s' : RadixCache × Tree}

theorem Walk.refined (h : Walk op s s') : Refined s.1 s.2 s'.1 s'.2 := by
  induction h with
  | refl => exact Refined.refl _ _
  | tail _ hm ih => exact ih.trans hm.refined

theorem Walk.rep (h : Walk op s s') (hs : Rep s.1 s.2) : Rep s'.1 s'.2 := by
  induction h with
  | refl => exact hs
  | tail _ hm ih => exact hm.rep ih

theorem Walk.book {locks : List NodeId} (h : Walk op s s') (hs : Book s.1 s.2 locks) :
    Book s'.1 s'.2 locks := by
  induction h with
  | refl => exact hs
  | tail _ hm ih => exact hm.book ih

theorem Walk.aged (h : Walk op s s') (hop : s.1.clock.op = op) (hs : Aged s.1 s.2) :
    Aged s'.1 s'.2 := by
  induction h with
  | refl => exact hs
  | tail hw hm ih => exact hm.aged ((Walk.refined hw).op.trans hop) ih

end

end SglangMlx.RadixCache
