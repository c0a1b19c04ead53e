import SglangMlx.RadixEvict

/- Runs of a radix cache. `InTree`, `InSubtree`, `Spells` and `Maps` read the
   tree off the heap, by following `children` from the root; on a heap that
   represents `T` they are the nodes, the order, the root paths and the positions
   of `T`. A `History` is a cache with the locks its clients hold and the slots it
   has freed; `Step` is one call of a public method. Every reachable history
   satisfies `Wf` (`Reachable.wf`), from which the invariants of the cache are
   read off. -/
namespace SglangMlx

namespace RadixCache

/-! ## The tree on the heap -/

/-- `n` can be reached from the root through `children`. -/
inductive InTree (c : RadixCache) : NodeId → Prop
  | root : InTree c c.rootNode
  | child {n m : NodeId} {t : Token} :
      InTree c n → (c.nodes n).children.lookup t = some m → InTree c m

/-- `m` is `n` or below it. -/
inductive InSubtree (c : RadixCache) (n : NodeId) : NodeId → Prop
  | refl : InSubtree c n n
  | child {m k : NodeId} {t : Token} :
      InSubtree c n m → (c.nodes m).children.lookup t = some k → InSubtree c n k

/-- The keys and values on the way from the root to `n`. -/
inductive Spells (c : RadixCache) : NodeId → List (Token × Slot) → Prop
  | root : Spells c c.rootNode []
  | child {n m : NodeId} {t : Token} {q : List (Token × Slot)} {v : List Slot} :
      Spells c n q → (c.nodes n).children.lookup t = some m → (c.nodes m).value = some v →
      Spells c m (q ++ (c.nodes m).key.zip v)

/-- `key` is spelled from the root to a stored token, and `s` is stored with it. -/
def Maps (c : RadixCache) (key : List Token) (s : Slot) : Prop :=
  ∃ n q q₀ t, Spells c n q ∧ q₀ ++ [(t, s)] <+: q ∧ q₀.map Prod.fst ++ [t] = key

/-- The last token of `key` is stored in `n`, the others before it. -/
def Holds (c : RadixCache) (n : NodeId) (key : List Token) : Prop :=
  ∃ q, Spells c n q ∧ key <+: q.map Prod.fst ∧ q.length < key.length + (c.nodes n).key.length

/-- The walk along `key` from the root enters the node `x`. -/
def Passes (c : RadixCache) (key : List Token) (x : NodeId) : Prop :=
  ∃ p q t, Spells c p q ∧ (c.nodes p).children.lookup t = some x ∧ q.map Prod.fst ++ [t] <+: key

/-- `s` is stored in a node of the tree. -/
def Stored (c : RadixCache) (s : Slot) : Prop := ∃ n v, InTree c n ∧ (c.nodes n).value = some v ∧ s ∈ v

section
variable {c : RadixCache} {T : Tree} (h : Rep c T)
include h

theorem Rep.inTree_iff {n : NodeId} : InTree c n ↔ n ∈ T.nodes := by
  constructor
  · intro hn
    induction hn with
    | root => rw [h.root]; exact T.root_mem
    | child _ hl ih => exact ((h.children _ ih _ _).mp hl).1
  · intro hn
    refine PrefixTree.climb (P := InTree c) (h.root ▸ .root) (fun m hm hr ih => ?_) n hn
    obtain ⟨t, ht⟩ := PrefixTree.filed_self hm hr
    exact .child ih ((h.children _ (T.parent_mem m hm hr) t m).mpr ht)

theorem Rep.spells_iff {n : NodeId} {q : List (Token × Slot)} :
    Spells c n q ↔ n ∈ T.nodes ∧ q = T.path n := by
  have hzip : ∀ m ∈ T.nodes, ∀ v, (c.nodes m).value = some v → (c.nodes m).key.zip v = T.edge m := by
    intro m hm v hv
    rw [h.value m hm, Option.some.injEq] at hv
    rw [h.key m hm, ← hv, List.zip_map']
    simp
  constructor
  · intro hs
    induction hs with
    | root => rw [h.root]; exact ⟨T.root_mem, T.path_root.symm⟩
    | child _ hl hv ih =>
      obtain ⟨hm, hr, hp, _⟩ := (h.children _ ih.1 _ _).mp hl
      rw [hzip _ hm _ hv, ih.2, ← hp]
      exact ⟨hm, (T.path_eq _ hm hr).symm⟩
  · intro ⟨hn, hq⟩
    rw [hq]
    refine PrefixTree.climb (P := fun n => Spells c n (T.path n)) ?_ (fun m hm hr ih => ?_) n hn
    · rw [T.path_root, ← h.root]; exact .root
    · obtain ⟨t, ht⟩ := PrefixTree.filed_self hm hr
      rw [T.path_eq m hm hr, ← hzip m hm _ (h.value m hm)]
      exact .child ih ((h.children _ (T.parent_mem m hm hr) t m).mpr ht) (h.value m hm)

theorem Rep.inSubtree_iff {n m : NodeId} (hn : n ∈ T.nodes) :
    InSubtree c n m ↔ m ∈ T.nodes ∧ T.path n <+: T.path m := by
  constructor
  · intro hs
    induction hs with
    | refl => exact ⟨hn, List.prefix_refl _⟩
    | child _ hl ih =>
      obtain ⟨hm, hr, hp, _⟩ := (h.children _ ih.1 _ _).mp hl
      exact ⟨hm, ih.2.trans (hp ▸ PrefixTree.parent_path_le hm hr)⟩
  · intro ⟨hm, hle⟩
    induction PrefixTree.anc_of_path hn hm hle with
    | refl => exact .refl
    | up hm hr hanc ih =>
      obtain ⟨t, ht⟩ := PrefixTree.filed_self hm hr
      have hp := T.parent_mem _ hm hr
      exact .child (ih hp hanc.path_le) ((h.children _ hp t _).mpr ht)

theorem Rep.maps_iff {key : List Token} {s : Slot} :
    Maps c key s ↔ ∃ q t, T.Pos (q ++ [(t, s)]) ∧ q.map Prod.fst ++ [t] = key := by
  constructor
  · intro ⟨n, q, q₀, t, hs, hle, hk⟩
    obtain ⟨hn, hq⟩ := h.spells_iff.mp hs
    exact ⟨q₀, t, ⟨by simp, n, hn, hq ▸ hle⟩, hk⟩
  · intro ⟨q, t, ⟨_, n, hn, hle⟩, hk⟩
    exact ⟨n, T.path n, q, t, h.spells_iff.mpr ⟨hn, rfl⟩, hle, hk⟩

theorem Rep.holds_iff {n : NodeId} {key : List Token} : Holds c n key ↔ n ∈ T.nodes ∧ n ≠ T.root ∧
    key <+: T.letters n ∧ (T.path (T.parent n)).length < key.length := by
  constructor
  · intro ⟨q, hs, hk, hlt⟩
    obtain ⟨hn, rfl⟩ := h.spells_iff.mp hs
    rw [h.key_length hn] at hlt
    have hr : n ≠ T.root := by
      intro e
      rw [e, T.path_root] at hk hlt
      rw [List.prefix_nil.mp hk, T.edge_root] at hlt
      exact absurd hlt (Nat.lt_irrefl 0)
    have := PrefixTree.path_length hn hr
    exact ⟨hn, hr, hk, by omega⟩
  · intro ⟨hn, hr, hk, hlt⟩
    refine ⟨T.path n, h.spells_iff.mpr ⟨hn, rfl⟩, hk, ?_⟩
    rw [h.key_length hn, PrefixTree.path_length hn hr]
    omega

theorem Rep.passes_iff {key : List Token} {x : NodeId} : Passes c key x ↔ T.Enters key x := by
  constructor
  · intro ⟨p, q, t, hs, hl, hk⟩
    obtain ⟨hp, rfl⟩ := h.spells_iff.mp hs
    obtain ⟨hx, hr, rfl, ht⟩ := (h.children p hp t x).mp hl
    exact ⟨hx, hr, t, ht, hk⟩
  · intro ⟨hx, hr, t, ht, hk⟩
    have hp := T.parent_mem x hx hr
    exact ⟨T.parent x, T.path (T.parent x), t, h.spells_iff.mpr ⟨hp, rfl⟩,
      (h.children _ hp t x).mpr ⟨hx, hr, rfl, ht⟩, hk⟩

theorem Rep.stored_iff {s : Slot} : Stored c s ↔ s ∈ T.stored := by
  unfold Stored PrefixTree.stored
  rw [Multiset.mem_sum]
  constructor
  · intro ⟨n, v, hn, hv, hs⟩
    have hn := h.inTree_iff.mp hn
    rw [h.value n hn, Option.some.injEq] at hv
    exact ⟨n, hn, hv ▸ hs⟩
  · intro ⟨n, hn, hs⟩
    exact ⟨n, _, h.inTree_iff.mpr hn, h.value n hn, hs⟩

end

/-! ## Histories -/

/-- A cache, the nodes of the `inc_lock_ref` calls that no `dec_lock_ref` has
    matched yet, and the slots the cache has passed to `allocator.free`. -/
structure History where
  cache : RadixCache
  locks : List NodeId
  freed : List Slot

/-- The slots an operation of the cache appended to the free list. -/
def freedBy (c c' : RadixCache) : List Slot :=
  match c.allocator, c'.allocator with
  | some a, some a' => a'.freeSlots.drop a.freeSlots.length
  | _, _ => []

/-- A call of a public method. The allocator is shared, so between the calls its
    other users may change it. -/
inductive Call where
  | insert (key : List Token) (value : Option (List Slot)) (priority : Int)
  | matchPrefix (key : List Token)
  | incLockRef (n : NodeId)
  | decLockRef (n : NodeId)
  | evict (tie : TieBreak) (numTokens : Int)
  | allocator (a : Option TokenPoolAllocator)

/-- The rules for clients: an inserted value has the length of its key, a node
    that is locked is in the tree, a `dec_lock_ref` matches an `inc_lock_ref`. -/
def Call.Allowed (h : History) : Call → Prop
  | .insert key value _ => (value.getD key).length = key.length
  | .incLockRef n => InTree h.cache n
  | .decLockRef n => n ∈ h.locks
  | _ => True

/-- The history after a call; `none` when it raises. -/
def History.exec (now : Clock) (h : History) : Call → Option History
  | .insert key value priority => (h.cache.insert key value priority).map fun r => { h with cache := r.1 }
  | .matchPrefix key => (h.cache.matchPrefix key).map fun r => { h with cache := r.1 }
  | .incLockRef n => (h.cache.incLockRef n).map fun r => { h with cache := r.1, locks := n :: h.locks }
  | .decLockRef n => (h.cache.decLockRef n).map fun r => { h with cache := r.1, locks := h.locks.erase n }
  | .evict tie numTokens => (h.cache.evict now tie numTokens).map fun r =>
    { h with cache := r.1, freed := h.freed ++ freedBy h.cache r.1 }
  | .allocator a => some { h with cache := { h.cache with allocator := a } }

def Step (now : Clock) (h h' : History) : Prop := ∃ call : Call, call.Allowed h ∧ h.exec now call = some h'

/-- The histories of an enabled cache with a given strategy. -/
inductive Reachable (now : Clock) (strategy : EvictionStrategy) : History → Prop
  | init : Reachable now strategy ⟨RadixCache.init false strategy, [], []⟩
  | step {h h' : History} : Reachable now strategy h → Step now h h' → Reachable now strategy h'

/-! ## The invariant of a run -/

/-- The tree of a fresh cache: the root alone. -/
def rootTree : Tree where
  nodes := {0}
  root := 0
  parent _ := 0
  edge _ := []
  path _ := []
  root_mem := Finset.mem_singleton_self 0
  path_root := rfl
  edge_root := rfl
  parent_mem _ _ _ := Finset.mem_singleton_self 0
  edge_ne _ hn hr := absurd (Finset.mem_singleton.mp hn) hr
  path_eq _ _ _ := rfl
  sibling _ hn _ _ hr _ _ _ := absurd (Finset.mem_singleton.mp hn) hr

theorem wf_init (strategy : EvictionStrategy) : Wf (RadixCache.init false strategy) rootTree [] := by
  have hroot : (RadixCache.init false strategy).nodes 0 =
      { value := some [], lockRef := 1, lastAccessTime := ⟨0, 0⟩, creationTime := ⟨0, 1⟩, priority :=
        -maxsize } := by
    simp [RadixCache.init, reset, newTreeNode, monotonic]
  have hn : ∀ n ∈ rootTree.nodes, n = 0 := fun n hn => Finset.mem_singleton.mp hn
  refine ⟨⟨rfl, ?_, ?_, ?_, ?_, ?_⟩, ⟨?_, ?_, ?_, ?_, ?_, List.nodup_nil, ?_⟩, ⟨?_, ?_, ?_⟩, rfl⟩
  · intro n h
    rw [hn n h]; exact Nat.one_pos
  · intro n h
    rw [hn n h, hroot]; rfl
  · intro n h
    rw [hn n h, hroot]; rfl
  · intro n h hr
    exact absurd (hn n h) hr
  · intro n h t m
    rw [hn n h, hroot]
    exact iff_of_false (by simp) fun hf => hf.2.1 (hn m hf.1)
  · exact congrArg TreeNode.lockRef hroot
  · intro n h hr
    exact absurd (hn n h) hr
  · intro m hm
    cases hm
  · show (0 : Int) = _
    simp [sizeWhere, rootTree]
  · show (0 : Int) = _
    simp [sizeWhere, rootTree]
  · intro n
    refine iff_of_false (by simp [RadixCache.init, reset]) fun hleaf => ?_
    obtain ⟨h, _, h0⟩ := hleaf
    rw [hn n h, hroot] at h0
    cases h0
  · intro n h
    rw [hn n h, hroot]; exact Nat.zero_le _
  · intro n h hr
    exact absurd (hn n h) hr
  · intro n h hr
    exact absurd (hn n h) hr

theorem Wf.perm {c : RadixCache} {T : Tree} {locks locks' : List NodeId} (h : Wf c T locks)
    (hp : locks'.Perm locks) : Wf c T locks' where
  rep := h.rep
  aged := h.aged
  enabled := h.enabled
  book := by
    refine ⟨h.book.rootLock, fun n hn hr => ?_, fun m hm => h.book.locks_mem m (hp.subset hm), h.book.evictable,
      h.book.guarded, h.book.leaves_nodup, h.book.mem_leaves⟩
    rw [h.book.lock n hn hr, lockCount, lockCount, hp.countP_eq]

theorem Wf.setAllocator {c : RadixCache} {T : Tree} {locks : List NodeId} (h : Wf c T locks)
    (a : Option TokenPoolAllocator) : Wf { c with allocator := a } T locks where
  rep := h.rep.congr rfl (Nat.le_refl _) fun _ _ => ⟨rfl, rfl, rfl, rfl⟩
  book := h.book.congr (fun _ _ => rfl) rfl rfl rfl
  aged := ⟨h.aged.past, h.aged.op, h.aged.priority⟩
  enabled := h.enabled

/-- What a call does to the tree: nodes that stay keep their root paths, and
    freed slots come from nodes without a lock. -/
structure Effect (h : History) (T : Tree) (h' : History) (T' : Tree) : Prop where
  strategy : h'.cache.evictionStrategy = h.cache.evictionStrategy
  path : ∀ n ∈ T.nodes, n ∈ T'.nodes → T'.path n = T.path n
  freed : ∃ slots, h'.freed = h.freed ++ slots ∧
    ∀ s ∈ slots, ∃ x ∈ T.nodes, (h.cache.nodes x).lockRef = 0 ∧ s ∈ (T.edge x).map Prod.snd

theorem Shrunk.freedBy {xs : List NodeId} {c c' : RadixCache} {T T' : Tree} (h : Shrunk xs c.beginOp T c' T') :
    freedBy c c' = match c.allocator with | some _ => slotsOf T xs | none => [] := by
  have ha : c'.allocator = c.allocator.map fun a => a.free (slotsOf T xs) := by rw [h.eq]; rfl
  unfold RadixCache.freedBy
  rw [ha]
  cases c.allocator with
  | none => rfl
  | some a => simp [TokenPoolAllocator.free]

theorem Shrunk.freed_unlocked {xs : List NodeId} {c c' : RadixCache} {T T' : Tree}
    (h : Shrunk xs c.beginOp T c' T') {s : Slot} (hs : s ∈ RadixCache.freedBy c c') :
    ∃ x ∈ T.nodes, (c.nodes x).lockRef = 0 ∧ s ∈ (T.edge x).map Prod.snd := by
  rw [h.freedBy] at hs
  cases ha : c.allocator with
  | none => rw [ha] at hs; cases hs
  | some a =>
    rw [ha] at hs
    obtain ⟨x, hx, hsx⟩ := List.mem_flatMap.mp hs
    exact ⟨x, (h.mem x).mpr (Or.inr hx), h.unlocked x hx, hsx⟩

/-- An allowed call does not raise and keeps the invariant, also beside locks
    `held` that it may not release. -/
theorem Call.wf (now : Clock) (call : Call) {h : History} (ha : call.Allowed h) {T : Tree} (held : List NodeId)
    (hw : Wf h.cache T (held ++ h.locks)) : ∃ h' T', h.exec now call = some h' ∧
      Wf h'.cache T' (held ++ h'.locks) ∧ Effect h T h' T' := by
  have hnone : ∃ slots, h.freed = h.freed ++ slots ∧
      ∀ s ∈ slots, ∃ x ∈ T.nodes, (h.cache.nodes x).lockRef = 0 ∧ s ∈ (T.edge x).map Prod.snd :=
    ⟨[], by simp, by simp⟩
  cases call with
  | insert key value priority =>
    obtain ⟨c', T', q, heq, hw', _, hg⟩ := hw.insert key value priority ha
    exact ⟨{ h with cache := c' }, T', by simp [History.exec, heq], hw', hg.strategy,
      fun n hn _ => hg.path n hn, hnone⟩
  | matchPrefix key =>
    obtain ⟨c', T', res, q, heq, hw', hr, _⟩ := hw.matchPrefix key
    exact ⟨{ h with cache := c' }, T', by simp [History.exec, heq], hw', hr.strategy,
      fun n hn _ => hr.path n hn, hnone⟩
  | incLockRef n =>
    obtain ⟨c', heq, hw', hr⟩ := hw.incLockRef (hw.rep.inTree_iff.mp ha)
    exact ⟨{ h with cache := c', locks := n :: h.locks }, T, by simp [History.exec, heq],
      hw'.perm List.perm_middle, by rw [hr.eq]; rfl, fun _ _ _ => rfl, hnone⟩
  | decLockRef n =>
    have hn : n ∈ h.locks := ha
    obtain ⟨c', heq, hw', hr⟩ := hw.decLockRef (List.mem_append_right held hn)
    refine ⟨{ h with cache := c', locks := h.locks.erase n }, T, by simp [History.exec, heq], hw'.perm ?_,
      by rw [hr.eq]; rfl, fun _ _ _ => rfl, hnone⟩
    -- whichever copy of the lock is taken away, the same ones stay
    have h1 := List.perm_cons_erase (List.mem_append_right held hn)
    have h2 : (held ++ h.locks).Perm (n :: (held ++ h.locks.erase n)) :=
      ((List.perm_cons_erase hn).append_left held).trans List.perm_middle
    exact (h2.symm.trans h1).cons_inv
  | evict tie numTokens =>
    obtain ⟨c', T', xs, heq, hw', hev, _⟩ := hw.evict now tie numTokens
    have hsh := hev.shrunk
    refine ⟨{ h with cache := c', freed := h.freed ++ freedBy h.cache c' }, T', by simp [History.exec, heq], hw',
      by rw [hsh.eq]; rfl, fun n _ _ => by rw [hsh.path], freedBy h.cache c', rfl, fun s hs => ?_⟩
    exact hsh.freed_unlocked hs
  | allocator a => exact ⟨_, T, rfl, hw.setAllocator a, rfl, fun _ _ _ => rfl, hnone⟩

theorem Step.wf {now : Clock} {h h' : History} (hs : Step now h h') {T : Tree} (held : List NodeId)
    (hw : Wf h.cache T (held ++ h.locks)) :
    ∃ T', Wf h'.cache T' (held ++ h'.locks) ∧ Effect h T h' T' := by
  obtain ⟨call, ha, heq⟩ := hs
  obtain ⟨h'', T', heq', hw', heff⟩ := call.wf now ha held hw
  rw [heq] at heq'
  cases heq'
  exact ⟨T', hw', heff⟩

theorem Reachable.wf {now : Clock} {strategy : EvictionStrategy} {h : History}
    (hr : Reachable now strategy h) :
    h.cache.evictionStrategy = strategy ∧ ∃ T, Wf h.cache T h.locks := by
  induction hr with
  | init => exact ⟨rfl, rootTree, wf_init strategy⟩
  | step _ hs ih =>
    obtain ⟨hst, T, hw⟩ := ih
    obtain ⟨T', hw', heff⟩ := hs.wf [] hw
    exact ⟨heff.strategy.trans hst, T', hw'⟩

/-! ## Executing a run -/

/-- An executable test for `InTree`: parent links lead to the root, and each is
    matched by an entry in `children`. -/
def climbsTo (c : RadixCache) : Nat → NodeId → Bool
  | 0, _ => false
  | fuel + 1, n => n == c.rootNode || (do
    let p ← (c.nodes n).parent
    let t ← (c.nodes n).key.head?
    return (c.nodes p).children.lookup t == some n && c.climbsTo fuel p).getD false

theorem inTree_of_climbsTo {c : RadixCache} : ∀ (fuel : Nat) (n : NodeId), c.climbsTo fuel n = true →
    InTree c n := by
  intro fuel
  induction fuel with
  | zero => intro n h; cases h
  | succ fuel ih =>
    intro n h
    rw [climbsTo, Bool.or_eq_true] at h
    rcases h with h | h
    · rw [beq_iff_eq.mp h]; exact .root
    · cases hp : (c.nodes n).parent with
      | none => simp [hp] at h
      | some p =>
        cases ht : (c.nodes n).key.head? with
        | none => simp [hp, ht] at h
        | some t =>
          simp [hp, ht] at h
          exact .child (ih p h.2) h.1

/-- The root path of a node, read off the parent links and checked against the
    entries in `children`. -/
def spell (c : RadixCache) : Nat → NodeId → Option (List (Token × Slot))
  | 0, _ => none
  | fuel + 1, n =>
    if n = c.rootNode then some []
    else do
      let p ← (c.nodes n).parent
      let t ← (c.nodes n).key.head?
      let v ← (c.nodes n).value
      let q ← c.spell fuel p
      if (c.nodes p).children.lookup t = some n then some (q ++ (c.nodes n).key.zip v) else none

theorem spells_of_spell {c : RadixCache} : ∀ (fuel : Nat) (n : NodeId) (q : List (Token × Slot)),
    c.spell fuel n = some q → Spells c n q := by
  intro fuel
  induction fuel with
  | zero => intro n q h; cases h
  | succ fuel ih =>
    intro n q h
    rw [spell] at h
    split at h
    · next e => cases h; rw [e]; exact .root
    · simp only [Option.bind_eq_bind, Option.bind_eq_some_iff] at h
      obtain ⟨p, _, t, _, v, hv, q', hq, h⟩ := h
      split at h
      · next hl => cases h; exact .child (ih p q' hq) hl hv
      · cases h

/-- The root is in `ns`, and so are the children of every node of `ns`. -/
def closedUnder (c : RadixCache) (ns : List NodeId) : Bool :=
  ns.contains c.rootNode && ns.all fun n => (c.childValues n).all fun m => ns.contains m

theorem InTree.mem_of_closedUnder {c : RadixCache} {ns : List NodeId} {n : NodeId} (h : InTree c n)
    (hc : c.closedUnder ns = true) : n ∈ ns := by
  rw [closedUnder, Bool.and_eq_true, List.all_eq_true] at hc
  induction h with
  | root => exact List.contains_iff_mem.mp hc.1
  | @child n m t _ hl ih =>
    have := List.all_eq_true.mp (hc.2 n ih) m
      (List.mem_map.mpr ⟨⟨t, m⟩, AList.mem_lookup_iff.mp hl, rfl⟩)
    exact List.contains_iff_mem.mp this

def Call.check (h : History) : Call → Bool
  | .insert key value _ => (value.getD key).length == key.length
  | .incLockRef n => h.cache.climbsTo (h.cache.counter + 1) n
  | .decLockRef n => h.locks.contains n
  | _ => true

theorem Call.allowed_of_check {h : History} (call : Call) (hc : call.check h = true) : call.Allowed h := by
  cases call with
  | insert key value priority => exact beq_iff_eq.mp hc
  | incLockRef n => exact inTree_of_climbsTo _ n hc
  | decLockRef n => exact List.contains_iff_mem.mp hc
  | matchPrefix key => trivial
  | evict tie numTokens => trivial
  | allocator a => trivial

/-- Make the calls one after the other; `none` when one is not allowed. -/
def History.run (now : Clock) : List Call → History → Option History
  | [], h => some h
  | call :: rest, h => if call.check h then (h.exec now call).bind (History.run now rest) else none

theorem History.run_steps {now : Clock} : ∀ (calls : List Call) {h h' : History}, h.run now calls = some h' →
    Relation.ReflTransGen (Step now) h h' := by
  intro calls
  induction calls with
  | nil => intro h h' heq; cases heq; exact .refl
  | cons call rest ih =>
    intro h h' heq
    rw [History.run] at heq
    split at heq
    · next hc =>
      obtain ⟨h₁, h1, h2⟩ := Option.bind_eq_some_iff.mp heq
      exact .head ⟨call, call.allowed_of_check hc, h1⟩ (ih h2)
    · cases heq

theorem Reachable.steps {now : Clock} {strategy : EvictionStrategy} {h h' : History}
    (hr : Reachable now strategy h) (hs : Relation.ReflTransGen (Step now) h h') : Reachable now strategy h' := by
  induction hs with
  | refl => exact hr
  | tail _ hst ih => exact .step ih hst

/-- A history to evaluate: an executed run of a fresh cache. -/
theorem Reachable.of_run (now : Clock) (strategy : EvictionStrategy) (calls : List Call) {P : History → Prop}
    [DecidablePred P]
    (h : ((History.run now calls ⟨RadixCache.init false strategy, [], []⟩).any fun h => decide (P h)) = true) :
    ∃ h, Reachable now strategy h ∧ P h := by
  obtain ⟨h', hr, hp⟩ := (Option.any_eq_true _ _).mp h
  exact ⟨h', Reachable.init.steps (History.run_steps calls hr), of_decide_eq_true hp⟩

/-- Two keys with a common start, a lookup that splits their branches, a lock
    and an eviction. -/
def sharedCalls : List Call :=
  [.insert [1, 2, 3, 4] (some [11, 12, 13, 14]) 0, .insert [1, 2, 5] (some [11, 12, 15]) 0,
    .matchPrefix [1, 2, 3], .incLockRef 4, .evict (fun _ => 0) 2]

end RadixCache

end SglangMlx
