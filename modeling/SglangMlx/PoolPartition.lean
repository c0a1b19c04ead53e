import SglangMlx.RadixRun

/- The tree and the allocator share the pool. A fill of a key matches it,
   allocates slots for the tokens that are missing and inserts the key with both;
   neither `alloc` nor `free` nor `insert` checks who owns a slot. Still the free
   list and the slots stored in the tree always make up the pool, because what a
   fill takes from the free list is exactly what `insert` adds to the tree, and
   what `evict` removes from the tree is exactly what it frees. -/
namespace SglangMlx

namespace RadixCache

/-- A fill of `key`. It stops after the lookup when `alloc` raises. -/
def fill (c : RadixCache) (key : List Token) : Option RadixCache := do
  let (c, m) ← c.matchPrefix key
  let a ← c.allocator
  match a.alloc (key.length - m.deviceIndices.length) with
  | .error _ => return c
  | .ok (a, new) =>
    let (c, _) ← ({ c with allocator := some a }).insert key (some (m.deviceIndices ++ new)) 0
    return c

/-- The calls between fills: nothing else inserts or uses the allocator. -/
def Call.betweenFills : Call → Bool
  | .insert _ _ _ => false
  | .allocator _ => false
  | _ => true

inductive PoolStep (now : Clock) : History → History → Prop
  | fill {h : History} {c' : RadixCache} (key : List Token) : h.cache.fill key = some c' →
      PoolStep now h { h with cache := c' }
  | call {h h' : History} (call : Call) : call.betweenFills = true → call.Allowed h →
      h.exec now call = some h' → PoolStep now h h'

/-- The histories of a cache that is filled from its own allocator. -/
inductive PoolReachable (now : Clock) (strategy : EvictionStrategy) (poolSize : Nat) : History → Prop
  | init {a : TokenPoolAllocator} : TokenPoolAllocator.init poolSize = .ok a →
      PoolReachable now strategy poolSize ⟨(RadixCache.init false strategy).setAllocator a, [], []⟩
  | step {h h' : History} : PoolReachable now strategy poolSize h → PoolStep now h h' →
      PoolReachable now strategy poolSize h'

/-- The free list together with the slots stored in the nodes of the tree is a
    permutation of the pool. -/
def Partitioned (c : RadixCache) (a : TokenPoolAllocator) (poolSize : Nat) : Prop :=
  ∃ nodes : List NodeId, nodes.Nodup ∧ (∀ n, n ∈ nodes ↔ InTree c n) ∧
    (a.freeSlots ++ nodes.flatMap fun n => (c.nodes n).value.getD []).Perm (List.range' 1 poolSize)

/-- The same on the tree. -/
def Shares (c : RadixCache) (T : Tree) (poolSize : Nat) : Prop :=
  ∃ a, c.allocator = some a ∧ (a.freeSlots : Multiset Slot) + T.stored = List.range' 1 poolSize

section
variable {c : RadixCache} {T : Tree} {poolSize : Nat}

theorem Rep.partitioned (h : Rep c T) {a : TokenPoolAllocator}
    (hp : (a.freeSlots : Multiset Slot) + T.stored = List.range' 1 poolSize) : Partitioned c a poolSize := by
  refine ⟨T.nodes.toList, T.nodes.nodup_toList, fun n => ?_, ?_⟩
  · rw [Finset.mem_toList, h.inTree_iff]
  · rw [← Multiset.coe_eq_coe, ← hp, ← Multiset.coe_add]
    congr 1
    have hval : T.nodes.toList.flatMap (fun n => (c.nodes n).value.getD []) =
        T.nodes.toList.flatMap fun n => (T.edge n).map Prod.snd :=
      List.flatMap_congr fun n hn => by rw [h.value n (Finset.mem_toList.mp hn)]; rfl
    rw [hval, PrefixTree.stored, ← Multiset.coe_bind, Finset.coe_toList]
    rfl

theorem Wf.fill {locks : List NodeId} (h : Wf c T locks) (hp : Shares c T poolSize) (key : List Token) :
    ∃ c' T', c.fill key = some c' ∧ Wf c' T' locks ∧ Shares c' T' poolSize := by
  obtain ⟨a, ha, hsum⟩ := hp
  obtain ⟨c₁, T₁, m, q, hm, hw₁, href, hlong, hres, _⟩ := h.matchPrefix key
  have ha₁ : c₁.allocator = some a := href.allocator.trans ha
  have hq := hlong.length_le
  have hml : m.deviceIndices.length = q.length := by rw [hres, List.length_map]
  cases halloc : a.alloc (key.length - m.deviceIndices.length) with
  | error e =>
    refine ⟨c₁, T₁, ?_, hw₁, a, ha₁, by rw [href.stored]; exact hsum⟩
    simp [RadixCache.fill, hm, ha₁, halloc]
  | ok r =>
    obtain ⟨a', new⟩ := r
    obtain ⟨hfree, _, hnew⟩ := TokenPoolAllocator.alloc_ok halloc
    have hlen : (m.deviceIndices ++ new).length = key.length := by
      rw [List.length_append, hml, hnew, hml]
      omega
    obtain ⟨c₂, T₂, q', hins, hw₂, hlong', hg⟩ :=
      (hw₁.setAllocator (some a')).insert key (some (m.deviceIndices ++ new)) 0 hlen
    -- the longest stored prefix is still the one that was matched
    have hqq : q' = q := (hlong.congr href.pos).unique hlong' |>.symm
    have hnewslots : ((key.drop q'.length).zip ((m.deviceIndices ++ new).drop q'.length)).map Prod.snd = new := by
      rw [hqq, ← hml, List.drop_left]
      refine List.map_snd_zip ?_
      rw [List.length_drop, hnew]
      omega
    refine ⟨c₂, T₂, ?_, hw₂, a', hg.allocator, ?_⟩
    · simp [RadixCache.fill, hm, ha₁, halloc, hins]
    · have hst := hg.stored
      rw [Option.getD_some, hnewslots, href.stored] at hst
      rw [hst, ← add_assoc, Multiset.coe_add, ← hfree]
      exact hsum

theorem Shares.evict {c' : RadixCache} {T' : Tree} {xs : List NodeId} (hp : Shares c T poolSize)
    (h : Shrunk xs c.beginOp T c' T') : Shares c' T' poolSize := by
  obtain ⟨a, ha, hsum⟩ := hp
  have ha' : c'.allocator = c.allocator.map fun a => a.free (slotsOf T xs) := by rw [h.eq]; rfl
  rw [ha] at ha'
  refine ⟨_, ha', ?_⟩
  rw [h.stored, ← add_assoc, Multiset.coe_add] at hsum
  exact hsum

end

theorem PoolStep.shares {now : Clock} {poolSize : Nat} {h h' : History} (hs : PoolStep now h h') {T : Tree}
    (hw : Wf h.cache T h.locks) (hp : Shares h.cache T poolSize) :
    ∃ T', Wf h'.cache T' h'.locks ∧ Shares h'.cache T' poolSize := by
  cases hs with
  | fill key heq =>
    obtain ⟨c', T', heq', hw', hp'⟩ := hw.fill hp key
    rw [heq] at heq'
    cases heq'
    exact ⟨T', hw', hp'⟩
  | call call hcall ha heq =>
    cases call with
    | insert key value priority => cases hcall
    | allocator a => cases hcall
    | matchPrefix key =>
      obtain ⟨c', T', res, q, heq', hw', hr, _⟩ := hw.matchPrefix key
      simp only [History.exec, heq', Option.map_some, Option.some.injEq] at heq
      subst heq
      obtain ⟨a, ha, hsum⟩ := hp
      exact ⟨T', hw', a, hr.allocator.trans ha, by rw [hr.stored]; exact hsum⟩
    | incLockRef n =>
      obtain ⟨c', heq', hw', hr⟩ := hw.incLockRef (hw.rep.inTree_iff.mp ha)
      simp only [History.exec, heq', Option.map_some, Option.some.injEq] at heq
      subst heq
      exact ⟨T, hw', by unfold Shares; rw [hr.eq]; exact hp⟩
    | decLockRef n =>
      obtain ⟨c', heq', hw', hr⟩ := hw.decLockRef ha
      simp only [History.exec, heq', Option.map_some, Option.some.injEq] at heq
      subst heq
      exact ⟨T, hw', by unfold Shares; rw [hr.eq]; exact hp⟩
    | evict tie numTokens =>
      obtain ⟨c', T', xs, heq', hw', hev, _⟩ := hw.evict now tie numTokens
      simp only [History.exec, heq', Option.map_some, Option.some.injEq] at heq
      subst heq
      exact ⟨T', hw', hp.evict hev.shrunk⟩

theorem PoolReachable.shares {now : Clock} {strategy : EvictionStrategy} {poolSize : Nat} {h : History}
    (hr : PoolReachable now strategy poolSize h) :
    ∃ T, Wf h.cache T h.locks ∧ Shares h.cache T poolSize := by
  induction hr with
  | @init a ha =>
    refine ⟨rootTree, (wf_init strategy).setAllocator (some a), a, rfl, ?_⟩
    have hst : rootTree.stored = 0 := by simp [PrefixTree.stored, rootTree]
    unfold TokenPoolAllocator.init at ha
    split at ha
    · cases ha
    · cases ha
      rw [hst, add_zero, Multiset.coe_eq_coe]
      exact List.reverse_perm _
  | step _ hs ih =>
    obtain ⟨T, hw, hp⟩ := ih
    exact hs.shares hw hp

/-- Tree and allocator partition the pool. So `alloc` hands out no padding slot,
    no cached slot and none twice, and `evict` frees exactly the slots that leave
    the tree, each once. -/
theorem pool_partition (now : Clock) (strategy : EvictionStrategy) (poolSize : Nat) (h : History)
    (hr : PoolReachable now strategy poolSize h) : ∃ a, h.cache.allocator = some a ∧
    Partitioned h.cache a poolSize ∧
    (∀ n a' new, a.alloc n = .ok (a', new) → 0 ∉ new ∧ new.Nodup ∧ ∀ s ∈ new, ¬Stored h.cache s) ∧
    ∀ tie numTokens, ∃ c' r a', h.cache.evict now tie numTokens = some (c', r) ∧ c'.allocator = some a' ∧
      a'.freeSlots = a.freeSlots ++ freedBy h.cache c' ∧ a'.freeSlots.Nodup ∧
      ∀ s, s ∈ freedBy h.cache c' ↔ Stored h.cache s ∧ ¬Stored c' s := by
  obtain ⟨T, hw, hp⟩ := hr.shares
  obtain ⟨a, ha, hsum⟩ := hp
  have hnodup : ((a.freeSlots : Multiset Slot) + T.stored).Nodup := by
    rw [hsum]
    exact List.nodup_range'
  have hpos : ∀ s ∈ (a.freeSlots : Multiset Slot) + T.stored, s ≠ 0 := by
    intro s hs
    rw [hsum] at hs
    have := (List.mem_range'_1.mp hs).1
    exact Nat.one_le_iff_ne_zero.mp this
  obtain ⟨hfn, _, hdisj⟩ := Multiset.nodup_add.mp hnodup
  refine ⟨a, ha, hw.rep.partitioned hsum, fun n a' new halloc => ?_, fun tie numTokens => ?_⟩
  · obtain ⟨hfree, _, _⟩ := TokenPoolAllocator.alloc_ok halloc
    have hsub : ∀ s ∈ new, s ∈ a.freeSlots := fun s hs => by rw [hfree]; exact List.mem_append_right _ hs
    refine ⟨fun h0 => hpos 0 (Multiset.mem_add.mpr (Or.inl (hsub 0 h0))) rfl, ?_, fun s hs hst => ?_⟩
    · rw [Multiset.coe_nodup, hfree] at hfn
      exact (List.nodup_append.mp hfn).2.1
    · exact Multiset.disjoint_left.mp hdisj (hsub s hs) (hw.rep.stored_iff.mp hst)
  · obtain ⟨c', T', xs, heq, hw', hev, _⟩ := hw.evict now tie numTokens
    have hsh := hev.shrunk
    have hf : freedBy h.cache c' = slotsOf T xs := by rw [hsh.freedBy, ha]
    obtain ⟨a', ha', hsum'⟩ := Shares.evict ⟨a, ha, hsum⟩ hsh
    have hfree : a'.freeSlots = a.freeSlots ++ freedBy h.cache c' := by
      have : c'.allocator = h.cache.allocator.map fun a => a.free (slotsOf T xs) := by rw [hsh.eq]; rfl
      rw [ha', ha] at this
      rw [hf, Option.some.inj this]
      rfl
    have hnd' : ((a'.freeSlots : Multiset Slot) + T'.stored).Nodup := by
      rw [hsum']
      exact List.nodup_range'
    obtain ⟨hn1, _, hdisj'⟩ := Multiset.nodup_add.mp hnd'
    refine ⟨c', _, a', heq, ha', hfree, hn1, fun s => ?_⟩
    rw [hw.rep.stored_iff, hw'.rep.stored_iff, hf, hsh.stored, Multiset.mem_add, Multiset.mem_coe]
    constructor
    · intro hs
      refine ⟨Or.inl hs, Multiset.disjoint_left.mp hdisj' ?_⟩
      rw [hfree, hf]
      exact List.mem_append_right _ hs
    · intro ⟨hs, hno⟩
      exact hs.resolve_right hno

/-- Two fills that share a prefix leave one of five slots free. -/
theorem pool_partition_shared : ∃ (h : History) (a : TokenPoolAllocator), h.cache.evictableSize = 4 ∧
    h.cache.allocator = some a ∧ Partitioned h.cache a 5 := by
  have hd : ((((RadixCache.init false .lru).setAllocator ⟨5, TokenPoolAllocator.allSlots 5⟩).fill [1, 2, 3]).any
      fun c => (c.fill [1, 2, 4]).any fun c => decide (c.evictableSize = 4)) = true := by decide +kernel
  obtain ⟨c₁, h1, hd⟩ := (Option.any_eq_true _ _).mp hd
  obtain ⟨c₂, h2, hd⟩ := (Option.any_eq_true _ _).mp hd
  have hr : PoolReachable (fun r => r.op) .lru 5 ⟨c₂, [], []⟩ :=
    .step (.step (.init rfl) (.fill [1, 2, 3] h1)) (.fill [1, 2, 4] h2)
  obtain ⟨a, ha, hpart, _⟩ := pool_partition _ _ 5 _ hr
  exact ⟨_, a, of_decide_eq_true hd, ha, hpart⟩

end RadixCache

end SglangMlx
