import SglangMlx.RadixInvariant

/- What `evict` reclaims. It stops when enough tokens are evicted or no unlocked
   leaf is left; since lock counts fall along root paths, an unlocked node always
   has an unlocked leaf below it, so in the second case nothing unlocked is left
   at all. What is removed is what is freed and what the counters lose, and the
   rest of the tree answers lookups as before. -/
namespace SglangMlx

namespace RadixCache

/-- The nodes that `evict(numTokens)` removes, in order. -/
def removed (now : Clock) (tie : TieBreak) (c : RadixCache) (numTokens : Int) : List NodeId :=
  (c.removals now tie numTokens).map Prod.snd

/-- The pool indices of the nodes `xs`, in order. -/
def indicesOf (c : RadixCache) (xs : List NodeId) : List Slot := xs.flatMap fun x => (c.nodes x).value.getD []

/-- The tokens of the nodes `xs`. -/
def tokensOf (c : RadixCache) (xs : List NodeId) : Nat := (xs.map fun x => (c.nodes x).key.length).sum

/-- `evict(numTokens)` returns `r` and leaves `c'`, having removed the nodes `xs`
    in this order: everything it can, and no more than it must. -/
structure Reclaims (c : RadixCache) (numTokens : Int) (c' : RadixCache) (r : Int) (xs : List NodeId) : Prop where
  enough : min numTokens c.evictableSize ≤ r
  evictable : r = c.evictableSize - c'.evictableSize
  total : ∃ k k' : Nat, c.totalSize = some k ∧ c'.totalSize = some k' ∧ r = k - k'
  nodup : xs.Nodup
  mem : ∀ x, x ∈ xs ↔ InTree c x ∧ ¬InTree c' x
  freed : c'.allocator = c.allocator.map fun a => a.free (c.indicesOf xs)
  count : ((c.indicesOf xs).length : Int) = r
  guarded : c'.protectedSize = c.protectedSize
  unlocked : ∀ x ∈ xs, ¬0 < (c.nodes x).lockRef
  needed : ∀ ys y, xs = ys ++ [y] → (c.tokensOf ys : Int) < numTokens
  idle : numTokens ≤ 0 → xs = []
  kept : ∀ key, (∀ x ∈ xs, ¬Passes c key x) →
    (c'.matchPrefix key).map (fun m => m.2.deviceIndices) = (c.matchPrefix key).map fun m => m.2.deviceIndices

section
variable {c c' : RadixCache} {T T' : Tree} {locks : List NodeId} {xs : List NodeId}

/-- A longest stored prefix that no removed node is on is still the longest. -/
theorem Shrunk.longest {c₀ : RadixCache} (h : Shrunk xs c₀ T c' T') (hrep : Rep c T) {key : List Token}
    {q : List (Token × Slot)} (hq : T.Longest key q) (hkey : ∀ x ∈ xs, ¬Passes c key x) : T'.Longest key q where
  pos := by
    rcases hq.pos with e | hpos
    · exact Or.inl e
    · obtain ⟨n, hn, hr, hlt, hqn⟩ := hpos.holder
      have hn' : n ∈ T'.nodes := ((h.mem n).mp hn).resolve_right fun hx =>
        hkey n hx (hrep.passes_iff.mpr (PrefixTree.enters_of_holder hn hr hlt hqn hq.letters))
      exact Or.inr ⟨hpos.1, n, hn', h.path ▸ hqn⟩
  letters := hq.letters
  longest r hr := hq.longest r (h.pos hr)

theorem Rep.tokensOf (h : Rep c T) (hxs : ∀ x ∈ xs, x ∈ T.nodes) : (c.tokensOf xs : Int) = tokens T xs := by
  have hmap : xs.map (fun x => (c.nodes x).key.length) = xs.map fun x => (T.edge x).length :=
    List.map_congr_left fun x hx => h.key_length (hxs x hx)
  rw [RadixCache.tokensOf, tokens, hmap, Nat.cast_list_sum, List.map_map]
  rfl

theorem Rep.indicesOf (h : Rep c T) (hxs : ∀ x ∈ xs, x ∈ T.nodes) : c.indicesOf xs = slotsOf T xs :=
  List.flatMap_congr fun x hx => by rw [h.value x (hxs x hx)]; rfl

theorem slotsOf_length (T : Tree) (xs : List NodeId) : ((slotsOf T xs).length : Int) = tokens T xs := by
  induction xs with
  | nil => rfl
  | cons x xs ih =>
    have hl : (slotsOf T (x :: xs)).length = (T.edge x).length + (slotsOf T xs).length := by simp [slotsOf]
    have ht : tokens T (x :: xs) = (T.edge x).length + tokens T xs := by simp [tokens]
    rw [hl, ht, Nat.cast_add, ih]

theorem Book.evictable_zero (h : Book c T locks) (hall : ∀ n ∈ T.nodes, 0 < (c.nodes n).lockRef) :
    c.evictableSize_ = 0 := by
  rw [h.evictable]
  exact Finset.sum_eq_zero fun n hn => if_neg (hall n hn).ne'

end

theorem Wf.reclaims {c : RadixCache} {T : Tree} {locks : List NodeId} (h : Wf c T locks) (now : Clock)
    (tie : TieBreak) (numTokens : Int) : ∃ c' r, c.evict now tie numTokens = some (c', r) ∧
      Reclaims c numTokens c' r (c.removed now tie numTokens) := by
  obtain ⟨c', T', xs, heq, hw', hev, hstop, hlast, hxs, _⟩ := h.evict now tie numTokens
  have hsh := hev.shrunk
  have hmem : ∀ x ∈ xs, x ∈ T.nodes := fun x hx => (hsh.mem x).mpr (Or.inr hx)
  have hsize : c'.evictableSize_ = c.evictableSize_ - tokens T xs := congrArg RadixCache.evictableSize_ hsh.eq
  have hguard : c'.protectedSize_ = c.protectedSize_ := by rw [hsh.eq]; rfl
  have hcount : ((c.indicesOf xs).length : Int) = tokens T xs := by
    rw [h.rep.indicesOf hmem, slotsOf_length]
  refine ⟨c', _, heq, ?_⟩
  rw [show c.removed now tie numTokens = xs from hxs]
  refine ⟨?_, ?_, ?_, hsh.nodup, fun x => ?_, ?_, hcount, hguard, fun x hx => ?_, fun ys y he => ?_, fun hn => ?_,
    fun key hkey => ?_⟩
  · -- either enough, or the whole tree is locked
    by_cases henough : numTokens ≤ tokens T xs
    · exact (min_le_left _ _).trans henough
    · refine (min_le_right _ _).trans ?_
      have hnone := hstop.resolve_left henough
      have hstop' : c.evictableSize ≤ tokens T xs ∨ ∀ n, ¬Frontier c' T' n := Or.inr hnone
      have hz := hw'.book.evictable_zero fun n hn => hsh.all_locked hw'.book hstop' (Int.le_refl _) hn
      rw [hz] at hsize
      show c.evictableSize_ ≤ _
      omega
  · show _ = c.evictableSize_ - c'.evictableSize_
    omega
  · have h1 := h.book.total
    have h2 := hw'.book.total
    exact ⟨_, _, h.rep.totalSize, hw'.rep.totalSize, by omega⟩
  · rw [h.rep.inTree_iff, hw'.rep.inTree_iff]
    exact ⟨fun hx => ⟨hmem x hx, hsh.gone x hx⟩, fun hx => ((hsh.mem x).mp hx.1).resolve_left hx.2⟩
  · rw [h.rep.indicesOf hmem, hsh.eq]
    rfl
  · rw [show (c.nodes x).lockRef = 0 from hsh.unlocked x hx]
    exact Int.lt_irrefl 0
  · have hys : ∀ x ∈ ys, x ∈ T.nodes := fun x hx => hmem x (by rw [he]; exact List.mem_append_left _ hx)
    rw [h.rep.tokensOf hys]
    exact hlast ys y he
  · cases xs using List.reverseRecOn with
    | nil => rfl
    | append_singleton ys y =>
      have h1 := hlast ys y rfl
      have h2 := Int.natCast_nonneg (slotsOf T ys).length
      rw [slotsOf_length] at h2
      omega
  · obtain ⟨c₁, _, m, q, hm, _, _, hlong, hres, _⟩ := h.matchPrefix key
    obtain ⟨c₂, _, m', q', hm', _, _, hlong', hres', _⟩ := hw'.matchPrefix key
    have hqq : q = q' := (hsh.longest h.rep hlong hkey).unique hlong'
    rw [hm, hm', Option.map_some, Option.map_some, hres, hres', hqq]

/-- In every reachable history, under every policy, `evict` reclaims everything it
    can and no more than it must. -/
theorem evict_reclaims (now : Clock) (strategy : EvictionStrategy) (h : History) (hr : Reachable now strategy h)
    (tie : TieBreak) (numTokens : Int) : ∃ c' r, h.cache.evict now tie numTokens = some (c', r) ∧
      Reclaims h.cache numTokens c' r (h.cache.removed now tie numTokens) := by
  obtain ⟨_, T, hw⟩ := hr.wf
  exact hw.reclaims now tie numTokens

/-- Asked for four tokens when two are unlocked, `evict` returns these two. -/
theorem evict_reclaims_shared : ∃ (h : History) (c' : RadixCache) (r : Int),
    (h.locks = [4] ∧ h.cache.evictableSize = 2) ∧ h.cache.evict (fun r => r.op) (fun _ => 0) 4 = some (c', r) ∧
    Reclaims h.cache 4 c' r (h.cache.removed (fun r => r.op) (fun _ => 0) 4) := by
  obtain ⟨h, hr, hp⟩ := Reachable.of_run (fun r => r.op) .lru (sharedCalls.take 4)
    (P := fun h : History => h.locks = [4] ∧ h.cache.evictableSize = 2) (by decide +kernel)
  obtain ⟨c', r, heq, hrec⟩ := evict_reclaims _ _ h hr (fun _ => 0) 4
  exact ⟨h, c', r, hp, heq, hrec⟩

end RadixCache

end SglangMlx
