import SglangMlx.RadixRun

/- Which tokens a lookup or an insertion makes recent. Both stamp a child before
   they compare its key: if the key leaves the edge of the child, the child is
   stamped whole and split afterwards, so its lower half keeps the new stamp
   although the key did not use it. `insert` raises the priority only after the
   split, on the upper half. So the stamps follow the use exactly when every edge
   that the key enters lies wholly on the key. -/
namespace SglangMlx

namespace RadixCache

/-- The call that took `c` to `c'` used the tokens of `used`: they were stamped
    during the call, and every other stored token kept its time. -/
structure TouchesOnly (c c' : RadixCache) (used : List Token) : Prop where
  recent : ∀ k, k ≠ [] → k <+: used → ∃ n, Holds c' n k ∧ ∀ now : Clock, now.Nondecreasing →
    now ⟨c.clock.op + 1, 0⟩ ≤ now (c'.nodes n).lastAccessTime
  rest : ∀ k n, Holds c n k → ¬k <+: used → ∃ n', Holds c' n' k ∧ ∀ now : Clock, now.Nondecreasing →
    now (c'.nodes n').lastAccessTime = now (c.nodes n).lastAccessTime

/-- Every node that the walk along `key` enters lies wholly on `key`. -/
def WholeEdges (c : RadixCache) (key : List Token) : Prop :=
  ∀ x q, Passes c key x → Spells c x q → q.map Prod.fst <+: key

/-- What a call that uses `used`, a prefix of `key`, does to the tree and the stamps. -/
structure Touched (key used : List Token) (c : RadixCache) (T : Tree) (c' : RadixCache) (T' : Tree) : Prop where
  subset : T.nodes ⊆ T'.nodes
  path : ∀ n ∈ T.nodes, T'.path n = T.path n
  same : ∀ n ∈ T.nodes, n ≠ T.root → ¬T.Enters key n → (c'.nodes n).lastAccessTime = (c.nodes n).lastAccessTime
  entered : ∀ n, T.Enters key n → (c'.nodes n).lastAccessTime.op = c.clock.op + 1
  new : ∀ n ∈ T'.nodes, n ∉ T.nodes → (∃ x, T.Enters key x ∧ ¬T.letters x <+: key) ∨ T'.letters n <+: used
  le : used <+: key
  most : ∀ n ∈ T.nodes, ∀ k, k ≠ [] → k <+: T.letters n → k <+: key → k <+: used
  last : ∃ n ∈ T'.nodes, used <+: T'.letters n ∧ (used ≠ [] → (c'.nodes n).lastAccessTime.op = c.clock.op + 1)

section
variable {c c' : RadixCache} {T T' : Tree} {locks locks' : List NodeId} {key used : List Token}

theorem Rep.wholeEdges_iff (h : Rep c T) : WholeEdges c key ↔ ∀ x, T.Enters key x → T.letters x <+: key := by
  constructor
  · intro hw x hx
    exact hw x _ (h.passes_iff.mpr hx) (h.spells_iff.mpr ⟨hx.1, rfl⟩)
  · intro hw x q hx hq
    obtain ⟨_, rfl⟩ := h.spells_iff.mp hq
    exact hw x (h.passes_iff.mp hx)

theorem Rep.holds_unique (h : Rep c T) {n m : NodeId} {k : List Token} (hn : Holds c n k) (hm : Holds c m k) :
    n = m := by
  obtain ⟨hn, hnr, hnk, hnl⟩ := h.holds_iff.mp hn
  obtain ⟨hm, hmr, hmk, hml⟩ := h.holds_iff.mp hm
  have hne : k ≠ [] := List.ne_nil_of_length_pos (by omega)
  obtain ⟨q, hq, hqn, hfst⟩ := PrefixTree.exists_pos hn hnk hne
  obtain ⟨q', hq', hqm, hfst'⟩ := PrefixTree.exists_pos hm hmk hne
  obtain rfl : q = q' := PrefixTree.pos_det hq hq' (hfst.trans hfst'.symm)
  have hlen : q.length = k.length := by rw [← hfst, List.length_map]
  exact PrefixTree.holder_unique hn hnr (by omega) hqn hm hmr (by omega) hqm

theorem Rep.exists_holds (h : Rep c T) {m : NodeId} (hm : m ∈ T.nodes) {k : List Token} (hk : k <+: T.letters m)
    (hne : k ≠ []) : ∃ n, Holds c n k ∧ T.path n <+: T.path m := by
  obtain ⟨q, hq, _, hfst⟩ := PrefixTree.exists_pos hm hk hne
  obtain ⟨n, hn, hr, hlt, hqn⟩ := hq.holder
  have hlen : q.length = k.length := by rw [← hfst, List.length_map]
  refine ⟨n, h.holds_iff.mpr ⟨hn, hr, hfst ▸ hqn.map Prod.fst, hlen ▸ hlt⟩, ?_⟩
  apply PrefixTree.holder_le hn hr hlt hqn hm
  rw [hfst]
  exact hk

/-- Below a node that was stamped in this call and above it, all stamps are of this call. -/
theorem Touched.stamped (h : Touched key used c T c' T') (hw : Wf c' T' locks')
    (hop : c'.clock.op = c.clock.op + 1) {k : List Token} (hne : k ≠ []) (hk : k <+: used) :
    ∃ n, Holds c' n k ∧ (c'.nodes n).lastAccessTime.op = c.clock.op + 1 := by
  obtain ⟨m, hm, hle, hlast⟩ := h.last
  obtain ⟨n, hn, hnm⟩ := hw.rep.exists_holds hm (hk.trans hle) hne
  have hnT := (hw.rep.holds_iff.mp hn).1
  have hused : used ≠ [] := by
    intro e
    rw [e] at hk
    exact hne (List.prefix_nil.mp hk)
  have h1 := (hw.aged.below hnT hm hnm).1
  have h2 := hw.aged.past n hnT
  rw [hlast hused] at h1
  exact ⟨n, hn, by omega⟩

theorem Touched.only (h : Touched key used c T c' T') (hw : Wf c T locks) (hw' : Wf c' T' locks')
    (hop : c'.clock.op = c.clock.op + 1) (hwhole : ∀ x, T.Enters key x → T.letters x <+: key) :
    TouchesOnly c c' used where
  recent k hne hk := by
    obtain ⟨n, hn, hlat⟩ := h.stamped hw' hop hne hk
    refine ⟨n, hn, fun now hnow => ?_⟩
    rw [← hlat]
    exact hnow.within _ 0 _ (Nat.zero_le _)
  rest k n hn hnot := by
    obtain ⟨hnT, hnr, hnk, hnl⟩ := hw.rep.holds_iff.mp hn
    have hne : k ≠ [] := List.ne_nil_of_length_pos (by omega)
    have hno : ¬T.Enters key n := fun he => hnot (h.most n hnT k hne hnk (hnk.trans (hwhole n he)))
    -- the token is still stored in `n`
    have hnk' : k <+: T'.letters n := by
      rw [PrefixTree.letters, h.path n hnT]
      exact hnk
    obtain ⟨m, hm, hmn⟩ := hw'.rep.exists_holds (h.subset hnT) hnk' hne
    obtain ⟨hmT', _, hmk, _⟩ := hw'.rep.holds_iff.mp hm
    have hmT : m ∈ T.nodes := by
      by_contra hmT
      rcases h.new m hmT' hmT with ⟨x, hx, hxk⟩ | hle
      · exact hxk (hwhole x hx)
      · exact hnot (hmk.trans hle)
    have hmn' : m = n := by
      obtain ⟨q, _, hqn, hfst⟩ := PrefixTree.exists_pos hnT hnk hne
      have hlen : q.length = k.length := by rw [← hfst, List.length_map]
      rw [PrefixTree.letters, h.path m hmT] at hmk
      have hle : T.path n <+: T.path m := PrefixTree.holder_le hnT hnr (by omega) hqn hmT
        (by rw [hfst]; exact hmk)
      rw [h.path m hmT, h.path n hnT] at hmn
      exact PrefixTree.path_inj hmT hnT (hmn.eq_of_length (Nat.le_antisymm hmn.length_le hle.length_le))
    rw [hmn'] at hm
    exact ⟨n, hm, fun now _ => by rw [h.same n hnT hnr hno]⟩

/-- If an edge was cut, the tokens below the cut were stamped and not used. -/
theorem Touched.not_only (h : Touched key used c T c' T') (hw : Wf c T locks) (hw' : Wf c' T' locks') {x : NodeId}
    (hx : T.Enters key x) (hleave : ¬T.letters x <+: key) : ¬TouchesOnly c c' used := by
  intro ht
  obtain ⟨hxT, hxr, _⟩ := id hx
  have hhold : ∀ {c₀ : RadixCache} {T₀ : Tree}, Rep c₀ T₀ → x ∈ T₀.nodes → T₀.path x = T.path x →
      Holds c₀ x (T.letters x) := by
    intro c₀ T₀ h₀ hx₀ hpath
    have hr₀ : x ≠ T₀.root := by
      intro e
      rw [e, T₀.path_root, ← e] at hpath
      exact hxr (PrefixTree.path_eq_nil hxT hpath.symm)
    refine h₀.holds_iff.mpr ⟨hx₀, hr₀, ?_, ?_⟩
    · rw [PrefixTree.letters, PrefixTree.letters, hpath]
    · rw [PrefixTree.letters_length, ← hpath]
      exact PrefixTree.path_parent_lt hx₀ hr₀
  obtain ⟨n', hn', htime⟩ := ht.rest _ x (hhold hw.rep hxT rfl) fun hle => hleave (hle.trans h.le)
  have hx' := hhold hw'.rep (h.subset hxT) (h.path x hxT)
  rw [hw'.rep.holds_unique hn' hx'] at htime
  have htime := htime (fun r => r.op) Clock.op_monotonic.nondecreasing
  have hpast := hw.aged.past x hxT
  have hent := h.entered x hx
  omega

theorem Touched.only_iff (h : Touched key used c T c' T') (hw : Wf c T locks) (hw' : Wf c' T' locks')
    (hop : c'.clock.op = c.clock.op + 1) : TouchesOnly c c' used ↔ WholeEdges c key := by
  rw [hw.rep.wholeEdges_iff]
  refine ⟨fun ht x hx => ?_, h.only hw hw' hop⟩
  by_contra hleave
  exact h.not_only hw hw' hx hleave ht

/-! ## The two operations -/

theorem Wf.matchPrefix_touched (h : Wf c T locks) (key : List Token) : ∃ c' T' res,
    c.matchPrefix key = some (c', res) ∧ Wf c' T' locks ∧ c'.clock.op = c.clock.op + 1 ∧
      Touched key (key.take res.deviceIndices.length) c T c' T' := by
  obtain ⟨c', T', res, heq, hw, hloc, hres, hst, hlop⟩ := matchPrefix_spec h key
  have hwf := h.beginOp.walk rfl hw
  have href : Refined c.beginOp T c' T' := hw.refined
  have hlong := (hloc.isLongest hwf.rep).congr fun r => (href.pos r).symm
  have hused : key.take res.deviceIndices.length = T'.letters res.lastNode := by
    rw [hres, List.length_map, ← PrefixTree.letters_length]
    exact (List.prefix_iff_eq_take.mp hloc.letters).symm
  refine ⟨c', T', res, heq, hwf, href.op, href.subset, href.path, hst.same, fun n hn => ?_,
    fun n hn hno => ?_, List.take_prefix _ _, fun n hn k hne hk hkk => ?_, res.lastNode, hloc.mem, by rw [hused],
    fun hne => hlop ?_⟩
  · apply hst.used n hn
    rw [T.path_root]
    exact List.nil_prefix
  · obtain ⟨x, hx, hleave, _⟩ := hst.new n hn hno
    exact Or.inl ⟨x, hx, hleave⟩
  · obtain ⟨q, hq, _, rfl⟩ := PrefixTree.exists_pos hn hk hne
    rw [hused]
    exact (hlong.le_of_pos hq hkk).map Prod.fst
  · intro e
    rw [e, List.take_nil] at hne
    exact hne rfl

theorem Wf.insert_touched (h : Wf c T locks) (key : List Token) (value : Option (List Slot)) (p : Int)
    (hlen : (value.getD key).length = key.length) : ∃ c' T' k, c.insert key value p = some (c', k) ∧
      Wf c' T' locks ∧ c'.clock.op = c.clock.op + 1 ∧ Touched key key c T c' T' := by
  obtain ⟨c₁, T₁, last, hw, hloc, hst, _, hop, hprio, heq⟩ := insert_spec h key value p
  have hwf := h.beginOp.walk rfl hw
  have href : Refined c.beginOp T c₁ T₁ := hw.refined
  have hopc : c₁.clock.op = c.clock.op + 1 := href.op
  have hentered : ∀ n, T.Enters key n → (c₁.nodes n).lastAccessTime.op = c.clock.op + 1 := by
    intro n hn
    apply hst.used n hn
    rw [T.path_root]
    exact List.nil_prefix
  have hnew : ∀ n ∈ T₁.nodes, n ∉ T.nodes → ∃ x, T.Enters key x ∧ ¬T.letters x <+: key := by
    intro n hn hno
    obtain ⟨x, hx, hleave, _⟩ := hst.new n hn hno
    exact ⟨x, hx, hleave⟩
  cases hdrop : key.drop (T₁.path last).length with
  | nil =>
    rw [hdrop] at heq
    refine ⟨c₁, T₁, _, heq, hwf, hopc, href.subset, href.path, hst.same, hentered,
      fun n hn hno => Or.inl (hnew n hn hno), List.prefix_refl _, fun n hn k hne hk hkk => hkk, last,
        hloc.mem, ?_, fun _ => hop⟩
    -- the whole key is stored
    have hle := List.drop_eq_nil_iff.mp hdrop
    rw [← PrefixTree.letters_length] at hle
    rw [hloc.letters.eq_of_length (Nat.le_antisymm hloc.letters.length_le hle)]
  | cons t rest =>
    rw [hdrop] at heq
    have hvlen : ((value.getD key).drop (T₁.path last).length).length = (t :: rest).length := by
      rw [← hdrop, List.length_drop, List.length_drop, hlen]
    obtain ⟨hzip, hfree, hw'⟩ := hwf.insertLeaf hloc (hop.trans hopc.symm) hprio hdrop hvlen
    obtain ⟨hsame, _, hlat, _⟩ :=
      insertLeaf_stamps t (t :: rest) ((value.getD key).drop (T₁.path last).length) p hwf.rep hloc.mem
    obtain ⟨hc', -⟩ := insertLeaf_spec t (t :: rest) ((value.getD key).drop (T₁.path last).length) p
      (fun e : last = c₁.counter => hwf.rep.not_mem_counter (e ▸ hloc.mem))
    have hleaf : PrefixTree.letters (T₁.graft c₁.counter last
        ((t :: rest).zip ((value.getD key).drop (T₁.path last).length)) hwf.rep.not_mem_counter
          hloc.mem hzip hfree)
        c₁.counter = key := hloc.graft_letters hdrop hvlen
    refine ⟨_, _, _, heq, hw', ?_, ?_, fun n hn => ?_, fun n hn hr he => ?_, fun n hn => ?_, fun n hn hno => ?_,
      List.prefix_refl _, fun n hn k hne hk hkk => hkk, c₁.counter, Finset.mem_insert_self _ _, by rw [hleaf],
      fun _ => ?_⟩
    · rw [hc']; exact hopc
    · exact href.subset.trans (Finset.subset_insert _ _)
    · rw [(PrefixTree.graft_old (href.subset hn)).2.2, href.path n hn]
    · rw [(hsame n (href.subset hn)).2.1]; exact hst.same n hn hr he
    · rw [(hsame n (href.subset hn.1)).2.1]; exact hentered n hn
    · rcases Finset.mem_insert.mp hn with e | hn
      · rw [e, hleaf]; exact Or.inr (List.prefix_refl _)
      · exact Or.inl (hnew n hn hno)
    · rw [hlat]; exact hopc

end

/-- In every reachable history a lookup and an insertion make only the tokens they
    use recent exactly when no node they enter leaves the key. -/
theorem stamps_follow_use (now : Clock) (strategy : EvictionStrategy) (h : History)
    (hr : Reachable now strategy h) (key : List Token) :
    (∃ c' res, h.cache.matchPrefix key = some (c', res) ∧
      (TouchesOnly h.cache c' (key.take res.deviceIndices.length) ↔ WholeEdges h.cache key)) ∧
    ∀ value p, (value.getD key).length = key.length → ∃ c' k, h.cache.insert key value p = some (c', k) ∧
      (TouchesOnly h.cache c' key ↔ WholeEdges h.cache key) := by
  obtain ⟨_, T, hw⟩ := hr.wf
  refine ⟨?_, fun value p hlen => ?_⟩
  · obtain ⟨c', T', res, heq, hw', hop, ht⟩ := hw.matchPrefix_touched key
    exact ⟨c', res, heq, ht.only_iff hw hw' hop⟩
  · obtain ⟨c', T', k, heq, hw', hop, ht⟩ := hw.insert_touched key value p hlen
    exact ⟨c', k, heq, ht.only_iff hw hw' hop⟩

theorem stamps_follow_use_shared : ∃ h : History, h.cache.evictableSize = 5 ∧
    (∃ c' res, h.cache.matchPrefix [1, 2] = some (c', res) ∧
      (TouchesOnly h.cache c' (List.take res.deviceIndices.length [1, 2]) ↔ WholeEdges h.cache [1, 2])) ∧
    ∃ c' k, h.cache.insert [1, 2] (some [11, 12]) 0 = some (c', k) ∧
      (TouchesOnly h.cache c' [1, 2] ↔ WholeEdges h.cache [1, 2]) := by
  obtain ⟨h, hr, hp⟩ := Reachable.of_run (fun r => r.op) .lru (sharedCalls.take 2)
    (P := fun h : History => h.cache.evictableSize = 5) (by decide +kernel)
  have hboth := stamps_follow_use _ _ h hr [1, 2]
  exact ⟨h, hp, hboth.1, hboth.2 (some [11, 12]) 0 rfl⟩

/-- The lookup of `[1, 2]` in a tree that stores `[1, 2, 3]` in one node also makes
    the unused `3` recent. -/
theorem unused_suffix_recent : ∃ (h : History) (c' : RadixCache) (res : MatchResult),
    Reachable (fun r => r.op) .lru h ∧ h.cache.matchPrefix [1, 2] = some (c', res) ∧
      res.deviceIndices = [11, 12] ∧ ¬TouchesOnly h.cache c' [1, 2] := by
  obtain ⟨h, hr, hp⟩ := Reachable.of_run (fun r => r.op) .lru [.insert [1, 2, 3] (some [11, 12, 13]) 0]
    (P := fun h : History => h.cache.spell 2 1 = some [(1, 11), (2, 12), (3, 13)] ∧
      (h.cache.nodes h.cache.rootNode).children.lookup 1 = some 1 ∧
      ((h.cache.matchPrefix [1, 2]).map fun m => m.2.deviceIndices) = some [11, 12]) (by decide +kernel)
  obtain ⟨hspell, hl, hres⟩ := hp
  obtain ⟨_, T, hw⟩ := hr.wf
  obtain ⟨c', T', res, heq, hw', hop, ht⟩ := hw.matchPrefix_touched [1, 2]
  rw [heq, Option.map_some, Option.some.injEq] at hres
  rw [hres] at ht
  refine ⟨h, c', res, hr, heq, hres, fun honly => ?_⟩
  have hwhole := (ht.only_iff hw hw' hop).mp honly
  have hpass : Passes h.cache [1, 2] 1 := ⟨_, [], 1, .root, hl, [2], rfl⟩
  have := hwhole 1 _ hpass (spells_of_spell 2 1 _ hspell)
  exact absurd this (by decide)

end RadixCache

end SglangMlx
