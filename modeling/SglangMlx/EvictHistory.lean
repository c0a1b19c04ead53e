import SglangMlx.RadixInvariant

/- Eviction by age and by frequency of use. An `Observed` run carries, beside the
   cache, what the two orders are about: when the tokens of a position were
   inserted and how often a lookup has returned them since; and which nodes
   `_split_node` made. `creation_time` is the birth of the tokens except in a node
   made by a split, which is stamped anew, and `hit_count` is never counted.
   `Heirs` is what one call does to births and counts. -/
namespace SglangMlx

namespace RadixCache

/-- All of `key` is stored. -/
def stores (c : RadixCache) (key : List Token) : Bool :=
  (c.matchPrefix key).any fun m => m.2.deviceIndices.length == key.length

/-- The call is a lookup that returns the slots of `key`. -/
def Call.returns (c : RadixCache) (key : List Token) : Call → Bool
  | .matchPrefix k => (c.matchPrefix k).any fun m => key.isPrefixOf (k.take m.2.deviceIndices.length)
  | _ => false

/-- The nodes that `_split_node` made on the way from `c` to `c'`: a new node with
    a child. -/
def recutBy (c c' : RadixCache) : List NodeId :=
  (List.range' c.counter (c'.counter - c.counter)).filter fun n => (c'.childValues n).length != 0

/-- A history with the operation that inserted the last token of each stored
    sequence, the lookups that have returned it since, and the nodes made by splits. -/
structure Observed where
  history : History
  births : List Token → Nat
  hits : List Token → Nat
  recut : List NodeId

def Observed.init (strategy : EvictionStrategy) : Observed :=
  ⟨⟨RadixCache.init false strategy, [], []⟩, fun _ => 0, fun _ => 0, []⟩

/-- After `call`, which took the history to `h'`. -/
def Observed.after (o : Observed) (call : Call) (h' : History) : Observed :=
  let added k := h'.cache.stores k && !o.history.cache.stores k
  { history := h'
    births := fun k => if added k then h'.cache.clock.op else o.births k
    hits := fun k =>
      if added k then 0 else if call.returns o.history.cache k then o.hits k + 1 else o.hits k
    recut := o.recut ++ recutBy o.history.cache h'.cache }

inductive ObservedRun (now : Clock) (strategy : EvictionStrategy) : Observed → Prop
  | init : ObservedRun now strategy (Observed.init strategy)
  | step {o : Observed} {call : Call} {h' : History} : ObservedRun now strategy o → call.Allowed o.history →
      o.history.exec now call = some h' → ObservedRun now strategy (o.after call h')

/-- A childless unlocked node of the tree. -/
def Removable (c : RadixCache) (n : NodeId) : Prop :=
  InTree c n ∧ (c.nodes n).children = ∅ ∧ (c.nodes n).lockRef = 0

/-! ## What a walk does to the nodes -/

/-- The fields that no walk changes in a node. -/
def SameBirth (x y : TreeNode) : Prop := x.creationTime = y.creationTime ∧ x.hitCount = y.hitCount

/-- A walk keeps the nodes and adds nodes with a child. -/
structure Cuts (c : RadixCache) (T : Tree) (c' : RadixCache) (T' : Tree) : Prop where
  counter : c.counter ≤ c'.counter
  old : ∀ n ∈ T.nodes, SameBirth (c'.nodes n) (c.nodes n) ∧
    (n ≠ T.root → (T.path (T.parent n)).length ≤ (T'.path (T'.parent n)).length)
  new : ∀ n ∈ T'.nodes, n ∉ T.nodes → c.counter ≤ n ∧ n < c'.counter ∧ ¬T'.Leaf n ∧ (c'.nodes n).hitCount = 0

theorem Cuts.modify {c c' : RadixCache} {T : Tree} (hc : c.counter ≤ c'.counter)
    (h : ∀ n ∈ T.nodes, SameBirth (c'.nodes n) (c.nodes n)) : Cuts c T c' T :=
  ⟨hc, fun n hn => ⟨h n hn, fun _ => Nat.le_refl _⟩, fun _ hn hno => absurd hn hno⟩

theorem Micro.cuts {op : Nat} {s s' : RadixCache × Tree} (h : Micro op s s') : Cuts s.1 s.2 s'.1 s'.2 := by
  cases h with
  | tick => exact .modify (Nat.le_refl _) fun _ _ => ⟨rfl, rfl⟩
  | @touch c T n r hn hr hp =>
    refine .modify (Nat.le_refl _) fun m _ => ?_
    by_cases e : m = n
    · rw [e, stamp_nodes_self]; exact ⟨rfl, rfl⟩
    · rw [stamp_nodes_ne c _ e]; exact ⟨rfl, rfl⟩
  | @raise c T n p hn hp =>
    refine .modify (Nat.le_refl _) fun m _ => ?_
    by_cases e : m = n
    · rw [e, raisePriority_nodes_self]; exact ⟨rfl, rfl⟩
    · rw [raisePriority_nodes_ne c _ e]; exact ⟨rfl, rfl⟩
  | @split c c' T child k h hc hr hk hk' heq hp =>
    obtain ⟨c'', heq', _, hc', _, _, _, hhit, hsame⟩ := h.splitNode hc hr hk hk'
    rw [heq] at heq'
    cases heq'
    have hcounter : c'.counter = c.counter + 1 := by rw [hc']
    refine ⟨?_, fun n hn => ⟨⟨(hsame n hn).2.2.1, (hsame n hn).2.2.2.1⟩, fun hnr => ?_⟩, fun n hn hno => ?_⟩
    · exact hcounter ▸ Nat.le_succ c.counter
    · by_cases e : n = child
      · rw [e, PrefixTree.split_child.1, PrefixTree.split_new.2.2, List.length_append]
        exact Nat.le_add_right _ _
      · rw [(PrefixTree.split_other hn e).1, PrefixTree.split_path (T.parent_mem n hn hnr)]
    · have e : n = c.counter := (Finset.mem_insert.mp hn).resolve_right hno
      rw [e]
      have hleaf : ¬(T.split c.counter child k h.not_mem_counter hc hr hk hk').Leaf c.counter :=
        PrefixTree.split_leaf_new
      exact ⟨Nat.le_refl _, hcounter ▸ Nat.lt_succ_self c.counter, hleaf, hhit⟩

theorem Walk.cuts {op : Nat} {s s' : RadixCache × Tree} (h : Walk op s s') : Cuts s.1 s.2 s'.1 s'.2 := by
  induction h with
  | refl => exact .modify (Nat.le_refl _) fun _ _ => ⟨rfl, rfl⟩
  | @tail s₁ s₂ hw hm ih =>
    have hr₁ := Walk.refined hw
    have hr₂ := hm.refined
    have h₂ := hm.cuts
    refine ⟨ih.counter.trans h₂.counter, fun n hn => ?_, fun n hn hno => ?_⟩
    · obtain ⟨hs₁, hp₁⟩ := ih.old n hn
      obtain ⟨hs₂, hp₂⟩ := h₂.old n (hr₁.subset hn)
      refine ⟨⟨hs₂.1.trans hs₁.1, hs₂.2.trans hs₁.2⟩, fun hr => (hp₁ hr).trans (hp₂ ?_)⟩
      rw [hr₁.root]; exact hr
    · by_cases h₁ : n ∈ s₁.2.nodes
      · obtain ⟨hlo, hhi, hleaf, hhit⟩ := ih.new n h₁ hno
        refine ⟨hlo, Nat.lt_of_lt_of_le hhi h₂.counter, fun hl => hleaf ((hr₂.leaf n h₁).mp hl), ?_⟩
        rw [(h₂.old n h₁).1.2]; exact hhit
      · obtain ⟨hlo, hhi, hleaf, hhit⟩ := h₂.new n hn h₁
        exact ⟨ih.counter.trans hlo, hhi, hleaf, hhit⟩

/-! ## What a call does to births and counts -/

/-- A node of the tree after a call is an old one with no more tokens than it
    had; or it was made by a split; or it is the new leaf. -/
structure Heirs (c : RadixCache) (T : Tree) (c' : RadixCache) (T' : Tree) : Prop where
  old : ∀ n ∈ T'.nodes, n ∈ T.nodes → SameBirth (c'.nodes n) (c.nodes n) ∧ T'.path n = T.path n ∧
    (n ≠ T.root → n ≠ T'.root ∧ (T.path (T.parent n)).length ≤ (T'.path (T'.parent n)).length)
  new : ∀ n ∈ T'.nodes, n ∉ T.nodes → (c'.nodes n).hitCount = 0 ∧ (n ∈ recutBy c c' ∨
    ((c'.nodes n).creationTime.op = c'.clock.op ∧
      ∀ m ∈ T.nodes, ∀ k, k <+: T'.letters n → (T'.path (T'.parent n)).length < k.length → ¬k <+: T.letters m))

section
variable {c c' : RadixCache} {T T' : Tree} {locks : List NodeId}

theorem Heirs.of_subset (hsub : T'.nodes ⊆ T.nodes) (hroot : T'.root = T.root) (hpath : T'.path = T.path)
    (hparent : T'.parent = T.parent) (hs : ∀ n ∈ T'.nodes, SameBirth (c'.nodes n) (c.nodes n)) :
      Heirs c T c' T' where
  old n hn _ := ⟨hs n hn, by rw [hpath], fun hr => ⟨hroot ▸ hr, by rw [hpath, hparent]⟩⟩
  new n hn hno := absurd (hsub hn) hno

theorem Rep.mem_recutBy (h' : Rep c' T') {n : NodeId} (hn : n ∈ T'.nodes) (hlo : c.counter ≤ n)
    (hhi : n < c'.counter) (hleaf : ¬T'.Leaf n) : n ∈ recutBy c c' := by
  refine List.mem_filter.mpr ⟨List.mem_range'_1.mpr ⟨hlo, ?_⟩, ?_⟩
  · rw [Nat.add_sub_cancel' (hlo.trans hhi.le)]
    exact hhi
  · have hne : (c'.childValues n) ≠ [] := fun e => hleaf ((h'.childValues_eq_nil hn).mp e)
    have := List.length_pos_of_ne_nil hne
    exact bne_iff_ne.mpr this.ne'

theorem Walk.heirs {op : Nat} (h : Walk op (c, T) (c', T')) (hr : Rep c T) : Heirs c T c' T' where
  old n _ hn := ⟨(h.cuts.old n hn).1, h.refined.path n hn,
    fun hnr => ⟨by rw [h.refined.root]; exact hnr, (h.cuts.old n hn).2 hnr⟩⟩
  new n hn hno := by
    obtain ⟨hlo, hhi, hleaf, hhit⟩ := h.cuts.new n hn hno
    exact ⟨hhit, Or.inl ((h.rep hr).mem_recutBy hn hlo hhi hleaf)⟩

theorem Wf.matchPrefix_heirs (h : Wf c T locks) (key : List Token) : ∃ c' T' res,
    c.matchPrefix key = some (c', res) ∧ Wf c' T' locks ∧ Heirs c T c' T' := by
  obtain ⟨c', T', res, heq, hw, _⟩ := matchPrefix_spec h key
  have hheirs := hw.heirs h.beginOp.rep
  exact ⟨c', T', res, heq, h.beginOp.walk rfl hw, hheirs.old, hheirs.new⟩

theorem Wf.insert_heirs (h : Wf c T locks) (key : List Token) (value : Option (List Slot)) (p : Int)
    (hlen : (value.getD key).length = key.length) : ∃ c' T' k, c.insert key value p = some (c', k) ∧
      Wf c' T' locks ∧ Heirs c T c' T' := by
  obtain ⟨c₁, T₁, last, hw, hloc, _, _, hop, hprio, heq⟩ := insert_spec h key value p
  have hwf := h.beginOp.walk rfl hw
  have href : Refined c.beginOp T c₁ T₁ := hw.refined
  have hheirs := hw.heirs h.beginOp.rep
  have hcuts : Cuts c.beginOp T c₁ T₁ := hw.cuts
  have hopc : c₁.clock.op = c.clock.op + 1 := href.op
  cases hdrop : key.drop (T₁.path last).length with
  | nil =>
    rw [hdrop] at heq
    exact ⟨c₁, T₁, _, heq, hwf, hheirs.old, hheirs.new⟩
  | cons t rest =>
    rw [hdrop] at heq
    have hvlen : ((value.getD key).drop (T₁.path last).length).length = (t :: rest).length := by
      rw [← hdrop, List.length_drop, List.length_drop, hlen]
    obtain ⟨hzip, hfree, hw'⟩ := hwf.insertLeaf hloc (hop.trans hopc.symm) hprio hdrop hvlen
    obtain ⟨hsame, -⟩ :=
      insertLeaf_stamps t (t :: rest) ((value.getD key).drop (T₁.path last).length) p hwf.rep hloc.mem
    obtain ⟨hc', hnew, -⟩ := insertLeaf_spec t (t :: rest) ((value.getD key).drop (T₁.path last).length) p
      (fun e : last = c₁.counter => hwf.rep.not_mem_counter (e ▸ hloc.mem))
    refine ⟨_, _, _, heq, hw', fun n hn hnT => ?_, fun n hn hno => ?_⟩
    · have hn₁ := href.subset hnT
      obtain ⟨hs, hp, hr⟩ := hheirs.old n hn₁ hnT
      refine ⟨⟨(hsame n hn₁).2.2.1.trans hs.1, (hsame n hn₁).2.2.2.1.trans hs.2⟩,
        (PrefixTree.graft_old hn₁).2.2.trans hp, fun hnr => ?_⟩
      have hr := hr hnr
      refine ⟨hr.1, ?_⟩
      rw [(PrefixTree.graft_old hn₁).1, (PrefixTree.graft_old (T₁.parent_mem n hn₁ hr.1)).2.2]
      exact hr.2
    · rcases Finset.mem_insert.mp hn with e | hn₁
      · refine ⟨by rw [e, hnew], Or.inr ⟨by rw [e, hnew, hc'], fun m hm k hk hlt hkm => ?_⟩⟩
        rw [e, hloc.graft_letters hdrop hvlen] at hk
        rw [e, PrefixTree.graft_new.1, (PrefixTree.graft_old hloc.mem).2.2] at hlt
        have hne : k ≠ [] := List.ne_nil_of_length_pos (Nat.lt_of_le_of_lt (Nat.zero_le _) hlt)
        obtain ⟨q, hq, _, rfl⟩ := PrefixTree.exists_pos hm hkm hne
        have hlong := (hloc.isLongest hwf.rep).longest q ((href.pos q).mpr hq) hk
        rw [List.length_map] at hlt
        omega
      · obtain ⟨hlo, hhi, hleaf, hhit⟩ := hcuts.new n hn₁ hno
        refine ⟨(hsame n hn₁).2.2.2.1.trans hhit, Or.inl (hw'.rep.mem_recutBy hn hlo ?_ fun hl => hleaf ?_)⟩
        · rw [hc']
          exact Nat.lt_succ_of_lt hhi
        · exact (PrefixTree.graft_leaf_old.mp hl).1

theorem Call.heirs (now : Clock) (call : Call) {h : History} (ha : call.Allowed h) {T : Tree}
    (hw : Wf h.cache T h.locks) : ∃ h' T', h.exec now call = some h' ∧ Wf h'.cache T' h'.locks ∧
      h'.cache.evictionStrategy = h.cache.evictionStrategy ∧ Heirs h.cache T h'.cache T' := by
  obtain ⟨h', T', heq, hw', heff⟩ := call.wf now ha [] hw
  cases call with
  | insert key value priority =>
    obtain ⟨c', T'', k, heq', hw'', hheirs⟩ := hw.insert_heirs key value priority ha
    simp only [History.exec, heq', Option.map_some, Option.some.injEq] at heq
    subst heq
    exact ⟨_, T'', by simp only [History.exec, heq', Option.map_some], hw'', heff.strategy, hheirs⟩
  | matchPrefix key =>
    obtain ⟨c', T'', res, heq', hw'', hheirs⟩ := hw.matchPrefix_heirs key
    simp only [History.exec, heq', Option.map_some, Option.some.injEq] at heq
    subst heq
    exact ⟨_, T'', by simp only [History.exec, heq', Option.map_some], hw'', heff.strategy, hheirs⟩
  | incLockRef n =>
    obtain ⟨c', heq', hw'', hr⟩ := hw.incLockRef (hw.rep.inTree_iff.mp ha)
    simp only [History.exec, heq', Option.map_some, Option.some.injEq] at heq
    subst heq
    refine ⟨_, T, by simp only [History.exec, heq', Option.map_some], hw'', heff.strategy, ?_⟩
    refine .of_subset (Finset.Subset.refl _) rfl rfl rfl fun m hm => ?_
    rw [hr.nodes m hm]
    exact ⟨rfl, rfl⟩
  | decLockRef n =>
    obtain ⟨c', heq', hw'', hr⟩ := hw.decLockRef ha
    simp only [History.exec, heq', Option.map_some, Option.some.injEq] at heq
    subst heq
    refine ⟨_, T, by simp only [History.exec, heq', Option.map_some], hw'', heff.strategy, ?_⟩
    refine .of_subset (Finset.Subset.refl _) rfl rfl rfl fun m hm => ?_
    rw [hr.nodes m hm]
    exact ⟨rfl, rfl⟩
  | evict tie numTokens =>
    obtain ⟨c', T'', xs, heq', hw'', hev, _⟩ := hw.evict now tie numTokens
    simp only [History.exec, heq', Option.map_some, Option.some.injEq] at heq
    subst heq
    have hsh := hev.shrunk
    exact ⟨_, T'', by simp only [History.exec, heq', Option.map_some], hw'', heff.strategy,
      .of_subset hsh.subset hsh.root hsh.path hsh.parent fun m _ =>
        ⟨(hsh.stamps m).2.2.1, (hsh.stamps m).2.2.2.1⟩⟩
  | allocator a =>
    cases heq
    exact ⟨_, T, rfl, hw.setAllocator a, rfl, .of_subset (Finset.Subset.refl _) rfl rfl rfl fun _ _ => ⟨rfl, rfl⟩⟩

theorem Wf.stores_iff (h : Wf c T locks) {k : List Token} (hne : k ≠ []) :
    c.stores k = true ↔ ∃ n ∈ T.nodes, k <+: T.letters n := by
  obtain ⟨c', T', res, q, heq, _, _, hlong, hres, _⟩ := h.matchPrefix k
  have hlen : c.stores k = true ↔ q.length = k.length := by
    simp [stores, heq, hres]
  have hle := hlong.letters.length_le
  rw [List.length_map] at hle
  rw [hlen]
  constructor
  · intro e
    have hk : q.map Prod.fst = k := hlong.letters.eq_of_length (by rw [List.length_map, e])
    rcases hlong.pos with hq | ⟨_, n, hn, hqn⟩
    · rw [hq] at hk
      exact absurd hk.symm hne
    · exact ⟨n, hn, hk ▸ hqn.map Prod.fst⟩
  · intro ⟨n, hn, hkn⟩
    obtain ⟨r, hr, _, hfst⟩ := PrefixTree.exists_pos hn hkn hne
    have := hlong.longest r hr (by rw [hfst])
    rw [← hfst, List.length_map] at hle ⊢
    omega

end

/-! ## The invariant of an observed run -/

/-- A node that no split made was created when its tokens were inserted; no node
    counts its hits. -/
structure Dated (o : Observed) (T : Tree) : Prop where
  births : ∀ n k, Holds o.history.cache n k → n ∉ o.recut →
    o.births k = (o.history.cache.nodes n).creationTime.op
  unhit : ∀ n ∈ T.nodes, (o.history.cache.nodes n).hitCount = 0

theorem Dated.after {o : Observed} {T T' : Tree} {call : Call} {h' : History} (h : Dated o T)
    (hw : Wf o.history.cache T o.history.locks) (hw' : Wf h'.cache T' h'.locks)
    (hheirs : Heirs o.history.cache T h'.cache T') : Dated (o.after call h') T' where
  births n k hk hno := by
    obtain ⟨hn, hr, hkn, hlt⟩ := hw'.rep.holds_iff.mp hk
    have hne : k ≠ [] := List.ne_nil_of_length_pos (Nat.lt_of_le_of_lt (Nat.zero_le _) hlt)
    have hstored' : h'.cache.stores k = true := (hw'.stores_iff hne).mpr ⟨n, hn, hkn⟩
    simp only [Observed.after, List.mem_append, not_or] at hno
    simp only [Observed.after, hstored', Bool.true_and]
    by_cases hnT : n ∈ T.nodes
    · -- the token was stored in `n` before
      obtain ⟨hs, hpath, hroot⟩ := hheirs.old n hn hnT
      rw [PrefixTree.letters, hpath] at hkn
      have hnr : n ≠ T.root := by
        intro e
        rw [e, T.path_root] at hkn
        exact hne (List.prefix_nil.mp hkn)
      have hstored : o.history.cache.stores k = true := (hw.stores_iff hne).mpr ⟨n, hnT, hkn⟩
      have hold : Holds o.history.cache n k :=
        hw.rep.holds_iff.mpr ⟨hnT, hnr, hkn, Nat.lt_of_le_of_lt (hroot hnr).2 hlt⟩
      rw [hstored, hs.1]
      exact h.births n k hold hno.1
    · obtain ⟨_, hcut | ⟨hop, hfresh⟩⟩ := hheirs.new n hn hnT
      · exact absurd hcut hno.2
      · have hstored : o.history.cache.stores k = false := by
          rw [Bool.eq_false_iff]
          intro hst
          obtain ⟨m, hm, hkm⟩ := (hw.stores_iff hne).mp hst
          exact hfresh m hm k hkn hlt hkm
        rw [hstored]
        exact hop.symm
  unhit n hn := by
    by_cases hnT : n ∈ T.nodes
    · exact (hheirs.old n hn hnT).1.2.trans (h.unhit n hnT)
    · exact (hheirs.new n hn hnT).1

theorem ObservedRun.dated {now : Clock} {strategy : EvictionStrategy} {o : Observed}
    (ho : ObservedRun now strategy o) :
    o.history.cache.evictionStrategy = strategy ∧ ∃ T, Wf o.history.cache T o.history.locks ∧ Dated o T := by
  induction ho with
  | init =>
    refine ⟨rfl, rootTree, wf_init strategy, fun n k hk _ => ?_, fun n hn => ?_⟩
    · obtain ⟨hn, hr, _⟩ := (wf_init strategy).rep.holds_iff.mp hk
      exact absurd (Finset.mem_singleton.mp hn) hr
    · rw [Finset.mem_singleton.mp hn]
      rfl
  | @step o call h' _ ha heq ih =>
    obtain ⟨hst, T, hw, hd⟩ := ih
    obtain ⟨h'', T', heq', hw', hst', hheirs⟩ := call.heirs now ha hw
    rw [heq] at heq'
    cases heq'
    exact ⟨hst'.trans hst, T', hw', hd.after hw hw' hheirs⟩

/-! ## Executing an observed run -/

def Observed.run (now : Clock) : List Call → Observed → Option Observed
  | [], o => some o
  | call :: rest, o =>
    if call.check o.history then (o.history.exec now call).bind fun h' => Observed.run now rest (o.after call h')
    else none

theorem ObservedRun.run {now : Clock} {strategy : EvictionStrategy} : ∀ (calls : List Call) {o o' : Observed},
    ObservedRun now strategy o → o.run now calls = some o' → ObservedRun now strategy o' := by
  intro calls
  induction calls with
  | nil => intro o o' ho heq; cases heq; exact ho
  | cons call rest ih =>
    intro o o' ho heq
    rw [Observed.run] at heq
    split at heq
    · next hc =>
      obtain ⟨h₁, h1, h2⟩ := Option.bind_eq_some_iff.mp heq
      exact ih (.step ho (call.allowed_of_check hc) h1) h2
    · cases heq

theorem ObservedRun.of_run (now : Clock) (strategy : EvictionStrategy) (calls : List Call) {P : Observed → Prop}
    [DecidablePred P] (h : (((Observed.init strategy).run now calls).any fun o => decide (P o)) = true) :
    ∃ o, ObservedRun now strategy o ∧ P o := by
  obtain ⟨o, ho, hp⟩ := (Option.any_eq_true _ _).mp h
  exact ⟨o, ObservedRun.run calls .init ho, of_decide_eq_true hp⟩

/-- An executable test for `Removable`. -/
def removableCheck (c : RadixCache) (n : NodeId) : Bool :=
  c.climbsTo (c.counter + 1) n && (c.nodes n).children.entries.isEmpty && (c.nodes n).lockRef == 0

theorem removable_of_check {c : RadixCache} {n : NodeId} (h : c.removableCheck n = true) : Removable c n := by
  rw [removableCheck, Bool.and_eq_true, Bool.and_eq_true] at h
  exact ⟨inTree_of_climbsTo _ n h.1.1, AList.ext (List.isEmpty_iff.mp h.1.2), beq_iff_eq.mp h.2⟩

theorem holds_of_spell {c : RadixCache} {fuel : Nat} {n : NodeId} {q : List (Token × Slot)}
    (h : c.spell fuel n = some q) (hk : (c.nodes n).key ≠ []) : Holds c n (q.map Prod.fst) := by
  refine ⟨q, spells_of_spell fuel n q h, List.prefix_refl _, ?_⟩
  have := List.length_pos_of_ne_nil hk
  rw [List.length_map]
  omega

/-! ## The two orders -/

/-- A removal of an eviction from the state of an observed run, beside another
    node that could be removed: both were in the tree at the start, and the heap
    preferred the removed one. -/
theorem ObservedRun.removal {now : Clock} {strategy : EvictionStrategy} {o : Observed}
    (ho : ObservedRun now strategy o) {tie : TieBreak} {numTokens : Int} {p : RadixCache × NodeId}
    (hp : p ∈ o.history.cache.removals now tie numTokens) {y : NodeId} (hy : Removable p.1 y) :
    ∃ T T₁, Wf o.history.cache T o.history.locks ∧ Dated o T ∧
      Removal now o.history.cache.beginOp T o.history.locks p.1 T₁ p.2 ∧ Frontier p.1 T₁ y ∧
      strategy.getPriority now (o.history.cache.nodes p.2) ≤ strategy.getPriority now
        (o.history.cache.nodes y) := by
  obtain ⟨hst, T, hw, hd⟩ := ho.dated
  obtain ⟨c', T', xs, _, _, _, _, _, _, htrace⟩ := hw.evict now tie numTokens
  obtain ⟨T₁, hrem⟩ := htrace p hp
  have hyT := hrem.rep.inTree_iff.mp hy.1
  have hfy : Frontier p.1 T₁ y := ⟨hyT, (hrem.rep.children_eq_empty hyT).mp hy.2.1, hy.2.2⟩
  refine ⟨T, T₁, hw, hd, hrem, hfy, ?_⟩
  have h1 := Prod.Lex.monotone_fst _ _ (hrem.least y hfy)
  rw [← hst]
  exact h1

theorem Removal.holds {now : Clock} {c c' c₀ : RadixCache} {T T' : Tree} {locks : List NodeId} {x n : NodeId}
    (h : Removal now c T locks c' T' x) (hr : Rep c₀ T) {k : List Token} (hk : Holds c' n k) : Holds c₀ n k := by
  obtain ⟨hn, hnr, hkn, hlt⟩ := h.rep.holds_iff.mp hk
  rw [h.root] at hnr
  rw [PrefixTree.letters, h.path] at hkn
  rw [h.path, h.parent] at hlt
  exact hr.holds_iff.mpr ⟨h.subset hn, hnr, hkn, hlt⟩

/-- The tokens that `fifo` removes were born no later than those of any other node
    it could remove, and the tokens that `filo` removes no earlier, as long as no
    unlocked node of the tree was made by a split. -/
theorem births_ordered (now : Clock) (hnow : now.Monotonic) (strategy : EvictionStrategy) (o : Observed)
    (ho : ObservedRun now strategy o)
    (hcut : ∀ n ∈ o.recut, InTree o.history.cache n → (o.history.cache.nodes n).lockRef ≠ 0)
    (tie : TieBreak) (numTokens : Int) (p : RadixCache × NodeId)
    (hp : p ∈ o.history.cache.removals now tie numTokens) (y : NodeId) (hy : Removable p.1 y) (k k' : List Token)
    (hk : Holds p.1 p.2 k) (hk' : Holds p.1 y k') :
    (strategy = .fifo → o.births k ≤ o.births k') ∧ (strategy = .filo → o.births k' ≤ o.births k) := by
  obtain ⟨T, T₁, hw, hd, hrem, hfy, hle⟩ := ho.removal hp hy
  have hbirth : ∀ n k, Frontier p.1 T₁ n → Holds p.1 n k →
      o.births k = (o.history.cache.nodes n).creationTime.op := by
    intro n k hn hk
    refine hd.births n k (hrem.holds hw.rep hk) fun hc => ?_
    have hlock : (o.history.cache.nodes n).lockRef = 0 := (hrem.stamps n).1.symm.trans hn.2.2
    exact hcut n hc (hw.rep.inTree_iff.mpr (hrem.subset hn.1)) hlock
  rw [hbirth _ k hrem.frontier hk, hbirth y k' hfy hk']
  refine ⟨fun hs => ?_, fun hs => ?_⟩
  · rw [hs] at hle
    exact hnow.op_le (Prod.Lex.monotone_fst _ _ hle)
  · rw [hs] at hle
    have := Prod.Lex.monotone_fst _ _ hle
    exact hnow.op_le (neg_le_neg_iff.mp this)

/-- With the nodes that the splits of `sharedCalls` made locked, `fifo` removes
    `[1, 2, 3, 4]` before `[1, 2, 5]`. -/
theorem births_ordered_shared : ∃ (o : Observed) (p : RadixCache × NodeId), ObservedRun (fun r => r.op) .fifo o ∧
    p ∈ o.history.cache.removals (fun r => r.op) (fun _ => 0) 2 ∧ Removable p.1 3 ∧
    o.births [1, 2, 3, 4] ≤ o.births [1, 2, 5] := by
  obtain ⟨o, ho, hp⟩ := ObservedRun.of_run (fun r => r.op) .fifo (sharedCalls.take 4) (P := fun o : Observed =>
    (o.recut.all fun n => decide ((o.history.cache.nodes n).lockRef ≠ 0)) = true ∧
    ((o.history.cache.removals (fun r => r.op) (fun _ => 0) 2).head?.any fun p => p.1.removableCheck 3 &&
      decide (p.1.spell 9 p.2 = some [(1, 11), (2, 12), (3, 13), (4, 14)] ∧ (p.1.nodes p.2).key ≠ [] ∧
        p.1.spell 9 3 = some [(1, 11), (2, 12), (5, 15)] ∧ (p.1.nodes 3).key ≠ [])) = true) (by decide +kernel)
  obtain ⟨hcut, hp⟩ := hp
  obtain ⟨p, hmem, hp⟩ := (Option.any_eq_true _ _).mp hp
  obtain ⟨hy, hp⟩ := Bool.and_eq_true_iff.mp hp
  obtain ⟨hx, hxk, hy', hyk⟩ := of_decide_eq_true hp
  have hmem := List.mem_of_head? hmem
  have hy := removable_of_check hy
  refine ⟨o, p, ho, hmem, hy,
    (births_ordered _ Clock.op_monotonic .fifo o ho (fun n hn _ => ?_) _ _ p hmem 3 hy _ _
    (holds_of_spell hx hxk) (holds_of_spell hy' hyk)).1 rfl⟩
  exact of_decide_eq_true (List.all_eq_true.mp hcut n hn)

/-- A lookup of `[1, 2]` splits the node of `[1, 2, 3]`. Once `3` is evicted, `fifo`
    removes the younger `[4]` before the prefix. -/
theorem younger_evicted_first : ∃ (o : Observed) (p : RadixCache × NodeId) (y : NodeId) (k k' : List Token),
    ObservedRun (fun r => r.op) .fifo o ∧ p ∈ o.history.cache.removals (fun r => r.op) (fun _ => 0) 2 ∧
    Removable p.1 y ∧ Holds p.1 p.2 k ∧ Holds p.1 y k' ∧ ¬o.births k ≤ o.births k' := by
  obtain ⟨o, ho, hp⟩ := ObservedRun.of_run (fun r => r.op) .fifo
    [.insert [1, 2, 3] (some [11, 12, 13]) 0, .insert [4] (some [14]) 0, .matchPrefix [1, 2]]
    (P := fun o : Observed => o.births [1, 2] < o.births [4] ∧
    ((o.history.cache.removals (fun r => r.op) (fun _ => 0) 2).getLast?.any fun p => p.1.removableCheck 3 &&
      decide (p.1.spell 9 p.2 = some [(4, 14)] ∧ (p.1.nodes p.2).key ≠ [] ∧
        p.1.spell 9 3 = some [(1, 11), (2, 12)] ∧ (p.1.nodes 3).key ≠ [])) = true) (by decide +kernel)
  obtain ⟨hlt, hp⟩ := hp
  obtain ⟨p, hmem, hp⟩ := (Option.any_eq_true _ _).mp hp
  obtain ⟨hy, hp⟩ := Bool.and_eq_true_iff.mp hp
  obtain ⟨hx, hxk, hy', hyk⟩ := of_decide_eq_true hp
  exact ⟨o, p, 3, [4], [1, 2], ho, List.mem_of_getLast? hmem, removable_of_check hy, holds_of_spell hx hxk,
    holds_of_spell hy' hyk, Nat.not_le_of_lt hlt⟩

/-- No other node that could be removed has strictly fewer hits than the one that
    `lfu` removes, as long as the unlocked nodes with fewer hits were used less
    recently. -/
theorem hits_ordered (now : Clock) (hnow : now.Monotonic) (o : Observed) (ho : ObservedRun now .lfu o)
    (hrecent : ∀ x y q q', Spells o.history.cache x q → Spells o.history.cache y q' →
      (o.history.cache.nodes x).lockRef = 0 → (o.history.cache.nodes y).lockRef = 0 →
      o.hits (q'.map Prod.fst) < o.hits (q.map Prod.fst) →
      (o.history.cache.nodes y).lastAccessTime.op < (o.history.cache.nodes x).lastAccessTime.op)
    (tie : TieBreak) (numTokens : Int) (p : RadixCache × NodeId)
    (hp : p ∈ o.history.cache.removals now tie numTokens) (y : NodeId) (hy : Removable p.1 y)
    (q q' : List (Token × Slot)) (hq : Spells p.1 p.2 q) (hq' : Spells p.1 y q') :
    ¬o.hits (q'.map Prod.fst) < o.hits (q.map Prod.fst) := by
  obtain ⟨T, T₁, hw, hd, hrem, hfy, hle⟩ := ho.removal hp hy
  intro hlt
  have hspell : ∀ {n r}, Frontier p.1 T₁ n → Spells p.1 n r → Spells o.history.cache n r := by
    intro n r hn hr
    rw [(hrem.rep.spells_iff.mp hr).2, hrem.path]
    exact hw.rep.spells_iff.mpr ⟨hrem.subset hn.1, rfl⟩
  have hlock : ∀ {n}, Frontier p.1 T₁ n → (o.history.cache.nodes n).lockRef = 0 :=
    fun hn => (hrem.stamps _).1.symm.trans hn.2.2
  have hold := hrecent _ y q q' (hspell hrem.frontier hq) (hspell hfy hq') (hlock hrem.frontier) (hlock hfy) hlt
  -- both counts are zero, so the last access decides
  have hx0 := hd.unhit _ (hrem.subset hrem.frontier.1)
  have hy0 := hd.unhit _ (hrem.subset hfy.1)
  simp only [EvictionStrategy.getPriority, hx0, hy0, Prod.Lex.toLex_le_toLex, lt_irrefl, true_and,
    false_or] at hle
  have := hnow.op_le hle
  omega

/-- Of `[1]`, never looked up, and `[2]`, looked up once and later, `lfu` removes `[1]`. -/
theorem hits_ordered_pair : ∃ (o : Observed) (p : RadixCache × NodeId), ObservedRun (fun r => r.op) .lfu o ∧
    p ∈ o.history.cache.removals (fun r => r.op) (fun _ => 0) 1 ∧ Removable p.1 2 ∧ ¬o.hits [2] < o.hits [1] := by
  obtain ⟨o, ho, hp⟩ := ObservedRun.of_run (fun r => r.op) .lfu
    [.insert [1] (some [11]) 0, .insert [2] (some [12]) 0, .matchPrefix [2]] (P := fun o : Observed =>
    (o.history.cache.closedUnder [0, 1, 2] = true ∧ (o.history.cache.nodes 0).lockRef ≠ 0 ∧
      o.history.cache.spell 9 1 = some [(1, 11)] ∧ o.history.cache.spell 9 2 = some [(2, 12)]) ∧
    (o.hits [1] ≤ o.hits [2] ∧
      (o.history.cache.nodes 1).lastAccessTime.op < (o.history.cache.nodes 2).lastAccessTime.op) ∧
    ((o.history.cache.removals (fun r => r.op) (fun _ => 0) 1).head?.any fun p => p.1.removableCheck 2 &&
      decide (p.1.spell 9 p.2 = some [(1, 11)] ∧ p.1.spell 9 2 = some [(2, 12)])) = true) (by decide +kernel)
  obtain ⟨⟨hclosed, hroot, h1, h2⟩, ⟨hle, hlt⟩, hp⟩ := hp
  obtain ⟨p, hmem, hp⟩ := (Option.any_eq_true _ _).mp hp
  obtain ⟨hy, hp⟩ := Bool.and_eq_true_iff.mp hp
  obtain ⟨hx, hy'⟩ := of_decide_eq_true hp
  have hmem := List.mem_of_head? hmem
  have hy := removable_of_check hy
  obtain ⟨_, T, hw, _⟩ := ho.dated
  -- an unlocked node is `1` or `2`, and what it spells is known
  have hnode : ∀ n q, Spells o.history.cache n q → (o.history.cache.nodes n).lockRef = 0 →
      (n = 1 ∧ q = [(1, 11)]) ∨ (n = 2 ∧ q = [(2, 12)]) := by
    intro n q hs h0
    have hq := hw.rep.spells_iff.mp hs
    have hn := (hw.rep.inTree_iff.mpr hq.1).mem_of_closedUnder hclosed
    simp only [List.mem_cons, List.not_mem_nil, or_false] at hn
    rcases hn with rfl | rfl | rfl
    · exact absurd h0 hroot
    · exact Or.inl ⟨rfl, hq.2.trans (hw.rep.spells_iff.mp (spells_of_spell 9 1 _ h1)).2.symm⟩
    · exact Or.inr ⟨rfl, hq.2.trans (hw.rep.spells_iff.mp (spells_of_spell 9 2 _ h2)).2.symm⟩
  refine ⟨o, p, ho, hmem, hy, hits_ordered _ Clock.op_monotonic o ho (fun x y q q' hsx hsy hx0 hy0 hhits => ?_)
    _ _ p hmem 2 hy _ _ (spells_of_spell 9 _ _ hx) (spells_of_spell 9 _ _ hy')⟩
  rcases hnode x q hsx hx0 with ⟨rfl, rfl⟩ | ⟨rfl, rfl⟩ <;> rcases hnode y q' hsy hy0 with ⟨rfl, rfl⟩ | ⟨rfl, rfl⟩
  · exact absurd hhits (lt_irrefl _)
  · exact absurd hhits (not_lt_of_ge hle)
  · exact hlt
  · exact absurd hhits (lt_irrefl _)

/-- `[1]` was looked up twice, `[2]` never, but later: `lfu` removes `[1]`. -/
theorem frequent_evicted_first : ∃ (o : Observed) (p : RadixCache × NodeId) (y : NodeId)
    (q q' : List (Token × Slot)),
    ObservedRun (fun r => r.op) .lfu o ∧ p ∈ o.history.cache.removals (fun r => r.op) (fun _ => 0) 1 ∧
    Removable p.1 y ∧ y ≠ p.2 ∧ Spells p.1 p.2 q ∧ Spells p.1 y q' ∧
    o.hits (q'.map Prod.fst) < o.hits (q.map Prod.fst) := by
  obtain ⟨o, ho, hp⟩ := ObservedRun.of_run (fun r => r.op) .lfu
    [.insert [1] (some [11]) 0, .matchPrefix [1], .matchPrefix [1], .insert [2] (some [12]) 0]
    (P := fun o : Observed => o.hits [2] < o.hits [1] ∧
    ((o.history.cache.removals (fun r => r.op) (fun _ => 0) 1).head?.any fun p => p.1.removableCheck 2 &&
      decide (2 ≠ p.2 ∧ p.1.spell 9 p.2 = some [(1, 11)] ∧ p.1.spell 9 2 = some [(2, 12)])) = true)
    (by decide +kernel)
  obtain ⟨hlt, hp⟩ := hp
  obtain ⟨p, hmem, hp⟩ := (Option.any_eq_true _ _).mp hp
  obtain ⟨hy, hp⟩ := Bool.and_eq_true_iff.mp hp
  obtain ⟨hne, hx, hy'⟩ := of_decide_eq_true hp
  exact ⟨o, p, 2, _, _, ho, List.mem_of_head? hmem, removable_of_check hy, hne, spells_of_spell 9 _ _ hx,
    spells_of_spell 9 _ _ hy', hlt⟩

end RadixCache

end SglangMlx
