import SglangMlx.EvictHistory
import SglangMlx.Lib.KeyTree

/- The order of insertions does not matter. If the pool indices are a function of the token
   prefix, any insertions leave the tree of the inserted keys, and the priority of a node is
   the largest among the keys through it (`Built`). Both are about the set of what was
   inserted, so caches with the same insertions in another order are the same up to
   the names of the nodes (`Built.sameTree`). -/
namespace SglangMlx

namespace RadixCache

open PrefixTree (Meet annotate annotate_letters)

/-- `value[i] = f(key[:i + 1])`. -/
def poolIndices (f : List Token → Slot) (key : List Token) : List Slot := PrefixTree.labels f key

/-- Insert keys with their priorities one after the other. -/
def insertAll (f : List Token → Slot) : RadixCache → List (List Token × Int) → Option RadixCache
  | c, [] => some c
  | c, (key, priority) :: entries => do
    let (c, _) ← c.insert key (some (poolIndices f key)) priority
    insertAll f c entries

/-- The priorities of the keys that extend or equal `path`. -/
def prioritiesOn (entries : Set (List Token × Int)) (path : List Token) : Set Int :=
  {priority | ∃ key, (key, priority) ∈ entries ∧ path <+: key}

/-- The cache after the insertions `entries`. -/
structure Built (f : List Token → Slot) (entries : Set (List Token × Int)) (c : RadixCache) (T : Tree) :
    Prop where
  wf : Wf c T []
  keys : T.OfKeys f (Set.image Prod.fst entries)
  priority : ∀ n ∈ T.nodes, n ≠ T.root → IsGreatest (prioritiesOn entries (T.letters n)) (c.nodes n).priority
  rootPriority : IsGreatest (insert (-maxsize) (prioritiesOn entries [])) (c.nodes T.root).priority
  hits : ∀ n ∈ T.nodes, (c.nodes n).hitCount = 0

section
variable {f : List Token → Slot} {entries : Set (List Token × Int)} {key path : List Token} {p : Int}

theorem prioritiesOn_insert (h : path <+: key) :
    prioritiesOn (insert (key, p) entries) path = insert p (prioritiesOn entries path) := by
  ext r
  constructor
  · rintro ⟨k, hk | hk, hle⟩
    · exact Or.inl (Prod.mk.inj hk).2
    · exact Or.inr ⟨k, hk, hle⟩
  · rintro (rfl | ⟨k, hk, hle⟩)
    · exact ⟨key, Or.inl rfl, h⟩
    · exact ⟨k, Or.inr hk, hle⟩

theorem prioritiesOn_insert_of_not (h : ¬path <+: key) :
    prioritiesOn (insert (key, p) entries) path = prioritiesOn entries path := by
  ext r
  constructor
  · rintro ⟨k, hk | hk, hle⟩
    · exact absurd ((Prod.mk.inj hk).1 ▸ hle) h
    · exact ⟨k, hk, hle⟩
  · rintro ⟨k, hk, hle⟩
    exact ⟨k, Or.inr hk, hle⟩

theorem prioritiesOn_congr {path' : List Token} (h : ∀ k ∈ Set.image Prod.fst entries, path <+: k ↔ path' <+: k) :
    prioritiesOn entries path = prioritiesOn entries path' := by
  ext r
  constructor
  · rintro ⟨k, hk, hle⟩
    exact ⟨k, hk, (h k ⟨_, hk, rfl⟩).mp hle⟩
  · rintro ⟨k, hk, hle⟩
    exact ⟨k, hk, (h k ⟨_, hk, rfl⟩).mpr hle⟩

/-! ## One insertion -/

section
variable {c c₁ : RadixCache} {T T₁ : Tree} {last : NodeId}

/-- A walk adds at most the node that it returns. -/
theorem Raised.nodes (h : Raised p key T.root c T c₁ last) (hc : Cuts c T c₁ T₁) {n : NodeId} (hn : n ∈ T₁.nodes)
    (hno : n ∉ T.nodes) : n = last ∧ last ∉ T.nodes := by
  obtain ⟨hlo, hhi, _⟩ := hc.new n hn hno
  obtain ⟨_, hcounter⟩ | ⟨hlast, hcounter, _⟩ := h.added
  · rw [hcounter] at hhi
    exact absurd hlo (Nat.not_le_of_lt hhi)
  · rw [hcounter] at hhi
    have e : n = last := (Nat.le_antisymm (Nat.le_of_lt_succ hhi) hlo).trans hlast.symm
    exact ⟨e, e ▸ hno⟩

/-- The node where a key leaves the tree inside an edge lies on the same keys as the end of
    the edge. -/
theorem OfKeys.prefix_iff {keys : Set (List Token)} (h : T.OfKeys f keys) {q : List (Token × Slot)} (hq : T.Pos q)
    {x : NodeId} (hx : x ∈ T.nodes) (hr : x ≠ T.root) (hlt : (T.path (T.parent x)).length < q.length)
    (hqx : q <+: T.path x) {k : List Token} (hk : k ∈ keys) : q.map Prod.fst <+: k ↔ T.letters x <+: k := by
  constructor
  · intro hle
    have hne : k ≠ [] := by
      rintro rfl
      exact hq.1 (List.map_eq_nil_iff.mp (List.prefix_nil.mp hle))
    obtain ⟨m, hm, rfl⟩ := h.node_of_key hk hne
    exact (PrefixTree.holder_le hx hr hlt hqx hm hle).map _
  · exact (hqx.map _).trans

theorem Built.walk_priority (h : Built f entries c T) (hw : Cuts c T c₁ T₁) (href : Refined c T c₁ T₁)
    (hra : Raised p key T.root c T c₁ last) (hloc : Located c₁ T₁ key last) (hlong : T.Longest key (T₁.path last))
    {n : NodeId} (hn : n ∈ T₁.nodes) (hr : n ≠ T₁.root) :
    IsGreatest (prioritiesOn (insert (key, p) entries) (T₁.letters n)) (c₁.nodes n).priority := by
  by_cases hold : n ∈ T.nodes
  · have hbase : T.path T.root <+: T.path n := by
      rw [T.path_root]
      exact List.nil_prefix
    have hgreat := h.priority n hold (href.root ▸ hr)
    have hletters : T₁.letters n = T.letters n := by rw [PrefixTree.letters, PrefixTree.letters, href.path n hold]
    rw [hletters]
    by_cases hon : T.letters n <+: key
    · rw [hra.on n hold hbase hon, prioritiesOn_insert hon, max_comm]
      exact hgreat.insert p
    · rw [hra.off n hold fun hb => hon hb.2, prioritiesOn_insert_of_not hon]
      exact hgreat
  · -- the new node has the priority of the edge that it cuts
    obtain ⟨rfl, hlast⟩ := hra.nodes hw hn hold
    obtain ⟨hmem, _⟩ | ⟨_, _, x, hx, hleave, hprio⟩ := hra.added
    · exact absurd hmem hold
    have hq : T.Pos (T₁.path n) := by
      refine hlong.pos.resolve_left fun e => hr ?_
      exact PrefixTree.path_eq_nil hn e
    obtain ⟨y, hy, hyr, hlt, hqy⟩ := hq.holder
    have hyleave : ¬T.letters y <+: key := by
      intro hle
      have hyne : T.path y ≠ [] := by
        intro e
        exact hyr (PrefixTree.path_eq_nil hy e)
      have hlen := hlong.longest (T.path y) ⟨hyne, y, hy, List.prefix_refl _⟩ hle
      have he : T₁.path n = T₁.path y := by
        rw [href.path y hy]
        exact hqy.eq_of_length_le hlen
      exact hold (PrefixTree.path_inj hn (href.subset hy) he ▸ hy)
    obtain rfl : x = y := hx.unique hleave (PrefixTree.enters_of_holder hy hyr hlt hqy hloc.letters) hyleave
    have hsame : prioritiesOn entries (T₁.letters n) = prioritiesOn entries (T.letters x) :=
      prioritiesOn_congr fun k hk => OfKeys.prefix_iff h.keys hq hy hyr hlt hqy hk
    rw [hprio, prioritiesOn_insert hloc.letters, hsame, max_comm]
    exact (h.priority x hy hyr).insert p

theorem Built.walk_root (h : Built f entries c T) (hra : Raised p key T.root c T c₁ last) :
    IsGreatest (insert (-maxsize) (prioritiesOn (insert (key, p) entries) [])) (c₁.nodes T.root).priority := by
  have hnil : T.letters T.root <+: key := by
    rw [PrefixTree.letters, T.path_root]
    exact List.nil_prefix
  rw [hra.on T.root T.root_mem (List.prefix_refl _) hnil, prioritiesOn_insert List.nil_prefix,
    Set.insert_comm, max_comm]
  exact h.rootPriority.insert p

theorem OfKeys.labels_of_pos {keys : Set (List Token)} (h : T.OfKeys f keys) {q : List (Token × Slot)}
    (hq : q = [] ∨ T.Pos q) : q = annotate f (q.map Prod.fst) := by
  obtain rfl | ⟨_, n, hn, hle⟩ := hq
  · rfl
  · refine PrefixTree.annotate_of_prefix f hle ?_
    exact h.labels n hn

theorem Located.letters_eq (hloc : Located c₁ T₁ key last) (hdrop : key.drop (T₁.path last).length = []) :
    T₁.letters last = key := by
  apply hloc.letters.eq_of_length_le
  rw [PrefixTree.letters_length]
  exact List.drop_eq_nil_iff.mp hdrop

/-- No key before goes beyond a key that is not stored. -/
theorem Built.leaf_priority (h : Built f entries c T) {q : List (Token × Slot)} (hlong : T.Longest key q)
    (hlt : q.length < key.length) : IsGreatest (prioritiesOn (Insert.insert (key, p) entries) key) p := by
  refine ⟨⟨key, Or.inl rfl, List.prefix_refl _⟩, ?_⟩
  rintro r ⟨k, hk | hk, hle⟩
  · exact (Prod.mk.inj hk).2.le
  · have hne : key ≠ [] := List.ne_nil_of_length_pos (Nat.zero_lt_of_lt hlt)
    obtain ⟨s, hs, rfl⟩ := h.keys.pos_of_key ⟨_, hk, rfl⟩ hle hne
    have := hlong.longest s hs (List.prefix_refl _)
    rw [List.length_map] at hlt
    omega

/-- What `Built` asks for after the walk of one insertion, where only the leaf of the key
    may be missing. -/
structure Walked (f : List Token → Slot) (entries : Set (List Token × Int)) (key : List Token) (p : Int)
    (T : Tree) (c₁ : RadixCache) (T₁ : Tree) (last : NodeId) : Prop where
  wf : Wf c₁ T₁ []
  located : Located c₁ T₁ key last
  longest : T.Longest key (T₁.path last)
  stamped : (c₁.nodes last).lastAccessTime.op = c₁.clock.op
  raised : p ≤ (c₁.nodes last).priority
  old : ∀ n ∈ T.nodes, n ∈ T₁.nodes ∧ T₁.letters n = T.letters n
  only : ∀ n ∈ T₁.nodes, n ∈ T.nodes ∨ T₁.letters n = (T₁.path last).map Prod.fst
  labels : ∀ n ∈ T₁.nodes, T₁.path n = annotate f (T₁.letters n)
  priority : ∀ n ∈ T₁.nodes, n ≠ T₁.root →
    IsGreatest (prioritiesOn (insert (key, p) entries) (T₁.letters n)) (c₁.nodes n).priority
  rootPriority :
    IsGreatest (insert (-maxsize) (prioritiesOn (insert (key, p) entries) [])) (c₁.nodes T₁.root).priority
  hits : ∀ n ∈ T₁.nodes, (c₁.nodes n).hitCount = 0

theorem Built.walked (h : Built f entries c T) {op : Nat} (hop : c.clock.op + 1 = op)
    (hw : Walk op (c.beginOp, T) (c₁, T₁)) (hloc : Located c₁ T₁ key last)
    (hra : Raised p key T.root c.beginOp T c₁ last) (hstamp : (c₁.nodes last).lastAccessTime.op = op)
    (hprio : p ≤ (c₁.nodes last).priority) : Walked f entries key p T c₁ T₁ last := by
  have hb : Built f entries c.beginOp T := ⟨h.wf.beginOp, h.keys, h.priority, h.rootPriority, h.hits⟩
  have hwf := h.wf.beginOp.walk hop hw
  have href : Refined c.beginOp T c₁ T₁ := hw.refined
  have hcuts : Cuts c.beginOp T c₁ T₁ := hw.cuts
  have hlong : T.Longest key (T₁.path last) := (hloc.isLongest hwf.rep).congr fun r => (href.pos r).symm
  have hclock : c₁.clock.op = op := href.op.trans hop
  refine ⟨hwf, hloc, hlong, hstamp.trans hclock.symm, hprio, fun n hn => ⟨href.subset hn, ?_⟩, fun n hn => ?_,
    fun n hn => ?_, fun n hn hr => hb.walk_priority hcuts href hra hloc hlong hn hr,
    href.root ▸ hb.walk_root hra, fun n hn => ?_⟩
  · rw [PrefixTree.letters, PrefixTree.letters, href.path n hn]
  · by_cases hold : n ∈ T.nodes
    · exact Or.inl hold
    · rw [(hra.nodes hcuts hn hold).1]
      exact Or.inr rfl
  · apply OfKeys.labels_of_pos h.keys
    by_cases hnil : T₁.path n = []
    · exact Or.inl hnil
    · exact Or.inr ((href.pos _).mp ⟨hnil, n, hn, List.prefix_refl _⟩)
  · by_cases hold : n ∈ T.nodes
    · exact (hcuts.old n hold).1.2.trans (h.hits n hold)
    · exact (hcuts.new n hn hold).2.2.2

section
variable (hb : Built f entries c T) (h : Walked f entries key p T c₁ T₁ last)
include hb h

theorem Walked.done (hdrop : key.drop (T₁.path last).length = []) :
    Built f (insert (key, p) entries) c₁ T₁ := by
  refine ⟨h.wf, ?_, h.priority, h.rootPriority, h.hits⟩
  rw [Set.image_insert_eq]
  exact hb.keys.insert h.longest h.old ⟨last, h.located.mem, rfl⟩
    ⟨last, h.located.mem, h.located.letters_eq hdrop⟩ (fun n hn => (h.only n hn).imp_right Or.inl) h.labels

theorem Walked.leaf {t : Token} {rest : List Token} (hdrop : key.drop (T₁.path last).length = t :: rest) :
    ∃ T', Built f (insert (key, p) entries) (c₁.insertLeaf last t (t :: rest)
      ((poolIndices f key).drop (T₁.path last).length) p) T' := by
  have hloc := h.located
  have hlt : (T₁.path last).length < key.length := by
    by_contra hge
    rw [List.drop_eq_nil_of_le (Nat.le_of_not_lt hge)] at hdrop
    cases hdrop
  have hvlen : ((poolIndices f key).drop (T₁.path last).length).length = (t :: rest).length := by
    rw [← hdrop, List.length_drop, List.length_drop, poolIndices, PrefixTree.labels_length]
  obtain ⟨hzip, hfree, hw'⟩ := h.wf.insertLeaf hloc h.stamped h.raised hdrop hvlen
  obtain ⟨hsame, _, _, hpnew⟩ :=
    insertLeaf_stamps t (t :: rest) ((poolIndices f key).drop (T₁.path last).length) p h.wf.rep hloc.mem
  obtain ⟨_, hnew, _⟩ := insertLeaf_spec t (t :: rest) ((poolIndices f key).drop (T₁.path last).length) p
    (fun e : last = c₁.counter => h.wf.rep.not_mem_counter (e ▸ hloc.mem))
  have hend := @Located.graft_letters c₁ T₁ key last c₁.counter hloc t rest hdrop _ hvlen
    h.wf.rep.not_mem_counter hzip hfree
  -- the path of the leaf
  have hfull := PrefixTree.annotate_append_rest f (OfKeys.labels_of_pos hb.keys h.longest.pos) h.longest.letters
  rw [hdrop] at hfull
  have hold : ∀ n ∈ T₁.nodes,
      (T₁.graft c₁.counter last ((t :: rest).zip ((poolIndices f key).drop (T₁.path last).length))
        h.wf.rep.not_mem_counter hloc.mem hzip hfree).letters n = T₁.letters n := fun n hn => by
    rw [PrefixTree.letters, (PrefixTree.graft_old hn).2.2, PrefixTree.letters]
  refine ⟨_, hw', ?_, fun n hn hr => ?_, ?_, fun n hn => ?_⟩
  · rw [Set.image_insert_eq]
    refine hb.keys.insert h.longest (fun n hn => ?_)
      ⟨last, Finset.mem_insert_of_mem hloc.mem, hold last hloc.mem⟩ ⟨c₁.counter, Finset.mem_insert_self _ _, hend⟩
      (fun n hn => ?_) fun n hn => ?_
    · obtain ⟨hmem, hletters⟩ := h.old n hn
      exact ⟨Finset.mem_insert_of_mem hmem, (hold n hmem).trans hletters⟩
    · obtain e | hn := Finset.mem_insert.mp hn
      · exact Or.inr (Or.inr (e ▸ hend))
      · rw [hold n hn]
        exact (h.only n hn).imp_right Or.inl
    · obtain e | hn := Finset.mem_insert.mp hn
      · rw [e, hend, PrefixTree.graft_new.2.2]
        exact hfull
      · rw [hold n hn, (PrefixTree.graft_old hn).2.2]
        exact h.labels n hn
  · obtain e | hn := Finset.mem_insert.mp hn
    · rw [e, hend, hpnew]
      exact hb.leaf_priority h.longest hlt
    · rw [hold n hn, (hsame n hn).2.2.2.2]
      exact h.priority n hn hr
  · rw [PrefixTree.graft_root, (hsame _ T₁.root_mem).2.2.2.2]
    exact h.rootPriority
  · obtain e | hn := Finset.mem_insert.mp hn
    · rw [e, hnew]
    · rw [(hsame n hn).2.2.2.1]
      exact h.hits n hn

end

theorem Built.insert (h : Built f entries c T) (key : List Token) (p : Int) :
    ∃ c' T' r, c.insert key (some (poolIndices f key)) p = some (c', r) ∧
      Built f (insert (key, p) entries) c' T' := by
  obtain ⟨c₁, T₁, last, hw, hloc, _, hra, hop, hprio, heq⟩ := insert_spec h.wf key (some (poolIndices f key)) p
  have hwalked := h.walked rfl hw hloc hra hop hprio
  cases hdrop : key.drop (T₁.path last).length with
  | nil =>
    rw [hdrop] at heq
    exact ⟨c₁, T₁, _, heq, hwalked.done h hdrop⟩
  | cons t rest =>
    rw [hdrop] at heq
    obtain ⟨T', hbuilt⟩ := hwalked.leaf h hdrop
    exact ⟨_, T', _, heq, hbuilt⟩

/-! ## Any number of insertions -/

theorem Built.sizes (h : Built f entries c T) :
    c.evictableSize = (∑ n ∈ T.nodes, (T.edge n).length : Nat) ∧
      c.totalSize = some (∑ n ∈ T.nodes, (T.edge n).length) := by
  refine ⟨?_, h.wf.rep.totalSize⟩
  rw [evictableSize, h.wf.book.evictable, sizeWhere, Nat.cast_sum]
  apply Finset.sum_congr rfl
  intro n hn
  by_cases hr : n = T.root
  · rw [hr, T.edge_root]
    simp
  · rw [if_pos]
    rw [h.wf.book.lock n hn hr]
    rfl

end

theorem built_init (strategy : EvictionStrategy) : Built f ∅ (RadixCache.init false strategy) rootTree := by
  have hroot : ((RadixCache.init false strategy).nodes 0).priority = -maxsize ∧
      ((RadixCache.init false strategy).nodes 0).hitCount = 0 := by
    simp [RadixCache.init, reset, newTreeNode, monotonic]
  have hn : ∀ n ∈ rootTree.nodes, n = 0 := fun n hn => Finset.mem_singleton.mp hn
  have hnone : prioritiesOn ∅ [] = ∅ := by
    rw [Set.eq_empty_iff_forall_notMem]
    rintro _ ⟨_, hk, _⟩
    exact hk
  refine ⟨wf_init strategy, ⟨fun p hp => iff_of_false ?_ ?_, fun _ _ => rfl⟩, fun n h hr => absurd (hn n h) hr,
    ?_, fun n h => ?_⟩
  · rintro ⟨n, _, hl⟩
    exact hp hl.symm
  · rintro ⟨a, ha, _⟩
    rw [Set.image_empty] at ha
    exact ha
  · show IsGreatest _ ((RadixCache.init false strategy).nodes 0).priority
    rw [hroot.1, hnone]
    simp
  · rw [hn n h]
    exact hroot.2

theorem Built.insertAll (l : List (List Token × Int)) : ∀ {c : RadixCache} {T : Tree}
    {entries : Set (List Token × Int)},
    Built f entries c T → ∃ c' T', RadixCache.insertAll f c l = some c' ∧
      Built f (entries ∪ {e | e ∈ l}) c' T' := by
  induction l with
  | nil =>
    intro c T entries h
    refine ⟨c, T, rfl, ?_⟩
    simpa using h
  | cons e l ih =>
    intro c T entries h
    obtain ⟨key, p⟩ := e
    obtain ⟨c₁, T₁, r, heq, h₁⟩ := h.insert key p
    obtain ⟨c', T', heq', h'⟩ := ih h₁
    have hset : Insert.insert (key, p) entries ∪ {e | e ∈ l} = entries ∪ {e | e ∈ (key, p) :: l} := by
      ext e
      simp only [Set.mem_union, Set.mem_insert_iff, Set.mem_ofPred_eq, List.mem_cons]
      tauto
    rw [hset] at h'
    refine ⟨c', T', ?_, h'⟩
    rw [RadixCache.insertAll, heq]
    exact heq'

/-! ## The same tree -/

/-- `φ` renames the nodes of `c` to those of `c'`; all else but the times is the same, and
    children are compared without their order. -/
structure SameTree (c c' : RadixCache) (φ : NodeId → NodeId) : Prop where
  bij : Set.BijOn φ {n | InTree c n} {n | InTree c' n}
  root : φ c.rootNode = c'.rootNode
  parent : ∀ n, InTree c n → n ≠ c.rootNode → (c'.nodes (φ n)).parent = (c.nodes n).parent.map φ
  children : ∀ n t, InTree c n → (c'.nodes (φ n)).children.lookup t = ((c.nodes n).children.lookup t).map φ
  key : ∀ n, InTree c n → (c'.nodes (φ n)).key = (c.nodes n).key
  value : ∀ n, InTree c n → (c'.nodes (φ n)).value = (c.nodes n).value
  priority : ∀ n, InTree c n → (c'.nodes (φ n)).priority = (c.nodes n).priority
  lockRef : ∀ n, InTree c n → (c'.nodes (φ n)).lockRef = (c.nodes n).lockRef
  hitCount : ∀ n, InTree c n → (c'.nodes (φ n)).hitCount = (c.nodes n).hitCount

theorem Built.sameTree {c c' : RadixCache} {T T' : Tree} (h : Built f entries c T) (h' : Built f entries c' T') :
    ∃ φ, PrefixTree.Iso T T' φ ∧ SameTree c c' φ := by
  obtain ⟨φ, hiso⟩ := h.keys.iso h'.keys
  have hin : {n | InTree c n} = (T.nodes : Set NodeId) := Set.ext fun n => h.wf.rep.inTree_iff
  have hin' : {n | InTree c' n} = (T'.nodes : Set NodeId) := Set.ext fun n => h'.wf.rep.inTree_iff
  have hmem : ∀ n, InTree c n → n ∈ T.nodes := fun n hn => h.wf.rep.inTree_iff.mp hn
  have hletters : ∀ n ∈ T.nodes, T'.letters (φ n) = T.letters n := fun n hn => by
    rw [PrefixTree.letters, PrefixTree.letters, hiso.path n hn]
  refine ⟨φ, hiso, ⟨?_, ?_, fun n hn hr => ?_, fun n t hn => ?_, fun n hn => ?_, fun n hn => ?_, fun n hn => ?_,
    fun n hn => ?_, fun n hn => ?_⟩⟩
  · rw [hin, hin']
    exact hiso.bij
  · rw [h.wf.rep.root, h'.wf.rep.root]
    exact hiso.root
  · have hn := hmem n hn
    rw [h.wf.rep.root] at hr
    rw [h.wf.rep.parent n hn hr, h'.wf.rep.parent _ (hiso.mem hn) ((hiso.ne_root hn).mpr hr), hiso.parent hn hr]
    rfl
  · have hn := hmem n hn
    apply Option.ext
    intro m
    rw [h'.wf.rep.children _ (hiso.mem hn), Option.map_eq_some_iff]
    constructor
    · intro hf
      obtain ⟨k, hk, rfl⟩ := hiso.bij.surjOn hf.1
      exact ⟨k, (h.wf.rep.children n hn t k).mpr ((hiso.filed hn hk).mp hf), rfl⟩
    · rintro ⟨k, hk, rfl⟩
      have hf := (h.wf.rep.children n hn t k).mp hk
      exact (hiso.filed hn hf.1).mpr hf
  · have hn := hmem n hn
    rw [h.wf.rep.key n hn, h'.wf.rep.key _ (hiso.mem hn), hiso.edge hn]
  · have hn := hmem n hn
    rw [h.wf.rep.value n hn, h'.wf.rep.value _ (hiso.mem hn), hiso.edge hn]
  · have hn := hmem n hn
    by_cases hr : n = T.root
    · rw [hr, hiso.root]
      exact h'.rootPriority.unique h.rootPriority
    · have hgreat := h'.priority _ (hiso.mem hn) ((hiso.ne_root hn).mpr hr)
      rw [hletters n hn] at hgreat
      exact hgreat.unique (h.priority n hn hr)
  · have hn := hmem n hn
    by_cases hr : n = T.root
    · rw [hr, hiso.root, h.wf.book.rootLock, h'.wf.book.rootLock]
    · rw [h.wf.book.lock n hn hr, h'.wf.book.lock _ (hiso.mem hn) ((hiso.ne_root hn).mpr hr)]
      rfl
  · have hn := hmem n hn
    rw [h.hits n hn, h'.hits _ (hiso.mem hn)]

/-- The tree of the inserted keys: its nodes end at the keys and at the longest common
    prefixes of two of them. -/
structure KeyTree (f : List Token → Slot) (entries : List (List Token × Int)) (c : RadixCache) : Prop where
  ends : ∀ path, path ≠ [] → ((∃ n q, Spells c n q ∧ q.map Prod.fst = path) ↔ path ∈ entries.map Prod.fst ∨
    ∃ key ∈ entries.map Prod.fst, ∃ key' ∈ entries.map Prod.fst, Meet path key key')
  values : ∀ n q, Spells c n q → q.map Prod.snd = poolIndices f (q.map Prod.fst)
  priority : ∀ n q, Spells c n q → q ≠ [] →
    IsGreatest (prioritiesOn {e | e ∈ entries} (q.map Prod.fst)) (c.nodes n).priority

theorem Built.keyTree {c : RadixCache} {T : Tree} {l : List (List Token × Int)} (h : Built f {e | e ∈ l} c T) :
    KeyTree f l c := by
  have hkeys : ∀ key, key ∈ Set.image Prod.fst {e | e ∈ l} ↔ key ∈ l.map Prod.fst := fun key => by
    rw [Set.mem_image, List.mem_map]
    rfl
  refine ⟨fun path hne => ?_, fun n q hs => ?_, fun n q hs hne => ?_⟩
  · have hiff := h.keys.ends path hne
    simp only [hkeys] at hiff
    constructor
    · rintro ⟨n, q, hs, hq⟩
      obtain ⟨hn, rfl⟩ := h.wf.rep.spells_iff.mp hs
      exact Or.inr (hiff.mp ⟨n, hn, hq⟩)
    · intro hmeet
      obtain ⟨n, hn, hl⟩ := hiff.mpr (hmeet.elim (fun hk => ⟨path, hk, path, hk, PrefixTree.meet_self path⟩) id)
      exact ⟨n, T.path n, h.wf.rep.spells_iff.mpr ⟨hn, rfl⟩, hl⟩
  · obtain ⟨hn, rfl⟩ := h.wf.rep.spells_iff.mp hs
    rw [h.keys.labels n hn, annotate_letters]
    exact PrefixTree.annotate_labels f _
  · obtain ⟨hn, rfl⟩ := h.wf.rep.spells_iff.mp hs
    exact h.priority n hn fun e => hne (by rw [e, T.path_root])

/-- Insertions in any order give the same tree. -/
theorem insert_order_irrelevant (strategy : EvictionStrategy) (f : List Token → Slot)
    {entries entries' : List (List Token × Int)} (hperm : entries'.Perm entries) :
    ∃ c c' φ, insertAll f (RadixCache.init false strategy) entries = some c ∧
      insertAll f (RadixCache.init false strategy) entries' = some c' ∧ SameTree c c' φ ∧ KeyTree f entries c ∧
      ∃ size : Nat, c.evictableSize = size ∧ c'.evictableSize = size ∧ c.totalSize = some size ∧
        c'.totalSize = some size := by
  obtain ⟨c, T, heq, h⟩ := (built_init strategy (f := f)).insertAll entries
  obtain ⟨c', T', heq', h'⟩ := (built_init strategy (f := f)).insertAll entries'
  have hset : {e | e ∈ entries'} = {e | e ∈ entries} := Set.ext fun e => hperm.mem_iff
  rw [Set.empty_union] at h h'
  rw [hset] at h'
  obtain ⟨φ, hiso, hsame⟩ := h.sameTree h'
  obtain ⟨he, ht⟩ := h.sizes
  obtain ⟨he', ht'⟩ := h'.sizes
  rw [hiso.sum_edge] at he' ht'
  exact ⟨c, c', φ, heq, heq', hsame, h.keyTree, _, he, he', ht, ht'⟩

theorem insert_order_irrelevant_branch : ∃ c c' φ,
    insertAll List.length (RadixCache.init false .lru) [([1, 2, 3], 5), ([1, 2, 4], 7), ([1, 2], 0)] = some c ∧
      insertAll List.length (RadixCache.init false .lru) [([1, 2], 0), ([1, 2, 3], 5), ([1, 2, 4], 7)] = some c' ∧
      SameTree c c' φ ∧ KeyTree List.length [([1, 2, 3], 5), ([1, 2, 4], 7), ([1, 2], 0)] c ∧
      ∃ size : Nat, c.evictableSize = size ∧ c'.evictableSize = size ∧ c.totalSize = some size ∧
        c'.totalSize = some size :=
  insert_order_irrelevant .lru List.length (by decide)

end

end RadixCache

end SglangMlx
