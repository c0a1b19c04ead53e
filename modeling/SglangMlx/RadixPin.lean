import SglangMlx.RadixRun
import SglangMlx.Lib.PrefixMap

/- A lock pins its prefix. Once a client has matched a key and locked the node it
   got, the root path of that node stays in the tree, whatever splits, insertions,
   evictions and other locks happen, until the client unlocks it. The other
   clients' locks are the outstanding locks of the run; the pinned one is held
   beside them, so no `dec_lock_ref` of the run is its match. -/
namespace SglangMlx

namespace RadixCache

/-- Walking parent pointers from `n` reaches the root and spells `key`. -/
inductive Climbs (c : RadixCache) : NodeId → List Token → Prop
  | root : Climbs c c.rootNode []
  | up {n p : NodeId} {key : List Token} : n ≠ c.rootNode → (c.nodes n).parent = some p →
      Climbs c p key → Climbs c n (key ++ (c.nodes n).key)

/-- No slot is stored at two positions. -/
def SlotsDistinct (c : RadixCache) : Prop := ∀ key key' s, Maps c key s → Maps c key' s → key = key'

/-- A step between states whose stored slots are pairwise distinct. -/
def DistinctStep (now : Clock) (h h' : History) : Prop :=
  SlotsDistinct h.cache ∧ Step now h h' ∧ SlotsDistinct h'.cache

theorem Rep.climbs {c : RadixCache} {T : Tree} (h : Rep c T) {n : NodeId} (hn : n ∈ T.nodes) :
    Climbs c n (T.letters n) := by
  refine PrefixTree.climb (P := fun n => Climbs c n (T.letters n)) ?_ (fun m hm hr ih => ?_) n hn
  · rw [PrefixTree.letters, T.path_root, ← h.root]
    exact .root
  · have hl : T.letters m = T.letters (T.parent m) ++ (c.nodes m).key := by
      rw [PrefixTree.letters, T.path_eq m hm hr, List.map_append, h.key m hm]
      rfl
    rw [hl]
    exact .up (h.root ▸ hr) (h.parent m hm hr) ih

/-- `q` is the root path of `n`, and `n` is locked beside the other clients' locks. -/
def Pinned (h : History) (n : NodeId) (q : List (Token × Slot)) : Prop :=
  ∃ T : Tree, Wf h.cache T ([n] ++ h.locks) ∧ n ∈ T.nodes ∧ T.path n = q

theorem Pinned.step {now : Clock} {h h' : History} {n : NodeId} {q : List (Token × Slot)} (hp : Pinned h n q)
    (hs : Step now h h') : Pinned h' n q := by
  obtain ⟨T, hw, hn, hq⟩ := hp
  obtain ⟨T', hw', heff⟩ := hs.wf [n] hw
  have hn' := hw'.book.locks_mem n (by simp)
  exact ⟨T', hw', hn', (heff.path n hn hn').trans hq⟩

theorem Pinned.run {now : Clock} {h h' : History} {n : NodeId} {q : List (Token × Slot)} (hp : Pinned h n q)
    (hs : Relation.ReflTransGen (Step now) h h') : Pinned h' n q := by
  induction hs with
  | refl => exact hp
  | tail _ hst ih => exact ih.step hst

theorem Book.off_locked {c : RadixCache} {T : Tree} {locks : List NodeId} (h : Book c T locks) {x : NodeId}
    (hx : x ∈ T.nodes) (hx0 : (c.nodes x).lockRef = 0) {s : Slot} (hs : s ∈ (T.edge x).map Prod.snd) :
    ∃ key, T.Labels key s ∧ ∀ n ∈ locks, ¬key <+: T.letters n := by
  have hxr : x ≠ T.root := by
    intro e
    rw [e, T.edge_root] at hs
    cases hs
  obtain ⟨⟨t, s'⟩, ht, rfl⟩ := List.mem_map.mp hs
  obtain ⟨l, r, hlr⟩ := List.append_of_mem ht
  have hpath := T.path_eq x hx hxr
  have hle : (T.path (T.parent x) ++ l) ++ [(t, s')] <+: T.path x := ⟨r, by rw [hpath, hlr]; simp⟩
  refine ⟨_, ⟨_, t, ⟨by simp, x, hx, hle⟩, rfl⟩, fun n hn hkey => ?_⟩
  -- a locked node that spells the key lies below `x`
  have hxn : T.path x <+: T.path n := by
    refine PrefixTree.holder_le hx hxr (q := (T.path (T.parent x) ++ l) ++ [(t, s')]) ?_ hle (h.locks_mem n hn)
      (by rw [List.map_append]; exact hkey)
    rw [List.length_append, List.length_append, List.length_singleton]
    omega
  have := h.lock_pos hx hn hxn
  rw [hx0] at this
  exact absurd this (Int.lt_irrefl 0)

/-- A step frees no slot of a pinned path, if no slot is stored twice. -/
theorem Pinned.not_freed {now : Clock} {h h' : History} {n : NodeId} {q : List (Token × Slot)}
    (hp : Pinned h n q) (hd : SlotsDistinct h.cache) (hs : Step now h h') :
    ∀ s ∈ q.map Prod.snd, s ∉ h.freed → s ∉ h'.freed := by
  obtain ⟨T, hw, hn, hq⟩ := hp
  obtain ⟨T', _, heff⟩ := hs.wf [n] hw
  obtain ⟨slots, hf, hslots⟩ := heff.freed
  intro s hsq hnot
  rw [hf, List.mem_append, not_or]
  refine ⟨hnot, fun hmem => ?_⟩
  obtain ⟨x, hx, hx0, hsx⟩ := hslots s hmem
  obtain ⟨key, hkey, hoff⟩ := hw.book.off_locked hx hx0 hsx
  -- `s` at the pinned path and `s` on the edge of `x` are the same position
  obtain ⟨i, hi, hsi⟩ := List.mem_iff_getElem.mp hsq
  rw [List.length_map] at hi
  have hpos : T.Pos q := ⟨List.ne_nil_of_length_pos (by omega), n, hn, by rw [hq]⟩
  have hlab := hpos.labels hi
  rw [List.getElem_map] at hsi
  rw [hsi] at hlab
  have heq := hd key _ s (hw.rep.maps_iff.mpr hkey) (hw.rep.maps_iff.mpr hlab)
  refine hoff n (by simp) ?_
  rw [heq, List.map_take, PrefixTree.letters, hq]
  exact List.take_prefix _ _

theorem Wf.pin {c : RadixCache} {T : Tree} {locks : List NodeId} (h : Wf c T locks) {key : List Token}
    {c₁ c₂ : RadixCache} {res : MatchResult} {delta : Int} (freed : List Slot)
    (hm : c.matchPrefix key = some (c₁, res)) (hl : c₁.incLockRef res.lastNode = some (c₂, delta)) :
    ∃ q, Pinned ⟨c₂, locks, freed⟩ res.lastNode q ∧ res.deviceIndices = q.map Prod.snd ∧
      q.map Prod.fst <+: key := by
  obtain ⟨c', T', res', q, heq, hw, _, hlong, hres, hmem, hpath⟩ := h.matchPrefix key
  rw [hm] at heq
  cases heq
  obtain ⟨c'', heq, hw', _⟩ := hw.incLockRef hmem
  rw [hl] at heq
  cases heq
  exact ⟨q, ⟨T', hw', hmem, hpath⟩, hres, hlong.letters⟩

/-- A lock pins its prefix: in every later state of the run the key matches at
    least what it matched, and the locked node still spells it; and no slot of it
    has been freed since, if the slots stored in the tree stay pairwise distinct. -/
theorem lock_pins_path (now : Clock) (strategy : EvictionStrategy) (h : History)
    (hr : Reachable now strategy h) (key : List Token) (c₁ c₂ : RadixCache) (res : MatchResult) (delta : Int)
    (hm : h.cache.matchPrefix key = some (c₁, res)) (hl : c₁.incLockRef res.lastNode = some (c₂, delta))
    (h' : History) :
    (Relation.ReflTransGen (Step now) ⟨c₂, h.locks, []⟩ h' →
      (∃ c₃ res', h'.cache.matchPrefix key = some (c₃, res') ∧ res.deviceIndices <+: res'.deviceIndices) ∧
      Climbs h'.cache res.lastNode (key.take res.deviceIndices.length)) ∧
    (Relation.ReflTransGen (DistinctStep now) ⟨c₂, h.locks, []⟩ h' →
      ∀ s ∈ res.deviceIndices, s ∉ h'.freed) := by
  obtain ⟨_, T₀, hw₀⟩ := hr.wf
  obtain ⟨q, hpin, hres, hletters⟩ := hw₀.pin [] hm hl
  refine ⟨fun hrun => ?_, fun hrun s hs => ?_⟩
  · obtain ⟨T, hw, hn, hq⟩ := hpin.run hrun
    have hlq : T.letters res.lastNode = key.take res.deviceIndices.length := by
      have := List.prefix_iff_eq_take.mp hletters
      rw [PrefixTree.letters, hq, this, hres, List.length_map, List.length_map]
    refine ⟨?_, hlq ▸ hw.rep.climbs hn⟩
    obtain ⟨c₃, T', res', q', heq, _, _, hlong, hres', _⟩ := hw.matchPrefix key
    refine ⟨c₃, res', heq, ?_⟩
    rw [hres, hres']
    refine List.IsPrefix.map Prod.snd ?_
    by_cases hnil : q = []
    · rw [hnil]; exact List.nil_prefix
    · exact hlong.le_of_pos ⟨hnil, _, hn, by rw [hq]⟩ hletters
  · rw [hres] at hs
    have hboth : Pinned h' res.lastNode q ∧ s ∉ h'.freed := by
      induction hrun with
      | refl => exact ⟨hpin, by simp⟩
      | tail _ hst ih => exact ⟨ih.1.step hst.2.1, ih.1.not_freed hst.1 hst.2.1 s hs ih.2⟩
    exact hboth.2

/-- A run that evicts all it can while `[1, 2, 3]` is locked. -/
theorem lock_pins_path_shared : ∃ (h h' : History) (c₁ c₂ : RadixCache) (res : MatchResult) (delta : Int),
    h.cache.matchPrefix [1, 2, 3] = some (c₁, res) ∧
    c₁.incLockRef res.lastNode = some (c₂, delta) ∧ res.deviceIndices = [11, 12, 13] ∧
    History.run (fun r => r.op) [.evict (fun _ => 0) 10] ⟨c₂, h.locks, []⟩ = some h' ∧
    ∃ c₃ res', h'.cache.matchPrefix [1, 2, 3] = some (c₃, res') ∧ [11, 12, 13] <+: res'.deviceIndices := by
  obtain ⟨h, hr, hp⟩ := Reachable.of_run (fun r => r.op) .lru (sharedCalls.take 2)
    (P := fun h : History => ((h.cache.matchPrefix [1, 2, 3]).any fun m =>
      decide (m.2.deviceIndices = [11, 12, 13]) && (m.1.incLockRef m.2.lastNode).any fun l =>
        (History.run (fun r => r.op) [.evict (fun _ => 0) 10] ⟨l.1, h.locks, []⟩).isSome) = true)
          (by decide +kernel)
  obtain ⟨⟨c₁, res⟩, hm, hp⟩ := (Option.any_eq_true _ _).mp hp
  obtain ⟨hres, hp⟩ := Bool.and_eq_true_iff.mp hp
  obtain ⟨⟨c₂, delta⟩, hl, hp⟩ := (Option.any_eq_true _ _).mp hp
  obtain ⟨h', hrun⟩ := Option.isSome_iff_exists.mp hp
  have hres := of_decide_eq_true hres
  obtain ⟨⟨c₃, res', heq, hle⟩, _⟩ :=
    (lock_pins_path _ _ h hr [1, 2, 3] c₁ c₂ res delta hm hl h').1 (History.run_steps _ hrun)
  exact ⟨h, h', c₁, c₂, res, delta, hm, hl, hres, hrun, c₃, res', heq, hres ▸ hle⟩

end RadixCache

end SglangMlx
