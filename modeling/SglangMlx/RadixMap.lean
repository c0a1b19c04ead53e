import SglangMlx.RadixRun
import SglangMlx.Lib.PrefixMap

/- The radix cache refines a prefix map: the map from the token sequences that are
   spelled from the root to the pool index of their last token. `match_prefix`
   looks a key up, `insert` fills in its missing prefixes, `evict` removes
   entries, and the locks do not show. -/
namespace SglangMlx

namespace RadixCache

/-- The abstract state of a cache. -/
def Abstracts (c : RadixCache) (m : PrefixMap Token Slot) : Prop :=
  ∀ key s, m.get key = some s ↔ Maps c key s

theorem Rep.abstracts {c : RadixCache} {T : Tree} (h : Rep c T) : Abstracts c T.toMap := fun _ _ => by
  rw [PrefixTree.toMap_get, h.maps_iff]
  rfl

/-- A cache has one abstract state. -/
theorem Abstracts.unique {c : RadixCache} {m m' : PrefixMap Token Slot} (h : Abstracts c m)
    (h' : Abstracts c m') : m = m' :=
  PrefixMap.ext fun key => Option.ext fun s => (h key s).trans (h' key s).symm

/-! ## One operation each -/

section
variable {c : RadixCache} {T : Tree} {locks : List NodeId}

theorem Wf.matchPrefix_refines (h : Wf c T locks) (key : List Token) :
    ∃ c' res q, c.matchPrefix key = some (c', res) ∧ Abstracts c' T.toMap ∧
      T.toMap.Matches key res.deviceIndices ∧ Spells c' res.lastNode q ∧
      q.map Prod.fst = key.take res.deviceIndices.length := by
  obtain ⟨c', T', res, q, heq, hw, hr, hlong, hres, hmem, hpath⟩ := h.matchPrefix key
  have hmap := hw.rep.abstracts
  rw [PrefixTree.toMap_congr hr.pos] at hmap
  refine ⟨c', res, q, heq, hmap, ?_, hw.rep.spells_iff.mpr ⟨hmem, hpath.symm⟩, ?_⟩
  · rw [hres, ← hlong.matched]
    exact PrefixMap.matches_matched key
  · rw [hres, List.length_map]
    have := List.prefix_iff_eq_take.mp hlong.letters
    rwa [List.length_map] at this

theorem Wf.insert_refines (h : Wf c T locks) {key : List Token} {value : List Slot} (priority : Int)
    (hlen : value.length = key.length) :
    ∃ c', c.insert key (some value) priority = some (c', (T.toMap.matched key).length) ∧
      Abstracts c' (T.toMap.insert key value hlen) := by
  obtain ⟨c', T', q, heq, hw, hlong, hg⟩ := h.insert key (some value) priority hlen
  have hmap := hw.rep.abstracts
  rw [PrefixTree.toMap_insert hlen hlong hg.pos] at hmap
  rw [hlong.matched, List.length_map]
  exact ⟨c', heq, hmap⟩

theorem Wf.evict_refines (h : Wf c T locks) (now : Clock) (tie : TieBreak) (numTokens : Int) :
    ∃ c' r m', c.evict now tie numTokens = some (c', r) ∧ Abstracts c' m' ∧
      ∀ key s, m'.get key = some s → T.toMap.get key = some s := by
  obtain ⟨c', T', xs, heq, hw, hev, _⟩ := h.evict now tie numTokens
  refine ⟨c', _, T'.toMap, heq, hw.rep.abstracts, fun key s hs => ?_⟩
  obtain ⟨q, t, hq, hk⟩ := PrefixTree.toMap_get.mp hs
  exact PrefixTree.toMap_get.mpr ⟨q, t, hev.shrunk.pos hq, hk⟩

end

/-! ## Every reachable cache -/

/-- In every reachable history the cache is a prefix map: every call of its
    clients succeeds and does to the map what it is for. -/
theorem reachable_refines (now : Clock) (strategy : EvictionStrategy) (h : History)
    (hr : Reachable now strategy h) : ∃ m : PrefixMap Token Slot, Abstracts h.cache m ∧
    (∀ key, ∃ c' res q, h.cache.matchPrefix key = some (c', res) ∧ Abstracts c' m ∧
      m.Matches key res.deviceIndices ∧ Spells c' res.lastNode q ∧
      q.map Prod.fst = key.take res.deviceIndices.length) ∧
    (∀ key value priority (hlen : value.length = key.length), ∃ c',
      h.cache.insert key (some value) priority = some (c', (m.matched key).length) ∧
      Abstracts c' (m.insert key value hlen)) ∧
    (∀ tie numTokens, ∃ c' r m', h.cache.evict now tie numTokens = some (c', r) ∧ Abstracts c' m' ∧
      ∀ key s, m'.get key = some s → m.get key = some s) ∧
    (∀ n, InTree h.cache n → ∃ c' delta, h.cache.incLockRef n = some (c', delta) ∧ Abstracts c' m) ∧
    (∀ n ∈ h.locks, ∃ c' delta, h.cache.decLockRef n = some (c', delta) ∧ Abstracts c' m) := by
  obtain ⟨_, T, hw⟩ := hr.wf
  refine ⟨T.toMap, hw.rep.abstracts, hw.matchPrefix_refines, fun key value priority hlen =>
    hw.insert_refines priority hlen, hw.evict_refines now, fun n hn => ?_, fun n hn => ?_⟩
  · obtain ⟨c', heq, hw', _⟩ := hw.incLockRef (hw.rep.inTree_iff.mp hn)
    exact ⟨c', _, heq, hw'.rep.abstracts⟩
  · obtain ⟨c', heq, hw', _⟩ := hw.decLockRef hn
    exact ⟨c', _, heq, hw'.rep.abstracts⟩

theorem reachable_refines_shared : ∃ h : History, (h.locks = [4] ∧ h.cache.totalSize = some 3) ∧
    ∃ m : PrefixMap Token Slot, Abstracts h.cache m ∧ ∃ c' res, h.cache.matchPrefix [1, 2, 3, 4] =
      some (c', res) ∧ m.Matches [1, 2, 3, 4] res.deviceIndices := by
  obtain ⟨h, hr, hp⟩ := Reachable.of_run (fun r => r.op) .lru sharedCalls
    (P := fun h : History => h.locks = [4] ∧ h.cache.totalSize = some 3) (by decide +kernel)
  obtain ⟨m, hm, hmatch, _⟩ := reachable_refines _ _ h hr
  obtain ⟨c', res, _, heq, _, hres, _⟩ := hmatch [1, 2, 3, 4]
  exact ⟨h, hp, m, hm, c', res, heq, hres⟩

end RadixCache

end SglangMlx
