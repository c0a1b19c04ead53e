import SglangMlx.ModelRunner
import SglangMlx.SlotLedger

/- The invariant of a model runner: its radix cache is well formed with a lock
   for every active request, the slot ledger holds with the active requests as
   claims, and the locked node of a request spells its prompt with the slots the
   request holds for it (`Inv`).

   `Ready` is the same for a radix cache between the steps of one call, when its
   claims and pins are not yet those of `_active_requests`; there is one lemma for
   each thing a call does to the cache. -/
namespace SglangMlx

open ModelRunner

/-! ## The cache during a call -/

/-- `T'` is `T` with `tokens` stored, at slots of `slots` where it was not yet. -/
structure Extends (T T' : Tree) (tokens : List Token) (slots : List Slot) : Prop where
  stored_mono : ∀ s ∈ T.stored, s ∈ T'.stored
  stored : ∀ s ∈ T'.stored, s ∈ T.stored ∨ s ∈ slots
  labels_mono : ∀ key s, T.Labels key s → T'.Labels key s
  labels : ∀ i < tokens.length, ∃ s, T'.Labels (tokens.take (i + 1)) s

theorem Extends.of_insert {T T' : Tree} {tokens : List Token} {slots : List Slot} {q : List (Token × Slot)}
    (hlen : slots.length = tokens.length) (hq : T.Longest tokens q)
    (hpos : ∀ r, T'.Pos r ↔ T.Pos r ∨
      (r ≠ [] ∧ r <+: q ++ (tokens.drop q.length).zip (slots.drop q.length)))
    (hst : T'.stored = ((slots.drop q.length : List Slot) : Multiset Slot) + T.stored) :
    Extends T T' tokens slots := by
  refine ⟨fun s hs => ?_, fun s hs => ?_, fun key s ⟨r, t, hr, hk⟩ => ⟨r, t, (hpos _).mpr (Or.inl hr), hk⟩,
    fun i hi => ?_⟩
  · rw [hst]
    exact Multiset.mem_add.mpr (Or.inr hs)
  · rw [hst] at hs
    exact (Multiset.mem_add.mp hs).symm.imp_right fun h => List.mem_of_mem_drop (Multiset.mem_coe.mp h)
  · have hletters : (q ++ (tokens.drop q.length).zip (slots.drop q.length)).map Prod.fst = tokens := by
      have htake := List.prefix_iff_eq_take.mp hq.letters
      rw [List.length_map] at htake
      rw [List.map_append, List.map_fst_zip (by rw [List.length_drop, List.length_drop, hlen]), htake]
      exact List.take_append_drop _ _
    have hlt : i < (q ++ (tokens.drop q.length).zip (slots.drop q.length)).length := by
      rw [← List.length_map (f := Prod.fst), hletters]
      exact hi
    have hne : q ++ (tokens.drop q.length).zip (slots.drop q.length) ≠ [] := List.ne_nil_of_length_pos (by omega)
    have hl := ((hpos _).mpr (Or.inr ⟨hne, List.prefix_refl _⟩)).labels hlt
    rw [List.map_take, hletters] at hl
    exact ⟨_, hl⟩

theorem Extends.congr {T₀ T T' : Tree} {tokens : List Token} {slots : List Slot} (h : Extends T T' tokens slots)
    (hpos : ∀ q, T.Pos q ↔ T₀.Pos q) (hst : T.stored = T₀.stored) : Extends T₀ T' tokens slots where
  stored_mono s hs := h.stored_mono s (hst ▸ hs)
  stored s hs := (h.stored s hs).imp_left fun hs => hst ▸ hs
  labels_mono key s := fun ⟨q, t, hq, hk⟩ => h.labels_mono key s ⟨q, t, (hpos _).mpr hq, hk⟩
  labels := h.labels

/-- A cache with the locks, claims and pinned paths of its requests. -/
structure Ready (c : RadixCache) (T : Tree) (locks : List NodeId) (claimed : List Token → List Slot → Prop)
    (pins : NodeId → List (Token × Slot) → Prop) (own : Slot → List Token) : Prop where
  wf : c.Wf T locks
  allocator : ∃ a, c.allocator = some a
  ledger : Ledger T c.freeList claimed own
  pinned : ∀ n q, pins n q → n ∈ T.nodes ∧ T.path n = q

namespace Ready
variable {c : RadixCache} {T : Tree} {locks : List NodeId} {claimed : List Token → List Slot → Prop}
  {pins : NodeId → List (Token × Slot) → Prop} {own : Slot → List Token}

theorem mono {claimed' : List Token → List Slot → Prop} {pins' : NodeId → List (Token × Slot) → Prop}
    {locks' : List NodeId} (h : Ready c T locks claimed pins own) (hl : locks'.Perm locks)
    (hc : ∀ tokens slots, claimed' tokens slots → claimed tokens slots)
    (hp : ∀ n q, pins' n q → pins n q) : Ready c T locks' claimed' pins' own :=
  ⟨h.wf.perm hl, h.allocator, h.ledger.mono hc, fun n q hnq => h.pinned n q (hp n q hnq)⟩

theorem matchPrefix (h : Ready c T locks claimed pins own) (key : List Token) :
    ∃ c' T' res q, c.matchPrefix key = some (c', res) ∧ Ready c' T' locks claimed pins own ∧
      c'.allocator = c.allocator ∧ (∀ r, T'.Pos r ↔ T.Pos r) ∧ T'.stored = T.stored ∧ T'.Longest key q ∧
      res.deviceIndices = q.map Prod.snd ∧ res.lastNode ∈ T'.nodes ∧ T'.path res.lastNode = q := by
  obtain ⟨c', T', res, q, heq, hw, hr, hlong, hres, hmem, hpath⟩ := h.wf.matchPrefix key
  have ha : c'.allocator = c.allocator := hr.allocator
  have hfree : c'.freeList = c.freeList := by unfold RadixCache.freeList; rw [ha]
  refine ⟨c', T', res, q, heq, ⟨hw, by rw [ha]; exact h.allocator, ?_, fun n p hnp => ?_⟩, ha, hr.pos, hr.stored,
    hlong.congr hr.pos, hres, hmem, hpath⟩
  · rw [hfree]
    exact h.ledger.congr hr.pos hr.stored
  · obtain ⟨hn, hp⟩ := h.pinned n p hnp
    exact ⟨hr.subset hn, (hr.path n hn).trans hp⟩

theorem insert (h : Ready c T locks claimed pins own) {tokens : List Token} {slots : List Slot}
    (hc : claimed tokens slots) (priority : Int) :
    ∃ c' T' q, c.insert tokens (some slots) priority = some (c', q.length) ∧
      Ready c' T' locks claimed pins own ∧ c'.allocator = c.allocator ∧ T.Longest tokens q ∧
      (∀ r, T'.Pos r ↔ T.Pos r ∨ (r ≠ [] ∧ r <+: q ++ (tokens.drop q.length).zip (slots.drop q.length))) ∧
      Extends T T' tokens slots := by
  have hlen := (h.ledger.claimed_own tokens slots hc).1
  obtain ⟨c', T', q, heq, hw, hlong, hg⟩ := h.wf.insert tokens (some slots) priority hlen
  have ha : c'.allocator = c.allocator := hg.allocator
  have hfree : c'.freeList = c.freeList := by unfold RadixCache.freeList; rw [ha]
  have hst := hg.stored
  rw [Option.getD_some, List.map_snd_zip (by rw [List.length_drop, List.length_drop, hlen])] at hst
  refine ⟨c', T', q, heq, ⟨hw, by rw [ha]; exact h.allocator, ?_, fun n p hnp => ?_⟩, ha, hlong, hg.pos,
    .of_insert hlen hlong hg.pos hst⟩
  · rw [hfree]
    exact h.ledger.insert hc hlong hg.pos hst
  · obtain ⟨hn, hp⟩ := h.pinned n p hnp
    exact ⟨hg.subset hn, (hg.path n hn).trans hp⟩

theorem incLockRef (h : Ready c T locks claimed pins own) {n : NodeId} (hn : n ∈ T.nodes) :
    ∃ c' delta, c.incLockRef n = some (c', delta) ∧ Ready c' T (n :: locks) claimed pins own ∧
      c'.allocator = c.allocator := by
  obtain ⟨c', heq, hw, hr⟩ := h.wf.incLockRef hn
  have ha : c'.allocator = c.allocator := by rw [hr.eq]; rfl
  refine ⟨c', _, heq, ⟨hw, by rw [ha]; exact h.allocator, ?_, h.pinned⟩, ha⟩
  unfold RadixCache.freeList
  rw [ha]
  exact h.ledger

theorem decLockRef (h : Ready c T locks claimed pins own) {n : NodeId} (hn : n ∈ locks) :
    ∃ c' delta, c.decLockRef n = some (c', delta) ∧ Ready c' T (locks.erase n) claimed pins own ∧
      c'.allocator = c.allocator := by
  obtain ⟨c', heq, hw, hr⟩ := h.wf.decLockRef hn
  have ha : c'.allocator = c.allocator := by rw [hr.eq]; rfl
  refine ⟨c', _, heq, ⟨hw, by rw [ha]; exact h.allocator, ?_, h.pinned⟩, ha⟩
  unfold RadixCache.freeList
  rw [ha]
  exact h.ledger

/-- Evicting nodes whose slots nobody claims. The pinned nodes are locked. -/
theorem evict (h : Ready c T locks claimed pins own) (now : Clock) (tie : TieBreak) (numTokens : Int)
    (hlocked : ∀ n q, pins n q → n ∈ locks)
    (hno : 0 < numTokens → ∀ x ∈ T.nodes, x ≠ T.root → (c.nodes x).lockRef = 0 →
      ∀ s ∈ (T.edge x).map Prod.snd, ∀ tokens slots, claimed tokens slots → s ∉ slots) :
    ∃ c' r T' xs, c.evict now tie numTokens = some (c', r) ∧ Ready c' T' locks claimed pins own ∧
      RadixCache.Shrunk xs c.beginOp T c' T' ∧ c'.freeList = c.freeList ++ RadixCache.slotsOf T xs ∧
      (numTokens ≤ RadixCache.tokens T xs ∨ ∀ n, ¬RadixCache.Frontier c' T' n) := by
  obtain ⟨c', T', xs, heq, hw, hev, hstop, hlast, _⟩ := h.wf.evict now tie numTokens
  have hsh := hev.shrunk
  obtain ⟨a, ha⟩ := h.allocator
  have ha' : c'.allocator = c.allocator.map fun a => a.free (RadixCache.slotsOf T xs) := by rw [hsh.eq]; rfl
  have hfree : c'.freeList = c.freeList ++ RadixCache.slotsOf T xs := by
    unfold RadixCache.freeList
    rw [ha', ha]
    rfl
  refine ⟨c', _, T', xs, heq, ⟨hw, by rw [ha', ha]; exact ⟨_, rfl⟩, ?_, fun n p hnp => ?_⟩, hsh, hfree, hstop⟩
  · rw [hfree]
    refine h.ledger.evict hsh.stored (fun q => hsh.pos) fun s hs => ?_
    obtain ⟨x, hx, hsx⟩ := List.mem_flatMap.mp hs
    have hxT := (hsh.mem x).mpr (Or.inr hx)
    have hx0 := hsh.unlocked x hx
    -- something was removed, so `numTokens` is positive
    have hpos : 0 < numTokens := by
      obtain ⟨ys, y, hys⟩ := (List.eq_nil_or_concat xs).resolve_left (List.ne_nil_of_mem hx)
      have h1 := hlast ys y (by rw [hys, List.concat_eq_append])
      have h2 : 0 ≤ RadixCache.tokens T ys :=
        List.sum_nonneg fun z hz => by
          obtain ⟨w, _, rfl⟩ := List.mem_map.mp hz
          exact Int.natCast_nonneg _
      omega
    refine hno hpos x hxT (fun e => ?_) hx0 s hsx
    rw [e, T.edge_root] at hsx
    cases hsx
  · obtain ⟨hn, hp⟩ := h.pinned n p hnp
    exact ⟨hw.book.locks_mem n (hlocked n p hnp), by rw [hsh.path]; exact hp⟩

theorem alloc (h : Ready c T locks claimed pins own) {a a' : TokenPoolAllocator} {n : Int} {new base : List Slot}
    {tokens : List Token} (ha : c.allocator = some a) (heq : a.alloc n = .ok (a', new))
    (hlen : base.length + new.length = tokens.length)
    (hbase : ∀ i s, base[i]? = some s → own s = tokens.take (i + 1)) (hused : ∀ s ∈ base, s ∉ c.freeList) :
    ∃ own', (∀ s, s ∉ new → own' s = own s) ∧
      Ready (c.setAllocator a') T locks (fun k v => claimed k v ∨ (k = tokens ∧ v = base ++ new)) pins own' ∧
      c.freeList = (c.setAllocator a').freeList ++ new := by
  obtain ⟨hsplit, _, _⟩ := TokenPoolAllocator.alloc_ok heq
  have hfree : c.freeList = (c.setAllocator a').freeList ++ new := by
    unfold RadixCache.freeList RadixCache.setAllocator
    rw [ha]
    exact hsplit
  have hl := h.ledger
  rw [hfree] at hl hused
  obtain ⟨own', hown, hl'⟩ := hl.claim hlen hbase hused
  exact ⟨own', hown, ⟨h.wf.setAllocator (some a'), ⟨a', rfl⟩, hl', h.pinned⟩, hfree⟩

theorem claimStored (h : Ready c T locks claimed pins own) {tokens : List Token} {q : List (Token × Slot)}
    (hq : T.Longest tokens q) (hlen : q.length = tokens.length) :
    Ready c T locks (fun k v => claimed k v ∨ (k = tokens ∧ v = q.map Prod.snd)) pins own := by
  have hbase : ∀ i s, (q.map Prod.snd)[i]? = some s → own s = tokens.take (i + 1) := fun i s hs =>
    h.ledger.stored_own _ _ (hq.labels hs)
  refine ⟨h.wf, h.allocator, ⟨h.ledger.free_nodup, h.ledger.free_stored, fun s hs k v hc => ?_,
    h.ledger.stored_nodup, h.ledger.stored_own, fun k v hc => ?_⟩, h.pinned⟩
  · rcases hc with hc | ⟨_, rfl⟩
    · exact h.ledger.free_claimed s hs k v hc
    · intro hm
      obtain ⟨i, hi⟩ := List.mem_iff_getElem?.mp hm
      exact h.ledger.free_stored s hs (PrefixTree.Labels.stored (hq.labels hi))
  · rcases hc with hc | ⟨rfl, rfl⟩
    · exact h.ledger.claimed_own k v hc
    · exact ⟨by rw [List.length_map, hlen], hbase⟩

/-- Inserting a claim that begins with what the tree stores, then matching it and
    locking the node: the node spells the tokens with the slots of the claim. -/
theorem insertLocked (h : Ready c T locks claimed pins own) {tokens : List Token} {slots : List Slot}
    (hc : claimed tokens slots) {q : List (Token × Slot)} (hq : T.Longest tokens q)
    (hpre : q.map Prod.snd <+: slots) :
    ∃ c₁ k c₂ res c₃ delta T', c.insert tokens (some slots) 0 = some (c₁, k) ∧
      c₁.matchPrefix tokens = some (c₂, res) ∧ c₂.incLockRef res.lastNode = some (c₃, delta) ∧
      Ready c₃ T' (res.lastNode :: locks) claimed
        (fun n p => pins n p ∨ (n = res.lastNode ∧ p = tokens.zip slots)) own ∧
      c₃.allocator = c.allocator ∧ Extends T T' tokens slots := by
  have hlen := (h.ledger.claimed_own tokens slots hc).1
  obtain ⟨c₁, T₁, q₁, heq₁, h₁, ha₁, hq₁, hpos₁, hext⟩ := h.insert hc 0
  cases hq.unique hq₁
  -- the inserted path is the claim
  have hpath : q ++ (tokens.drop q.length).zip (slots.drop q.length) = tokens.zip slots := by
    have hk := List.prefix_iff_eq_take.mp hq.letters
    have hv := List.prefix_iff_eq_take.mp hpre
    rw [List.length_map] at hk hv
    have hzip : q = (tokens.zip slots).take q.length := by
      rw [List.zip_eq_zipWith, List.take_zipWith, ← hk, ← hv, ← List.zip_eq_zipWith, List.zip_map']
      simp
    have hrest : (tokens.drop q.length).zip (slots.drop q.length) = (tokens.zip slots).drop q.length := by
      rw [List.zip_eq_zipWith, List.zip_eq_zipWith, List.drop_zipWith]
    calc q ++ (tokens.drop q.length).zip (slots.drop q.length)
        = (tokens.zip slots).take q.length ++ (tokens.zip slots).drop q.length := by rw [hrest, ← hzip]
      _ = tokens.zip slots := List.take_append_drop _ _
  have hlong : T₁.Longest tokens (tokens.zip slots) := by
    refine ⟨?_, by rw [List.map_fst_zip hlen.ge], fun r _ hr => ?_⟩
    · by_cases hnil : tokens.zip slots = []
      · exact Or.inl hnil
      · exact Or.inr ((hpos₁ _).mpr (Or.inr ⟨hnil, hpath ▸ List.prefix_refl _⟩))
    · have := hr.length_le
      rw [List.length_map] at this
      rw [List.length_zip, hlen, min_self]
      exact this
  obtain ⟨c₂, T₂, res, q₂, heq₂, h₂, ha₂, hpos₂, hst₂, hq₂, _, hmem, hn⟩ := h₁.matchPrefix tokens
  cases hq₂.unique (hlong.congr hpos₂)
  obtain ⟨c₃, delta, heq₃, h₃, ha₃⟩ := h₂.incLockRef hmem
  refine ⟨c₁, _, c₂, res, c₃, delta, T₂, heq₁, heq₂, heq₃, ⟨h₃.wf, h₃.allocator, h₃.ledger, fun n p hnp => ?_⟩,
    (ha₃.trans ha₂).trans ha₁, ?_⟩
  · rcases hnp with hnp | ⟨rfl, rfl⟩
    · exact h₃.pinned n p hnp
    · exact ⟨hmem, hn⟩
  · have hlab : ∀ key s, T₁.Labels key s → T₂.Labels key s := fun key s ⟨r, t, hr, hk⟩ =>
      ⟨r, t, (hpos₂ _).mpr hr, hk⟩
    exact ⟨fun s hs => hst₂ ▸ hext.stored_mono s hs, fun s hs => hext.stored s (hst₂ ▸ hs),
      fun key s hl => hlab key s (hext.labels_mono key s hl), fun i hi => (hext.labels i hi).imp
        fun s => hlab _ s⟩

end Ready

end SglangMlx
