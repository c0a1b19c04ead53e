import SglangMlx.RadixWalk

/- `inc_lock_ref` and `dec_lock_ref`. Both climb from a node to the root, change
   every lock count on the way by the same amount, and move the tokens of a node
   between the two size counters when its count leaves or reaches zero. `relock`
   is that work at one node; `lockLoop_spec` is the induction along the root path
   for any loop made of it. -/
namespace SglangMlx

namespace RadixCache

/-! ## One node -/

/-- Set the lock count of `n` to `x` and move its tokens between the counters. -/
def setLock (c : RadixCache) (n : NodeId) (x : Int) : RadixCache :=
  let len : Int := (c.nodes n).key.length
  let before := (c.nodes n).lockRef
  { c with
    evictableSize_ := c.evictableSize_ - (if before = 0 then len else 0) + (if x = 0 then len else 0)
    protectedSize_ := c.protectedSize_ - (if 0 < before then len else 0) + (if 0 < x then len else 0)
  }.modify n fun y => { y with lockRef := x }

def relock (c : RadixCache) (n : NodeId) (x : Int) : RadixCache := (c.setLock n x).updateLeafStatus n

/-- The counters and the evictable leaves are what the lock counts say. -/
structure Tallied (c : RadixCache) (T : Tree) : Prop where
  nonneg : ∀ n ∈ T.nodes, 0 ≤ (c.nodes n).lockRef
  evictable : c.evictableSize_ = sizeWhere T fun n => (c.nodes n).lockRef = 0
  guarded : c.protectedSize_ = sizeWhere T fun n => 0 < (c.nodes n).lockRef
  leaves_nodup : c.evictableLeaves.Nodup
  mem_leaves : ∀ n, n ∈ c.evictableLeaves ↔ n ∈ T.nodes ∧ T.Leaf n ∧ (c.nodes n).lockRef = 0

theorem Book.tallied {c : RadixCache} {T : Tree} {locks : List NodeId} (h : Book c T locks) : Tallied c T :=
  ⟨fun _ hn => h.lock_nonneg hn, h.evictable, h.guarded, h.leaves_nodup, h.mem_leaves⟩

theorem sizeWhere_change {T : Tree} {n : NodeId} (hn : n ∈ T.nodes) {P Q : NodeId → Prop} [DecidablePred P]
    [DecidablePred Q] (h : ∀ m ∈ T.nodes, m ≠ n → (P m ↔ Q m)) :
    sizeWhere T P = sizeWhere T Q - (if Q n then ((T.edge n).length : Int) else 0) +
      (if P n then ((T.edge n).length : Int) else 0) := by
  have hrest : ∑ m ∈ T.nodes.erase n, (if P m then ((T.edge m).length : Int) else 0) =
      ∑ m ∈ T.nodes.erase n, if Q m then ((T.edge m).length : Int) else 0 :=
    Finset.sum_congr rfl fun m hm => by
      simp only [h m (Finset.mem_of_mem_erase hm) (Finset.ne_of_mem_erase hm)]
  unfold sizeWhere
  rw [← Finset.add_sum_erase T.nodes _ hn, ← Finset.add_sum_erase T.nodes (fun m => if Q m then _ else _) hn,
    hrest]
  omega

section
variable {c : RadixCache} {T : Tree} {n : NodeId} {x : Int}

theorem relock_eq (c : RadixCache) (n : NodeId) (x : Int) : c.relock n x = { c with
    nodes := (c.relock n x).nodes, evictableSize_ := (c.relock n x).evictableSize_
    protectedSize_ := (c.relock n x).protectedSize_, evictableLeaves := (c.relock n x).evictableLeaves } := by
  unfold relock
  rw [updateLeafStatus_eq]
  rfl

theorem relock_self : (c.relock n x).nodes n = { c.nodes n with lockRef := x } := by
  simp [relock, setLock]

theorem relock_ne {m : NodeId} (h : m ≠ n) : (c.relock n x).nodes m = c.nodes m := by
  simp [relock, setLock, modify_nodes_ne _ _ h]

theorem relock_evictableSize : (c.relock n x).evictableSize_ = c.evictableSize_ -
    (if (c.nodes n).lockRef = 0 then ((c.nodes n).key.length : Int) else 0) +
      (if x = 0 then ((c.nodes n).key.length : Int) else 0) := by
  unfold relock
  rw [updateLeafStatus_eq]
  rfl

theorem relock_protectedSize : (c.relock n x).protectedSize_ = c.protectedSize_ -
    (if 0 < (c.nodes n).lockRef then ((c.nodes n).key.length : Int) else 0) +
      (if 0 < x then ((c.nodes n).key.length : Int) else 0) := by
  unfold relock
  rw [updateLeafStatus_eq]
  rfl

theorem Rep.relock (h : Rep c T) : Rep (c.relock n x) T := by
  refine h.congr (by rw [relock_eq]) (by rw [relock_eq]) fun m _ => ?_
  by_cases e : m = n
  · rw [e, relock_self]; exact ⟨rfl, rfl, rfl, rfl⟩
  · rw [relock_ne e]; exact ⟨rfl, rfl, rfl, rfl⟩

theorem Tallied.relock (h : Rep c T) (hs : Tallied c T) (hn : n ∈ T.nodes) (hx : 0 ≤ x) :
    Tallied (c.relock n x) T := by
  have hother : ∀ m ∈ T.nodes, m ≠ n → ((c.relock n x).nodes m).lockRef = (c.nodes m).lockRef :=
    fun m _ e => by rw [relock_ne e]
  refine ⟨fun m hm => ?_, ?_, ?_, ?_, fun m => ?_⟩
  · by_cases e : m = n
    · rw [e, relock_self]; exact hx
    · rw [hother m hm e]; exact hs.nonneg m hm
  · rw [sizeWhere_change hn (Q := fun m => (c.nodes m).lockRef = 0) fun m hm e => by rw [hother m hm e],
      ← hs.evictable, relock_evictableSize, relock_self, h.key_length hn]
  · rw [sizeWhere_change hn (Q := fun m => 0 < (c.nodes m).lockRef) fun m hm e => by rw [hother m hm e],
      ← hs.guarded, relock_protectedSize, relock_self, h.key_length hn]
  · exact (updateLeafStatus_mem (c := c.setLock n x) n hs.leaves_nodup).1
  · refine ((updateLeafStatus_mem (c := c.setLock n x) n hs.leaves_nodup).2 m).trans ?_
    -- the test sees the heap of the result
    have hev : (c.relock n x).Evictable n ↔ x ≤ 0 ∧ T.Leaf n := by
      rw [(Rep.relock h).evictable_iff hn, relock_self]
    have hsee : (c.setLock n x).Evictable n ↔ (c.relock n x).Evictable n := by
      simp [Evictable, childValues, RadixCache.relock]
    rw [hsee, hev]
    show _ ∨ _ ∧ m ∈ c.evictableLeaves ↔ _
    rw [hs.mem_leaves m]
    by_cases e : m = n
    · subst e
      have : x ≤ 0 ↔ x = 0 := by omega
      simp [relock_self, hn, this, and_comm]
    · simp [relock_ne e, e]

end

/-! ## The climb -/

/-- How many nodes lie on the root path of `n`. -/
def depth (T : Tree) (n : NodeId) : Nat := (T.nodes.filter fun m => T.path m <+: T.path n).card

theorem depth_parent_lt {T : Tree} {n : NodeId} (hn : n ∈ T.nodes) (hr : n ≠ T.root) :
    depth T (T.parent n) < depth T n := by
  refine Finset.card_lt_card ⟨fun m hm => ?_, fun hsub => ?_⟩
  · rw [Finset.mem_filter] at hm ⊢
    exact ⟨hm.1, hm.2.trans (PrefixTree.parent_path_le hn hr)⟩
  · have hself := (Finset.mem_filter.mp (hsub (Finset.mem_filter.mpr ⟨hn, List.prefix_refl _⟩))).2
    have := hself.length_le
    have := PrefixTree.path_parent_lt hn hr
    omega

theorem Rep.depth_lt {c : RadixCache} {T : Tree} (h : Rep c T) (n : NodeId) : depth T n < c.counter + 1 :=
  Nat.lt_succ_of_le ((Finset.card_filter_le _ _).trans h.card_le)

/-- Only lock counts, size counters and evictable leaves differ, the counts by `d`
    on the root path of `n`. -/
structure Relocked (d : Int) (c c' : RadixCache) (T : Tree) (n : NodeId) : Prop where
  eq : c' = { c with
    nodes := c'.nodes, evictableSize_ := c'.evictableSize_, protectedSize_ := c'.protectedSize_
    evictableLeaves := c'.evictableLeaves }
  rep : Rep c' T
  tallied : Tallied c' T
  nodes : ∀ m ∈ T.nodes, c'.nodes m = { c.nodes m with
    lockRef := (c.nodes m).lockRef + if m ≠ T.root ∧ T.path m <+: T.path n then d else 0 }

theorem lockLoop_spec (d : Int) (loop : Nat → RadixCache → NodeId → Int → Option (RadixCache × Int))
    (hroot : ∀ fuel c delta, loop (fuel + 1) c c.rootNode delta = some (c, delta))
    (hstep : ∀ fuel (c : RadixCache) n delta p, n ≠ c.rootNode → (c.nodes n).parent = some p →
      0 ≤ (c.nodes n).lockRef → 0 ≤ (c.nodes n).lockRef + d → loop (fuel + 1) c n delta =
        loop fuel (c.relock n ((c.nodes n).lockRef + d)) p
          (delta + ((c.relock n ((c.nodes n).lockRef + d)).evictableSize_ - c.evictableSize_)))
    (T : Tree) : ∀ (fuel : Nat) (c : RadixCache) (n : NodeId) (delta : Int), Rep c T → Tallied c T →
      n ∈ T.nodes → (∀ m ∈ T.nodes, m ≠ T.root → T.path m <+: T.path n → 0 ≤ (c.nodes m).lockRef + d) →
      depth T n < fuel → ∃ c', loop fuel c n delta =
        some (c', delta + (c'.evictableSize_ - c.evictableSize_)) ∧ Relocked d c c' T n := by
  intro fuel
  induction fuel with
  | zero => intro c n delta _ _ _ _ hf; omega
  | succ fuel ih =>
    intro c n delta h hs hn hd hf
    by_cases hr : n = T.root
    · refine ⟨c, ?_, rfl, h, hs, fun m hm => ?_⟩
      · rw [hr, ← h.root, hroot]; simp
      · have hno : ¬(m ≠ T.root ∧ T.path m <+: T.path n) := by
          intro ⟨hmr, hle⟩
          rw [hr, T.path_root] at hle
          exact hmr (PrefixTree.path_eq_nil hm (List.prefix_nil.mp hle))
        rw [if_neg hno, add_zero]
    · have hp := T.parent_mem n hn hr
      have hx := hd n hn hr (List.prefix_refl _)
      -- the counts above `n` are those of before
      have habove : ∀ m ∈ T.nodes, m ≠ T.root → T.path m <+: T.path (T.parent n) →
          m ≠ n := by
        intro m _ _ hle e
        have := hle.length_le
        have := PrefixTree.path_parent_lt hn hr
        rw [e] at hle
        have := hle.length_le
        omega
      obtain ⟨c', heq, heq', hrep, htal, hnodes⟩ :=
        ih (c.relock n ((c.nodes n).lockRef + d)) (T.parent n)
          (delta + ((c.relock n ((c.nodes n).lockRef + d)).evictableSize_ - c.evictableSize_)) h.relock
          (hs.relock h hn hx) hp
          (fun m hm hmr hle => by
            rw [relock_ne (habove m hm hmr hle)]
            exact hd m hm hmr (hle.trans (PrefixTree.parent_path_le hn hr)))
          (by have := depth_parent_lt hn hr; omega)
      refine ⟨c', ?_, ?_, hrep, htal, fun m hm => ?_⟩
      · rw [hstep fuel c n delta _ (h.root ▸ hr) (h.parent n hn hr) (hs.nonneg n hn) hx, heq]
        congr 2
        omega
      · rw [heq', relock_eq]
      · rw [hnodes m hm]
        by_cases e : m = n
        · rw [e, relock_self, if_neg fun hle => habove n hn hr hle.2 rfl, if_pos ⟨hr, List.prefix_refl _⟩]
          simp
        · rw [relock_ne e]
          have hiff : (m ≠ T.root ∧ T.path m <+: T.path (T.parent n)) ↔
              (m ≠ T.root ∧ T.path m <+: T.path n) :=
            and_congr_right fun _ => ⟨fun hle => hle.trans (PrefixTree.parent_path_le hn hr),
              fun hle => (PrefixTree.prefix_parent hm hn hle e).2⟩
          simp only [hiff]

/-! ## The two operations -/

theorem incLockLoop_step (fuel : Nat) (c : RadixCache) (n : NodeId) (delta : Int) (p : NodeId)
    (hr : n ≠ c.rootNode) (hp : (c.nodes n).parent = some p) (h0 : 0 ≤ (c.nodes n).lockRef) :
    incLockLoop (fuel + 1) c n delta = incLockLoop fuel (c.relock n ((c.nodes n).lockRef + 1)) p
      (delta + ((c.relock n ((c.nodes n).lockRef + 1)).evictableSize_ - c.evictableSize_)) := by
  have h1 : (c.nodes n).lockRef + 1 ≠ 0 := by omega
  have h2 : 0 < (c.nodes n).lockRef + 1 := by omega
  rw [relock_evictableSize]
  by_cases hz : (c.nodes n).lockRef = 0
  · simp [incLockLoop, hr, hz, relock, setLock, modify, hp, sub_eq_add_neg]
  · have h3 : 0 < (c.nodes n).lockRef := by omega
    simp [incLockLoop, hr, hz, relock, setLock, modify, hp, h1, h2, h3]

theorem decLockLoop_step (fuel : Nat) (c : RadixCache) (n : NodeId) (delta : Int) (p : NodeId)
    (hr : n ≠ c.rootNode) (hp : (c.nodes n).parent = some p) (h0 : 0 ≤ (c.nodes n).lockRef + -1) :
    decLockLoop (fuel + 1) c n delta = decLockLoop fuel (c.relock n ((c.nodes n).lockRef + -1)) p
      (delta + ((c.relock n ((c.nodes n).lockRef + -1)).evictableSize_ - c.evictableSize_)) := by
  have h1 : (c.nodes n).lockRef ≠ 0 := by omega
  have h2 : 0 < (c.nodes n).lockRef := by omega
  rw [relock_evictableSize]
  by_cases hz : (c.nodes n).lockRef = 1
  · simp [decLockLoop, hr, hz, relock, setLock, modify, hp]
  · have h3 : (c.nodes n).lockRef + -1 ≠ 0 := by omega
    have h4 : 1 < (c.nodes n).lockRef := by omega
    simp [decLockLoop, hr, hz, relock, setLock, modify, hp, h1, h2, h3, h4, sub_eq_add_neg]

section
variable {c : RadixCache} {T : Tree} {locks : List NodeId} {n : NodeId}

/-- The invariant after the counts changed by `d` on one root path, when the
    outstanding locks changed the same way. -/
theorem Wf.relocked {d : Int} {c' : RadixCache} {locks' : List NodeId} (h : Wf c T locks)
    (hc : Relocked d c.beginOp c' T n) (hmem : ∀ m ∈ locks', m ∈ T.nodes)
    (hcount : ∀ m ∈ T.nodes, (lockCount T locks' m : Int) =
      lockCount T locks m + if T.path m <+: T.path n then d else 0) : Wf c' T locks' where
  rep := hc.rep
  enabled := by rw [hc.eq]; exact h.enabled
  aged := by
    have hclock : c'.clock = c.beginOp.clock := by rw [hc.eq]
    have h' := h.beginOp.aged
    refine ⟨fun m hm => ?_, fun m hm hr => ?_, fun m hm hr => ?_⟩
    · rw [hclock, hc.nodes m hm]; exact h'.past m hm
    · rw [hc.nodes m hm, hc.nodes _ (T.parent_mem m hm hr)]; exact h'.op m hm hr
    · rw [hc.nodes m hm, hc.nodes _ (T.parent_mem m hm hr)]; exact h'.priority m hm hr
  book := by
    refine ⟨?_, fun m hm hr => ?_, hmem, hc.tallied.evictable, hc.tallied.guarded, hc.tallied.leaves_nodup,
      hc.tallied.mem_leaves⟩
    · rw [hc.nodes _ T.root_mem]
      simp only [ne_eq, not_true, false_and, if_false, add_zero]
      exact h.book.rootLock
    · rw [hc.nodes m hm, hcount m hm]
      simp only [ne_eq, hr, not_false_eq_true, true_and]
      rw [show (c.beginOp.nodes m).lockRef = lockCount T locks m from h.book.lock m hm hr]

/-- `inc_lock_ref` adds a lock; it returns the change of `evictable_size()`. -/
theorem Wf.incLockRef (h : Wf c T locks) (hn : n ∈ T.nodes) :
    ∃ c', c.incLockRef n = some (c', c'.evictableSize_ - c.evictableSize_) ∧ Wf c' T (n :: locks) ∧
      Relocked 1 c.beginOp c' T n := by
  obtain ⟨c', heq, hc⟩ := lockLoop_spec 1 incLockLoop (fun fuel c delta => by simp [incLockLoop])
    (fun fuel c n delta p hr hp h0 _ => incLockLoop_step fuel c n delta p hr hp h0) T (c.counter + 1)
    c.beginOp n 0 h.beginOp.rep h.beginOp.book.tallied hn
    (fun m hm _ _ => by have := h.beginOp.book.lock_nonneg hm; omega) (h.rep.depth_lt n)
  have hd : c.beginOp.disable = false := h.enabled
  refine ⟨c', ?_, h.relocked hc ?_ fun m hm => ?_, hc⟩
  · simp only [RadixCache.incLockRef, hd]
    rw [zero_add] at heq
    exact heq
  · intro m hm
    rcases List.mem_cons.mp hm with e | hm
    · rw [e]; exact hn
    · exact h.book.locks_mem m hm
  · unfold lockCount
    rw [List.countP_cons]
    by_cases hle : T.path m <+: T.path n <;> simp [hle]

theorem Wf.decLockRef (h : Wf c T locks) (hn : n ∈ locks) :
    ∃ c', c.decLockRef n = some (c', c'.evictableSize_ - c.evictableSize_) ∧ Wf c' T (locks.erase n) ∧
      Relocked (-1) c.beginOp c' T n := by
  have hnt := h.book.locks_mem n hn
  obtain ⟨c', heq, hc⟩ := lockLoop_spec (-1) decLockLoop (fun fuel c delta => by simp [decLockLoop])
    (fun fuel c n delta p hr hp _ h1 => decLockLoop_step fuel c n delta p hr hp h1) T (c.counter + 1)
    c.beginOp n 0 h.beginOp.rep h.beginOp.book.tallied hnt
    (fun m hm _ hle => by have := h.beginOp.book.lock_pos hm hn hle; omega) (h.rep.depth_lt n)
  have hd : c.beginOp.disable = false := h.enabled
  refine ⟨c', ?_, h.relocked hc ?_ fun m hm => ?_, hc⟩
  · simp only [RadixCache.decLockRef, hd]
    rw [zero_add] at heq
    exact heq
  · intro m hm
    exact h.book.locks_mem m (List.mem_of_mem_erase hm)
  · unfold lockCount
    rw [(List.perm_cons_erase hn).countP_eq, List.countP_cons]
    by_cases hle : T.path m <+: T.path n <;> simp [hle]

end

end RadixCache

end SglangMlx
