import SglangMlx.CopyBlocks

/- When `copy_blocks` copies all pairs at once. The threadgroups of two pairs race when
   one copies into the block that the other copies from: then the first may store before
   the second loads. -/
namespace SglangMlx

open Layout MachineInt Threadgroup

/-- `block_mapping` holds these pairs. -/
structure HasPairs (blockMapping : MlxArray Int) (pairs : List (Nat × Nat)) : Prop where
  shape : blockMapping.shape = [pairs.length, 2]
  contiguous : blockMapping.RowContiguous
  entry : ∀ (j : Nat) (p : Nat × Nat), pairs[j]? = some p →
    blockMapping.get [j, 0] = p.1 ∧ blockMapping.get [j, 1] = p.2

theorem get_pair {a : MlxArray Int} {n : Nat} (hs : a.shape = [n, 2]) (hc : a.RowContiguous)
    {j i : Nat} (hj : j < n) (hi : i < 2) : a.get [j, i] = a.data (2 * j + i : Nat) := by
  rw [hc.get (by rw [hs]; exact .cons hj (.cons hi .nil)), hs]
  congr 2
  simp [flat, Nat.mul_comm]

/-- No pair copies from a block that another one changes. -/
def RaceFree (pairs : List (Nat × Nat)) : Prop := ∀ p ∈ pairs, ∀ q ∈ pairs, p.1 = q.2 → q.1 = q.2

/-- Every pair copies a block onto itself. -/
def AllSelf (pairs : List (Nat × Nat)) : Prop := ∀ p ∈ pairs, p.1 = p.2

instance (pairs : List (Nat × Nat)) : Decidable (RaceFree pairs) := by
  unfold RaceFree
  infer_instance

instance (pairs : List (Nat × Nat)) : Decidable (AllSelf pairs) := by
  unfold AllSelf
  infer_instance

/-- The copies of these pairs of blocks of `numel` elements are safe. As an `int`,
    `numel` may not be positive; then nothing is copied. Otherwise no pairs race and the
    `int`s of the kernel hold its numbers, if there is any pair. -/
def SafeCopies (numel : Nat) (pairs : List (Nat × Nat)) : Prop :=
  (int32 numel ≤ 0 ∧ (numel = 0 ∨ AllSelf pairs)) ∨
    (0 < int32 numel ∧ (pairs = [] ∨ (pairs.length ≤ 2 ^ 30 ∧ int32 numel + 256 ≤ 2 ^ 31 ∧ RaceFree pairs ∧
      (numel < 2 ^ 31 ∨ AllSelf pairs))))

/-! ## The copies of a thread -/

namespace CopyBlocksLayer
variable {p : CopyBlocksLayer} {blockMapping : MlxArray Int} {pairs : List (Nat × Nat)}

/-- The elements that a thread copies. -/
def loop (p : CopyBlocksLayer) (tid : Nat) : List Nat := strided tid p.numelPerBlock.toNat p.threads

def moves (p : CopyBlocksLayer) (blockMapping : MlxArray Int) (t : Fin p.numPairs × Fin p.threads) :
    List (CacheCell × CacheCell) := p.copies blockMapping t.1 ((p.loop t.2).map Nat.cast)

theorem threads_eq {n : Nat} (hn : p.numelPerBlock = n) (hlt : n < 2 ^ 31) : p.threads = min 256 n := by
  have hmod : (n : Int) % 2 ^ 32 = n := Int.emod_eq_of_lt (by omega) (by omega)
  rw [threads, hn, hmod, Int.toNat_natCast]

theorem threads_le (p : CopyBlocksLayer) : p.threads ≤ 256 := Nat.min_le_left _ _

theorem threadRun_iff (hfit : p.numelPerBlock + 256 ≤ 2 ^ 31) (t : Fin p.numPairs × Fin p.threads)
    (l : List (CacheCell × CacheCell)) : p.ThreadRun blockMapping t.1 t.2 l ↔ l = p.moves blockMapping t := by
  have htid : int32 (t.2 : Nat) = (t.2 : Nat) :=
    int32_natCast (t.2.isLt.trans_le (p.threads_le.trans (by norm_num)))
  have hloop : ∃ fuel, forLoop p.numelPerBlock p.threads fuel (int32 (t.2 : Nat)) =
    some ((p.loop t.2).map Nat.cast) := by
    rw [htid]
    rcases le_or_gt p.numelPerBlock 0 with hneg | hpos
    · refine ⟨1, ?_⟩
      rw [forLoop, if_neg (by omega), loop, Int.toNat_of_nonpos hneg]
      rfl
    · obtain ⟨n, hn⟩ := Int.eq_ofNat_of_zero_le hpos.le
      have hth := threads_eq hn (by omega)
      rw [loop, hn, Int.toNat_natCast]
      exact forLoop_strided (by rw [hth]; omega) (Nat.zero_lt_of_lt t.2.isLt)
  obtain ⟨fuel, hloop⟩ := hloop
  constructor
  · rintro ⟨fuel', is, his, rfl⟩
    rw [forLoop_unique his hloop]
    rfl
  · rintro rfl
    exact ⟨fuel, _, hloop, rfl⟩

/-- A block that fits, under the reading of `numel_per_block` as an `int`. -/
abbrev numel (p : CopyBlocksLayer) : Nat := p.numelPerBlock.toNat

theorem mem_loop {tid i : Nat} (htid : tid < p.threads) : i ∈ p.loop tid ↔ i < p.numel ∧ i % p.threads = tid :=
  mem_strided htid

theorem numel_eq {i : Nat} (hi : i < p.numel) : p.numelPerBlock = (p.numel : Nat) := by
  unfold numel at *
  omega

theorem offset_eq (p : CopyBlocksLayer) {b i : Nat} (hfit : p.numelPerBlock + 256 ≤ 2 ^ 31) (hb : b < 2 ^ 31)
    (hi : i < p.numel) : p.offset b i = (b * p.numel + i : Nat) := by
  have hn := numel_eq hi
  have hlt : b * p.numel + i < 2 ^ 31 * 2 ^ 31 := digit_lt hb hi |>.trans_le (Nat.mul_le_mul_left _ (by omega))
  rw [offset, hn, ← Nat.cast_mul, ← Nat.cast_add, int64_natCast (hlt.trans (by norm_num))]

/-- Element `i` of a block. -/
def elem (p : CopyBlocksLayer) (k : CacheKind) (b i : Nat) : CacheCell := (k, (b * p.numel + i : Nat))

theorem elem_inj {k k' : CacheKind} {b b' i i' : Nat} (hi : i < p.numel) (hi' : i' < p.numel)
    (h : p.elem k b i = p.elem k' b' i') : k = k' ∧ b = b' ∧ i = i' := by
  obtain ⟨hk, hcell⟩ := Prod.mk.inj h
  exact ⟨hk, digit_inj hi hi' (Int.ofNat_inj.mp hcell)⟩

/-- The copy of element `i` from block to block. -/
def copyOf (p : CopyBlocksLayer) (q : Nat × Nat) (k : CacheKind) (i : Nat) : CacheCell × CacheCell :=
  (p.elem k q.1 i, p.elem k q.2 i)

theorem moves_eq {t : Fin p.numPairs × Fin p.threads} {q : Nat × Nat}
    (hread : blockPair blockMapping t.1 = ((q.1 : Int), (q.2 : Int)))
    (hfit : p.numelPerBlock + 256 ≤ 2 ^ 31) (hq : q.1 < 2 ^ 31 ∧ q.2 < 2 ^ 31) :
    p.moves blockMapping t = (p.loop t.2).map (p.copyOf q .key) ++ (p.loop t.2).map (p.copyOf q .value) := by
  have hoff : ∀ i ∈ p.loop t.2, p.offset q.1 i = (q.1 * p.numel + i : Nat) ∧ p.offset q.2 i =
    (q.2 * p.numel + i : Nat) := by
    intro i hi
    have hi := ((mem_loop t.2.isLt).mp hi).1
    exact ⟨p.offset_eq hfit hq.1 hi, p.offset_eq hfit hq.2 hi⟩
  rw [moves, copies, hread]
  dsimp only
  rw [List.map_map, List.map_map]
  congr 1
  · refine List.map_congr_left fun i hi => ?_
    rw [Function.comp_apply, (hoff i hi).1, (hoff i hi).2]
    rfl
  · refine List.map_congr_left fun i hi => ?_
    rw [Function.comp_apply, (hoff i hi).1, (hoff i hi).2]
    rfl

theorem blockPair_eq (hm : HasPairs blockMapping pairs) {j : Nat} (hj : j < 2 ^ 30) {q : Nat × Nat}
    (hq : pairs[j]? = some q) : blockPair blockMapping j = ((q.1 : Int), (q.2 : Int)) := by
  have hlt := (List.getElem?_eq_some_iff.mp hq).1
  have hdata : ∀ i < 2, blockMapping.get [j, i] = blockMapping.data (2 * j + i : Nat) := fun i hi =>
    get_pair hm.shape hm.contiguous hlt hi
  obtain ⟨hsrc, hdst⟩ := hm.entry j q hq
  have hidx : int32 (j : Nat) = j := int32_natCast (hj.trans (by norm_num))
  have h0 : int32 (2 * (j : Int)) = (2 * j + 0 : Nat) := int32_of_range (by omega) (by omega)
  have h1 : int32 (2 * (j : Int) + 1) = (2 * j + 1 : Nat) := int32_of_range (by omega) (by omega)
  rw [blockPair, hidx, h0, h1, ← hdata 0 (by norm_num), ← hdata 1 (by norm_num), hsrc, hdst]

section
variable (hm : HasPairs blockMapping pairs) (hnum : p.numPairs = pairs.length) (hlen : pairs.length ≤ 2 ^ 30)
  (hfit : p.numelPerBlock + 256 ≤ 2 ^ 31) (hin : ∀ q ∈ pairs, q.1 < 2 ^ 31 ∧ q.2 < 2 ^ 31)
include hm hnum hlen hfit hin

theorem mem_moves (t : Fin p.numPairs × Fin p.threads) (c : CacheCell × CacheCell) : c ∈ p.moves blockMapping t ↔
    ∃ q k i, pairs[t.1.val]? = some q ∧ i < p.numel ∧ i % p.threads = t.2 ∧ c = p.copyOf q k i := by
  have hj : t.1.val < pairs.length := hnum ▸ t.1.isLt
  have hget := List.getElem?_eq_getElem hj
  rw [moves_eq (blockPair_eq hm (hj.trans_le hlen) hget) hfit (hin _ (List.getElem_mem hj)), List.mem_append,
    List.mem_map, List.mem_map]
  constructor
  · rintro (⟨i, hi, rfl⟩ | ⟨i, hi, rfl⟩)
    · obtain ⟨hi, hmod⟩ := (mem_loop t.2.isLt).mp hi
      exact ⟨_, .key, i, hget, hi, hmod, rfl⟩
    · obtain ⟨hi, hmod⟩ := (mem_loop t.2.isLt).mp hi
      exact ⟨_, .value, i, hget, hi, hmod, rfl⟩
  · rintro ⟨q, k, i, hq, hi, hmod, rfl⟩
    rw [hget] at hq
    obtain rfl := Option.some.inj hq
    cases k with
    | key => exact Or.inl ⟨i, (mem_loop t.2.isLt).mpr ⟨hi, hmod⟩, rfl⟩
    | value => exact Or.inr ⟨i, (mem_loop t.2.isLt).mpr ⟨hi, hmod⟩, rfl⟩

end

/-! ## All copies -/

section
variable {V : Type} {before after : CacheCell → V}

theorem copies_iff (hfit : p.numelPerBlock + 256 ≤ 2 ^ 31) : p.Copies blockMapping before after ↔
    ∃ s s' : State (Fin p.numPairs × Fin p.threads) V CacheCell V, s.mem = before ∧ s'.mem = after ∧
      Runs (fun _ => ()) (copyPhase (p.moves blockMapping)) s s' := by
  constructor
  · rintro ⟨moves, hmoves, s, s', hs, hs', hrun⟩
    obtain rfl : moves = p.moves blockMapping := funext fun t => (threadRun_iff hfit t _).mp (hmoves t)
    exact ⟨s, s', hs, hs', hrun⟩
  · rintro ⟨s, s', hs, hs', hrun⟩
    exact ⟨_, fun t => (threadRun_iff hfit t _).mpr rfl, s, s', hs, hs', hrun⟩

theorem exists_copies (blockMapping : MlxArray Int) (hfit : p.numelPerBlock + 256 ≤ 2 ^ 31)
    (before : CacheCell → V) :
    ∃ after, p.Copies blockMapping before after := by
  obtain ⟨s', hrun⟩ := exists_runs (fun _ => ()) (copyPhase (p.moves blockMapping))
    { reg := fun _ => before (.key, 0), mem := before }
  exact ⟨s'.mem, (copies_iff hfit).mpr ⟨_, s', rfl, rfl, hrun⟩⟩

/-- A cell that is only copied onto itself keeps its value. -/
theorem Copies.frozen (h : p.Copies blockMapping before after) (hfit : p.numelPerBlock + 256 ≤ 2 ^ 31)
    {a : CacheCell} (hself : ∀ t, ∀ c ∈ p.moves blockMapping t, c.2 = a → c.1 = a) : after a = before a := by
  obtain ⟨s, s', rfl, rfl, hrun⟩ := (copies_iff hfit).mp h
  obtain ⟨hcopied, hkept⟩ := copied (S := {a}) (fun t c hc hS => hself t c hc hS)
    (fun t t' c hc c' hc' hS heq => (hself t c hc hS).trans (hself t' c' hc' (heq ▸ hS)).symm)
    (fun t t' c hc c' hc' hS heq => by
      have hca := hself t c hc hS
      rw [← heq, hca, hself t' c' hc' (heq ▸ hca)])
    rfl hrun
  by_cases hex : ∃ t, ∃ c ∈ p.moves blockMapping t, c.2 = a
  · obtain ⟨t, c, hc, rfl⟩ := hex
    rw [hcopied t c hc rfl, hself t c hc rfl]
  · exact hkept a rfl fun t c hc hca => hex ⟨t, c, hc, hca⟩

/-- Without races every block gets what its source held, and nothing else changes. -/
theorem Copies.raceFree (h : p.Copies blockMapping before after) (hm : HasPairs blockMapping pairs)
    (hnum : p.numPairs = pairs.length) (hlen : pairs.length ≤ 2 ^ 30) (hfit : p.numelPerBlock + 256 ≤ 2 ^ 31)
    (hin : ∀ q ∈ pairs, q.1 < 2 ^ 31 ∧ q.2 < 2 ^ 31) (hnd : (pairs.map Prod.snd).Nodup) (hrace : RaceFree pairs) :
    (∀ q ∈ pairs, ∀ k, ∀ i < p.numel, after (p.elem k q.2 i) = before (p.elem k q.1 i)) ∧
      ∀ a, (∀ q ∈ pairs, ∀ k, ∀ i < p.numel, a ≠ p.elem k q.2 i) → after a = before a := by
  obtain ⟨s, s', rfl, rfl, hrun⟩ := (copies_iff hfit).mp h
  have hmem := mem_moves hm hnum hlen hfit hin
  have hpair : ∀ q ∈ pairs, ∀ q' ∈ pairs, q.2 = q'.2 → q = q' := fun q hq q' hq' =>
    List.inj_on_of_nodup_map hnd hq hq'
  obtain ⟨hcopied, hkept⟩ := copied (S := Set.univ) (fun _ _ _ _ => trivial)
    (fun t t' c hc c' hc' _ heq => by
      obtain ⟨q, k, i, hq, hi, _, rfl⟩ := (hmem t c).mp hc
      obtain ⟨q', k', i', hq', hi', _, rfl⟩ := (hmem t' c').mp hc'
      obtain ⟨rfl, hb, rfl⟩ := elem_inj hi hi' heq
      rw [hpair q (List.mem_of_getElem? hq) q' (List.mem_of_getElem? hq') hb])
    (fun t t' c hc c' hc' _ heq => by
      obtain ⟨q, k, i, hq, hi, _, rfl⟩ := (hmem t c).mp hc
      obtain ⟨q', k', i', hq', hi', _, rfl⟩ := (hmem t' c').mp hc'
      obtain ⟨rfl, hb, rfl⟩ := elem_inj hi hi' heq
      show s.mem (p.elem k q'.1 i) = s.mem (p.elem k q'.2 i)
      rw [hrace q (List.mem_of_getElem? hq) q' (List.mem_of_getElem? hq') hb])
    rfl hrun
  constructor
  · intro q hq k i hi
    obtain ⟨j, hj⟩ := List.mem_iff_getElem?.mp hq
    have hlt := (List.getElem?_eq_some_iff.mp hj).1
    have hpos : 0 < p.threads := by
      rw [threads_eq (numel_eq hi) (by have := numel_eq hi; omega)]
      exact Nat.lt_min.mpr ⟨by norm_num, Nat.zero_lt_of_lt hi⟩
    exact hcopied (⟨j, hnum ▸ hlt⟩, ⟨i % p.threads, Nat.mod_lt i hpos⟩) _
      ((hmem _ _).mpr ⟨q, k, i, hj, hi, rfl, rfl⟩) trivial
  · intro a hfree
    refine hkept a trivial fun t c hc hca => ?_
    obtain ⟨q, k, i, hq, hi, _, rfl⟩ := (hmem t c).mp hc
    exact hfree q (List.mem_of_getElem? hq) k i hi hca.symm

/-! ## Copies that go wrong -/

theorem loop_zero (hfit : p.numelPerBlock + 256 ≤ 2 ^ 31) (hpos : 0 < p.numel) :
    0 < p.threads ∧ ∃ l, p.loop 0 = 0 :: l ∧ ∀ i ∈ l, i ≠ 0 ∧ i < p.numel := by
  have hthreads : 0 < p.threads := by
    rw [threads_eq (numel_eq hpos) (by have := numel_eq hpos; omega)]
    exact Nat.lt_min.mpr ⟨by norm_num, hpos⟩
  obtain ⟨n, hn⟩ := Nat.exists_eq_add_of_lt hpos
  rw [Nat.zero_add] at hn
  have hloop : p.loop 0 = 0 :: loopNat (n + 1) p.threads n (0 + p.threads) := by
    show loopNat p.numel p.threads p.numel 0 = _
    rw [hn]
    rfl
  have hnd : (p.loop 0).Nodup := nodup_strided hthreads
  rw [hloop, List.nodup_cons] at hnd
  refine ⟨hthreads, _, hloop, fun i hi => ⟨fun h0 => hnd.1 (h0 ▸ hi), ?_⟩⟩
  exact ((mem_loop hthreads).mp (hloop ▸ List.mem_cons_of_mem 0 hi)).1

theorem moves_zero (hfit : p.numelPerBlock + 256 ≤ 2 ^ 31) (hpos : 0 < p.numel) (j : Fin p.numPairs)
    {q : Nat × Nat} (hread : blockPair blockMapping j = ((q.1 : Int), (q.2 : Int)))
    (hq : q.1 < 2 ^ 31 ∧ q.2 < 2 ^ 31) :
    ∃ l, p.moves blockMapping (j, ⟨0, (loop_zero hfit hpos).1⟩) = p.copyOf q .key 0 :: l ∧
      ∀ d ∈ l, d.2 ≠ p.elem .key q.2 0 := by
  obtain ⟨_, l, hloop, hl⟩ := loop_zero hfit hpos
  rw [moves_eq (t := (j, ⟨0, _⟩)) hread hfit hq]
  dsimp only
  rw [hloop, List.map_cons, List.cons_append]
  refine ⟨_, rfl, fun d hd heq => ?_⟩
  rcases List.mem_append.mp hd with hd | hd
  · obtain ⟨i, hi, rfl⟩ := List.mem_map.mp hd
    obtain ⟨_, _, h0⟩ := elem_inj (hl i hi).2 hpos heq
    exact (hl i hi).1 h0
  · obtain ⟨i, _, rfl⟩ := List.mem_map.mp hd
    cases (Prod.mk.inj heq).1

/-- A pair may copy what another pair has stored in its source. -/
theorem exists_race (hm : HasPairs blockMapping pairs) (hnum : p.numPairs = pairs.length)
    (hlen : pairs.length ≤ 2 ^ 30)
    (hfit : p.numelPerBlock + 256 ≤ 2 ^ 31) (hin : ∀ q ∈ pairs, q.1 < 2 ^ 31 ∧ q.2 < 2 ^ 31)
    (hnd : (pairs.map Prod.snd).Nodup) (hpos : 0 < p.numel) {r q : Nat × Nat} (hr : r ∈ pairs) (hq : q ∈ pairs)
    (hrq : r.1 = q.2) (hne : q.1 ≠ q.2) (before : CacheCell → V) :
    ∃ after, p.Copies blockMapping before after ∧ after (p.elem .key r.2 0) = before (p.elem .key q.1 0) := by
  obtain ⟨j, hj⟩ := List.mem_iff_getElem?.mp hr
  obtain ⟨j', hj'⟩ := List.mem_iff_getElem?.mp hq
  have hlt := (List.getElem?_eq_some_iff.mp hj).1
  have hlt' := (List.getElem?_eq_some_iff.mp hj').1
  obtain ⟨hthreads, _⟩ := loop_zero hfit hpos
  obtain ⟨l, hl, hloff⟩ :=
    moves_zero hfit hpos ⟨j, hnum ▸ hlt⟩ (blockPair_eq hm (hlt.trans_le hlen) hj) (hin r hr)
  obtain ⟨l', hl', _⟩ :=
    moves_zero hfit hpos ⟨j', hnum ▸ hlt'⟩ (blockPair_eq hm (hlt'.trans_le hlen) hj') (hin q hq)
  have hthread : ((⟨j, hnum ▸ hlt⟩, ⟨0, hthreads⟩) : Fin p.numPairs × Fin p.threads) ≠
    (⟨j', hnum ▸ hlt'⟩, ⟨0, hthreads⟩) := by
    intro heq
    obtain rfl : j = j' := congrArg (fun t => t.1.val) heq
    rw [hj] at hj'
    obtain rfl := Option.some.inj hj'
    exact hne hrq
  obtain ⟨s', hrun, hcell⟩ := exists_runs_chain (fun _ => ()) hthread hl hl'
    (congrArg (p.elem .key · 0) hrq) hloff (fun u hu d hd heq => by
      -- no other thread has the cell
      obtain ⟨q', k, i, hq', hi, hmod, rfl⟩ := (mem_moves hm hnum hlen hfit hin u d).mp hd
      obtain ⟨_, hb, rfl⟩ := elem_inj hi hpos heq
      have hqr := List.inj_on_of_nodup_map hnd (List.mem_of_getElem? hq') hr hb
      subst hqr
      have hidx : u.1.val = j := by
        have hnd' := hnd.of_map
        exact (List.getElem?_inj (by exact hnum ▸ u.1.isLt) hnd').mp (hq'.trans hj.symm)
      refine hu (Prod.ext (Fin.ext hidx) (Fin.ext ?_))
      rw [← hmod]
      exact Nat.zero_mod _)
    { reg := fun _ => before (.key, 0), mem := before }
  exact ⟨s'.mem, (copies_iff hfit).mpr ⟨_, s', rfl, rfl, hrun⟩, hcell⟩

/-- A pair that is read outside `block_mapping` may store last. -/
theorem exists_late (hfit : p.numelPerBlock + 256 ≤ 2 ^ 31) (hpos : 0 < p.numel) (j : Fin p.numPairs)
    {q : Nat × Nat} (hread : blockPair blockMapping j = ((q.1 : Int), (q.2 : Int)))
    (hq : q.1 < 2 ^ 31 ∧ q.2 < 2 ^ 31) (before : CacheCell → V) :
    ∃ after, p.Copies blockMapping before after ∧ after (p.elem .key q.2 0) = before (p.elem .key q.1 0) := by
  obtain ⟨l, hl, hloff⟩ := moves_zero hfit hpos j hread hq
  obtain ⟨s', hrun, hcell⟩ := exists_runs_late (fun _ => ()) hl hloff
    { reg := fun _ => before (.key, 0), mem := before }
  exact ⟨s'.mem, (copies_iff hfit).mpr ⟨_, s', rfl, rfl, hrun⟩, hcell⟩

/-- A counter that passes the largest `int` never ends its loop. -/
theorem not_copies (hnum : 0 < p.numPairs) (hfit : 2 ^ 31 < p.numelPerBlock + 256)
    (hlt : p.numelPerBlock < 2 ^ 31) :
    ¬p.Copies blockMapping before after := by
  rintro ⟨moves, hmoves, _⟩
  have hn : p.numelPerBlock = (p.numel : Nat) := (Int.toNat_of_nonneg (by omega)).symm
  have hthreads : p.threads = 256 := by
    rw [threads_eq hn (by omega)]
    exact Nat.min_eq_left (by omega)
  obtain ⟨fuel, is, his, _⟩ := hmoves (⟨0, hnum⟩, ⟨0, by rw [hthreads]; norm_num⟩)
  have hnone := forLoop_eq_none p.numelPerBlock 256 (by norm_num) hfit fuel 0 (dvd_zero _)
  dsimp only at his
  rw [hthreads] at his
  exact absurd (hnone.symm.trans his) (by simp)

end

end CopyBlocksLayer

/-! ## Blocks of arrays -/

/-- The caches of a layer that the host accepts. -/
structure BlockLayout where
  dtype : Dtype
  numBlocks : Nat
  keyBlock : List Nat
  valueBlock : List Nat
  supported : ∃ text, dtype.cacheDtypeStr = .ok text
  nonempty : 0 < numBlocks
  /-- A dimension is an `int`. -/
  fits : numBlocks < 2 ^ 31
  same : keyBlock.prod = valueBlock.prod

namespace BlockLayout
variable (g : BlockLayout)

def numel : Nat := g.keyBlock.prod

/-- Row-contiguous caches of this layout. -/
structure Holds {V : Type} (kc vc : TypedArray V) : Prop where
  dtypes : kc.dtype = g.dtype ∧ vc.dtype = g.dtype
  keyShape : kc.array.shape = g.numBlocks :: g.keyBlock
  valueShape : vc.array.shape = g.numBlocks :: g.valueBlock
  keyContiguous : kc.array.RowContiguous
  valueContiguous : vc.array.RowContiguous

end BlockLayout

/-- The blocks of `after` are those of `before` with all pairs copied at once. -/
structure Simultaneous {V : Type} (pairs : List (Nat × Nat)) (numBlocks : Nat) (block : List Nat)
    (before after : MlxArray V) : Prop where
  copied : ∀ q ∈ pairs, ∀ idx, List.Forall₂ (· < ·) idx block → after.get (q.2 :: idx) = before.get (q.1 :: idx)
  kept : ∀ b < numBlocks, (∀ q ∈ pairs, q.2 ≠ b) → ∀ idx, List.Forall₂ (· < ·) idx block →
    after.get (b :: idx) = before.get (b :: idx)

/-- The arrays of a layer after the kernel. -/
def outputs {V : Type} (kc vc : MlxArray V) (after : CacheCell → V) : MlxArray V × MlxArray V :=
  ({ kc with data := fun i => after (.key, i) }, { vc with data := fun i => after (.value, i) })

/-- The kernel ends, and in every order of its threads all pairs are copied at once. -/
def CopiesAtOnce {V : Type} (layer : CopyBlocksLayer) (blockMapping : MlxArray Int) (pairs : List (Nat × Nat))
    (g : BlockLayout) (kc vc : MlxArray V) : Prop :=
  (∃ after, layer.Copies blockMapping (cells kc vc) after) ∧
    ∀ after, layer.Copies blockMapping (cells kc vc) after →
      Simultaneous pairs g.numBlocks g.keyBlock kc (outputs kc vc after).1 ∧
      Simultaneous pairs g.numBlocks g.valueBlock vc (outputs kc vc after).2

theorem place_block {V : Type} {a : MlxArray V} {n : Nat} {block : List Nat} (hs : a.shape = n :: block)
    (hc : a.RowContiguous) {b : Nat} (hb : b < n) {idx : List Nat} (hidx : List.Forall₂ (· < ·) idx block) :
    place a.strides (b :: idx) = (b * block.prod + flat block idx : Nat) := by
  rw [hc _ (by rw [hs]; exact .cons hb hidx), hs, flat]

theorem simultaneous_iff {V : Type} {pairs : List (Nat × Nat)} {n : Nat} {block : List Nat} {a : MlxArray V}
    (a' : MlxArray V) (hs : a.shape = n :: block) (hc : a.RowContiguous) (hstr : a'.strides = a.strides)
    (hin : ∀ q ∈ pairs, q.1 < n ∧ q.2 < n) : Simultaneous pairs n block a a' ↔
      (∀ q ∈ pairs, ∀ i < block.prod, a'.data (q.2 * block.prod + i : Nat) =
        a.data (q.1 * block.prod + i : Nat)) ∧ ∀ b < n, (∀ q ∈ pairs, q.2 ≠ b) → ∀ i < block.prod,
        a'.data (b * block.prod + i : Nat) = a.data (b * block.prod + i : Nat) := by
  have hget : ∀ b < n, ∀ idx, List.Forall₂ (· < ·) idx block →
      a.get (b :: idx) = a.data (b * block.prod + flat block idx : Nat) ∧
      a'.get (b :: idx) = a'.data (b * block.prod + flat block idx : Nat) := by
    intro b hb idx hidx
    rw [MlxArray.get, MlxArray.get, hstr, place_block hs hc hb hidx]
    exact ⟨rfl, rfl⟩
  constructor
  · intro h
    refine ⟨fun q hq i hi => ?_, fun b hb hfree i hi => ?_⟩
    · obtain ⟨idx, hidx, rfl⟩ := exists_index hi
      rw [← (hget _ (hin q hq).2 idx hidx).2, ← (hget _ (hin q hq).1 idx hidx).1]
      exact h.copied q hq idx hidx
    · obtain ⟨idx, hidx, rfl⟩ := exists_index hi
      rw [← (hget b hb idx hidx).2, ← (hget b hb idx hidx).1]
      exact h.kept b hb hfree idx hidx
  · rintro ⟨hcopied, hkept⟩
    refine ⟨fun q hq idx hidx => ?_, fun b hb hfree idx hidx => ?_⟩
    · rw [(hget _ (hin q hq).2 idx hidx).2, (hget _ (hin q hq).1 idx hidx).1]
      exact hcopied q hq _ (flat_lt hidx)
    · rw [(hget b hb idx hidx).2, (hget b hb idx hidx).1]
      exact hkept b hb hfree _ (flat_lt hidx)

namespace BlockLayout
variable {V : Type} {g : BlockLayout} {pairs : List (Nat × Nat)} {p : CopyBlocksLayer}
  {blockMapping : MlxArray Int} {kc vc : TypedArray V}

theorem atOnce_same (h : g.Holds kc vc) (hin : ∀ q ∈ pairs, q.1 < g.numBlocks ∧ q.2 < g.numBlocks)
    (hsafe : g.numel = 0 ∨ AllSelf pairs) {after : CacheCell → V} (heq : after = cells kc.array vc.array) :
    Simultaneous pairs g.numBlocks g.keyBlock kc.array (outputs kc.array vc.array after).1 ∧
      Simultaneous pairs g.numBlocks g.valueBlock vc.array (outputs kc.array vc.array after).2 := by
  subst heq
  have hcopied : ∀ {a : MlxArray V} {n : Nat}, n = g.numel → ∀ q ∈ pairs, ∀ i < n,
      a.data (q.2 * n + i : Nat) = a.data (q.1 * n + i : Nat) := by
    rintro a n rfl q hq i hi
    rcases hsafe with h0 | hself
    · rw [h0] at hi
      exact absurd hi (Nat.not_lt_zero i)
    · rw [hself q hq]
  exact ⟨(simultaneous_iff _ h.keyShape h.keyContiguous rfl hin).mpr ⟨hcopied rfl, fun _ _ _ _ _ => rfl⟩,
    (simultaneous_iff _ h.valueShape h.valueContiguous rfl hin).mpr ⟨hcopied g.same.symm, fun _ _ _ _ _ => rfl⟩⟩

theorem copies_nil (p : CopyBlocksLayer) (h0 : p.numPairs = 0) {before after : CacheCell → V} :
    p.Copies blockMapping before after ↔ after = before := by
  have hempty : ∀ t : Fin p.numPairs × Fin p.threads, False := fun t => Nat.not_lt_zero t.1.val (h0 ▸ t.1.isLt)
  constructor
  · rintro ⟨moves, _, s, s', rfl, rfl, hrun⟩
    cases hrun with
    | done => rfl
    | step hstep =>
      cases hstep with
      | @act t => exact (hempty t).elim
      | shuffle hr => cases hr
  · rintro rfl
    let s : State (Fin p.numPairs × Fin p.threads) V CacheCell V :=
      { reg := fun t => (hempty t).elim, mem := after }
    exact ⟨fun t => (hempty t).elim, fun t => (hempty t).elim, s, s, rfl, rfl,
      Runs.done s ⟨fun t => (hempty t).elim, fun _ => rfl⟩⟩

section
variable (hn : p.numelPerBlock = int32 g.numel) (hnum : p.numPairs = pairs.length) (h : g.Holds kc vc)
  (hm : HasPairs blockMapping pairs) (hin : ∀ q ∈ pairs, q.1 < g.numBlocks ∧ q.2 < g.numBlocks)
  (hnd : (pairs.map Prod.snd).Nodup)
include hn hnum h hm hin hnd

theorem atOnce_of_raceFree (hlen : pairs.length ≤ 2 ^ 30) (hfit : p.numelPerBlock + 256 ≤ 2 ^ 31)
    (hrace : RaceFree pairs) (hsize : g.numel < 2 ^ 31) {after : CacheCell → V}
    (hafter : p.Copies blockMapping (cells kc.array vc.array) after) :
    Simultaneous pairs g.numBlocks g.keyBlock kc.array (outputs kc.array vc.array after).1 ∧
      Simultaneous pairs g.numBlocks g.valueBlock vc.array (outputs kc.array vc.array after).2 := by
  have hin' : ∀ q ∈ pairs, q.1 < 2 ^ 31 ∧ q.2 < 2 ^ 31 := fun q hq =>
    ⟨(hin q hq).1.trans g.fits, (hin q hq).2.trans g.fits⟩
  obtain ⟨hcopied, hkept⟩ := hafter.raceFree hm hnum hlen hfit hin' hnd hrace
  have hnumel : p.numel = g.numel := by rw [CopyBlocksLayer.numel, hn, int32_natCast hsize, Int.toNat_natCast]
  simp only [CopyBlocksLayer.elem, hnumel] at hcopied hkept
  have hother : ∀ k, ∀ b < g.numBlocks, (∀ q ∈ pairs, q.2 ≠ b) → ∀ i < g.numel,
      after (k, (b * g.numel + i : Nat)) = cells kc.array vc.array (k, (b * g.numel + i : Nat)) := by
    intro k b _ hfree i hi
    refine hkept _ fun q hq k' i' hi' heq => hfree q hq ?_
    exact (digit_inj hi hi' (Int.ofNat_inj.mp (Prod.mk.inj heq).2)).1.symm
  constructor
  · exact (simultaneous_iff (outputs kc.array vc.array after).1 h.keyShape h.keyContiguous rfl hin).mpr
      ⟨fun q hq i hi => hcopied q hq .key i hi, fun b hb hfree i hi => hother .key b hb hfree i hi⟩
  · have hsame : g.valueBlock.prod = g.numel := g.same.symm
    refine (simultaneous_iff (outputs kc.array vc.array after).2 h.valueShape h.valueContiguous rfl hin).mpr ?_
    rw [hsame]
    exact ⟨fun q hq i hi => hcopied q hq .value i hi, fun b hb hfree i hi => hother .value b hb hfree i hi⟩

theorem copiesAtOnce_of_safe (hsafe : SafeCopies g.numel pairs) :
    CopiesAtOnce p blockMapping pairs g kc.array vc.array := by
  have hin' : ∀ q ∈ pairs, q.1 < 2 ^ 31 ∧ q.2 < 2 ^ 31 := fun q hq =>
    ⟨(hin q hq).1.trans g.fits, (hin q hq).2.trans g.fits⟩
  rw [SafeCopies, ← hn] at hsafe
  rcases hsafe with ⟨hneg, hsafe⟩ | ⟨_, hnil | ⟨hlen, hfit, hrace, hsize⟩⟩
  · -- no element is copied
    have hfit : p.numelPerBlock + 256 ≤ 2 ^ 31 := by omega
    refine ⟨CopyBlocksLayer.exists_copies blockMapping hfit _, fun after hafter =>
      atOnce_same h hin hsafe (funext fun a => ?_)⟩
    refine hafter.frozen hfit fun t c hc _ => ?_
    rw [CopyBlocksLayer.moves, CopyBlocksLayer.loop, Int.toNat_of_nonpos hneg] at hc
    exact absurd hc List.not_mem_nil
  · have h0 : p.numPairs = 0 := by rw [hnum, hnil]; rfl
    refine ⟨⟨_, (copies_nil p h0).mpr rfl⟩, fun after hafter => ?_⟩
    exact atOnce_same h hin (Or.inr fun q hq => absurd (hnil ▸ hq) List.not_mem_nil) ((copies_nil p h0).mp hafter)
  · refine ⟨CopyBlocksLayer.exists_copies blockMapping hfit _, fun after hafter => ?_⟩
    rcases hsize with hsize | hself
    · exact atOnce_of_raceFree hn hnum h hm hin hnd hlen hfit hrace hsize hafter
    · refine atOnce_same h hin (Or.inr hself) (funext fun a => ?_)
      obtain ⟨hcopied, hkept⟩ := hafter.raceFree hm hnum hlen hfit hin' hnd hrace
      by_cases hex : ∃ q ∈ pairs, ∃ k, ∃ i < p.numel, a = p.elem k q.2 i
      · obtain ⟨q, hq, k, i, hi, rfl⟩ := hex
        rw [hcopied q hq k i hi, hself q hq]
      · exact hkept a fun q hq k i hi ha => hex ⟨q, hq, k, i, hi, ha⟩

end

/-! ## Contents that tell -/

/-- An array of pairs, in memory that holds `outside` before it. -/
def mappingOf (pairs : List (Nat × Nat)) (outside : Int → Int) : MlxArray Int :=
  MlxArray.ofData [pairs.length, 2] fun z =>
    if z < 0 then outside z
    else if z % 2 = 0 then (pairs.getD (z.toNat / 2) (0, 0)).1 else (pairs.getD (z.toNat / 2) (0, 0)).2

theorem hasPairs_mappingOf (pairs : List (Nat × Nat)) (outside : Int → Int) :
    HasPairs (mappingOf pairs outside) pairs := by
  refine ⟨rfl, MlxArray.ofData_rowContiguous _ _, fun j q hq => ?_⟩
  have hlt := (List.getElem?_eq_some_iff.mp hq).1
  have hget : ∀ i < 2, (mappingOf pairs outside).get [j, i] = (mappingOf pairs outside).data (2 * j + i : Nat) :=
    fun i hi => get_pair rfl (MlxArray.ofData_rowContiguous _ _) hlt hi
  have hD : pairs.getD j (0, 0) = q := by rw [List.getD_eq_getElem?_getD, hq]; rfl
  rw [hget 0 (by norm_num), hget 1 (by norm_num)]
  have h0 : ¬((2 * j + 0 : Nat) : Int) < 0 := by omega
  have h1 : ¬((2 * j + 1 : Nat) : Int) < 0 := by omega
  have he : ((2 * j + 0 : Nat) : Int) % 2 = 0 := by omega
  have ho : ¬((2 * j + 1 : Nat) : Int) % 2 = 0 := by omega
  simp only [mappingOf, MlxArray.ofData, h0, h1, he, ho, if_true, if_false, Int.toNat_natCast]
  rw [show (2 * j + 0) / 2 = j by omega, show (2 * j + 1) / 2 = j by omega, hD]
  exact ⟨rfl, rfl⟩

/-- Caches whose keys are `v` at one place. -/
def cachesOf (g : BlockLayout) (x : Nat) (v w : V) : TypedArray V × TypedArray V :=
  (⟨g.dtype, MlxArray.ofData (g.numBlocks :: g.keyBlock) fun z => if z = x then v else w⟩,
    ⟨g.dtype, MlxArray.ofData (g.numBlocks :: g.valueBlock) fun _ => w⟩)

theorem holds_cachesOf (g : BlockLayout) (x : Nat) (v w : V) :
    g.Holds (cachesOf g x v w).1 (cachesOf g x v w).2 :=
  ⟨⟨rfl, rfl⟩, rfl, rfl, MlxArray.ofData_rowContiguous _ _, MlxArray.ofData_rowContiguous _ _⟩

/-- The contents of the buffers then. -/
def contentsOf (g : BlockLayout) (x : Nat) (v w : V) : CacheCell → V :=
  cells (cachesOf g x v w).1.array (cachesOf g x v w).2.array

theorem contentsOf_self (g : BlockLayout) (x : Nat) (v w : V) : contentsOf g x v w (.key, x) = v := if_pos rfl

theorem contentsOf_of_ne (g : BlockLayout) {x y : Nat} (v w : V) (h : y ≠ x) : contentsOf g x v w (.key, y) = w :=
  if_neg fun he => h (Int.ofNat_inj.mp he)

section
variable (hn : p.numelPerBlock = int32 g.numel) (hnum : p.numPairs = pairs.length)
  (hin : ∀ q ∈ pairs, q.1 < g.numBlocks ∧ q.2 < g.numBlocks) (hnd : (pairs.map Prod.snd).Nodup)
  (hall : ∀ blockMapping, HasPairs blockMapping pairs → ∀ kc vc : TypedArray V, g.Holds kc vc →
    CopiesAtOnce p blockMapping pairs g kc.array vc.array)
include hin hall

theorem keys_after (hm : HasPairs blockMapping pairs) {x : Nat} {v w : V} {after : CacheCell → V}
    (hafter : p.Copies blockMapping (contentsOf g x v w) after) :
    (∀ q ∈ pairs, ∀ i < g.numel, after (.key, (q.2 * g.numel + i : Nat)) =
      contentsOf g x v w (.key, (q.1 * g.numel + i : Nat))) ∧
    ∀ b < g.numBlocks, (∀ q ∈ pairs, q.2 ≠ b) → ∀ i < g.numel, after (.key, (b * g.numel + i : Nat)) =
      contentsOf g x v w (.key, (b * g.numel + i : Nat)) := by
  have hholds := holds_cachesOf g x v w
  have hsim := ((hall blockMapping hm _ _ hholds).2 after hafter).1
  exact (simultaneous_iff (outputs (cachesOf g x v w).1.array (cachesOf g x v w).2.array after).1
    hholds.keyShape hholds.keyContiguous rfl hin).mp hsim

include hnum in
/-- Where only the start of a block is copied, its last element stays. -/
theorem size_of_atOnce {v w : V} (hne : v ≠ w) (hfit : p.numelPerBlock + 256 ≤ 2 ^ 31) (hlt : p.numel < g.numel)
    (hread : p.numel = 0 ∨ pairs.length ≤ 2 ^ 30) : AllSelf pairs := by
  by_contra hself
  have hex : ((pairs.toFinset).filter fun q => q.1 ≠ q.2).Nonempty := by
    simp only [AllSelf, not_forall] at hself
    obtain ⟨q, hq, hq'⟩ := hself
    exact ⟨q, Finset.mem_filter.mpr ⟨List.mem_toFinset.mpr hq, hq'⟩⟩
  -- the last destination that has another source
  obtain ⟨q, hq, hmax⟩ := Finset.exists_max_image _ Prod.snd hex
  obtain ⟨hq, hqne⟩ := Finset.mem_filter.mp hq
  have hq := List.mem_toFinset.mp hq
  have hin' : ∀ q ∈ pairs, q.1 < 2 ^ 31 ∧ q.2 < 2 ^ 31 := fun q hq =>
    ⟨(hin q hq).1.trans g.fits, (hin q hq).2.trans g.fits⟩
  have hm := hasPairs_mappingOf pairs fun _ => 0
  let x := q.2 * g.numel + (g.numel - 1)
  obtain ⟨after, hafter⟩ := CopyBlocksLayer.exists_copies (mappingOf pairs fun _ => 0) hfit
    (contentsOf g x v w)
  have hkept := hafter.frozen hfit (a := (.key, (x : Nat))) fun t c hc hca => by
    rcases hread with h0 | hlen
    · rw [CopyBlocksLayer.moves, CopyBlocksLayer.loop, show p.numelPerBlock.toNat = 0 from h0] at hc
      exact absurd hc List.not_mem_nil
    · obtain ⟨q', k, i, hq', hi, _, rfl⟩ := (CopyBlocksLayer.mem_moves hm hnum hlen hfit hin' t c).mp hc
      have hcell : q'.2 * p.numel + i = x := Int.ofNat_inj.mp (Prod.mk.inj hca).2
      -- a later destination, so its source is itself
      have hlater : q.2 < q'.2 := by
        by_contra hle
        have h1 : q'.2 * p.numel ≤ q.2 * p.numel := Nat.mul_le_mul_right _ (Nat.le_of_not_lt hle)
        have h2 : q.2 * (p.numel + 1) ≤ q.2 * g.numel := Nat.mul_le_mul_left _ hlt
        rw [Nat.mul_succ] at h2
        omega
      have hq'self : q'.1 = q'.2 := by
        by_contra hne'
        have hle := hmax q' (Finset.mem_filter.mpr ⟨List.mem_toFinset.mpr (List.mem_of_getElem? hq'), hne'⟩)
        omega
      show p.elem k q'.1 i = _
      rw [hq'self]
      exact hca
  have hcopied := (keys_after hin hall hm hafter).1 q hq (g.numel - 1) (by omega)
  have hsrc : q.1 * g.numel + (g.numel - 1) ≠ x := by
    intro heq
    exact hqne (digit_inj (by omega) (by omega) heq).1
  rw [contentsOf_of_ne g v w hsrc, hkept, contentsOf_self] at hcopied
  exact hne hcopied

include hnum hnd in
/-- Pairs after the first `2 ^ 30` are read outside `block_mapping`. -/
theorem length_of_atOnce {v w : V} (hne : v ≠ w) (hfit : p.numelPerBlock + 256 ≤ 2 ^ 31) (hpos : 0 < p.numel)
    (hnumel : 0 < g.numel) : pairs.length ≤ 2 ^ 30 := by
  by_contra hlen
  have hlen := Nat.lt_of_not_le hlen
  -- a wrong source for the first block
  obtain ⟨s, hs, hright, hfree⟩ : ∃ s < 2, (∀ q ∈ pairs, q.2 = 0 → q.1 * g.numel ≠ s * p.numel) ∧
      ((∀ q ∈ pairs, q.2 ≠ 0) → 0 ≠ s * p.numel) := by
    by_cases h0 : ∃ q ∈ pairs, q.2 = 0 ∧ q.1 ≠ 0
    · obtain ⟨q, hq, hq2, hq1⟩ := h0
      refine ⟨0, by norm_num, fun q' hq' hq'2 => ?_, fun hno => absurd hq2 (hno q hq)⟩
      obtain rfl : q' = q := List.inj_on_of_nodup_map hnd hq' hq (hq'2.trans hq2.symm)
      rw [Nat.zero_mul]
      exact (Nat.mul_pos (Nat.pos_of_ne_zero hq1) hnumel).ne'
    · refine ⟨1, by norm_num, fun q hq hq2 => ?_, fun _ => by omega⟩
      obtain h1 : q.1 = 0 := by
        by_contra hq1
        exact h0 ⟨q, hq, hq2, hq1⟩
      rw [h1]
      omega
  let outside : Int → Int := fun z => if z % 2 = 0 then s else 0
  have hm := hasPairs_mappingOf pairs outside
  have hj : 2 ^ 30 < p.numPairs := hnum ▸ hlen
  have hread : blockPair (mappingOf pairs outside) (2 ^ 30) = ((s : Int), ((0 : Nat) : Int)) := by
    have h0 : int32 ((2 ^ 30 : Nat) : Int) = 2 ^ 30 := int32_natCast (by norm_num)
    have h1 : int32 (2 * 2 ^ 30) = -2 ^ 31 := by decide
    have h2 : int32 (2 * 2 ^ 30 + 1) = -2 ^ 31 + 1 := by decide
    rw [blockPair, h0, h1, h2]
    exact Prod.ext rfl rfl
  obtain ⟨after, hafter, hcell⟩ := CopyBlocksLayer.exists_late (q := (s, 0)) hfit hpos ⟨2 ^ 30, hj⟩ hread
    ⟨hs.trans (by norm_num), by norm_num⟩ (contentsOf g (s * p.numel) v w)
  obtain ⟨hcopied, hkept⟩ := keys_after hin hall hm hafter
  have hfirst : after (.key, (0 * g.numel + 0 : Nat)) = v := by
    rw [Nat.zero_mul]
    simp only [CopyBlocksLayer.elem, Nat.zero_mul, Nat.add_zero] at hcell
    rw [hcell]
    exact contentsOf_self g _ v w
  apply hne
  rw [← hfirst]
  by_cases hdst : ∃ q ∈ pairs, q.2 = 0
  · obtain ⟨q, hq, hq2⟩ := hdst
    have hcopy := hcopied q hq 0 hnumel
    rw [hq2] at hcopy
    rw [hcopy]
    exact contentsOf_of_ne g v w (hright q hq hq2)
  · have hno : ∀ q ∈ pairs, q.2 ≠ 0 := fun q hq h0 => hdst ⟨q, hq, h0⟩
    rw [hkept 0 g.nonempty hno 0 hnumel]
    apply contentsOf_of_ne g v w
    rw [Nat.zero_mul]
    exact hfree hno

include hn hnum hnd in
theorem raceFree_of_atOnce {v w : V} (hne : v ≠ w) (hlen : pairs.length ≤ 2 ^ 30)
    (hfit : p.numelPerBlock + 256 ≤ 2 ^ 31) (hpos : 0 < p.numel) (hsize : g.numel < 2 ^ 31) : RaceFree pairs := by
  intro r hr q hq hrq
  by_contra hself
  have hin' : ∀ q ∈ pairs, q.1 < 2 ^ 31 ∧ q.2 < 2 ^ 31 := fun q hq =>
    ⟨(hin q hq).1.trans g.fits, (hin q hq).2.trans g.fits⟩
  have hnumel : p.numel = g.numel := by rw [CopyBlocksLayer.numel, hn, int32_natCast hsize, Int.toNat_natCast]
  have hm := hasPairs_mappingOf pairs fun _ => 0
  obtain ⟨after, hafter, hcell⟩ := CopyBlocksLayer.exists_race hm hnum hlen hfit hin' hnd hpos hr hq hrq hself
    (contentsOf g (q.1 * g.numel) v w)
  have hcopied := (keys_after hin hall hm hafter).1 r hr 0 (hnumel ▸ hpos)
  simp only [CopyBlocksLayer.elem, hnumel, Nat.add_zero] at hcell hcopied
  rw [hcell, contentsOf_self, hrq] at hcopied
  apply hne
  rw [hcopied]
  apply contentsOf_of_ne g v w
  exact fun heq => hself (Nat.eq_of_mul_eq_mul_right (hnumel ▸ hpos) heq).symm

include hn hnum hnd in
theorem safe_of_copiesAtOnce [Nontrivial V] : SafeCopies g.numel pairs := by
  obtain ⟨v, w, hne⟩ := exists_pair_ne V
  have hrange := (int32_range g.numel).2
  have hsmall := int32_natCast_le g.numel
  rw [SafeCopies]
  rw [← hn] at hrange hsmall ⊢
  rcases le_or_gt p.numelPerBlock 0 with hneg | hpos
  · refine Or.inl ⟨hneg, ?_⟩
    rcases Nat.eq_zero_or_pos g.numel with h0 | hnumel
    · exact Or.inl h0
    · have hzero : p.numel = 0 := Int.toNat_of_nonpos hneg
      exact Or.inr (size_of_atOnce hnum hin hall hne (by omega) (hzero ▸ hnumel) (Or.inl hzero))
  · refine Or.inr ⟨hpos, ?_⟩
    rcases eq_or_ne pairs [] with hnil | hsome
    · exact Or.inl hnil
    have hnumel : 0 < p.numel := by
      rw [CopyBlocksLayer.numel]
      omega
    have hle : p.numel ≤ g.numel := by
      rw [CopyBlocksLayer.numel]
      omega
    have hfit : p.numelPerBlock + 256 ≤ 2 ^ 31 := by
      by_contra hfit
      obtain ⟨after, hafter⟩ := (hall _ (hasPairs_mappingOf pairs fun _ => 0) _ _ (holds_cachesOf g 0 v w)).1
      exact CopyBlocksLayer.not_copies (hnum ▸ List.length_pos_of_ne_nil hsome) (by omega) hrange hafter
    have hlen := length_of_atOnce hnum hin hnd hall hne hfit hnumel (hnumel.trans_le hle)
    refine Or.inr ⟨hlen, hfit, ?_⟩
    rcases Nat.lt_or_ge g.numel (2 ^ 31) with hsize | hsize
    · exact ⟨raceFree_of_atOnce hn hnum hin hnd hall hne hlen hfit hnumel hsize, Or.inl hsize⟩
    · have hlt : p.numel < g.numel := by
        rw [CopyBlocksLayer.numel]
        omega
      have hself := size_of_atOnce hnum hin hall hne hfit hlt (Or.inr hlen)
      exact ⟨fun _ _ q hq _ => hself q hq, Or.inr hself⟩

end

/-! ## The call -/

/-- The primitive that the host makes for a layer. -/
def layer (g : BlockLayout) (numPairs : Nat) : CopyBlocksLayer where
  kernelName := "copy_blocks_" ++ (match g.dtype.cacheDtypeStr with | .ok text => text | .error text => text)
  numelPerBlock := int32 g.numel
  numPairs

theorem layer_numelPerBlock (g : BlockLayout) (n : Nat) : (g.layer n).numelPerBlock = int32 g.numel := by
  dsimp only [layer]

theorem layer_numPairs (g : BlockLayout) (n : Nat) : (g.layer n).numPairs = n := rfl

theorem copyBlocksLayer_eq (h : g.Holds kc vc) (n : Nat) : copyBlocksLayer n kc vc = .ok (g.layer n) := by
  obtain ⟨text, htext⟩ := g.supported
  have hk : kc.array.dim 0 = g.numBlocks := by rw [MlxArray.dim, h.keyShape]; rfl
  have hv : vc.array.dim 0 = g.numBlocks := by rw [MlxArray.dim, h.valueShape]; rfl
  have hks : kc.array.size / g.numBlocks = g.numel := by
    rw [MlxArray.size, h.keyShape, List.prod_cons, Nat.mul_div_cancel_left _ g.nonempty, numel]
  have hvs : vc.array.size / g.numBlocks = g.numel := by
    rw [MlxArray.size, h.valueShape, List.prod_cons, Nat.mul_div_cancel_left _ g.nonempty, numel, g.same]
  have hne := g.nonempty.ne'
  rw [copyBlocksLayer, throwIf_bind, hk, hv, hks, hvs, h.keyShape, h.valueShape]
  refine ⟨by simp [hne], ?_⟩
  rw [throwIf_bind, h.dtypes.1, h.dtypes.2, htext]
  refine ⟨by simp, ?_⟩
  rw [layer, htext]
  rfl

theorem mapM_ok {α β γ : Type} {f : α → Except String β} {pre : γ → α} {r : γ → β} : ∀ {l : List γ},
    (∀ a ∈ l, f (pre a) = .ok (r a)) → (l.map pre).mapM f = .ok (l.map r) := by
  intro l
  induction l with
  | nil => exact fun _ => rfl
  | cons a l ih =>
    intro h
    rw [List.map_cons, List.mapM_cons, h a List.mem_cons_self, ih fun b hb => h b (List.mem_cons_of_mem a hb)]
    rfl

theorem copyBlocks_eq (caches : List (BlockLayout × TypedArray V × TypedArray V))
    (h : ∀ c ∈ caches, c.1.Holds c.2.1 c.2.2) (hm : HasPairs blockMapping pairs) :
    copyBlocks (caches.map fun c => c.2.1) (caches.map fun c => c.2.2) blockMapping =
      .ok (caches.map fun c => c.1.layer pairs.length) := by
  have hdim : blockMapping.dim 0 = pairs.length ∧ blockMapping.dim 1 = 2 := by
    rw [MlxArray.dim, MlxArray.dim, hm.shape]
    exact ⟨rfl, rfl⟩
  rw [copyBlocks, throwIf_bind]
  refine ⟨by simp, ?_⟩
  rw [throwIf_bind, hdim.1, hdim.2, hm.shape]
  refine ⟨by simp, ?_⟩
  rw [List.zip_map']
  exact mapM_ok fun c hc => copyBlocksLayer_eq (h c hc) pairs.length

end BlockLayout

/-- The layers of a call are copied at once if and only if the copies of every layer are
    safe: the host accepts the caches, the kernels end, and all orders of their threads
    give every destination what its source held before. -/
theorem copyBlocks_simultaneous_iff {V : Type} [Nontrivial V] {layouts : List BlockLayout}
    {pairs : List (Nat × Nat)}
    (hin : ∀ g ∈ layouts, ∀ q ∈ pairs, q.1 < g.numBlocks ∧ q.2 < g.numBlocks) (hnd : (pairs.map Prod.snd).Nodup) :
    (∀ blockMapping, HasPairs blockMapping pairs →
      ∀ caches : List (BlockLayout × TypedArray V × TypedArray V), caches.map Prod.fst = layouts →
      (∀ c ∈ caches, c.1.Holds c.2.1 c.2.2) →
      ∃ layers, copyBlocks (caches.map fun c => c.2.1) (caches.map fun c => c.2.2) blockMapping = .ok layers ∧
        List.Forall₂ (fun c layer => CopiesAtOnce layer blockMapping pairs c.1 c.2.1.array c.2.2.array)
          caches layers) ↔ ∀ g ∈ layouts, SafeCopies g.numel pairs := by
  classical
  constructor
  · intro hall g hg
    apply BlockLayout.safe_of_copiesAtOnce (V := V) (g.layer_numelPerBlock pairs.length)
      (g.layer_numPairs pairs.length) (hin g hg) hnd
    intro blockMapping hm kc vc hholds
    obtain ⟨v⟩ := (inferInstance : Nonempty V)
    let cache (g' : BlockLayout) : BlockLayout × TypedArray V × TypedArray V :=
      if g' = g then (g, kc, vc) else (g', BlockLayout.cachesOf g' 0 v v)
    have hfst : ∀ g', (cache g').1 = g' := fun g' => by
      dsimp only [cache]
      split
      · next h => exact h.symm
      · rfl
    have hall' : ∀ c ∈ layouts.map cache, c.1.Holds c.2.1 c.2.2 := by
      intro c hc
      obtain ⟨g', _, rfl⟩ := List.mem_map.mp hc
      dsimp only [cache]
      split
      · exact hholds
      · exact BlockLayout.holds_cachesOf g' 0 v v
    obtain ⟨layers, heq, hlayers⟩ := hall blockMapping hm (layouts.map cache)
      (by rw [List.map_map]; exact (List.map_congr_left fun g' _ => hfst g').trans (List.map_id _)) hall'
    rw [BlockLayout.copyBlocks_eq _ hall' hm] at heq
    obtain rfl := Except.ok.inj heq
    rw [List.forall₂_map_right_iff, List.forall₂_same] at hlayers
    have hmem : (g, kc, vc) ∈ layouts.map cache := List.mem_map.mpr ⟨g, hg, if_pos rfl⟩
    exact hlayers (g, kc, vc) hmem
  · rintro hsafe blockMapping hm caches rfl hholds
    refine ⟨_, BlockLayout.copyBlocks_eq caches hholds hm, ?_⟩
    rw [List.forall₂_map_right_iff, List.forall₂_same]
    intro c hc
    have hg := List.mem_map_of_mem (f := Prod.fst) hc
    exact BlockLayout.copiesAtOnce_of_safe (c.1.layer_numelPerBlock pairs.length)
      (c.1.layer_numPairs pairs.length) (hholds c hc) hm (hin c.1 hg) hnd (hsafe c.1 hg)

/-- `float` caches of blocks of one element. -/
def oneElement (numBlocks : Nat) (hpos : 0 < numBlocks) (hlt : numBlocks < 2 ^ 31) : BlockLayout where
  dtype := .float32
  numBlocks
  keyBlock := [1]
  valueBlock := [1]
  supported := ⟨"float", rfl⟩
  nonempty := hpos
  fits := hlt
  same := rfl

theorem copyBlocks_simultaneous_iff_two :
    (∀ blockMapping, HasPairs blockMapping [(0, 2), (1, 3)] →
      ∀ caches : List (BlockLayout × TypedArray Nat × TypedArray Nat),
      caches.map Prod.fst = [oneElement 4 (by norm_num) (by norm_num)] → (∀ c ∈ caches, c.1.Holds c.2.1 c.2.2) →
      ∃ layers, copyBlocks (caches.map fun c => c.2.1) (caches.map fun c => c.2.2) blockMapping = .ok layers ∧
        List.Forall₂ (fun c layer => CopiesAtOnce layer blockMapping [(0, 2), (1, 3)] c.1 c.2.1.array c.2.2.array)
          caches layers) ↔
      ∀ g ∈ [oneElement 4 (by norm_num) (by norm_num)], SafeCopies g.numel [(0, 2), (1, 3)] :=
  copyBlocks_simultaneous_iff (by decide) (by decide)

/-- A chain of two pairs, of which the second may copy what the first one has stored. -/
theorem chain_copies_new_block :
    let g := oneElement 3 (by norm_num) (by norm_num)
    let blockMapping := BlockLayout.mappingOf [(0, 1), (1, 2)] fun _ => 0
    let c := BlockLayout.cachesOf g 0 7 5
    HasPairs blockMapping [(0, 1), (1, 2)] ∧ g.Holds c.1 c.2 ∧
      copyBlocks [c.1] [c.2] blockMapping = .ok [g.layer 2] ∧
      ¬CopiesAtOnce (g.layer 2) blockMapping [(0, 1), (1, 2)] g c.1.array c.2.array := by
  intro g blockMapping c
  have hm : HasPairs blockMapping [(0, 1), (1, 2)] := BlockLayout.hasPairs_mappingOf _ _
  have hholds : g.Holds c.1 c.2 := BlockLayout.holds_cachesOf g 0 7 5
  have hcall := BlockLayout.copyBlocks_eq [(g, c)] (by simpa using hholds) hm
  refine ⟨hm, hholds, hcall, fun ⟨_, hall⟩ => ?_⟩
  have hn : (g.layer 2).numelPerBlock = 1 := by
    rw [g.layer_numelPerBlock]
    exact int32_natCast (n := 1) (by norm_num)
  have hnumel : (g.layer 2).numel = 1 := by rw [CopyBlocksLayer.numel, hn]; rfl
  obtain ⟨after, hafter, hcell⟩ := CopyBlocksLayer.exists_race (r := (1, 2)) (q := (0, 1)) hm (g.layer_numPairs 2)
    (by decide) (by rw [hn]; norm_num) (by decide) (by decide) (by rw [hnumel]; norm_num) (by decide)
    (by decide) rfl (by decide) (BlockLayout.contentsOf g 0 7 5)
  have hkeys : after (.key, 2) = 5 := (hall after hafter).1.copied (1, 2) (by decide) [0] (.cons Nat.one_pos .nil)
  simp only [CopyBlocksLayer.elem, hnumel] at hcell
  exact absurd (hkeys.symm.trans hcell) (by decide)

end SglangMlx
