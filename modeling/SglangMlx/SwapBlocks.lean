import SglangMlx.CopyBlocksCorrect

/- `swap_blocks` (`paged_attention/mlx_cache.cpp` and the kernel of that name in
   `metal/cache/copy_blocks.metal`): each pair of `block_mapping` is a threadgroup, whose
   threads copy a block of `src` to a block of `dst`. The output keeps the buffer of
   `dst`. A caller may pass one array as both; then the threads read the buffer that they
   write, and blocks race as in `copy_blocks`. -/
namespace SglangMlx

open Layout MachineInt Threadgroup

/-- The primitive. -/
structure SwapBlocks where
  kernelName : String
  numelPerBlock : Int
  numPairs : Nat
  deriving DecidableEq, Repr

/-- The host function: the primitive that it makes of the arrays. -/
def swapBlocks {V : Type} (src dst : TypedArray V) (blockMapping : MlxArray Int) : Except String SwapBlocks := do
  throwIf (src.array.shape.length = 0 ∨ dst.array.shape.length = 0 ∨ src.array.dim 0 = 0 ∨ dst.array.dim 0 = 0)
    "src and dst must have a leading block dimension"
  throwIf (src.dtype ≠ dst.dtype ∨ src.array.size / src.array.dim 0 ≠ dst.array.size / dst.array.dim 0)
    "src and dst block layouts must match"
  throwIf (blockMapping.shape.length ≠ 2 ∨ blockMapping.dim 1 ≠ 2) "block_mapping must have shape [num_pairs, 2]"
  let dtype ← src.dtype.cacheDtypeStr
  pure
    { kernelName := "swap_blocks_" ++ dtype
      numelPerBlock := int32 (src.array.size / src.array.dim 0 : Nat)
      numPairs := blockMapping.dim 0 }

inductive SwapBuffer where
  | src
  | dst
  deriving DecidableEq, Repr

/-- An element of one of the buffers. -/
abbrev SwapCell := SwapBuffer × Int

namespace SwapBlocks
variable (p : SwapBlocks)

/-- `std::min<uint32_t>(256, numel_per_block)`. -/
def threads : Nat := min 256 (p.numelPerBlock % 2 ^ 32).toNat

/-- `src_block_number` and `dst_block_number`; the index is a `uint`. -/
def blockPair (blockMapping : MlxArray Int) (tgid : Nat) : Int × Int :=
  (blockMapping.data (2 * tgid % 2 ^ 32 : Nat), blockMapping.data ((2 * tgid + 1) % 2 ^ 32 : Nat))

def offset (block i : Int) : Int := int64 (block * p.numelPerBlock + i)

/-- The buffer of `src`, which may be that of `dst`. -/
def source (shared : Bool) : SwapBuffer := if shared then .dst else .src

/-- What the loop copies. -/
def copies (shared : Bool) (blockMapping : MlxArray Int) (tgid : Nat) (is : List Int) :
    List (SwapCell × SwapCell) := let (src, dst) := blockPair blockMapping tgid
  is.map fun i => ((source shared, p.offset src i), (.dst, p.offset dst i))

/-- The copies of a thread, if its loop ends. -/
def ThreadRun (shared : Bool) (blockMapping : MlxArray Int) (tgid tid : Nat)
    (moves : List (SwapCell × SwapCell)) : Prop :=
  ∃ fuel is, forLoop p.numelPerBlock p.threads fuel (int32 tid) = some is ∧
    moves = p.copies shared blockMapping tgid is

/-- The kernel leads from the first to the second contents of the buffers, in some order
    of its threads. -/
def Copies {V : Type} (shared : Bool) (blockMapping : MlxArray Int) (before after : SwapCell → V) : Prop :=
  ∃ moves : Fin p.numPairs × Fin p.threads → List (SwapCell × SwapCell),
    (∀ t, p.ThreadRun shared blockMapping t.1 t.2 (moves t)) ∧
    ∃ s s' : State (Fin p.numPairs × Fin p.threads) V SwapCell V, s.mem = before ∧ s'.mem = after ∧
      Runs (fun _ => ()) (copyPhase moves) s s'

/-! ## The copies of a thread -/

/-- The elements of a block. -/
abbrev numel : Nat := p.numelPerBlock.toNat

def loop (tid : Nat) : List Nat := strided tid p.numel p.threads

def moves (shared : Bool) (blockMapping : MlxArray Int) (t : Fin p.numPairs × Fin p.threads) :
    List (SwapCell × SwapCell) := p.copies shared blockMapping t.1 ((p.loop t.2).map Nat.cast)

/-- The copy of element `i` from block to block. -/
def copyOf (shared : Bool) (q : Nat × Nat) (i : Nat) : SwapCell × SwapCell :=
  ((source shared, (q.1 * p.numel + i : Nat)), (.dst, (q.2 * p.numel + i : Nat)))

variable {p} {shared : Bool} {blockMapping : MlxArray Int} {pairs : List (Nat × Nat)}
  (hfit : p.numelPerBlock + 256 ≤ 2 ^ 31)

theorem numelPerBlock_eq {i : Nat} (hi : i < p.numel) : p.numelPerBlock = (p.numel : Nat) := by
  unfold numel at *
  omega

include hfit

theorem threads_eq (hpos : 0 < p.numel) : p.threads = min 256 p.numel := by
  have hn := numelPerBlock_eq hpos
  have hmod : p.numelPerBlock % 2 ^ 32 = (p.numel : Nat) := by
    rw [Int.emod_eq_of_lt (by omega) (by omega), hn]
  rw [threads, hmod, Int.toNat_natCast]

theorem threadRun_iff (t : Fin p.numPairs × Fin p.threads) (l : List (SwapCell × SwapCell)) :
    p.ThreadRun shared blockMapping t.1 t.2 l ↔ l = p.moves shared blockMapping t := by
  have hle : p.threads ≤ 256 := Nat.min_le_left _ _
  have htid : int32 (t.2 : Nat) = (t.2 : Nat) := int32_natCast (t.2.isLt.trans_le (hle.trans (by norm_num)))
  have hloop : ∃ fuel, forLoop p.numelPerBlock p.threads fuel (int32 (t.2 : Nat)) =
    some ((p.loop t.2).map Nat.cast) := by
    rw [htid]
    rcases Nat.eq_zero_or_pos p.numel with h0 | hpos
    · refine ⟨1, ?_⟩
      have hneg : p.numelPerBlock ≤ 0 := Int.toNat_eq_zero.mp h0
      rw [forLoop, if_neg (by omega), loop, h0]
      rfl
    · have hn := numelPerBlock_eq hpos
      rw [loop, hn]
      exact forLoop_strided (by omega) (Nat.zero_lt_of_lt t.2.isLt)
  obtain ⟨fuel, hloop⟩ := hloop
  constructor
  · rintro ⟨fuel', is, his, rfl⟩
    rw [forLoop_unique his hloop]
    rfl
  · rintro rfl
    exact ⟨fuel, _, hloop, rfl⟩

theorem copies_iff {V : Type} {before after : SwapCell → V} : p.Copies shared blockMapping before after ↔
    ∃ s s' : State (Fin p.numPairs × Fin p.threads) V SwapCell V, s.mem = before ∧ s'.mem = after ∧
      Runs (fun _ => ()) (copyPhase (p.moves shared blockMapping)) s s' := by
  constructor
  · rintro ⟨moves, hmoves, s, s', hs, hs', hrun⟩
    obtain rfl : moves = p.moves shared blockMapping := funext fun t => (threadRun_iff hfit t _).mp (hmoves t)
    exact ⟨s, s', hs, hs', hrun⟩
  · rintro ⟨s, s', hs, hs', hrun⟩
    exact ⟨_, fun t => (threadRun_iff hfit t _).mpr rfl, s, s', hs, hs', hrun⟩

theorem exists_copies {V : Type} (before : SwapCell → V) :
    ∃ after, p.Copies shared blockMapping before after := by
  obtain ⟨s', hrun⟩ := exists_runs (fun _ => ()) (copyPhase (p.moves shared blockMapping))
    { reg := fun _ => before (.dst, 0), mem := before }
  exact ⟨s'.mem, (copies_iff hfit).mpr ⟨_, s', rfl, rfl, hrun⟩⟩

section
variable (hm : HasPairs blockMapping pairs) (hnum : p.numPairs = pairs.length) (hlen : pairs.length ≤ 2 ^ 31)
  (hin : ∀ q ∈ pairs, q.1 < 2 ^ 31 ∧ q.2 < 2 ^ 31)
include hm hlen

omit hfit in
theorem blockPair_eq {j : Nat} {q : Nat × Nat} (hq : pairs[j]? = some q) :
    blockPair blockMapping j = ((q.1 : Int), (q.2 : Int)) := by
  have hlt := (List.getElem?_eq_some_iff.mp hq).1
  obtain ⟨hsrc, hdst⟩ := hm.entry j q hq
  rw [get_pair hm.shape hm.contiguous hlt (by norm_num)] at hsrc hdst
  have h0 : 2 * j % 2 ^ 32 = 2 * j + 0 := Nat.mod_eq_of_lt (by omega)
  have h1 : (2 * j + 1) % 2 ^ 32 = 2 * j + 1 := Nat.mod_eq_of_lt (by omega)
  rw [blockPair, h0, h1, hsrc, hdst]

include hnum hin

theorem mem_moves (t : Fin p.numPairs × Fin p.threads) (c : SwapCell × SwapCell) :
    c ∈ p.moves shared blockMapping t ↔
    ∃ q i, pairs[t.1.val]? = some q ∧ i < p.numel ∧ i % p.threads = t.2 ∧ c = p.copyOf shared q i := by
  have hj : t.1.val < pairs.length := hnum ▸ t.1.isLt
  have hget := List.getElem?_eq_getElem hj
  obtain ⟨hsrc, hdst⟩ := hin _ (List.getElem_mem hj)
  have hoff : ∀ b : Nat, b < 2 ^ 31 → ∀ i < p.numel, p.offset b i = (b * p.numel + i : Nat) := fun b hb i hi => by
    have hn := numelPerBlock_eq hi
    have hlt : b * p.numel + i < 2 ^ 31 * 2 ^ 31 := digit_lt hb hi |>.trans_le (Nat.mul_le_mul_left _ (by omega))
    rw [offset, hn, ← Nat.cast_mul, ← Nat.cast_add, int64_natCast (hlt.trans (by norm_num))]
  rw [moves, copies, blockPair_eq hm hlen hget]
  simp only [List.mem_map]
  constructor
  · rintro ⟨_, ⟨i, hi, rfl⟩, rfl⟩
    obtain ⟨hi, hmod⟩ := (mem_strided t.2.isLt).mp hi
    refine ⟨_, i, hget, hi, hmod, ?_⟩
    rw [hoff _ hsrc i hi, hoff _ hdst i hi, copyOf]
  · rintro ⟨q, i, hq, hi, hmod, rfl⟩
    rw [hget] at hq
    obtain rfl := Option.some.inj hq
    refine ⟨i, ⟨i, (mem_strided t.2.isLt).mpr ⟨hi, hmod⟩, rfl⟩, ?_⟩
    rw [hoff _ hsrc i hi, hoff _ hdst i hi, copyOf]

theorem Copies.spec {V : Type} {before after : SwapCell → V} (h : p.Copies shared blockMapping before after)
    (hnd : (pairs.map Prod.snd).Nodup) (hsep : shared = true → RaceFree pairs) :
    (∀ q ∈ pairs, ∀ i < p.numel, after (p.copyOf shared q i).2 = before (p.copyOf shared q i).1) ∧
      ∀ a, (∀ q ∈ pairs, ∀ i < p.numel, a ≠ (p.copyOf shared q i).2) → after a = before a := by
  obtain ⟨s, s', rfl, rfl, hrun⟩ := (copies_iff hfit).mp h
  have hmem : ∀ t c, c ∈ p.moves shared blockMapping t ↔ _ := mem_moves hfit hm hnum hlen hin
  have hpair : ∀ q ∈ pairs, ∀ q' ∈ pairs, q.2 = q'.2 → q = q' := fun q hq q' hq' =>
    List.inj_on_of_nodup_map hnd hq hq'
  obtain ⟨hcopied, hkept⟩ := copied (S := Set.univ) (fun _ _ _ _ => trivial)
    (fun t t' c hc c' hc' _ heq => by
      obtain ⟨q, i, hq, hi, _, rfl⟩ := (hmem t c).mp hc
      obtain ⟨q', i', hq', hi', _, rfl⟩ := (hmem t' c').mp hc'
      obtain ⟨hb, rfl⟩ := digit_inj hi hi' (Int.ofNat_inj.mp (Prod.mk.inj heq).2)
      rw [hpair q (List.mem_of_getElem? hq) q' (List.mem_of_getElem? hq') hb])
    (fun t t' c hc c' hc' _ heq => by
      obtain ⟨q, i, hq, hi, _, rfl⟩ := (hmem t c).mp hc
      obtain ⟨q', i', hq', hi', _, rfl⟩ := (hmem t' c').mp hc'
      obtain ⟨hbuffer, hcell⟩ := Prod.mk.inj heq
      -- a source is a destination in one buffer only
      cases shared with
      | false => cases hbuffer
      | true =>
        obtain ⟨hb, rfl⟩ := digit_inj hi hi' (Int.ofNat_inj.mp hcell)
        have hself := hsep rfl q (List.mem_of_getElem? hq) q' (List.mem_of_getElem? hq') hb
        simp only [copyOf, hself]
        rfl)
    rfl hrun
  constructor
  · intro q hq i hi
    obtain ⟨j, hj⟩ := List.mem_iff_getElem?.mp hq
    have hlt := (List.getElem?_eq_some_iff.mp hj).1
    have hpos : 0 < p.threads := by
      rw [threads_eq hfit (Nat.zero_lt_of_lt hi)]
      exact Nat.lt_min.mpr ⟨by norm_num, Nat.zero_lt_of_lt hi⟩
    exact hcopied (⟨j, hnum ▸ hlt⟩, ⟨i % p.threads, Nat.mod_lt i hpos⟩) _
      ((hmem _ _).mpr ⟨q, i, hj, hi, rfl, rfl⟩) trivial
  · intro a hfree
    refine hkept a trivial fun t c hc hca => ?_
    obtain ⟨q, i, hq, hi, _, rfl⟩ := (hmem t c).mp hc
    exact hfree q (List.mem_of_getElem? hq) i hi hca.symm

end

end SwapBlocks

/-! ## Blocks of arrays -/

/-- The buffers of a call. -/
def swapCells {V : Type} (src dst : MlxArray V) : SwapCell → V
  | (.src, i) => src.data i
  | (.dst, i) => dst.data i

/-- The array that is returned. -/
def swapOutput {V : Type} (dst : MlxArray V) (after : SwapCell → V) : MlxArray V :=
  { dst with data := fun i => after (.dst, i) }

/-- Row-contiguous arrays of blocks, and pairs of blocks in them; one array may be both. -/
structure SwapFits {V : Type} (shared : Bool) (n m : Nat) (srcBlock dstBlock : List Nat) (src dst : MlxArray V)
    (pairs : List (Nat × Nat)) : Prop where
  srcShape : src.shape = n :: srcBlock
  dstShape : dst.shape = m :: dstBlock
  srcContiguous : src.RowContiguous
  dstContiguous : dst.RowContiguous
  /-- Dimensions are `int`s, and so is the counter of a thread. -/
  dims : n < 2 ^ 31 ∧ m < 2 ^ 31
  counter : srcBlock.prod + 256 ≤ 2 ^ 31
  inside : ∀ q ∈ pairs, q.1 < n ∧ q.2 < m
  distinct : (pairs.map Prod.snd).Nodup
  length : pairs.length ≤ 2 ^ 31
  separate : shared = true → src = dst ∧ RaceFree pairs

/-- The blocks of `after` are those of `dst`, except that every destination holds the
    elements of its source in row-major order. -/
structure BlocksSwapped {V : Type} (m : Nat) (srcBlock dstBlock : List Nat) (pairs : List (Nat × Nat))
    (src dst after : MlxArray V) : Prop where
  copied : ∀ q ∈ pairs, ∀ idx idx', List.Forall₂ (· < ·) idx srcBlock → List.Forall₂ (· < ·) idx' dstBlock →
    flat srcBlock idx = flat dstBlock idx' → after.get (q.2 :: idx') = src.get (q.1 :: idx)
  kept : ∀ b < m, (∀ q ∈ pairs, q.2 ≠ b) → ∀ idx, List.Forall₂ (· < ·) idx dstBlock →
    after.get (b :: idx) = dst.get (b :: idx)

section
variable {V : Type} {src dst : TypedArray V} {blockMapping : MlxArray Int} {p : SwapBlocks}
  {shared : Bool} {n m : Nat} {srcBlock dstBlock : List Nat} {pairs : List (Nat × Nat)}

theorem swapBlocks_ok (h : swapBlocks src dst blockMapping = .ok p) (hm : HasPairs blockMapping pairs)
    (hs : src.array.shape = n :: srcBlock) (hd : dst.array.shape = m :: dstBlock) :
    p.numelPerBlock = int32 srcBlock.prod ∧ p.numPairs = pairs.length ∧ srcBlock.prod = dstBlock.prod := by
  unfold swapBlocks at h
  simp only [throwIf_bind, not_or, not_not] at h
  obtain ⟨⟨-, -, hn, hm'⟩, ⟨-, hsize⟩, -, h⟩ := h
  have hn' : src.array.dim 0 = n := by rw [MlxArray.dim, hs]; rfl
  have hm'' : dst.array.dim 0 = m := by rw [MlxArray.dim, hd]; rfl
  rw [hn'] at hn hsize h
  rw [hm''] at hm' hsize
  rw [MlxArray.size, MlxArray.size, hs, hd, List.prod_cons, List.prod_cons,
    Nat.mul_div_cancel_left _ (Nat.pos_of_ne_zero hn),
    Nat.mul_div_cancel_left _ (Nat.pos_of_ne_zero hm')] at hsize
  rw [MlxArray.size, hs, List.prod_cons, Nat.mul_div_cancel_left _ (Nat.pos_of_ne_zero hn)] at h
  have hpairs : blockMapping.dim 0 = pairs.length := by rw [MlxArray.dim, hm.shape]; rfl
  cases htext : src.dtype.cacheDtypeStr with
  | error e =>
    rw [htext] at h
    cases h
  | ok text =>
    rw [htext] at h
    cases h
    refine ⟨?_, hpairs, hsize⟩
    dsimp only

/-- In every order of its threads the kernel copies the blocks: all pairs at once, from
    what `src` held before the call. -/
theorem swap_blocks_copies (h : swapBlocks src dst blockMapping = .ok p) (hm : HasPairs blockMapping pairs)
    (hf : SwapFits shared n m srcBlock dstBlock src.array dst.array pairs) :
    (∃ after, p.Copies shared blockMapping (swapCells src.array dst.array) after) ∧
      ∀ after, p.Copies shared blockMapping (swapCells src.array dst.array) after →
        BlocksSwapped m srcBlock dstBlock pairs src.array dst.array (swapOutput dst.array after) := by
  obtain ⟨hnumel, hnum, hprod⟩ := swapBlocks_ok h hm hf.srcShape hf.dstShape
  have hcounter := hf.counter
  rw [int32_natCast (by omega)] at hnumel
  have hfit : p.numelPerBlock + 256 ≤ 2 ^ 31 := by omega
  have hnumel' : p.numel = srcBlock.prod := by rw [SwapBlocks.numel, hnumel, Int.toNat_natCast]
  have hin : ∀ q ∈ pairs, q.1 < 2 ^ 31 ∧ q.2 < 2 ^ 31 := fun q hq =>
    ⟨(hf.inside q hq).1.trans hf.dims.1, (hf.inside q hq).2.trans hf.dims.2⟩
  refine ⟨SwapBlocks.exists_copies hfit _, fun after hafter => ?_⟩
  obtain ⟨hcopied, hkept⟩ := hafter.spec hfit hm hnum hf.length hin hf.distinct fun hs => (hf.separate hs).2
  simp only [SwapBlocks.copyOf, hnumel'] at hcopied hkept
  -- the cells of the source are those of `src` in either case
  have hsource : ∀ i, swapCells src.array dst.array (SwapBlocks.source shared, i) = src.array.data i := by
    intro i
    cases shared with
    | false => rfl
    | true => exact congrArg (fun a => a.data i) (hf.separate rfl).1.symm
  have hget : ∀ b < m, ∀ idx, List.Forall₂ (· < ·) idx dstBlock →
      (swapOutput dst.array after).get (b :: idx) =
        after (.dst, (b * srcBlock.prod + flat dstBlock idx : Nat)) := by
    intro b hb idx hidx
    rw [hprod, ← place_block hf.dstShape hf.dstContiguous hb hidx]
    rfl
  refine ⟨fun q hq idx idx' hidx hidx' heq => ?_, fun b hb hfree idx hidx => ?_⟩
  · obtain ⟨hq1, hq2⟩ := hf.inside q hq
    rw [hget _ hq2 _ hidx', ← heq, hcopied q hq _ (flat_lt hidx), hsource, MlxArray.get,
      place_block hf.srcShape hf.srcContiguous hq1 hidx]
  · rw [hget _ hb _ hidx, hkept _ fun q hq i hi heq => hfree q hq ?_, MlxArray.get,
      place_block hf.dstShape hf.dstContiguous hb hidx, hprod]
    · rfl
    · exact (digit_inj (hprod ▸ flat_lt hidx) hi (Int.ofNat_inj.mp (Prod.mk.inj heq).2)).1.symm

/-- Blocks that are swapped out and swapped in again, into whatever the blocks hold by
    then, are as they were before. -/
theorem swap_out_in_restores {dev host dev' : TypedArray V} {out back : MlxArray Int}
    {p p' : SwapBlocks} {n m : Nat}
    {devBlock hostBlock : List Nat} {pairs : List (Nat × Nat)} (h : swapBlocks dev host out = .ok p)
    (hm : HasPairs out pairs) (hf : SwapFits false n m devBlock hostBlock dev.array host.array pairs)
    (hsources : (pairs.map Prod.fst).Nodup) {after : SwapCell → V}
    (hafter : p.Copies false out (swapCells dev.array host.array) after)
    (h' : swapBlocks ⟨host.dtype, swapOutput host.array after⟩ dev' back = .ok p')
    (hm' : HasPairs back (pairs.map Prod.swap)) (hshape : dev'.array.shape = n :: devBlock)
    (hcontiguous : dev'.array.RowContiguous) {after' : SwapCell → V}
    (hafter' : p'.Copies false back (swapCells (swapOutput host.array after) dev'.array) after') :
    (∀ q ∈ pairs, ∀ idx, List.Forall₂ (· < ·) idx devBlock →
      (swapOutput dev'.array after').get (q.1 :: idx) = dev.array.get (q.1 :: idx)) ∧
    ∀ b < n, (∀ q ∈ pairs, q.1 ≠ b) → ∀ idx, List.Forall₂ (· < ·) idx devBlock →
      (swapOutput dev'.array after').get (b :: idx) = dev'.array.get (b :: idx) := by
  obtain ⟨-, -, hprod⟩ := swapBlocks_ok h hm hf.srcShape hf.dstShape
  have hf' : SwapFits false m n hostBlock devBlock (swapOutput host.array after) dev'.array
    (pairs.map Prod.swap) := by
    refine ⟨hf.dstShape, hshape, hf.dstContiguous, hcontiguous, hf.dims.symm, hprod ▸ hf.counter,
      fun q hq => ?_, ?_, ?_, fun hs => by cases hs⟩
    · obtain ⟨q', hq', rfl⟩ := List.mem_map.mp hq
      exact (hf.inside q' hq').symm
    · rw [List.map_map]
      exact hsources
    · rw [List.length_map]
      exact hf.length
  have hout := (swap_blocks_copies h hm hf).2 after hafter
  have hback := (swap_blocks_copies h' hm' hf').2 after' hafter'
  refine ⟨fun q hq idx hidx => ?_, fun b hb hfree idx hidx => ?_⟩
  · -- the place of the element in the host's block
    obtain ⟨idx', hidx', heq⟩ := exists_index (hprod ▸ flat_lt hidx : flat devBlock idx < hostBlock.prod)
    calc (swapOutput dev'.array after').get (q.1 :: idx)
        = (swapOutput host.array after).get (q.2 :: idx') :=
          hback.copied q.swap (List.mem_map_of_mem hq) idx' idx hidx' hidx heq
      _ = dev.array.get (q.1 :: idx) := hout.copied q hq idx idx' hidx hidx' heq.symm
  · refine hback.kept b hb (fun q hq => ?_) idx hidx
    obtain ⟨q', hq', rfl⟩ := List.mem_map.mp hq
    exact hfree q' hq'

end

/-! ## Two blocks of one element -/

/-- The elements `first` and `first + 1`. -/
def twoBlocks (first : Nat) : TypedArray Nat := ⟨.float32, MlxArray.ofData [2, 1] fun z => first + z.toNat⟩

def onePair : SwapBlocks := ⟨"swap_blocks_float", 1, 1⟩

theorem twoBlocks_fits (a b : Nat) :
    SwapFits false 2 2 [1] [1] (twoBlocks a).array (twoBlocks b).array [(1, 0)] :=
  ⟨rfl, rfl, MlxArray.ofData_rowContiguous _ _, MlxArray.ofData_rowContiguous _ _,
    ⟨by norm_num, by norm_num⟩, by decide, by decide, by decide, by decide, fun hs => by cases hs⟩

theorem swapBlocks_onePair (q : Nat × Nat) (a b : MlxArray Nat) (ha : a.shape = [2, 1]) (hb : b.shape = [2, 1]) :
    swapBlocks ⟨.float32, a⟩ ⟨.float32, b⟩ (BlockLayout.mappingOf [q] fun _ => 0) = .ok onePair := by
  simp only [swapBlocks, MlxArray.dim, MlxArray.size, ha, hb]
  rfl

theorem swap_blocks_copies_two : ∃ after,
    onePair.Copies false (BlockLayout.mappingOf [(1, 0)] fun _ => 0)
      (swapCells (twoBlocks 0).array (twoBlocks 10).array) after ∧
      BlocksSwapped 2 [1] [1] [(1, 0)] (twoBlocks 0).array (twoBlocks 10).array
        (swapOutput (twoBlocks 10).array after) := by
  obtain ⟨⟨after, hafter⟩, hall⟩ :=
    swap_blocks_copies (swapBlocks_onePair (1, 0) (twoBlocks 0).array (twoBlocks 10).array rfl rfl)
    (BlockLayout.hasPairs_mappingOf _ _) (twoBlocks_fits 0 10)
  exact ⟨after, hafter, hall after hafter⟩

/-- Block 1 goes to block 0 of the host and comes back after it was overwritten with 21. -/
theorem swap_out_in_restores_two : ∃ after after',
    onePair.Copies false (BlockLayout.mappingOf [(1, 0)] fun _ => 0)
      (swapCells (twoBlocks 0).array (twoBlocks 10).array) after ∧
      onePair.Copies false (BlockLayout.mappingOf [(0, 1)] fun _ => 0)
        (swapCells (swapOutput (twoBlocks 10).array after) (twoBlocks 20).array) after' ∧
      (swapOutput (twoBlocks 20).array after').get [1, 0] = 1 := by
  obtain ⟨after, hafter⟩ : ∃ after, onePair.Copies false (BlockLayout.mappingOf [(1, 0)] fun _ => 0)
      (swapCells (twoBlocks 0).array (twoBlocks 10).array) after := SwapBlocks.exists_copies (by decide) _
  obtain ⟨after', hafter'⟩ : ∃ after', onePair.Copies false (BlockLayout.mappingOf [(0, 1)] fun _ => 0)
      (swapCells (swapOutput (twoBlocks 10).array after) (twoBlocks 20).array) after' :=
        SwapBlocks.exists_copies (by decide) _
  have hrestored := swap_out_in_restores
    (swapBlocks_onePair (1, 0) (twoBlocks 0).array (twoBlocks 10).array rfl rfl)
    (BlockLayout.hasPairs_mappingOf _ _) (twoBlocks_fits 0 10) (by decide) hafter
    (swapBlocks_onePair (0, 1) (swapOutput (twoBlocks 10).array after) (twoBlocks 20).array rfl rfl)
    (BlockLayout.hasPairs_mappingOf _ _) rfl (MlxArray.ofData_rowContiguous _ _) hafter'
  exact ⟨after, after', hafter, hafter', hrestored.1 (1, 0) (by decide) [0] (.cons Nat.one_pos .nil)⟩

end SglangMlx
