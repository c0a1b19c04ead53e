import SglangMlx.Lib.SlotStore
import SglangMlx.CacheLayout
import SglangMlx.SwapBlocks

/- The paged caches of a layer as a store of slots. `reshape_and_cache` writes the rows of
   tokens at their slots, `copy_blocks` and `swap_blocks` copy blocks of slots; whatever
   the orders in which the threads of these calls run, the caches hold what `SlotStore`
   says (`CallRun.holds`). -/
namespace SglangMlx

open Layout MachineInt SlotStore

/-- The sizes of a block of the caches. -/
structure BlockShape where
  numHeads : Nat
  headSize : Nat
  blockSize : Nat
  x : Nat
  heads : 0 < numHeads
  head : 0 < headSize
  block : 0 < blockSize
  pack : 0 < x
  divides : x ∣ headSize
  /-- The counters of the kernels do not pass the largest `int`. -/
  counter : numHeads * (headSize * blockSize) + 512 ≤ 2 ^ 31

namespace BlockShape
variable (g : BlockShape)

def numel : Nat := g.numHeads * (g.headSize * g.blockSize)

def keyBlock : List Nat := [g.numHeads, g.headSize / g.x, g.blockSize, g.x]

def valueBlock : List Nat := [g.numHeads, g.headSize, g.blockSize]

theorem packs : g.headSize / g.x * g.x = g.headSize := Nat.div_mul_cancel g.divides

theorem keyBlock_prod : g.keyBlock.prod = g.numel := by
  have hrow : g.headSize / g.x * (g.blockSize * g.x) = g.headSize * g.blockSize := by
    rw [Nat.mul_comm g.blockSize, ← Nat.mul_assoc, g.packs]
  simp only [keyBlock, numel, List.prod_cons, List.prod_nil, mul_one, hrow]

theorem valueBlock_prod : g.valueBlock.prod = g.numel := by
  simp only [valueBlock, numel, List.prod_cons, List.prod_nil, mul_one]

theorem numel_pos : 0 < g.numel := Nat.mul_pos g.heads (Nat.mul_pos g.head g.block)

theorem keyIdx_mem {h t d : Nat} (hh : h < g.numHeads) (ht : t < g.blockSize) (hd : d < g.headSize) :
    List.Forall₂ (· < ·) [h, d / g.x, t, d % g.x] g.keyBlock :=
  .cons hh (.cons (Nat.div_lt_of_lt_mul (by rw [Nat.mul_comm, g.packs]; exact hd))
    (.cons ht (.cons (Nat.mod_lt d g.pack) .nil)))

theorem valueIdx_mem {h t d : Nat} (hh : h < g.numHeads) (ht : t < g.blockSize) (hd : d < g.headSize) :
    List.Forall₂ (· < ·) [h, d, t] g.valueBlock :=
  .cons hh (.cons hd (.cons ht .nil))

end BlockShape

/-- Key and value of a token: head, then dimension. -/
abbrev TokenRow (C : Type) := (Nat → Nat → C) × (Nat → Nat → C)

structure PagedCaches (C : Type) where
  key : MlxArray C
  value : MlxArray C

namespace PagedCaches
variable {C : Type}

/-- Row-contiguous caches of `numBlocks` blocks, with `int`s for their element numbers. -/
structure Fits (g : BlockShape) (numBlocks : Nat) (c : PagedCaches C) : Prop where
  keyShape : c.key.shape = numBlocks :: g.keyBlock
  valueShape : c.value.shape = numBlocks :: g.valueBlock
  keyContiguous : c.key.RowContiguous
  valueContiguous : c.value.RowContiguous
  blocks : 0 < numBlocks
  small : numBlocks * g.numel < 2 ^ 31

/-- What a slot holds. -/
def row (g : BlockShape) (c : PagedCaches C) (s : Nat) : TokenRow C :=
  (fun h d => c.key.get [s / g.blockSize, h, d / g.x, s % g.blockSize, d % g.x],
    fun h d => c.value.get [s / g.blockSize, h, d, s % g.blockSize])

/-- The caches hold these rows. -/
def Holds (g : BlockShape) (numBlocks : Nat) (c : PagedCaches C) (m : Nat → TokenRow C) : Prop :=
  ∀ b < numBlocks, ∀ t < g.blockSize, ∀ h < g.numHeads, ∀ d < g.headSize,
    c.key.get [b, h, d / g.x, t, d % g.x] = (m (b * g.blockSize + t)).1 h d ∧
      c.value.get [b, h, d, t] = (m (b * g.blockSize + t)).2 h d

theorem holds_row (g : BlockShape) (numBlocks : Nat) (c : PagedCaches C) : c.Holds g numBlocks (c.row g) := by
  intro b _ t ht h _ d _
  simp only [row, slot_div ht, slot_mod ht, and_self]

end PagedCaches

/-! ## Calls -/

/-- A call on the caches, with its other arguments. -/
inductive CacheCall (K C : Type) where
  | reshapeAndCache (key value : MlxArray K) (slotMapping : MlxArray Int)
  | copyBlocks (blockMapping : MlxArray Int)
  /-- One call of `swap_blocks` for the keys and one for the values. -/
  | swapBlocks (src : PagedCaches C) (blockMapping : MlxArray Int)

/-- The pairs of a `block_mapping`. -/
def pairsOf (blockMapping : MlxArray Int) : List (Nat × Nat) :=
  (List.range (blockMapping.dim 0)).map fun j =>
  ((blockMapping.get [j, 0]).toNat, (blockMapping.get [j, 1]).toNat)

/-- The rows of a batch that have a slot. -/
def batchRows {K C : Type} (toCache : K → C) (key value : MlxArray K) (slotMapping : MlxArray Int) :
    List (Nat × TokenRow C) :=
  ((List.range (key.dim 0)).filter fun i => 0 ≤ slotMapping.get [i]).map fun i =>
    ((slotMapping.get [i]).toNat, fun h d => toCache (key.get [i, h, d]), fun h d =>
      toCache (value.get [i, h, d]))

namespace CacheCall
variable {K C : Type}

/-- What the call is for: the rows of the slots afterwards. -/
def apply (g : BlockShape) (toCache : K → C) (m : Nat → TokenRow C) : CacheCall K C → Nat → TokenRow C
  | .reshapeAndCache key value slotMapping => write m (batchRows toCache key value slotMapping)
  | .copyBlocks blockMapping => SlotStore.copyBlocks g.blockSize (pairsOf blockMapping) m m
  | .swapBlocks src blockMapping => SlotStore.copyBlocks g.blockSize (pairsOf blockMapping) (src.row g) m

/-- A batch of tokens with distinct slots of the cache. -/
structure ValidBatch (g : BlockShape) (numBlocks : Nat) (key value : MlxArray K) (slotMapping : MlxArray Int) :
    Prop where
  keyShape : key.shape = [key.dim 0, g.numHeads, g.headSize]
  valueShape : value.shape = [key.dim 0, g.numHeads, g.headSize]
  slotsShape : slotMapping.shape = [key.dim 0]
  keyFits : key.RowContiguous ∧ key.size < 2 ^ 31
  valueFits : value.RowContiguous ∧ value.size < 2 ^ 31
  slotsFit : slotMapping.RowContiguous ∧ slotMapping.size < 2 ^ 31
  good : GoodSlots (key.dim 0) numBlocks g.blockSize slotMapping

/-- Pairs of a block of `numSrc` and a block of `numBlocks`, no two with the same second. -/
structure ValidPairs (numSrc numBlocks : Nat) (blockMapping : MlxArray Int) : Prop where
  pairs : HasPairs blockMapping (pairsOf blockMapping)
  inside : ∀ q ∈ pairsOf blockMapping, q.1 < numSrc ∧ q.2 < numBlocks
  distinct : ((pairsOf blockMapping).map Prod.snd).Nodup
  length : (pairsOf blockMapping).length ≤ 2 ^ 30

/-- What the kernels need of their arguments. -/
def Valid (g : BlockShape) (numBlocks : Nat) : CacheCall K C → Prop
  | .reshapeAndCache key value slotMapping => ValidBatch g numBlocks key value slotMapping
  | .copyBlocks blockMapping => ValidPairs numBlocks numBlocks blockMapping ∧ RaceFree (pairsOf blockMapping)
  | .swapBlocks src blockMapping => ∃ numSrc, src.Fits g numSrc ∧ ValidPairs numSrc numBlocks blockMapping

end CacheCall

/-- The caches that a call may return, by the order of its threads. -/
inductive CallStep {K C : Type} (toCache : K → C) (dtype : Dtype) : PagedCaches C → CacheCall K C →
    PagedCaches C → Prop
  | reshapeAndCache {c : PagedCaches C} {key value : MlxArray K} {slotMapping : MlxArray Int}
      {order : List Store} : (reshapeAndCache key value c.key).Schedule slotMapping order →
      CallStep toCache dtype c (.reshapeAndCache key value slotMapping)
        ⟨storeKeys toCache key c.key order, storeValues toCache value c.value order⟩
  | copyBlocks {c : PagedCaches C} {blockMapping : MlxArray Int} {layer : CopyBlocksLayer}
      {after : CacheCell → C} :
      copyBlocks [⟨dtype, c.key⟩] [⟨dtype, c.value⟩] blockMapping = .ok [layer] →
      layer.Copies blockMapping (cells c.key c.value) after →
      CallStep toCache dtype c (.copyBlocks blockMapping)
        ⟨(outputs c.key c.value after).1, (outputs c.key c.value after).2⟩
  | swapBlocks {c src : PagedCaches C} {blockMapping : MlxArray Int} {p p' : SwapBlocks}
      {after after' : SwapCell → C} :
      swapBlocks ⟨dtype, src.key⟩ ⟨dtype, c.key⟩ blockMapping = .ok p →
      p.Copies false blockMapping (swapCells src.key c.key) after →
      swapBlocks ⟨dtype, src.value⟩ ⟨dtype, c.value⟩ blockMapping = .ok p' →
      p'.Copies false blockMapping (swapCells src.value c.value) after' →
      CallStep toCache dtype c (.swapBlocks src blockMapping) ⟨swapOutput c.key after, swapOutput c.value after'⟩

/-- Calls one after the other. -/
inductive CallRun {K C : Type} (toCache : K → C) (dtype : Dtype) : PagedCaches C → List (CacheCall K C) →
    PagedCaches C → Prop
  | nil (c : PagedCaches C) : CallRun toCache dtype c [] c
  | cons {c c₁ c' : PagedCaches C} {call : CacheCall K C} {calls : List (CacheCall K C)} :
      CallStep toCache dtype c call c₁ → CallRun toCache dtype c₁ calls c' →
        CallRun toCache dtype c (call :: calls) c'

/-! ## One call -/

section
variable {K C : Type} {toCache : K → C} {dtype : Dtype} {g : BlockShape} {numBlocks : Nat} {c c' : PagedCaches C}
  {m : Nat → TokenRow C}

theorem mem_batchRows {key value : MlxArray K} {slotMapping : MlxArray Int} {w : Nat × TokenRow C} :
    w ∈ batchRows toCache key value slotMapping ↔ ∃ i < key.dim 0, slotMapping.get [i] = (w.1 : Int) ∧
      w.2 = (fun h d => toCache (key.get [i, h, d]), fun h d => toCache (value.get [i, h, d])) := by
  simp only [batchRows, List.mem_map, List.mem_filter, List.mem_range, decide_eq_true_eq]
  constructor
  · rintro ⟨i, ⟨hi, hslot⟩, rfl⟩
    exact ⟨i, hi, (Int.toNat_of_nonneg hslot).symm, rfl⟩
  · rintro ⟨i, hi, hslot, hrow⟩
    refine ⟨i, ⟨hi, hslot ▸ Int.natCast_nonneg _⟩, ?_⟩
    rw [hslot, Int.toNat_natCast, ← hrow]

namespace PagedCaches.Fits
variable (hf : c.Fits g numBlocks)
include hf

theorem sizes : c.key.size = numBlocks * g.numel ∧ c.value.size = numBlocks * g.numel := by
  rw [MlxArray.size, MlxArray.size, hf.keyShape, hf.valueShape, List.prod_cons, List.prod_cons, g.keyBlock_prod,
    g.valueBlock_prod]
  exact ⟨rfl, rfl⟩

theorem reshape {key value : MlxArray K} {slotMapping : MlxArray Int}
    (hv : CacheCall.ValidBatch g numBlocks key value slotMapping) :
    ReshapeShapes (key.dim 0) g.numHeads g.headSize numBlocks g.blockSize g.x key value c.key c.value slotMapping ∧
      ReshapeFits key value c.key c.value slotMapping ∧ ((∀ i < key.dim 0, slotMapping.get [i] < 0) ∨
        g.numHeads * g.headSize + min 512 (g.numHeads * g.headSize) ≤ 2 ^ 31) := by
  refine ⟨⟨hv.keyShape, hv.valueShape, hf.keyShape, hf.valueShape, hv.slotsShape, g.divides⟩,
    ⟨hv.keyFits, hv.valueFits, ⟨hf.keyContiguous, hf.sizes.1 ▸ hf.small⟩,
      ⟨hf.valueContiguous, hf.sizes.2 ▸ hf.small⟩, hv.slotsFit⟩, Or.inr ?_⟩
  have hle : g.numHeads * g.headSize ≤ g.numHeads * (g.headSize * g.blockSize) :=
    Nat.mul_le_mul_left _ (Nat.le_mul_of_pos_right _ g.block)
  have := g.counter
  omega

theorem exists_schedule {key value : MlxArray K} {slotMapping : MlxArray Int}
    (hv : CacheCall.ValidBatch g numBlocks key value slotMapping) :
    ∃ order, (reshapeAndCache key value c.key).Schedule slotMapping order := by
  obtain ⟨hs, hfits, hok⟩ := hf.reshape hv
  exact ReshapeAndCache.exists_schedule hs hfits hv.good hok

theorem holds_reshapeAndCache {key value : MlxArray K} {slotMapping : MlxArray Int}
    (hv : CacheCall.ValidBatch g numBlocks key value slotMapping) {order : List Store}
    (ho : (reshapeAndCache key value c.key).Schedule slotMapping order) (hm : c.Holds g numBlocks m) :
    PagedCaches.Holds g numBlocks ⟨storeKeys toCache key c.key order, storeValues toCache value c.value order⟩
      (write m (batchRows toCache key value slotMapping)) := by
  obtain ⟨hs, hfits, hok⟩ := hf.reshape hv
  intro b hb t ht h hh d hd
  have hsc : Scatters toCache (key.dim 0) g.numHeads g.headSize g.blockSize g.x key value c.key c.value
    slotMapping order := ReshapeAndCache.scatters_of_schedule hs hfits hv.good hok ho
  by_cases hex : ∃ i < key.dim 0, slotMapping.get [i] = (b * g.blockSize + t : Nat)
  · obtain ⟨i, hi, hslot⟩ := hex
    have hkey := hsc.keys i hi _ hslot h hh d hd
    have hvalue := hsc.values i hi _ hslot h hh d hd
    rw [slot_div ht, slot_mod ht] at hkey hvalue
    have hwritten : write m (batchRows toCache key value slotMapping) (b * g.blockSize + t) =
        (fun h d => toCache (key.get [i, h, d]), fun h d => toCache (value.get [i, h, d])) := by
      refine write_of_mem _ m ⟨(b * g.blockSize + t, _), mem_batchRows.mpr ⟨i, hi, hslot, rfl⟩, rfl⟩
        fun w hw heq => ?_
      obtain ⟨j, hj, hslot', hrow⟩ := mem_batchRows.mp hw
      obtain rfl : i = j := hv.good.distinct i hi j hj (hslot ▸ Int.natCast_nonneg _) (by rw [hslot, hslot', heq])
      exact hrow
    rw [hwritten]
    exact ⟨hkey, hvalue⟩
  · -- no token has the slot
    have hfree : ∀ i < key.dim 0, ∀ slot : Nat, slotMapping.get [i] = slot → slot ≠ b * g.blockSize + t :=
      fun i hi slot hslot heq => hex ⟨i, hi, heq ▸ hslot⟩
    have hsame : ∀ slot : Nat, slot / g.blockSize = b → slot % g.blockSize = t → slot = b * g.blockSize + t := by
      rintro slot rfl rfl
      exact (Nat.div_add_mod' slot g.blockSize).symm
    have hkept : write m (batchRows toCache key value slotMapping) (b * g.blockSize + t) =
      m (b * g.blockSize + t) := write_of_forall_ne _ m fun w hw heq => by
        obtain ⟨i, hi, hslot, _⟩ := mem_batchRows.mp hw
        exact hfree i hi w.1 hslot heq
    rw [hkept]
    obtain ⟨hkey, hvalue⟩ := hm b hb t ht h hh d hd
    rw [← hkey, ← hvalue]
    refine ⟨hsc.keysKept _ ?_ fun i hi slot hslot _ _ _ _ heq => ?_,
      hsc.valuesKept _ ?_ fun i hi slot hslot _ _ _ _ heq => ?_⟩
    · rw [hf.keyShape]
      exact .cons hb (g.keyIdx_mem hh ht hd)
    · simp only [List.cons.injEq] at heq
      exact hfree i hi slot hslot (hsame slot heq.1.symm heq.2.2.2.1.symm)
    · rw [hf.valueShape]
      exact .cons hb (g.valueIdx_mem hh ht hd)
    · simp only [List.cons.injEq] at heq
      exact hfree i hi slot hslot (hsame slot heq.1.symm heq.2.2.2.1.symm)

theorem numBlocks_lt : numBlocks < 2 ^ 31 :=
  (Nat.le_mul_of_pos_right numBlocks g.numel_pos).trans_lt hf.small

/-- The layout that the host finds. -/
def layout (hdtype : ∃ text, dtype.cacheDtypeStr = .ok text) : BlockLayout where
  dtype
  numBlocks
  keyBlock := g.keyBlock
  valueBlock := g.valueBlock
  supported := hdtype
  nonempty := hf.blocks
  fits := hf.numBlocks_lt
  same := g.keyBlock_prod.trans g.valueBlock_prod.symm

omit hf in
theorem holds_of_blocks {numSrc : Nat} {src : PagedCaches C} {pairs : List (Nat × Nat)} {ms : Nat → TokenRow C}
    (hnd : (pairs.map Prod.snd).Nodup) (hin : ∀ q ∈ pairs, q.1 < numSrc) (hm : c.Holds g numBlocks m)
    (hms : src.Holds g numSrc ms)
    (hcopied : ∀ q ∈ pairs,
      (∀ idx, List.Forall₂ (· < ·) idx g.keyBlock → c'.key.get (q.2 :: idx) = src.key.get (q.1 :: idx)) ∧
      ∀ idx, List.Forall₂ (· < ·) idx g.valueBlock → c'.value.get (q.2 :: idx) = src.value.get (q.1 :: idx))
    (hkept : ∀ b < numBlocks, (∀ q ∈ pairs, q.2 ≠ b) →
      (∀ idx, List.Forall₂ (· < ·) idx g.keyBlock → c'.key.get (b :: idx) = c.key.get (b :: idx)) ∧
      ∀ idx, List.Forall₂ (· < ·) idx g.valueBlock → c'.value.get (b :: idx) = c.value.get (b :: idx)) :
    c'.Holds g numBlocks (SlotStore.copyBlocks g.blockSize pairs ms m) := by
  intro b hb t ht h hh d hd
  by_cases hex : ∃ q ∈ pairs, q.2 = b
  · obtain ⟨q, hq, rfl⟩ := hex
    obtain ⟨hkey, hvalue⟩ := hcopied q hq
    rw [hkey _ (g.keyIdx_mem hh ht hd), hvalue _ (g.valueIdx_mem hh ht hd), copyBlocks_of_mem hnd hq ht]
    exact hms q.1 (hin q hq) t ht h hh d hd
  · have hfree : ∀ q ∈ pairs, q.2 ≠ b := fun q hq heq => hex ⟨q, hq, heq⟩
    obtain ⟨hkey, hvalue⟩ := hkept b hb hfree
    rw [hkey _ (g.keyIdx_mem hh ht hd), hvalue _ (g.valueIdx_mem hh ht hd), copyBlocks_of_not hfree ht]
    exact hm b hb t ht h hh d hd

theorem holds_copyBlocks (hdtype : ∃ text, dtype.cacheDtypeStr = .ok text) {blockMapping : MlxArray Int}
    (hv : CacheCall.ValidPairs numBlocks numBlocks blockMapping) (hrace : RaceFree (pairsOf blockMapping)) :
    ∃ layer, copyBlocks [⟨dtype, c.key⟩] [⟨dtype, c.value⟩] blockMapping = .ok [layer] ∧
      (∃ after, layer.Copies blockMapping (cells c.key c.value) after) ∧
      ∀ after, layer.Copies blockMapping (cells c.key c.value) after → c.Holds g numBlocks m →
        PagedCaches.Holds g numBlocks ⟨(outputs c.key c.value after).1, (outputs c.key c.value after).2⟩
          (SlotStore.copyBlocks g.blockSize (pairsOf blockMapping) m m) := by
  have hholds : (hf.layout hdtype).Holds ⟨dtype, c.key⟩ ⟨dtype, c.value⟩ :=
    ⟨⟨rfl, rfl⟩, hf.keyShape, hf.valueShape, hf.keyContiguous, hf.valueContiguous⟩
  have hcall := BlockLayout.copyBlocks_eq
    [(hf.layout hdtype, (⟨dtype, c.key⟩ : TypedArray C), (⟨dtype, c.value⟩ : TypedArray C))]
    (by simpa using hholds) hv.pairs
  have hnumel : (hf.layout hdtype).numel = g.numel := g.keyBlock_prod
  have hcounter : g.numel + 512 ≤ 2 ^ 31 := g.counter
  have hlt : (hf.layout hdtype).numel < 2 ^ 31 := by omega
  have hsafe : SafeCopies (hf.layout hdtype).numel (pairsOf blockMapping) := by
    have hpos := g.numel_pos
    apply Or.inr
    rw [int32_natCast hlt, hnumel]
    exact ⟨by omega, Or.inr ⟨hv.length, by omega, hrace, Or.inl (by omega)⟩⟩
  obtain ⟨hends, hall⟩ := BlockLayout.copiesAtOnce_of_safe
    (BlockLayout.layer_numelPerBlock _ (pairsOf blockMapping).length)
    (BlockLayout.layer_numPairs _ _) hholds hv.pairs hv.inside hv.distinct hsafe
  refine ⟨_, hcall, hends, fun after hafter hm => ?_⟩
  obtain ⟨hkeys, hvalues⟩ := hall after hafter
  exact holds_of_blocks hv.distinct (fun q hq => (hv.inside q hq).1) hm hm
    (fun q hq => ⟨hkeys.copied q hq, hvalues.copied q hq⟩)
    fun b hb hfree => ⟨hkeys.kept b hb hfree, hvalues.kept b hb hfree⟩

theorem holds_swapBlocks {src : PagedCaches C} {numSrc : Nat} (hsrc : src.Fits g numSrc)
    {blockMapping : MlxArray Int} (hv : CacheCall.ValidPairs numSrc numBlocks blockMapping) {p p' : SwapBlocks}
    (hp : swapBlocks ⟨dtype, src.key⟩ ⟨dtype, c.key⟩ blockMapping = .ok p)
    (hp' : swapBlocks ⟨dtype, src.value⟩ ⟨dtype, c.value⟩ blockMapping = .ok p') :
    (∃ after, p.Copies false blockMapping (swapCells src.key c.key) after) ∧
      (∃ after', p'.Copies false blockMapping (swapCells src.value c.value) after') ∧
      ∀ after after', p.Copies false blockMapping (swapCells src.key c.key) after →
        p'.Copies false blockMapping (swapCells src.value c.value) after' → c.Holds g numBlocks m →
        PagedCaches.Holds g numBlocks ⟨swapOutput c.key after, swapOutput c.value after'⟩
          (SlotStore.copyBlocks g.blockSize (pairsOf blockMapping) (src.row g) m) := by
  have hcounter : g.numel + 512 ≤ 2 ^ 31 := g.counter
  have hlen : (pairsOf blockMapping).length ≤ 2 ^ 31 := hv.length.trans (by norm_num)
  have hfits : ∀ {block : List Nat} {a b : MlxArray C}, block.prod = g.numel → a.shape = numSrc :: block →
      b.shape = numBlocks :: block → a.RowContiguous → b.RowContiguous →
      SwapFits false numSrc numBlocks block block a b (pairsOf blockMapping) := fun hprod ha hb hac hbc =>
    ⟨ha, hb, hac, hbc, ⟨hsrc.numBlocks_lt, hf.numBlocks_lt⟩, by omega, hv.inside, hv.distinct, hlen,
      fun hs => by cases hs⟩
  have hkeys := swap_blocks_copies hp hv.pairs
    (hfits g.keyBlock_prod hsrc.keyShape hf.keyShape hsrc.keyContiguous hf.keyContiguous)
  have hvalues := swap_blocks_copies hp' hv.pairs
    (hfits g.valueBlock_prod hsrc.valueShape hf.valueShape hsrc.valueContiguous hf.valueContiguous)
  refine ⟨hkeys.1, hvalues.1, fun after after' hafter hafter' hm => ?_⟩
  have hk := hkeys.2 after hafter
  have hv' := hvalues.2 after' hafter'
  exact holds_of_blocks hv.distinct (fun q hq => (hv.inside q hq).1) hm (src.holds_row g numSrc)
    (fun q hq => ⟨fun idx hidx => hk.copied q hq idx idx hidx hidx rfl, fun idx hidx =>
      hv'.copied q hq idx idx hidx hidx rfl⟩)
    fun b hb hfree => ⟨hk.kept b hb hfree, hv'.kept b hb hfree⟩

end PagedCaches.Fits

theorem copyBlocks_dtype {a b : MlxArray C} {blockMapping : MlxArray Int} {layers : List CopyBlocksLayer}
    (h : copyBlocks [⟨dtype, a⟩] [⟨dtype, b⟩] blockMapping = .ok layers) :
      ∃ text, dtype.cacheDtypeStr = .ok text := by
  rw [copyBlocks, throwIf_bind, throwIf_bind] at h
  cases htext : dtype.cacheDtypeStr with
  | ok text => exact ⟨text, rfl⟩
  | error e =>
    obtain ⟨-, -, h⟩ := h
    rw [List.zip_cons_cons, List.mapM_cons] at h
    cases hlayer : copyBlocksLayer (blockMapping.dim 0) ⟨dtype, a⟩ ⟨dtype, b⟩ with
    | error e => rw [hlayer] at h; cases h
    | ok layer =>
      rw [copyBlocksLayer, throwIf_bind, throwIf_bind, htext] at hlayer
      cases hlayer.2.2

/-! ## Runs -/

theorem CallStep.fits {call : CacheCall K C} (hf : c.Fits g numBlocks) (h : CallStep toCache dtype c call c') :
    c'.Fits g numBlocks := by
  cases h with
  | reshapeAndCache =>
    exact ⟨hf.keyShape, hf.valueShape, hf.keyContiguous, hf.valueContiguous, hf.blocks, hf.small⟩
  | copyBlocks =>
    exact ⟨hf.keyShape, hf.valueShape, hf.keyContiguous, hf.valueContiguous, hf.blocks, hf.small⟩
  | swapBlocks =>
    exact ⟨hf.keyShape, hf.valueShape, hf.keyContiguous, hf.valueContiguous, hf.blocks, hf.small⟩

/-- One call does to the slots what it is for. -/
theorem CallStep.holds {call : CacheCall K C} (hf : c.Fits g numBlocks) (hv : call.Valid g numBlocks)
    (hm : c.Holds g numBlocks m) (h : CallStep toCache dtype c call c') :
    c'.Holds g numBlocks (call.apply g toCache m) := by
  cases h with
  | reshapeAndCache ho => exact hf.holds_reshapeAndCache hv ho hm
  | copyBlocks hcall hcopies =>
    obtain ⟨hpairs, hrace⟩ := hv
    have hdtype : ∃ text, dtype.cacheDtypeStr = .ok text := copyBlocks_dtype hcall
    obtain ⟨layer', hcall', -, hall⟩ := hf.holds_copyBlocks (m := m) hdtype hpairs hrace
    rw [hcall] at hcall'
    cases hcall'
    exact hall _ hcopies hm
  | swapBlocks hp hcopies hp' hcopies' =>
    obtain ⟨numSrc, hsrc, hpairs⟩ := hv
    exact (hf.holds_swapBlocks hsrc hpairs hp hp').2.2 _ _ hcopies hcopies' hm

/-- What the calls are for, one after the other. -/
def applyCalls (g : BlockShape) (toCache : K → C) (calls : List (CacheCall K C)) (m : Nat → TokenRow C) :
    Nat → TokenRow C := calls.foldl (fun m call => call.apply g toCache m) m

theorem CallRun.holds {calls : List (CacheCall K C)} (h : CallRun toCache dtype c calls c') :
    ∀ {m : Nat → TokenRow C}, c.Fits g numBlocks → (∀ call ∈ calls, call.Valid g numBlocks) →
      c.Holds g numBlocks m → c'.Fits g numBlocks ∧ c'.Holds g numBlocks (applyCalls g toCache calls m) := by
  induction h with
  | nil c => exact fun hf _ hm => ⟨hf, hm⟩
  | cons hstep _ ih =>
    intro m hf hv hm
    exact ih (hstep.fits hf) (fun call hcall => hv call (List.mem_cons_of_mem _ hcall))
      (hstep.holds hf (hv _ List.mem_cons_self) hm)

end

/-! ## Two blocks -/

def smallShape : BlockShape where
  numHeads := 1
  headSize := 32
  blockSize := 8
  x := 4
  heads := by decide
  head := by decide
  block := by decide
  pack := by decide
  divides := by decide
  counter := by decide

def emptyCaches : PagedCaches ℚ where
  key := MlxArray.ofData [2, 1, 8, 8, 4] fun _ => 0
  value := MlxArray.ofData [2, 1, 32, 8] fun _ => 0

theorem emptyCaches_fits : emptyCaches.Fits smallShape 2 :=
  ⟨rfl, rfl, MlxArray.ofData_rowContiguous _ _, MlxArray.ofData_rowContiguous _ _, by decide, by decide⟩

/-- A token with zeros and one with ones. -/
def twoTokens : MlxArray ℚ := MlxArray.ofData [2, 1, 32] fun i => if i < 32 then 0 else 1

/-- The first slots of block 1. -/
def twoSlots : MlxArray Int := MlxArray.ofData [2] fun i => 8 + i

theorem twoTokens_valid : CacheCall.ValidBatch smallShape 2 twoTokens twoTokens twoSlots :=
  ⟨rfl, rfl, rfl, ⟨MlxArray.ofData_rowContiguous _ _, by decide⟩, ⟨MlxArray.ofData_rowContiguous _ _, by decide⟩,
    ⟨MlxArray.ofData_rowContiguous _ _, by decide⟩, ⟨by decide, by decide⟩⟩

/-- Block 1 is copied to block 0. -/
def forkMapping : MlxArray Int := BlockLayout.mappingOf [(1, 0)] fun _ => 0

theorem forkMapping_valid : (CacheCall.copyBlocks forkMapping : CacheCall ℚ ℚ).Valid smallShape 2 :=
  ⟨⟨BlockLayout.hasPairs_mappingOf [(1, 0)] fun _ => 0, by decide, by decide, by decide⟩, by decide⟩

end SglangMlx
