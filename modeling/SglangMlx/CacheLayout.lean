import SglangMlx.PagedAttention
import SglangMlx.ReshapeCorrect

/- The layout of the paged caches. `reshape_and_cache` packs the dimensions of a key by
   the last axis of the key cache, `paged_attention` by what 16 bytes hold; the checks
   of the host compare neither with the other. Both use the strides of the key cache
   for the value cache too, which row-contiguous caches of matching shapes allow. -/
namespace SglangMlx

open MachineInt Layout ReshapeAndCache

/-- After a batch is written, what the kernel loads for a token is the token's key and
    value. -/
def LayoutsAgree {F K C : Type} (toCache : K → C) (p : PagedAttention F) (keyCache valueCache : MlxArray C) :
    Prop := ∀ (T : Nat) (key value : MlxArray K) (slotMapping : MlxArray Int),
    key.shape = [T, p.numKvHeads, p.headSize] → value.shape = [T, p.numKvHeads, p.headSize] →
      slotMapping.shape = [T] →
    ReshapeFits key value keyCache valueCache slotMapping → GoodSlots T (keyCache.dim 0) p.blockSize slotMapping →
    (∃ order, (reshapeAndCache key value keyCache).Schedule slotMapping order) ∧
      ∀ order, (reshapeAndCache key value keyCache).Schedule slotMapping order →
        ∀ i < T, ∀ b t : Nat, t < p.blockSize → slotMapping.get [i] = (b * p.blockSize + t : Nat) →
          ∀ h < p.numKvHeads, ∀ d < p.headSize,
            (storeKeys toCache key keyCache order).data (p.kIndex b h t d) = toCache (key.get [i, h, d]) ∧
              (storeValues toCache value valueCache order).data (p.vIndex b h t d) = toCache (value.get [i, h, d])

/-- A cache with blocks, as both sides see it. -/
structure CacheGeometry {F C : Type} (p : PagedAttention F) (B x : Nat) (keyCache valueCache : MlxArray C) :
    Prop where
  keyShape : keyCache.shape = [B, p.numKvHeads, p.headSize / x, p.blockSize, x]
  valueShape : valueCache.shape = [B, p.numKvHeads, p.headSize, p.blockSize]
  divides : x ∣ p.headSize
  blocks : 0 < B
  heads : 0 < p.numKvHeads
  head : 32 ≤ p.headSize
  block : 8 ≤ p.blockSize
  pack : 0 < x
  small : B * (p.numKvHeads * (p.headSize * p.blockSize)) < 2 ^ 31

section
variable {F Q C I : Type} [One F] {maxSmem : Nat} {query : MlxArray Q} {keyCache valueCache : MlxArray C}
  {blockTables contextLens : MlxArray I} {alibiSlopes : Option (MlxArray F)} {p : PagedAttention F}

theorem Accepted.geometry (ha : Accepted maxSmem query keyCache valueCache blockTables contextLens alibiSlopes p)
    (hk : keyCache.size < 2 ^ 31) (hv : valueCache.size < 2 ^ 31) (hB : keyCache.dim 0 ≠ 0) :
    CacheGeometry p (keyCache.dim 0) (keyCache.dim 4) keyCache valueCache := by
  have hhead : 32 ≤ p.headSize := by
    have := ha.headSize
    simp only [List.mem_cons, List.not_mem_nil, or_false] at this
    omega
  have hblock : 8 ≤ p.blockSize := by
    have := ha.blockSize
    simp only [List.mem_cons, List.not_mem_nil, or_false] at this
    omega
  have hBpos : 0 < keyCache.dim 0 := Nat.pos_of_ne_zero hB
  rw [MlxArray.size, ha.keyCacheShape] at hk
  rw [MlxArray.size, ha.valueCacheShape] at hv
  simp only [List.prod_cons, List.prod_nil, mul_one] at hk hv
  have hpack : keyCache.dim 2 * keyCache.dim 4 = p.headSize := by
    -- the product does not wrap, since the cache has blocks
    have hlt : keyCache.dim 2 * keyCache.dim 4 < 2 ^ 31 := by
      have hle : keyCache.dim 2 * keyCache.dim 4 ≤ keyCache.dim 2 * (p.blockSize * keyCache.dim 4) :=
        Nat.mul_le_mul_left _ (Nat.le_mul_of_pos_left _ (by omega))
      exact hle.trans_lt (lt_of_pos_mul ha.kvHeads.1 (lt_of_pos_mul hBpos hk))
    have heq := ha.packs
    rw [← Nat.cast_mul, int32_natCast hlt] at heq
    exact Int.ofNat_inj.mp heq
  have hx : 0 < keyCache.dim 4 := Nat.pos_of_ne_zero fun h0 => by
    rw [h0, Nat.mul_zero] at hpack
    omega
  refine ⟨?_, ha.valueCacheShape, ⟨keyCache.dim 2, by rw [Nat.mul_comm]; exact hpack.symm⟩, hBpos,
    ha.kvHeads.1, hhead, hblock, hx, hv⟩
  rw [← hpack, Nat.mul_div_cancel _ hx]
  exact ha.keyCacheShape

end

theorem stride_term {b B m : Nat} {s : Int} (hb : b < B) (hs : 1 < B → s = m) (hm : m < 2 ^ 31) :
    (b : Int) * int32 s = (b * m : Nat) := by
  rcases Nat.eq_zero_or_pos b with rfl | hpos
  · simp
  · rw [hs (Nat.lt_of_le_of_lt hpos hb), int32_natCast hm, Nat.cast_mul]

namespace CacheGeometry
variable {F C : Type} {p : PagedAttention F} {B x : Nat} {keyCache valueCache : MlxArray C}
  (g : CacheGeometry p B x keyCache valueCache)
include g

theorem row_lt : p.headSize * p.blockSize < 2 ^ 31 ∧ p.numKvHeads * (p.headSize * p.blockSize) < 2 ^ 31 :=
  ⟨lt_of_pos_mul g.heads (lt_of_pos_mul g.blocks g.small), lt_of_pos_mul g.blocks g.small⟩

theorem packs : p.headSize / x * x = p.headSize := Nat.div_mul_cancel g.divides

theorem strides (hc : keyCache.RowContiguous) :
    (1 < B → keyCache.stride 0 = (p.numKvHeads * (p.headSize * p.blockSize) : Nat)) ∧
      (1 < p.numKvHeads → keyCache.stride 1 = (p.headSize * p.blockSize : Nat)) := by
  have hpacks : 0 < p.headSize / x := Nat.div_pos (Nat.le_of_dvd (by have := g.head; omega) g.divides) g.pack
  have hall : ∀ m ∈ keyCache.shape, 0 < m := by
    rw [g.keyShape]
    have := g.blocks
    have := g.heads
    have := g.block
    have := g.pack
    simp only [List.mem_cons, List.not_mem_nil, or_false]
    omega
  have hsame := hc.sameStrides hall
  have hlen := keyCache.aligned
  rw [g.keyShape] at hsame hlen
  have hrow : p.headSize / x * (p.blockSize * x) = p.headSize * p.blockSize := by
    rw [Nat.mul_comm p.blockSize, ← Nat.mul_assoc, g.packs]
  simp only [MlxArray.stride]
  obtain ⟨s0, rest, heq⟩ := List.exists_cons_of_length_eq_add_one hlen
  rw [heq] at hsame hlen ⊢
  obtain ⟨s1, rest, rfl⟩ := List.exists_cons_of_length_eq_add_one (Nat.succ.inj hlen)
  simp only [rowStrides, SameStrides, List.prod_cons, List.prod_nil, mul_one, hrow] at hsame
  exact ⟨hsame.1, hsame.2.1⟩

variable (hb : p.kvBlockStride = int32 (keyCache.stride 0)) (hh : p.kvHeadStride = int32 (keyCache.stride 1))
include hb hh

theorem kIndex_eq (hc : keyCache.RowContiguous) {b h t d : Nat} (hbB : b < B) (hhH : h < p.numKvHeads) :
    p.kIndex b h t d = ((b * (p.numKvHeads * (p.headSize * p.blockSize)) + h * (p.headSize * p.blockSize) +
      (d / p.x * p.blockSize * p.x + t * p.x + d % p.x) : Nat) : Int) := by
  obtain ⟨hs0, hs1⟩ := g.strides hc
  rw [PagedAttention.kIndex, hb, hh, stride_term hbB hs0 g.row_lt.2, stride_term hhH hs1 g.row_lt.1]
  push_cast
  ring

theorem vIndex_eq (hc : keyCache.RowContiguous) {b h t d : Nat} (hbB : b < B) (hhH : h < p.numKvHeads) :
    p.vIndex b h t d = (flat valueCache.shape [b, h, d, t] : Nat) := by
  obtain ⟨hs0, hs1⟩ := g.strides hc
  rw [PagedAttention.vIndex, hb, hh, stride_term hbB hs0 g.row_lt.2, stride_term hhH hs1 g.row_lt.1, g.valueShape]
  simp only [flat, List.prod_cons, List.prod_nil]
  push_cast
  ring

/-- With the same packing, the kernel reads the cell that is written. -/
theorem kIndex_flat (hc : keyCache.RowContiguous) (hx : x = p.x) {b h t d : Nat} (hbB : b < B)
    (hhH : h < p.numKvHeads) :
    p.kIndex b h t d = (flat keyCache.shape [b, h, d / x, t, d % x] : Nat) := by
  have hrow : p.headSize / x * (p.blockSize * x) = p.headSize * p.blockSize := by
    rw [Nat.mul_comm p.blockSize, ← Nat.mul_assoc, g.packs]
  rw [g.kIndex_eq hb hh hc hbB hhH, g.keyShape, ← hx]
  simp only [flat, List.prod_cons, List.prod_nil, mul_one, hrow]
  congr 1
  ring

omit hb hh in
theorem shapes {K : Type} {T : Nat} {key value : MlxArray K} {slotMapping : MlxArray Int}
    (hkey : key.shape = [T, p.numKvHeads, p.headSize]) (hvalue : value.shape = [T, p.numKvHeads, p.headSize])
    (hslots : slotMapping.shape = [T]) :
    ReshapeShapes T p.numKvHeads p.headSize B p.blockSize x key value keyCache valueCache slotMapping :=
  ⟨hkey, hvalue, g.keyShape, g.valueShape, hslots, g.divides⟩

omit hb hh in
theorem counter_fits :
    p.numKvHeads * p.headSize + min 512 (p.numKvHeads * p.headSize) ≤ 2 ^ 31 :=
  calc p.numKvHeads * p.headSize + min 512 (p.numKvHeads * p.headSize)
      ≤ p.numKvHeads * p.headSize + p.numKvHeads * p.headSize := Nat.add_le_add_left (Nat.min_le_right _ _) _
    _ = p.numKvHeads * p.headSize * 2 := (Nat.mul_two _).symm
    _ ≤ p.numKvHeads * p.headSize * p.blockSize := Nat.mul_le_mul_left _ (by have := g.block; omega)
    _ = p.numKvHeads * (p.headSize * p.blockSize) := Nat.mul_assoc _ _ _
    _ ≤ 2 ^ 31 := g.row_lt.2.le

end CacheGeometry

section
variable {F K C : Type} {toCache : K → C} {p : PagedAttention F} {keyCache valueCache : MlxArray C}

/-- Without blocks no token has a slot, and nothing is written. -/
theorem layoutsAgree_of_empty (hB : keyCache.dim 0 = 0) : LayoutsAgree toCache p keyCache valueCache := by
  intro T key value slotMapping hkey _ hslots hf hg
  have hneg : ∀ i < T, slotMapping.get [i] < 0 := fun i hi => by
    have hlt := hg.below i hi
    rw [hB, Nat.zero_mul] at hlt
    exact hlt
  refine ⟨⟨_, fun _ _ => [], fun gid hgid tid _ => ?_, List.Perm.refl _⟩, fun order _ i hi b t _ hslot => ?_⟩
  · have hgid' : gid < T := by
      simpa only [reshapeAndCache, MlxArray.dim, hkey, List.getD_cons_zero] using hgid
    rw [threadRun_iff hslots hf.slotMapping hgid', if_pos (hneg gid hgid')]
  · have hlt := hneg i hi
    rw [hslot] at hlt
    exact absurd hlt (Int.not_lt.mpr (Int.natCast_nonneg _))

variable {B x : Nat} (g : CacheGeometry p B x keyCache valueCache) (hBdim : keyCache.dim 0 = B)
  (hb : p.kvBlockStride = int32 (keyCache.stride 0)) (hh : p.kvHeadStride = int32 (keyCache.stride 1))
include g hBdim hb hh

theorem layoutsAgree_of_pack (hx : x = p.x) : LayoutsAgree toCache p keyCache valueCache := by
  intro T key value slotMapping hkey hvalue hslots hf hg
  rw [hBdim] at hg
  have hs := g.shapes hkey hvalue hslots
  have hok := Or.inr (a := ∀ i < T, slotMapping.get [i] < 0) g.counter_fits
  refine ⟨exists_schedule hs hf hg hok, fun order ho i hi b t ht hslot h hhH d hd => ?_⟩
  have hsc : Scatters toCache T p.numKvHeads p.headSize p.blockSize x key value keyCache valueCache
    slotMapping order := scatters_of_schedule hs hf hg hok ho
  have hbB : b < B := by
    have hlt := hg.below i hi
    rw [hslot, Int.ofNat_lt] at hlt
    exact Nat.lt_of_mul_lt_mul_right ((Nat.le_add_right _ t).trans_lt hlt)
  have hdiv : (b * p.blockSize + t) / p.blockSize = b := by
    rw [Nat.mul_comm, Nat.mul_add_div (Nat.zero_lt_of_lt ht), Nat.div_eq_of_lt ht, Nat.add_zero]
  have hmod : (b * p.blockSize + t) % p.blockSize = t := by
    rw [Nat.mul_comm, Nat.mul_add_mod, Nat.mod_eq_of_lt ht]
  have hkeys := hsc.keys i hi _ hslot h hhH d hd
  have hvalues := hsc.values i hi _ hslot h hhH d hd
  rw [hdiv, hmod] at hkeys hvalues
  rw [g.kIndex_flat hb hh hf.keyCache.1 hx hbB hhH, g.vIndex_eq hb hh hf.keyCache.1 hbB hhH, ← hkeys, ← hvalues]
  have hck : (storeKeys toCache key keyCache order).RowContiguous := hf.keyCache.1
  have hcv : (storeValues toCache value valueCache order).RowContiguous := hf.valueCache.1
  have hslotlt : b * p.blockSize + t < B * p.blockSize := digit_lt hbB ht
  have hkc := keyCell_mem hs g.pack hslotlt hhH hd
  have hvc := valueCell_mem hs hslotlt hhH hd
  rw [keyCell, hdiv, hmod] at hkc
  rw [valueCell, hdiv, hmod] at hvc
  exact ⟨(hck.get hkc).symm, (hcv.get hvc).symm⟩

omit hb hh in
/-- With another packing, dimension 0 of the token in slot 1 is read from a cell that
    belongs to another element or to none. -/
theorem not_layoutsAgree (hk : keyCache.RowContiguous ∧ keyCache.size < 2 ^ 31)
    (hv : valueCache.RowContiguous ∧ valueCache.size < 2 ^ 31) (hconv : ∃ a b, toCache a ≠ toCache b)
    (hx : x ≠ p.x) :
    ¬LayoutsAgree toCache p keyCache valueCache := by
  intro hall
  -- a value that differs from what the cache holds there, and another one
  obtain ⟨a, b, hab, ha⟩ : ∃ a b, toCache a ≠ toCache b ∧ toCache a ≠ keyCache.data p.x := by
    obtain ⟨a, b, hab⟩ := hconv
    by_cases ha : toCache a = keyCache.data p.x
    · exact ⟨b, a, hab.symm, fun hb => hab (ha.trans hb.symm)⟩
    · exact ⟨a, b, hab, ha⟩
  let key : MlxArray K := MlxArray.ofData [1, p.numKvHeads, p.headSize] fun i => if i = 0 then a else b
  let slotMapping : MlxArray Int := MlxArray.ofData [1] fun _ => 1
  have hblock : 1 < p.blockSize := by
    have := g.block
    omega
  have hhead : 0 < p.headSize := by
    have := g.head
    omega
  have hc : key.RowContiguous := MlxArray.ofData_rowContiguous _ _
  have hsmall : key.size < 2 ^ 31 := by
    have hsize : key.size = p.numKvHeads * p.headSize := by simp [key, MlxArray.size, MlxArray.ofData]
    have hrow : p.blockSize * (p.numKvHeads * p.headSize) = p.numKvHeads * (p.headSize * p.blockSize) := by ring
    rw [hsize]
    exact lt_of_pos_mul (Nat.zero_lt_of_lt hblock) (hrow ▸ g.row_lt.2)
  have hf : ReshapeFits key key keyCache valueCache slotMapping :=
    ⟨⟨hc, hsmall⟩, ⟨hc, hsmall⟩, hk, hv, ⟨MlxArray.ofData_rowContiguous _ _, by decide⟩⟩
  have hslot : ∀ i, slotMapping.get [i] = ((0 * p.blockSize + 1 : Nat) : Int) := fun i => by
    rw [Nat.zero_mul, Nat.zero_add]
    rfl
  have hg : GoodSlots 1 B p.blockSize slotMapping := by
    refine ⟨fun i hi j hj _ _ => by omega, fun i _ => ?_⟩
    rw [hslot, Int.ofNat_lt]
    exact digit_lt g.blocks hblock
  obtain ⟨⟨order, ho⟩, hagree⟩ := hall 1 key key slotMapping rfl rfl rfl hf (by rw [hBdim]; exact hg)
  have hs : ReshapeShapes 1 p.numKvHeads p.headSize B p.blockSize x key key keyCache valueCache slotMapping :=
    g.shapes rfl rfl rfl
  have hload := (hagree order ho 0 Nat.one_pos 0 1 hblock (hslot _) 0 g.heads 0 hhead).1
  have haddr : p.kIndex 0 0 1 0 = (p.x : Int) := by simp [PagedAttention.kIndex]
  have hfirst : key.get [0, 0, 0] = a := by simp [key, MlxArray.get, MlxArray.ofData, place, rowStrides]
  rw [haddr, hfirst] at hload
  have hothers : ∀ w ∈ order.map (fun s => (s.tgtKey, toCache (key.data s.srcKey))), w.1 = (p.x : Int) →
      w.2 = toCache b := by
    intro w hw haddr'
    obtain ⟨s, hs', rfl⟩ := List.mem_map.mp hw
    obtain ⟨⟨i, slot, h, d⟩, hj, rfl⟩ := (mem_schedule hs hf hg (Or.inr g.counter_fits) ho s).mp hs'
    obtain rfl : i = 0 := Nat.lt_one_iff.mp hj.token
    obtain rfl : slot = 1 := by
      have heq := hj.slot.symm.trans (hslot 0)
      rw [Nat.zero_mul, Nat.zero_add] at heq
      exact Int.ofNat_inj.mp heq
    refine congrArg toCache (if_neg fun hzero => hx ?_)
    -- the first element goes to place `x`
    have hflat : flat key.shape [0, h, d] = h * p.headSize + d := by simp [key, MlxArray.ofData, flat]
    have hsrc : flat key.shape [0, h, d] = 0 := Int.ofNat_inj.mp hzero
    rw [hflat] at hsrc
    obtain rfl : d = 0 := by omega
    obtain rfl : h = 0 := (Nat.mul_eq_zero.mp (by omega : h * p.headSize = 0)).resolve_right (by omega)
    have htgt : flat keyCache.shape (keyCell p.blockSize x 1 0 0) = p.x := Int.ofNat_inj.mp haddr'
    rw [g.keyShape, keyCell, Nat.div_eq_of_lt hblock, Nat.mod_eq_of_lt hblock, Nat.zero_div, Nat.zero_mod] at htgt
    simpa [flat] using htgt
  rcases write_or_kept _ keyCache.data hothers with heq | heq
  · exact hab (hload.symm.trans heq)
  · exact ha (hload.symm.trans heq)

end

/-- Writer and reader agree on the caches of an accepted call exactly if keys are packed
    in 16 bytes, or there are no blocks. -/
theorem layouts_agree_iff {F Q C I K : Type} [One F] {toCache : K → C} {maxSmem : Nat} {dtype cacheDtype : Dtype}
    {query : MlxArray Q} {keyCache valueCache : MlxArray C} {blockTables contextLens : MlxArray I}
    {numKvHeads : Int}
    {scale : F} {blockSize maxSeqLen : Int} {alibiSlopes : Option (MlxArray F)} {p : PagedAttention F}
    (h : pagedAttentionV1 maxSmem dtype cacheDtype query keyCache valueCache blockTables contextLens
      numKvHeads scale blockSize maxSeqLen alibiSlopes = .ok p)
    (hk : keyCache.RowContiguous ∧ keyCache.size < 2 ^ 31)
    (hv : valueCache.RowContiguous ∧ valueCache.size < 2 ^ 31) (hconv : ∃ a b, toCache a ≠ toCache b) :
    LayoutsAgree toCache p keyCache valueCache ↔ keyCache.dim 4 = 16 / cacheDtype.size ∨ keyCache.dim 0 = 0 := by
  obtain ⟨ha, hbytes⟩ := accepted_of_ok h
  have hx : p.x = 16 / cacheDtype.size := by rw [PagedAttention.x, hbytes]
  rw [← hx]
  rcases Nat.eq_zero_or_pos (keyCache.dim 0) with hB | hB
  · exact iff_of_true (layoutsAgree_of_empty hB) (Or.inr hB)
  · have g := ha.geometry hk.2 hv.2 (Nat.ne_of_gt hB)
    constructor
    · intro hall
      by_contra hne
      exact not_layoutsAgree g rfl hk hv hconv (fun he => hne (Or.inl he)) hall
    · intro hor
      exact layoutsAgree_of_pack g rfl ha.kvBlockStride ha.kvHeadStride (hor.resolve_right (Nat.ne_of_gt hB))

section
variable (pack packs : Nat)

/-- One block of eight positions for one KV head of 32 `float`s, packed by `pack`. -/
def smallKeyCache : MlxArray Int := MlxArray.ofData [1, 1, packs, 8, pack] fun _ => 0

def smallValueCache : MlxArray Int := MlxArray.ofData [1, 1, 32, 8] fun _ => 0

/-- The call for one sequence and one query head. -/
def smallCall : Except String (PagedAttention Int) :=
  pagedAttentionV1 32768 .float32 .float32 (MlxArray.ofData [1, 1, 32] fun _ => (0 : Int))
    (smallKeyCache pack packs)
    smallValueCache (MlxArray.ofData [1, 1] fun _ => (0 : Nat))
      (MlxArray.ofData [1] fun _ => (0 : Nat)) 1 1 8 8 none

theorem small_fits :
    ((smallKeyCache pack packs).RowContiguous ∧ (smallKeyCache pack packs).size = packs * (8 * pack)) ∧
    smallValueCache.RowContiguous ∧ smallValueCache.size < 2 ^ 31 := by
  refine ⟨⟨MlxArray.ofData_rowContiguous _ _, ?_⟩, MlxArray.ofData_rowContiguous _ _, by decide⟩
  simp [smallKeyCache, MlxArray.size, MlxArray.ofData]

end

theorem layouts_agree_iff_four :
    ∃ p, smallCall 4 8 = .ok p ∧ LayoutsAgree (id : Int → Int) p (smallKeyCache 4 8) smallValueCache := by
  have hcall : smallCall 4 8 = .ok ⟨1, 1, 32, 8, 4, 1, 1, 1, 1, false, 32, 256, 256, 8, 1568⟩ := by decide +kernel
  obtain ⟨⟨hk, hsize⟩, hv⟩ := small_fits 4 8
  exact ⟨_, hcall, (layouts_agree_iff hcall ⟨hk, hsize ▸ by norm_num⟩ hv ⟨0, 1, by decide⟩).mpr (Or.inl rfl)⟩

/-- Keys packed by eight, which the checks let pass. -/
theorem packed_by_eight_disagree :
    ∃ p, smallCall 8 4 = .ok p ∧ ¬LayoutsAgree (id : Int → Int) p (smallKeyCache 8 4) smallValueCache := by
  have hcall : smallCall 8 4 = .ok ⟨1, 1, 32, 8, 4, 1, 1, 1, 1, false, 32, 256, 256, 8, 1568⟩ := by decide +kernel
  obtain ⟨⟨hk, hsize⟩, hv⟩ := small_fits 8 4
  have hlt : (smallKeyCache 8 4).size < 2 ^ 31 := hsize ▸ by norm_num
  obtain ⟨ha, _⟩ := accepted_of_ok hcall
  refine ⟨_, hcall, not_layoutsAgree (ha.geometry hlt hv.2 (by decide)) rfl ⟨hk, hlt⟩ hv
    ⟨0, 1, by decide⟩ (by decide)⟩

end SglangMlx
