import SglangMlx.ReshapeCorrect
import SglangMlx.ReshapeFlash

/- The paged and the flash writer against each other. Both loop over the elements of a
   token with the same `int` counter. The flash writer computes its indices in 64 bits,
   which suffice; the paged writer computes the source and the sizes of its strides in
   32 bits, so that a stride that is used may wrap (`paged_store`). When none does, both
   store the batch in the cells of its slots. When one does, some element of some batch
   ends in another cell, or a source index is negative. -/
namespace SglangMlx

open MachineInt Layout ReshapeAndCache

/-- The sizes within which the paged writer's indices do not wrap. -/
structure IndexFits (T H D BS x : Nat) (slotMapping : MlxArray Int) : Prop where
  counter : H * D + min 512 (H * D) ≤ 2 ^ 31
  batch : T * (H * D) ≤ 2 ^ 31
  head : 1 < H → D * BS < 2 ^ 31
  pack : x < D → BS * x < 2 ^ 31
  block : ∀ i < T, BS ≤ slotMapping.get [i] → H * (D * BS) < 2 ^ 31

theorem scaled {c m : Nat} (h : c ≠ 0 → m < 2 ^ 31) : (c : Int) * int32 m = (c * m : Nat) := by
  rcases Nat.eq_zero_or_pos c with rfl | hpos
  · simp
  · rw [int32_natCast (h (Nat.ne_of_gt hpos)), Nat.cast_mul]

/-- A cut stride is no larger than the stride, and a term of 64 bits holds it. -/
theorem term_bounds {c m : Nat} (hc : c < 2 ^ 31) : -2 ^ 62 ≤ (c : Int) * int32 m ∧ (c : Int) * int32 m ≤
    (c * m : Nat) := by
  obtain ⟨h0, _⟩ := int32_range (m : Int)
  constructor
  · have hneg : (c : Int) * -2 ^ 31 ≤ c * int32 m := Int.mul_le_mul_of_nonneg_left h0 (Int.natCast_nonneg c)
    omega
  · rw [Nat.cast_mul]
    exact Int.mul_le_mul_of_nonneg_left (int32_natCast_le m) (Int.natCast_nonneg c)

theorem lt_of_int32_eq {m : Nat} (h : int32 m = m) : m < 2 ^ 31 := by
  have hlt := (int32_range (m : Int)).2
  rw [h] at hlt
  omega

theorem eq_of_int64 {z : Int} {n : Nat} (h0 : -2 ^ 63 ≤ z) (hle : z ≤ n) (hn : n < 2 ^ 63) (h : int64 z = n) :
    z = n := by
  rwa [int64_of_range h0 (by omega)] at h

theorem digits {n a r : Nat} (hr : r < n) : (a * n + r) / n = a ∧ (a * n + r) % n = r := by
  have hn : 0 < n := Nat.zero_lt_of_lt hr
  rw [Nat.mul_comm, Nat.mul_add_div hn, Nat.mul_add_mod, Nat.div_eq_of_lt hr, Nat.mod_eq_of_lt hr, Nat.add_zero]
  exact ⟨rfl, rfl⟩

/-- The cell of both flash caches for element `(h, d)` of a token. -/
def flashCell (BS slot h d : Nat) : List Nat := [slot / BS, slot % BS, h, d]

theorem flashCell_inj {BS slot slot' h h' d d' : Nat} (heq : flashCell BS slot h d = flashCell BS slot' h' d') :
    slot = slot' ∧ h = h' ∧ d = d' := by
  simp only [flashCell, List.cons.injEq, and_true] at heq
  obtain ⟨hdiv, hmod, hh, hd⟩ := heq
  exact ⟨by rw [← Nat.div_add_mod slot BS, hdiv, hmod, Nat.div_add_mod], hh, hd⟩

theorem flashCell_mem {H D B BS slot h d : Nat} (hslot : slot < B * BS) (hh : h < H) (hd : d < D) :
    List.Forall₂ (· < ·) (flashCell BS slot h d) [B, BS, H, D] :=
  .cons (Nat.div_lt_of_lt_mul (Nat.mul_comm B BS ▸ hslot))
    (.cons (Nat.mod_lt _ (Nat.pos_of_mul_pos_left (Nat.zero_lt_of_lt hslot))) (.cons hh (.cons hd .nil)))

section
variable {K : Type} {T H D B BS x : Nat} {slotMapping : MlxArray Int} (hb : Batch T H D B BS x slotMapping)
  {key value : MlxArray K} {c : Caches K} (hk : Rows key [T, H, D]) (hv : Rows value [T, H, D])
  (hc : c.Valid H D B BS x)

/-! ## The scalars and the loops -/

include hb

theorem Batch.exists_slot {i : Nat} (hi : i < T) :
    ∃ slot : Nat, slotMapping.get [i] = slot ∧ slot < B * BS ∧ slot < 2 ^ 31 := by
  obtain ⟨h0, h1, h2⟩ := hb.slots i hi
  obtain ⟨slot, hslot⟩ := Int.eq_ofNat_of_zero_le h0
  rw [hslot] at h1 h2
  exact ⟨slot, hslot, by omega, by omega⟩

theorem flat_batch {a : MlxArray K} (ha : Rows a [T, H, D]) {i h d : Nat} (hi : i < T) (hh : h < H) (hd : d < D) :
    (i : Int) * int32 (a.stride 0) + (h * D + d : Nat) = (flat [T, H, D] [i, h, d] : Nat) := by
  have hflat : flat [T, H, D] [i, h, d] = i * (H * D) + (h * D + d) := by simp [flat]
  rw [hflat]
  rcases Nat.eq_zero_or_pos i with rfl | hpos
  · simp
  · -- the stride is used, so it is the size of a row
    have hst := ha.contiguous.stride_zero ha.shape (by omega : 1 < T)
      (by simp [Nat.zero_lt_of_lt hh, Nat.zero_lt_of_lt hd])
    have hrow : int32 (a.stride 0) = (H * D : Nat) := by
      rw [hst]
      exact int32_eq (by simp) hb.row
    rw [hrow]
    push_cast
    ring

section
include hk hc

variable (value) in
theorem paged_params :
    (reshapeAndCache key value c.key).numHeads = H ∧ (reshapeAndCache key value c.key).headSize = D ∧
      (reshapeAndCache key value c.key).blockSize = BS ∧ (reshapeAndCache key value c.key).x = x ∧
      (reshapeAndCache key value c.key).numTokens = T := by
  obtain ⟨_, hH, hD, hBS, hx⟩ := hb.sizes
  simp only [reshapeAndCache, MlxArray.dim, hk.shape, hc.key.shape, List.getD_cons_succ, List.getD_cons_zero]
  exact ⟨int32_natCast hH, int32_natCast hD, int32_natCast hBS, int32_natCast hx, trivial⟩

variable (value) in
theorem flash_params :
    (reshapeAndCacheFlash key value c.flashKey).numHeads = H ∧
    (reshapeAndCacheFlash key value c.flashKey).headSize = D ∧
      (reshapeAndCacheFlash key value c.flashKey).blockSize = BS ∧
      (reshapeAndCacheFlash key value c.flashKey).numTokens = T := by
  obtain ⟨_, hH, hD, hBS, _⟩ := hb.sizes
  simp only [reshapeAndCacheFlash, MlxArray.dim, hk.shape, hc.flashKey.shape, List.getD_cons_succ,
    List.getD_cons_zero]
  exact ⟨int32_natCast hH, int32_natCast hD, int32_natCast hBS, trivial⟩

variable (value) in
theorem paged_grid :
    (reshapeAndCache key value c.key).n = (H * D : Nat) ∧ (reshapeAndCache key value c.key).threads =
      min 512 (H * D) := by
  obtain ⟨hH, hD, _⟩ := paged_params hb value hk hc
  have hn : int32 ((H : Int) * D) = (H * D : Nat) := int32_eq (by push_cast; ring) hb.row
  have hthreads : (reshapeAndCache key value c.key).threads =
      threadgroupSize (reshapeAndCache key value c.key).n := by simp only [reshapeAndCache, ReshapeAndCache.n]
  rw [hthreads, ReshapeAndCache.n, hH, hD, hn, threadgroupSize_natCast]
  exact ⟨rfl, rfl⟩

variable (value) in
theorem flash_grid : (reshapeAndCacheFlash key value c.flashKey).n = (H * D : Nat) ∧
    (reshapeAndCacheFlash key value c.flashKey).threads = min 512 (H * D) := by
  obtain ⟨hH, hD, _⟩ := flash_params hb value hk hc
  have hn : int32 ((H : Int) * D) = (H * D : Nat) := int32_eq (by push_cast; ring) hb.row
  have hthreads : (reshapeAndCacheFlash key value c.flashKey).threads =
      threadgroupSize (reshapeAndCacheFlash key value c.flashKey).n := by
    simp only [reshapeAndCacheFlash, ReshapeAndCacheFlash.n]
  rw [hthreads, ReshapeAndCacheFlash.n, hH, hD, hn, threadgroupSize_natCast]
  exact ⟨rfl, rfl⟩

theorem paged_run {gid : Nat} (hg : gid < T) (tid : Nat) (l : List Store) :
    (reshapeAndCache key value c.key).ThreadRun slotMapping gid tid l ↔
      if slotMapping.get [gid] < 0 then l = []
      else ThreadGrid.Loops (H * D) (min 512 (H * D))
        ((reshapeAndCache key value c.key).store gid (slotMapping.get [gid])) tid l := by
  obtain ⟨hn, hthreads⟩ := paged_grid hb value hk hc
  have hgid : int32 (gid : Int) = gid := int32_natCast (hg.trans hb.sizes.1)
  have hslot := slot_data hb.slotsShape hb.slotsContiguous hg
  simp only [ReshapeAndCache.ThreadRun, hgid, hslot, hn, hthreads, ThreadGrid.Loops]

theorem flash_run {gid : Nat} (hg : gid < T) (tid : Nat) (l : List Store) :
    (reshapeAndCacheFlash key value c.flashKey).ThreadRun slotMapping gid tid l ↔
      if slotMapping.get [gid] < 0 then l = []
      else ThreadGrid.Loops (H * D) (min 512 (H * D))
        ((reshapeAndCacheFlash key value c.flashKey).store gid (slotMapping.get [gid])) tid l := by
  obtain ⟨hn, hthreads⟩ := flash_grid hb value hk hc
  have hgid : int32 (gid : Int) = gid := int32_natCast (hg.trans hb.sizes.1)
  have hslot := slot_data hb.slotsShape hb.slotsContiguous hg
  simp only [ReshapeAndCacheFlash.ThreadRun, hgid, hslot, hn, hthreads, ThreadGrid.Loops]

theorem paged_schedule (order : List Store) : (reshapeAndCache key value c.key).Schedule slotMapping order ↔
    ThreadGrid.Schedule T (min 512 (H * D)) ((reshapeAndCache key value c.key).ThreadRun slotMapping) order := by
  obtain ⟨_, _, _, _, htokens⟩ := paged_params hb value hk hc
  rw [ReshapeAndCache.Schedule, (paged_grid hb value hk hc).2, htokens]

theorem flash_schedule (order : List Store) :
    (reshapeAndCacheFlash key value c.flashKey).Schedule slotMapping order ↔
    ThreadGrid.Schedule T (min 512 (H * D))
      ((reshapeAndCacheFlash key value c.flashKey).ThreadRun slotMapping) order := by
  obtain ⟨_, _, _, htokens⟩ := flash_params hb value hk hc
  rw [ReshapeAndCacheFlash.Schedule, (flash_grid hb value hk hc).2, htokens]

end

section
include hk hc
variable (hcounter : H * D + min 512 (H * D) ≤ 2 ^ 31)
include hcounter

theorem exists_schedules : (∃ order, (reshapeAndCache key value c.key).Schedule slotMapping order) ∧
    ∃ order, (reshapeAndCacheFlash key value c.flashKey).Schedule slotMapping order := by
  simp only [paged_schedule hb hk hc, flash_schedule hb hk hc]
  have hcovers := covers_min hcounter
  exact ⟨ThreadGrid.exists_schedule (fun gid hg tid _ => paged_run hb hk hc hg tid) fun _ _ _ => hcovers,
    ThreadGrid.exists_schedule (fun gid hg tid _ => flash_run hb hk hc hg tid) fun _ _ _ => hcovers⟩

theorem paged_mem {order : List Store} (ho : (reshapeAndCache key value c.key).Schedule slotMapping order)
    (s : Store) :
    s ∈ order ↔ ∃ j : Job, j.Valid T H D slotMapping ∧
      s = (reshapeAndCache key value c.key).store j.token j.slot (j.head * D + j.dim : Nat) := by
  rw [paged_schedule hb hk hc] at ho
  rw [ThreadGrid.mem_schedule (fun gid hg tid _ => paged_run hb hk hc hg tid)
    (fun _ _ _ => covers_min hcounter) ho, exists_job]

theorem flash_mem {order : List Store}
    (ho : (reshapeAndCacheFlash key value c.flashKey).Schedule slotMapping order) (s : Store) :
    s ∈ order ↔ ∃ j : Job, j.Valid T H D slotMapping ∧
      s = (reshapeAndCacheFlash key value c.flashKey).store j.token j.slot (j.head * D + j.dim : Nat) := by
  rw [flash_schedule hb hk hc] at ho
  rw [ThreadGrid.mem_schedule (fun gid hg tid _ => flash_run hb hk hc hg tid)
    (fun _ _ _ => covers_min hcounter) ho, exists_job]

end

/-! ## The indices -/

omit hb in
theorem source_fits (hbatch : T * (H * D) ≤ 2 ^ 31) {i h d : Nat} (hi : i < T) (hh : h < H) (hd : d < D) :
    int32 (flat [T, H, D] [i, h, d] : Nat) = (flat [T, H, D] [i, h, d] : Nat) := by
  have hflat := flat_lt (.cons hi (.cons hh (.cons hd .nil)) : List.Forall₂ (· < ·) [i, h, d] [T, H, D])
  have hprod : [T, H, D].prod = T * (H * D) := by simp
  rw [hprod] at hflat
  exact int32_natCast (hflat.trans_le hbatch)

include hk hv hc

theorem paged_store {i slot h d : Nat} (hi : i < T) (hh : h < H) (hd : d < D) :
    (reshapeAndCache key value c.key).store i slot (h * D + d : Nat) =
      { srcKey := int32 (flat [T, H, D] [i, h, d] : Nat)
        srcValue := int32 (flat [T, H, D] [i, h, d] : Nat)
        tgtKey := int64 ((slot / BS : Nat) * int32 (H * (D * BS) : Nat) + h * int32 (D * BS : Nat) +
          (d / x : Nat) * int32 (BS * x : Nat) + (slot % BS : Nat) * x + (d % x : Nat))
        tgtValue := int64 ((slot / BS : Nat) * int32 (H * (D * BS) : Nat) + h * int32 (D * BS : Nat) + d * BS +
          (slot % BS : Nat)) } := by
  obtain ⟨hH, hD, hBS, hx, _⟩ := paged_params hb value hk hc
  obtain ⟨hdiv, hmod⟩ := digits (a := h) hd
  have hdvd : D / x * x = D := Nat.div_mul_cancel hb.divides
  have hpack : D / x * BS * x = D * BS := by rw [Nat.mul_right_comm, hdvd]
  have hP : (H : Int) * (D / x : Nat) * BS * x = (H * (D * BS) : Nat) := by
    rw [← hpack]
    push_cast
    ring
  have hQ : (D / x : Nat) * (BS : Int) * x = (D * BS : Nat) := by
    rw [← hpack]
    push_cast
    ring
  have hP' : (H : Int) * D * BS = (H * (D * BS) : Nat) := by
    push_cast
    ring
  have hsrc : int32 ((i : Int) * int32 (key.stride 0) + (h * D + d : Nat)) =
    int32 (flat [T, H, D] [i, h, d] : Nat) := by
    rw [flat_batch hb hk hi hh hd]
  have hsrc' : int32 ((i : Int) * int32 (value.stride 0) + (h * D + d : Nat)) =
    int32 (flat [T, H, D] [i, h, d] : Nat) := by
    rw [flat_batch hb hv hi hh hd]
  simp only [ReshapeAndCache.store, hH, hD, hBS, hx, ← Int.ofNat_tdiv, ← Int.ofNat_tmod, hdiv, hmod, hP, hQ, hP',
    Store.mk.injEq]
  refine ⟨hsrc, hsrc', ?_, ?_⟩ <;> push_cast <;> rfl

theorem flash_store {i slot h d : Nat} (hi : i < T) (hslot : slot < 2 ^ 31) (hh : h < H) (hd : d < D) :
    (reshapeAndCacheFlash key value c.flashKey).store i slot (h * D + d : Nat) =
      { srcKey := (flat [T, H, D] [i, h, d] : Nat)
        srcValue := (flat [T, H, D] [i, h, d] : Nat)
        tgtKey := (flat [B, BS, H, D] [slot / BS, slot % BS, h, d] : Nat)
        tgtValue := (flat [B, BS, H, D] [slot / BS, slot % BS, h, d] : Nat) } := by
  obtain ⟨hH, hD, hBS, _⟩ := flash_params hb value hk hc
  have hrow : h * D + d < H * D := digit_lt hh hd
  have hflat : flat [T, H, D] [i, h, d] = i * (H * D) + (h * D + d) := by simp [flat]
  have htgt : flat [B, BS, H, D] [slot / BS, slot % BS, h, d] = slot * (H * D) + (h * D + d) := by
    have hslot' : slot / BS * BS + slot % BS = slot := Nat.div_add_mod' slot BS
    calc flat [B, BS, H, D] [slot / BS, slot % BS, h, d] = (slot / BS * BS + slot % BS) * (H * D) +
      (h * D + d) := by
          simp only [flat, List.prod_cons, List.prod_nil]
          ring
      _ = slot * (H * D) + (h * D + d) := by rw [hslot']
  -- both are below `2 ^ 31 * 2 ^ 31`
  have hfits : ∀ m < 2 ^ 31, m * (H * D) + (h * D + d) < 2 ^ 63 := fun m hm =>
    calc m * (H * D) + (h * D + d) < 2 ^ 31 * (H * D) := digit_lt hm hrow
      _ ≤ 2 ^ 31 * 2 ^ 31 := Nat.mul_le_mul_left _ hb.row.le
      _ < 2 ^ 63 := by norm_num
  have hsrc := int64_natCast (hfits i (hi.trans hb.sizes.1))
  have hcell := int64_natCast (hfits slot hslot)
  have hraw : ((slot / BS : Nat) : Int) * BS * H * D + (slot % BS : Nat) * H * D + (h * D + d : Nat) =
      (slot * (H * D) + (h * D + d) : Nat) := by
    rw [← htgt]
    simp only [flat, List.prod_cons, List.prod_nil]
    push_cast
    ring
  have hkey := flat_batch hb hk hi hh hd
  have hvalue := flat_batch hb hv hi hh hd
  rw [hflat] at hkey hvalue ⊢
  rw [htgt]
  simp only [ReshapeAndCacheFlash.store, hH, hD, hBS, ← Int.ofNat_tdiv, ← Int.ofNat_tmod, hraw, hcell,
    Store.mk.injEq, and_true]
  exact ⟨by rw [← hsrc, ← hkey]; rfl, by rw [← hsrc, ← hvalue]; rfl⟩

/-! ## Without wrapping -/

/-- Where an element comes from and where the flash writer puts it. -/
def flashStoreOf (BS : Nat) (key value flashKey flashValue : MlxArray K) (j : Job) : Store where
  srcKey := (flat key.shape [j.token, j.head, j.dim] : Nat)
  srcValue := (flat value.shape [j.token, j.head, j.dim] : Nat)
  tgtKey := (flat flashKey.shape (flashCell BS j.slot j.head j.dim) : Nat)
  tgtValue := (flat flashValue.shape (flashCell BS j.slot j.head j.dim) : Nat)

theorem flash_store_eq {j : Job} (hj : j.Valid T H D slotMapping) :
    (reshapeAndCacheFlash key value c.flashKey).store j.token j.slot (j.head * D + j.dim : Nat) =
      flashStoreOf BS key value c.flashKey c.flashValue j := by
  obtain ⟨slot, hslot, _, hlt⟩ := hb.exists_slot hj.token
  obtain rfl : slot = j.slot := Int.ofNat_inj.mp (hslot.symm.trans hj.slot)
  rw [flash_store hb hk hv hc hj.token hlt hj.head hj.dim, flashStoreOf, hk.shape, hv.shape, hc.flashKey.shape,
    hc.flashValue.shape]
  rfl

theorem flash_mem_eq (hcounter : H * D + min 512 (H * D) ≤ 2 ^ 31) {order : List Store}
    (ho : (reshapeAndCacheFlash key value c.flashKey).Schedule slotMapping order) (s : Store) :
    s ∈ order ↔ ∃ j : Job, j.Valid T H D slotMapping ∧
      s = flashStoreOf BS key value c.flashKey c.flashValue j := by
  rw [flash_mem hb hk hc hcounter ho]
  exact exists_congr fun j => and_congr_right fun hj => by rw [flash_store_eq hb hk hv hc hj]

omit hk hv hc in
theorem place_lt {slot r : Nat} (hslot : slot < 2 ^ 31) (hr : r < H * (D * BS)) :
    slot / BS * (H * (D * BS)) + r < 2 ^ 63 := by
  have hhead : slot / BS * (H * (D * BS)) ≤ 2 ^ 31 * 2 ^ 31 :=
    calc slot / BS * (H * (D * BS)) = slot / BS * BS * (H * D) := by ring
      _ ≤ slot * (H * D) := Nat.mul_le_mul_right _ (Nat.div_mul_le_self slot BS)
      _ ≤ 2 ^ 31 * 2 ^ 31 := Nat.mul_le_mul hslot.le hb.row.le
  have hrest : H * (D * BS) ≤ 2 ^ 31 * 2 ^ 31 :=
    calc H * (D * BS) = H * D * BS := (Nat.mul_assoc H D BS).symm
      _ ≤ 2 ^ 31 * 2 ^ 31 := Nat.mul_le_mul hb.row.le hb.sizes.2.2.2.1.le
  omega

theorem paged_store_eq (hfit : IndexFits T H D BS x slotMapping) {j : Job} (hj : j.Valid T H D slotMapping) :
    (reshapeAndCache key value c.key).store j.token j.slot (j.head * D + j.dim : Nat) =
      storeOf BS x key value c.key c.value j := by
  obtain ⟨slot, hslot, hin, hlt⟩ := hb.exists_slot hj.token
  obtain rfl : slot = j.slot := Int.ofNat_inj.mp (hslot.symm.trans hj.slot)
  have hBS : 0 < BS := Nat.pos_of_mul_pos_left (Nat.zero_lt_of_lt hin)
  have hD : 0 < D := Nat.zero_lt_of_lt hj.dim
  have hx : 0 < x := Nat.pos_of_dvd_of_pos hb.divides hD
  have hdvd : D / x * (BS * x) = D * BS := by rw [Nat.mul_comm BS, ← Nat.mul_assoc, Nat.div_mul_cancel hb.divides]
  have hsrc := source_fits hfit.batch hj.token hj.head hj.dim
  -- a stride that is used does not wrap
  have hb' : ((j.slot / BS : Nat) : Int) * int32 (H * (D * BS) : Nat) = (j.slot / BS * (H * (D * BS)) : Nat) :=
    scaled fun hne => hfit.block j.token hj.token (hj.slot ▸ Int.ofNat_le.mpr ((Nat.div_ne_zero_iff.mp hne).2))
  have hh' : (j.head : Int) * int32 (D * BS : Nat) = (j.head * (D * BS) : Nat) :=
    scaled fun hne => hfit.head (by have := hj.head; omega)
  have hx' : ((j.dim / x : Nat) : Int) * int32 (BS * x : Nat) = (j.dim / x * (BS * x) : Nat) :=
    scaled fun hne => hfit.pack ((Nat.div_ne_zero_iff.mp hne).2.trans_lt hj.dim)
  have hkeyCell : (flat c.key.shape (keyCell BS x j.slot j.head j.dim) : Nat) =
      j.slot / BS * (H * (D * BS)) + flat [H, D / x, BS, x] [j.head, j.dim / x, j.slot % BS, j.dim % x] := by
    rw [hc.key.shape, keyCell, flat]
    simp only [List.prod_cons, List.prod_nil, mul_one, hdvd]
  have hvalueCell : (flat c.value.shape (valueCell BS j.slot j.head j.dim) : Nat) =
      j.slot / BS * (H * (D * BS)) + flat [H, D, BS] [j.head, j.dim, j.slot % BS] := by
    rw [hc.value.shape, valueCell, flat]
    simp only [List.prod_cons, List.prod_nil, mul_one]
  have hkeyLt : flat [H, D / x, BS, x] [j.head, j.dim / x, j.slot % BS, j.dim % x] < H * (D * BS) := by
    have hflat := flat_lt (.cons hj.head (.cons (Nat.div_lt_div_of_lt_of_dvd hb.divides hj.dim)
      (.cons (Nat.mod_lt j.slot hBS) (.cons (Nat.mod_lt j.dim hx) .nil))) :
        List.Forall₂ (· < ·) [j.head, j.dim / x, j.slot % BS, j.dim % x] [H, D / x, BS, x])
    simpa only [List.prod_cons, List.prod_nil, mul_one, hdvd] using hflat
  have hvalueLt : flat [H, D, BS] [j.head, j.dim, j.slot % BS] < H * (D * BS) := by
    have hflat := flat_lt (.cons hj.head (.cons hj.dim (.cons (Nat.mod_lt j.slot hBS) .nil)) :
      List.Forall₂ (· < ·) [j.head, j.dim, j.slot % BS] [H, D, BS])
    simpa only [List.prod_cons, List.prod_nil, mul_one] using hflat
  rw [paged_store hb hk hv hc hj.token hj.head hj.dim, storeOf, hk.shape, hv.shape, hsrc, hb', hh', hx', hkeyCell,
    hvalueCell, ← int64_natCast (place_lt hb hlt hkeyLt), ← int64_natCast (place_lt hb hlt hvalueLt)]
  simp only [flat, List.prod_cons, List.prod_nil, mul_one, hdvd, Store.mk.injEq, true_and]
  refine ⟨congrArg int64 ?_, congrArg int64 ?_⟩
  · push_cast
    ring
  · push_cast
    ring

omit hk hv hc in
theorem batch_cell {a batch : MlxArray K} (ha : a.RowContiguous) (hbatch : Rows batch [T, H, D])
    (cell : Nat → Nat → Nat → List Nat) (src tgt : Store → Int) {order : List Store} {store : Job → Store}
    (hmem : ∀ s, s ∈ order ↔ ∃ j : Job, j.Valid T H D slotMapping ∧ s = store j)
    (hsrc : ∀ j, src (store j) = (flat batch.shape [j.token, j.head, j.dim] : Nat))
    (htgt : ∀ j, tgt (store j) = (flat a.shape (cell j.slot j.head j.dim) : Nat))
    (hin : ∀ slot < B * BS, ∀ h < H, ∀ d < D, List.Forall₂ (· < ·) (cell slot h d) a.shape)
    (hinj : ∀ {slot slot' h h' d d'}, cell slot h d = cell slot' h' d' → slot = slot' ∧ h = h' ∧ d = d')
    {slot h d : Nat} (hslot : slot < B * BS) (hh : h < H) (hd : d < D) :
    let stored := write a.data (order.map fun s => (tgt s, batch.data (src s))) (place a.strides (cell slot h d))
    (∀ i < T, slotMapping.get [i] = slot → stored = batch.get [i, h, d]) ∧
      ((∀ i < T, slotMapping.get [i] ≠ slot) → stored = a.get (cell slot h d)) := by
  have hcell : ∀ j : Job, j.Valid T H D slotMapping → List.Forall₂ (· < ·)
    (cell j.slot j.head j.dim) a.shape := by
    intro j hj
    obtain ⟨slot', hslot', hin', _⟩ := hb.exists_slot hj.token
    obtain rfl : slot' = j.slot := Int.ofNat_inj.mp (hslot'.symm.trans hj.slot)
    exact hin _ hin' _ hj.head _ hj.dim
  intro stored
  have hplace : stored = write a.data (order.map fun s => (tgt s, batch.data (src s)))
      (flat a.shape (cell slot h d) : Nat) := by rw [← ha _ (hin slot hslot h hh d hd)]
  rw [hplace]
  constructor
  · intro i hi hget
    have hj : (Job.mk i slot h d).Valid T H D slotMapping := ⟨hi, hget, hh, hd⟩
    have hsame : ∀ j j' : Job, j.Valid T H D slotMapping → j'.Valid T H D slotMapping →
        cell j.slot j.head j.dim = cell j'.slot j'.head j'.dim → j = j' := by
      rintro ⟨i, slot, h, d⟩ ⟨i', slot', h', d'⟩ hj hj' heq
      obtain ⟨rfl, rfl, rfl⟩ := hinj heq
      obtain rfl : i = i' := hb.distinct i hj.token i' hj'.token (hj.slot.trans hj'.slot.symm)
      rfl
    have hcontent : write a.data (order.map fun s => (tgt s, batch.data (src s)))
        (flat a.shape (cell slot h d) : Nat) = batch.data (src (store ⟨i, slot, h, d⟩)) :=
      scatter_cell hmem hcell htgt hsame a.data hj
    rw [hcontent, hsrc, hbatch.contiguous.get (batch_mem hbatch.shape hi hh hd)]
  · intro hfree
    have hkept : write a.data (order.map fun s => (tgt s, batch.data (src s)))
        (flat a.shape (cell slot h d) : Nat) = a.data (flat a.shape (cell slot h d) : Nat) :=
      scatter_other hmem hcell htgt a.data (hin slot hslot h hh d hd) fun j hj heq =>
        hfree j.token hj.token (by rw [hj.slot, (hinj heq).1])
    rw [hkept, ha.get (hin slot hslot h hh d hd)]

theorem paged_mem_eq (hfit : IndexFits T H D BS x slotMapping) {order : List Store}
    (ho : (reshapeAndCache key value c.key).Schedule slotMapping order) (s : Store) :
    s ∈ order ↔ ∃ j : Job, j.Valid T H D slotMapping ∧ s = storeOf BS x key value c.key c.value j := by
  rw [paged_mem hb hk hc hfit.counter ho]
  exact exists_congr fun j => and_congr_right fun hj => by rw [paged_store_eq hb hk hv hc hfit hj]

/-- Within the sizes, both writers keep one logical cache. -/
theorem same_of_fits (hfit : IndexFits T H D BS x slotMapping) (hsame : c.Same H D B BS x)
    {order flashOrder : List Store} (ho : (reshapeAndCache key value c.key).Schedule slotMapping order)
    (hf : (reshapeAndCacheFlash key value c.flashKey).Schedule slotMapping flashOrder) :
    (c.store key value order flashOrder).Same H D B BS x := by
  have hmem := paged_mem_eq hb hk hv hc hfit ho
  have hflash := flash_mem_eq hb hk hv hc hfit.counter hf
  have hshapes : ReshapeShapes T H D B BS x key value c.key c.value slotMapping :=
    ⟨hk.shape, hv.shape, hc.key.shape, hc.value.shape, hb.slotsShape, hb.divides⟩
  have hkeyIn : ∀ slot < B * BS, ∀ h < H, ∀ d < D, List.Forall₂ (· < ·) (keyCell BS x slot h d) c.key.shape :=
    fun slot hslot h hh d hd =>
      keyCell_mem hshapes (Nat.pos_of_dvd_of_pos hb.divides (Nat.zero_lt_of_lt hd)) hslot hh hd
  have hvalueIn : ∀ slot < B * BS, ∀ h < H, ∀ d < D, List.Forall₂ (· < ·) (valueCell BS slot h d) c.value.shape :=
    fun slot hslot h hh d hd => valueCell_mem hshapes hslot hh hd
  have hflashIn : ∀ slot < B * BS, ∀ h < H, ∀ d < D, List.Forall₂ (· < ·) (flashCell BS slot h d) [B, BS, H, D] :=
    fun slot hslot h hh d hd => flashCell_mem hslot hh hd
  intro slot hslot h hh d hd
  obtain ⟨hk1, hk2⟩ := batch_cell hb hc.key.contiguous hk (keyCell BS x) Store.srcKey Store.tgtKey hmem
    (fun _ => rfl) (fun _ => rfl) hkeyIn keyCell_inj hslot hh hd
  obtain ⟨hv1, hv2⟩ := batch_cell hb hc.value.contiguous hv (valueCell BS) Store.srcValue Store.tgtValue hmem
    (fun _ => rfl) (fun _ => rfl) hvalueIn valueCell_inj hslot hh hd
  obtain ⟨hfk1, hfk2⟩ := batch_cell hb hc.flashKey.contiguous hk (flashCell BS) Store.srcKey Store.tgtKey hflash
    (fun _ => rfl) (fun _ => rfl) (hc.flashKey.shape ▸ hflashIn) flashCell_inj hslot hh hd
  obtain ⟨hfv1, hfv2⟩ := batch_cell hb hc.flashValue.contiguous hv (flashCell BS) Store.srcValue
    Store.tgtValue hflash
    (fun _ => rfl) (fun _ => rfl) (hc.flashValue.shape ▸ hflashIn) flashCell_inj hslot hh hd
  by_cases hused : ∃ i < T, slotMapping.get [i] = slot
  · obtain ⟨i, hi, hget⟩ := hused
    exact ⟨(hk1 i hi hget).trans (hfk1 i hi hget).symm, (hv1 i hi hget).trans (hfv1 i hi hget).symm⟩
  · -- a slot of no token keeps its elements
    have hfree : ∀ i < T, slotMapping.get [i] ≠ slot := fun i hi hget => hused ⟨i, hi, hget⟩
    obtain ⟨hkey, hvalue⟩ := hsame slot hslot h hh d hd
    exact ⟨(hk2 hfree).trans (hkey.trans (hfk2 hfree).symm), (hv2 hfree).trans (hvalue.trans (hfv2 hfree).symm)⟩

theorem nonneg_of_fits (hfit : IndexFits T H D BS x slotMapping) {order flashOrder : List Store}
    (ho : (reshapeAndCache key value c.key).Schedule slotMapping order)
    (hf : (reshapeAndCacheFlash key value c.flashKey).Schedule slotMapping flashOrder) :
    ∀ s ∈ order ++ flashOrder, s.Nonneg := by
  intro s hs
  obtain hs | hs := List.mem_append.mp hs
  · obtain ⟨j, _, rfl⟩ := (paged_mem_eq hb hk hv hc hfit ho s).mp hs
    exact ⟨Int.natCast_nonneg _, Int.natCast_nonneg _, Int.natCast_nonneg _, Int.natCast_nonneg _⟩
  · obtain ⟨j, _, rfl⟩ := (flash_mem_eq hb hk hv hc hfit.counter hf s).mp hs
    exact ⟨Int.natCast_nonneg _, Int.natCast_nonneg _, Int.natCast_nonneg _, Int.natCast_nonneg _⟩

omit hv in
/-- When the counter of thread 0 overflows, the flash writer goes on at element `-2 ^ 31`. -/
theorem flash_overflow (hT : 0 < T) (hpos : 0 < H * D) (hsum : 2 ^ 31 < H * D + min 512 (H * D))
    {order : List Store}
    (ho : (reshapeAndCacheFlash key value c.flashKey).Schedule slotMapping order) : ∃ s ∈ order, ¬s.Nonneg := by
  have hfirst : int32 ((0 : Nat) : Int) = (0 : Nat) := int32_natCast (by norm_num)
  have hmem := ThreadGrid.mem_of_visits (fun gid hg tid _ => flash_run hb hk hc hg tid)
    ((flash_schedule hb hk hc order).mp ho) hT (Int.not_lt.mpr (hb.slots 0 hT).1)
    (threads_pos (Nat.ne_of_gt hpos)) (by rw [hfirst]; exact visits_overflow_zero hb.row hsum)
  refine ⟨_, hmem, fun hnonneg => ?_⟩
  have hsrc := hnonneg.1
  have hsmall : int64 (-2 ^ 31) = -2 ^ 31 := by decide
  simp only [ReshapeAndCacheFlash.store, Nat.cast_zero, zero_mul, zero_add, hsmall] at hsrc
  exact absurd hsrc (by norm_num)

/-- With more than `2 ^ 31` elements the paged writer reads the element at `-2 ^ 31`. -/
theorem paged_overflow (hcounter : H * D + min 512 (H * D) ≤ 2 ^ 31) (hbatch : 2 ^ 31 < T * (H * D))
    {order : List Store}
    (ho : (reshapeAndCache key value c.key).Schedule slotMapping order) : ∃ s ∈ order, ¬s.Nonneg := by
  obtain ⟨idx, hidx, hflat⟩ := exists_index (show 2 ^ 31 < [T, H, D].prod by simpa using hbatch)
  obtain ⟨i, h, d, rfl⟩ : ∃ i h d, idx = [i, h, d] := List.length_eq_three.mp hidx.length_eq
  obtain ⟨hi, hh, hd⟩ : i < T ∧ h < H ∧ d < D := by simpa using hidx
  obtain ⟨slot, hslot, _⟩ := hb.exists_slot hi
  refine ⟨_, (paged_mem hb hk hc hcounter ho _).mpr ⟨⟨i, slot, h, d⟩, ⟨hi, hslot, hh, hd⟩, rfl⟩,
    fun hnonneg => ?_⟩
  rw [paged_store hb hk hv hc hi hh hd, hflat] at hnonneg
  have hwrap : int32 ((2 ^ 31 : Nat) : Int) = -2 ^ 31 := by decide
  have hsrc : 0 ≤ int32 ((2 ^ 31 : Nat) : Int) := hnonneg.1
  rw [hwrap] at hsrc
  exact absurd hsrc (by norm_num)

end

/-! ## What agreement needs -/

section
variable {K : Type} {T H D B BS x : Nat} {slotMapping : MlxArray Int} (hb : Batch T H D B BS x slotMapping)
  (a b : K)

/-- Caches that hold `a` everywhere. -/
def plainCaches (H D B BS x : Nat) : Caches K where
  key := MlxArray.ofData [B, H, D / x, BS, x] fun _ => a
  value := MlxArray.ofData [B, H, D, BS] fun _ => a
  flashKey := MlxArray.ofData [B, BS, H, D] fun _ => a
  flashValue := MlxArray.ofData [B, BS, H, D] fun _ => a

theorem plainCaches_valid : (plainCaches a H D B BS x).Valid H D B BS x :=
  ⟨⟨rfl, MlxArray.ofData_rowContiguous _ _⟩, ⟨rfl, MlxArray.ofData_rowContiguous _ _⟩,
    ⟨rfl, MlxArray.ofData_rowContiguous _ _⟩, ⟨rfl, MlxArray.ofData_rowContiguous _ _⟩⟩

/-- A batch of `a`, with `b` for one element. -/
def markedBatch (T H D : Nat) (j : Job) : MlxArray K :=
  MlxArray.ofData [T, H, D] fun n => if n = (flat [T, H, D] [j.token, j.head, j.dim] : Nat) then b else a

theorem markedBatch_rows (j : Job) : Rows (markedBatch a b T H D j) [T, H, D] :=
  ⟨rfl, MlxArray.ofData_rowContiguous _ _⟩

variable {a b} (hab : a ≠ b)

include hab in
/-- A cell that holds the marked element is the target of its store. -/
theorem target_of_marked (src tgt : Store → Int) (A : Int) {order : List Store} {store : Job → Store} {j : Job}
    (hmem : ∀ s, s ∈ order ↔ ∃ j : Job, j.Valid T H D slotMapping ∧ s = store j)
    (hsrc : ∀ j : Job, j.Valid T H D slotMapping → src (store j) =
      (flat [T, H, D] [j.token, j.head, j.dim] : Nat))
    (hj : j.Valid T H D slotMapping)
    (hcontent : write (fun _ => a) (order.map fun s => (tgt s, (markedBatch a b T H D j).data (src s))) A = b) :
    tgt (store j) = A := by
  by_contra hne
  have hplain : ∀ w ∈ order.map fun s => (tgt s, (markedBatch a b T H D j).data (src s)), w.1 = A → w.2 = a := by
    intro w hw haddr
    obtain ⟨s, hs, rfl⟩ := List.mem_map.mp hw
    obtain ⟨j', hj', rfl⟩ := (hmem s).mp hs
    refine if_neg fun heq => hne ?_
    rw [hsrc j' hj', Int.ofNat_inj] at heq
    have hidx := flat_inj (.cons hj'.token (.cons hj'.head (.cons hj'.dim .nil)) :
        List.Forall₂ (· < ·) [j'.token, j'.head, j'.dim] [T, H, D])
      (.cons hj.token (.cons hj.head (.cons hj.dim .nil))) heq
    simp only [List.cons.injEq, and_true] at hidx
    obtain ⟨htoken, hhead, hdim⟩ := hidx
    have hslot : j'.slot = j.slot := by
      have heq' := hj'.slot
      rw [htoken, hj.slot] at heq'
      exact (Int.ofNat_inj.mp heq').symm
    obtain ⟨i, slot, h, d⟩ := j
    obtain ⟨i', slot', h', d'⟩ := j'
    simp only at htoken hhead hdim hslot
    rw [← htoken, ← hhead, ← hdim, ← hslot]
    exact haddr
  obtain heq | heq := write_or_kept _ (fun _ => a) hplain
  · exact hab (heq.symm.trans hcontent)
  · exact hab (heq.symm.trans hcontent)

section
include hb
variable (hall : WritersAgree K T H D B BS x slotMapping)
include hall

variable (a) in
include a in
theorem counter_of_agree (hT : 0 < T) (hpos : 0 < H * D) : H * D + min 512 (H * D) ≤ 2 ^ 31 := by
  by_contra hsum
  have hrows : Rows (MlxArray.ofData [T, H, D] fun _ => a) [T, H, D] := ⟨rfl, MlxArray.ofData_rowContiguous _ _⟩
  obtain ⟨⟨⟨order, ho⟩, flashOrder, hf⟩, hagree⟩ := hall _ _ (plainCaches a H D B BS x) hrows hrows
    (plainCaches_valid a) fun _ _ _ _ _ _ => ⟨rfl, rfl⟩
  obtain ⟨s, hs, hneg⟩ := flash_overflow hb hrows (plainCaches_valid a) hT hpos (Nat.lt_of_not_le hsum) hf
  exact hneg ((hagree order flashOrder ho hf).2 s (List.mem_append_right _ hs))

variable (hcounter : H * D + min 512 (H * D) ≤ 2 ^ 31)
include hcounter

variable (a) in
include a in
theorem batch_of_agree : T * (H * D) ≤ 2 ^ 31 := by
  by_contra hlt
  have hrows : Rows (MlxArray.ofData [T, H, D] fun _ => a) [T, H, D] := ⟨rfl, MlxArray.ofData_rowContiguous _ _⟩
  obtain ⟨⟨⟨order, ho⟩, flashOrder, hf⟩, hagree⟩ := hall _ _ (plainCaches a H D B BS x) hrows hrows
    (plainCaches_valid a) fun _ _ _ _ _ _ => ⟨rfl, rfl⟩
  obtain ⟨s, hs, hneg⟩ :=
    paged_overflow hb hrows hrows (plainCaches_valid a) hcounter (Nat.lt_of_not_le hlt) ho
  exact hneg ((hagree order flashOrder ho hf).2 s (List.mem_append_left _ hs))

include hab
variable (hbatch : T * (H * D) ≤ 2 ^ 31)
include hbatch

theorem targets_of_agree {i slot h d : Nat} (hi : i < T) (hslot : slotMapping.get [i] = slot) (hh : h < H)
    (hd : d < D) :
    int64 ((slot / BS : Nat) * int32 (H * (D * BS) : Nat) + h * int32 (D * BS : Nat) +
        (d / x : Nat) * int32 (BS * x : Nat) + (slot % BS : Nat) * x + (d % x : Nat)) =
        (flat [B, H, D / x, BS, x] (keyCell BS x slot h d) : Nat) ∧
      int64 ((slot / BS : Nat) * int32 (H * (D * BS) : Nat) + h * int32 (D * BS : Nat) + d * BS +
        (slot % BS : Nat)) = (flat [B, H, D, BS] (valueCell BS slot h d) : Nat) := by
  obtain ⟨slot', hslot', hin, _⟩ := hb.exists_slot hi
  obtain rfl : slot' = slot := Int.ofNat_inj.mp (hslot'.symm.trans hslot)
  have hj : (Job.mk i slot' h d).Valid T H D slotMapping := ⟨hi, hslot, hh, hd⟩
  have hrows : Rows (markedBatch a b T H D ⟨i, slot', h, d⟩) [T, H, D] := markedBatch_rows a b _
  have hv : (plainCaches a H D B BS x).Valid H D B BS x := plainCaches_valid a
  have hmark : (markedBatch a b T H D ⟨i, slot', h, d⟩).get [i, h, d] = b := by
    rw [hrows.contiguous.get (batch_mem hrows.shape hi hh hd), hrows.shape]
    exact if_pos rfl
  obtain ⟨⟨⟨order, ho⟩, flashOrder, hf⟩, hagree⟩ := hall _ _ _ hrows hrows hv fun _ _ _ _ _ _ => ⟨rfl, rfl⟩
  obtain ⟨hkey, hvalue⟩ := (hagree order flashOrder ho hf).1 slot' hin h hh d hd
  -- the flash caches hold the marked element, so the paged ones do
  have hflash := flash_mem_eq hb hrows hrows hv hcounter hf
  have hflashIn : ∀ slot < B * BS, ∀ h < H, ∀ d < D, List.Forall₂ (· < ·) (flashCell BS slot h d) [B, BS, H, D] :=
    fun slot hslot h hh d hd => flashCell_mem hslot hh hd
  have hfk := (batch_cell hb hv.flashKey.contiguous hrows (flashCell BS) Store.srcKey Store.tgtKey hflash
    (fun _ => rfl) (fun _ => rfl) hflashIn flashCell_inj hin hh hd).1 i hi hslot
  have hfv := (batch_cell hb hv.flashValue.contiguous hrows (flashCell BS) Store.srcValue Store.tgtValue hflash
    (fun _ => rfl) (fun _ => rfl) hflashIn flashCell_inj hin hh hd).1 i hi hslot
  have hshapes : ReshapeShapes T H D B BS x (markedBatch a b T H D ⟨i, slot', h, d⟩)
      (markedBatch a b T H D ⟨i, slot', h, d⟩) (plainCaches a H D B BS x).key (plainCaches a H D B BS x).value
        slotMapping := ⟨rfl, rfl, rfl, rfl, hb.slotsShape, hb.divides⟩
  have hx : 0 < x := Nat.pos_of_dvd_of_pos hb.divides (Nat.zero_lt_of_lt hd)
  have hkeyPlace := hv.key.contiguous _ (keyCell_mem hshapes hx hin hh hd)
  have hvaluePlace := hv.value.contiguous _ (valueCell_mem hshapes hin hh hd)
  have hmem := paged_mem hb hrows hv hcounter ho
  have hstore := fun (j : Job) (hj : j.Valid T H D slotMapping) =>
    @paged_store _ _ _ _ _ _ _ _ hb _ _ _ hrows hrows hv _ j.slot _ _ hj.token hj.head hj.dim
  have hsource := fun (j : Job) (hj : j.Valid T H D slotMapping) => source_fits hbatch hj.token hj.head hj.dim
  have htgtKey := target_of_marked hab Store.srcKey Store.tgtKey
    (flat (plainCaches a H D B BS x).key.shape (keyCell BS x slot' h d) : Nat) hmem
    (fun j hj => by rw [hstore j hj, hsource j hj]) hj
    (by rw [← hkeyPlace]; exact hkey.trans (hfk.trans hmark))
  have htgtValue := target_of_marked hab Store.srcValue Store.tgtValue
    (flat (plainCaches a H D B BS x).value.shape (valueCell BS slot' h d) : Nat) hmem
    (fun j hj => by rw [hstore j hj, hsource j hj]) hj
    (by rw [← hvaluePlace]; exact hvalue.trans (hfv.trans hmark))
  rw [hstore _ hj, hv.key.shape] at htgtKey
  rw [hstore _ hj, hv.value.shape] at htgtValue
  dsimp only at htgtKey htgtValue
  exact ⟨htgtKey, htgtValue⟩

/-- The stride of a block, if a token is in another than the first one. -/
theorem block_of_agree (hpos : 0 < H * D) {i : Nat} (hi : i < T) (hblock : BS ≤ slotMapping.get [i]) :
    H * (D * BS) < 2 ^ 31 := by
  obtain ⟨slot, hslot, hin, hlt⟩ := hb.exists_slot hi
  have hBS : 0 < BS := Nat.pos_of_mul_pos_left (Nat.zero_lt_of_lt hin)
  have htarget := (targets_of_agree hb hab hall hcounter hbatch hi hslot (Nat.pos_of_mul_pos_right hpos)
    (Nat.pos_of_mul_pos_left hpos)).2
  have hplace : flat [B, H, D, BS] (valueCell BS slot 0 0) = slot / BS * (H * (D * BS)) + slot % BS := by
    simp [flat, valueCell]
  have hrest : slot % BS < H * (D * BS) :=
    calc slot % BS < BS := Nat.mod_lt slot hBS
      _ ≤ H * D * BS := Nat.le_mul_of_pos_left BS hpos
      _ = H * (D * BS) := Nat.mul_assoc H D BS
  have hfits := place_lt hb hlt hrest
  obtain ⟨h0, h1⟩ := term_bounds (m := H * (D * BS)) ((Nat.div_le_self slot BS).trans_lt hlt)
  rw [hplace] at htarget
  simp only [Nat.cast_zero, zero_mul, add_zero] at htarget
  generalize hu : ((slot / BS : Nat) : Int) * int32 (H * (D * BS) : Nat) = u at h0 h1 htarget
  have heq := eq_of_int64 (by omega) (by omega) hfits htarget
  have hterm : u = (slot / BS * (H * (D * BS)) : Nat) := by omega
  rw [← hu, Nat.cast_mul] at hterm
  have hne : ((slot / BS : Nat) : Int) ≠ 0 := by
    have hge : BS ≤ slot := by omega
    exact Int.natCast_ne_zero.mpr (Nat.ne_of_gt (Nat.div_pos hge hBS))
  exact lt_of_int32_eq (mul_left_cancel₀ hne hterm)

theorem head_of_agree (hT : 0 < T) (hpos : 0 < H * D) (hone : 1 < H) : D * BS < 2 ^ 31 := by
  obtain ⟨slot, hslot, hin, hlt⟩ := hb.exists_slot hT
  have hBS : 0 < BS := Nat.pos_of_mul_pos_left (Nat.zero_lt_of_lt hin)
  have hD : 0 < D := Nat.pos_of_mul_pos_left hpos
  have htarget := (targets_of_agree hb hab hall hcounter hbatch hT hslot hone hD).2
  have hplace : flat [B, H, D, BS] (valueCell BS slot 1 0) = slot / BS * (H * (D * BS)) +
    (D * BS + slot % BS) := by
    simp [flat, valueCell]
  have hrest : D * BS + slot % BS < H * (D * BS) :=
    calc D * BS + slot % BS < D * BS + BS := Nat.add_lt_add_left (Nat.mod_lt slot hBS) _
      _ ≤ D * BS + D * BS := Nat.add_le_add_left (Nat.le_mul_of_pos_left BS hD) _
      _ = 2 * (D * BS) := (Nat.two_mul _).symm
      _ ≤ H * (D * BS) := Nat.mul_le_mul_right _ hone
  have hfits := place_lt hb hlt hrest
  obtain ⟨h0, h1⟩ := term_bounds (m := H * (D * BS)) ((Nat.div_le_self slot BS).trans_lt hlt)
  obtain ⟨h0', h1'⟩ := term_bounds (c := 1) (m := D * BS) (by norm_num)
  rw [hplace] at htarget
  simp only [Nat.cast_zero, Nat.cast_one, zero_mul, one_mul, add_zero] at h0' h1' htarget
  generalize ((slot / BS : Nat) : Int) * int32 (H * (D * BS) : Nat) = u at h0 h1 htarget
  generalize hw : int32 (D * BS : Nat) = w at h0' h1' htarget
  have heq := eq_of_int64 (by omega) (by omega) hfits htarget
  have hterm : w = (D * BS : Nat) := by omega
  exact lt_of_int32_eq (hw.trans hterm)

theorem pack_of_agree (hT : 0 < T) (hpos : 0 < H * D) (hpack : x < D) : BS * x < 2 ^ 31 := by
  obtain ⟨slot, hslot, hin, hlt⟩ := hb.exists_slot hT
  have hBS : 0 < BS := Nat.pos_of_mul_pos_left (Nat.zero_lt_of_lt hin)
  have hH : 0 < H := Nat.pos_of_mul_pos_right hpos
  have hx : 0 < x := Nat.pos_of_dvd_of_pos hb.divides (Nat.pos_of_mul_pos_left hpos)
  have hdvd : D / x * (BS * x) = D * BS := by rw [Nat.mul_comm BS, ← Nat.mul_assoc, Nat.div_mul_cancel hb.divides]
  have htarget := (targets_of_agree hb hab hall hcounter hbatch hT hslot hH hpack).1
  have hplace : flat [B, H, D / x, BS, x] (keyCell BS x slot 0 x) =
      slot / BS * (H * (D * BS)) + (BS * x + slot % BS * x) := by
    simp [flat, keyCell, hdvd, Nat.div_self hx]
  have hrest : BS * x + slot % BS * x < H * (D * BS) :=
    calc BS * x + slot % BS * x < BS * x + BS * x :=
          Nat.add_lt_add_left (Nat.mul_lt_mul_of_pos_right (Nat.mod_lt slot hBS) hx) _
      _ = 2 * (BS * x) := (Nat.two_mul _).symm
      _ ≤ D / x * (BS * x) := Nat.mul_le_mul_right _ ((Nat.le_div_iff_mul_le hx).mpr (by
          obtain ⟨k, hk⟩ := hb.divides
          have hk1 : 1 < k := by
            by_contra hle
            have hk' : x * k ≤ x * 1 := Nat.mul_le_mul_left x (Nat.le_of_not_lt hle)
            omega
          rw [hk, Nat.mul_comm]
          exact Nat.mul_le_mul_left x hk1))
      _ = D * BS := hdvd
      _ ≤ H * (D * BS) := Nat.le_mul_of_pos_left _ hH
  have hfits := place_lt hb hlt hrest
  obtain ⟨h0, h1⟩ := term_bounds (m := H * (D * BS)) ((Nat.div_le_self slot BS).trans_lt hlt)
  obtain ⟨h0', h1'⟩ := term_bounds (c := 1) (m := BS * x) (by norm_num)
  rw [hplace, Nat.div_self hx, Nat.mod_self] at htarget
  simp only [Nat.cast_zero, Nat.cast_one, zero_mul, one_mul, add_zero] at h0' h1' htarget
  generalize ((slot / BS : Nat) : Int) * int32 (H * (D * BS) : Nat) = u at h0 h1 htarget
  generalize hw : int32 (BS * x : Nat) = w at h0' h1' htarget
  have heq := eq_of_int64 (by omega) (by omega) hfits htarget
  have hterm : w = (BS * x : Nat) := by omega
  exact lt_of_int32_eq (hw.trans hterm)

end

end

/-- The writers agree on all contents exactly if there is nothing to store or no counter,
    no source index and no stride that is used passes the largest `int`. -/
theorem writers_agree_iff {K : Type} {T H D B BS x : Nat} {slotMapping : MlxArray Int}
    (hb : Batch T H D B BS x slotMapping) (hK : ∃ a b : K, a ≠ b) :
    WritersAgree K T H D B BS x slotMapping ↔ T = 0 ∨ H * D = 0 ∨ IndexFits T H D BS x slotMapping := by
  obtain ⟨a, b, hab⟩ := hK
  constructor
  · intro hall
    refine or_iff_not_imp_left.mpr fun hT => or_iff_not_imp_left.mpr fun hpos => ?_
    have hT := Nat.pos_of_ne_zero hT
    have hpos := Nat.pos_of_ne_zero hpos
    have hcounter := counter_of_agree hb a hall hT hpos
    have hbatch := batch_of_agree hb a hall hcounter
    exact ⟨hcounter, hbatch, head_of_agree hb hab hall hcounter hbatch hT hpos,
      pack_of_agree hb hab hall hcounter hbatch hT hpos, fun i hi =>
        block_of_agree hb hab hall hcounter hbatch hpos hi⟩
  · intro hor key value c hk hv hc hsame
    by_cases hempty : T = 0 ∨ min 512 (H * D) = 0
    · -- both writers store nothing
      simp only [paged_schedule hb hk hc, flash_schedule hb hk hc, ThreadGrid.schedule_iff_nil hempty]
      refine ⟨⟨⟨[], rfl⟩, [], rfl⟩, ?_⟩
      rintro _ _ rfl rfl
      exact ⟨hsame, fun s hs => absurd hs List.not_mem_nil⟩
    · have hfit : IndexFits T H D BS x slotMapping := by
        obtain hT | hzero | hfit := hor
        · exact absurd (Or.inl hT) hempty
        · exact absurd (Or.inr (by rw [hzero]; rfl)) hempty
        · exact hfit
      exact ⟨exists_schedules hb hk hc hfit.counter, fun order flashOrder ho hf =>
        ⟨same_of_fits hb hk hv hc hfit hsame ho hf, nonneg_of_fits hb hk hv hc hfit ho hf⟩⟩

theorem writers_agree_iff_two :
    WritersAgree Nat 2 2 4 2 2 2 (MlxArray.ofData [2] fun i => if i = 0 then 3 else 1) := by
  have hb : Batch 2 2 4 2 2 2 (MlxArray.ofData [2] fun i => if i = 0 then 3 else 1) :=
    ⟨by norm_num, by norm_num, by norm_num, rfl, MlxArray.ofData_rowContiguous _ _, by decide, by decide⟩
  exact (writers_agree_iff hb ⟨0, 1, by decide⟩).mpr (Or.inr (Or.inr
    ⟨by norm_num, by norm_num, by norm_num, by norm_num, fun _ _ _ => by norm_num⟩))

/-- One token in the second of two blocks of `2 ^ 24` positions for 128 numbers each: the
    size of a block wraps to `-2 ^ 31`. -/
theorem second_block_disagrees :
    Batch 1 1 128 2 (2 ^ 24) 8 (MlxArray.ofData [1] fun _ => 2 ^ 24) ∧
      ¬WritersAgree Nat 1 1 128 2 (2 ^ 24) 8 (MlxArray.ofData [1] fun _ => 2 ^ 24) := by
  have hb : Batch 1 1 128 2 (2 ^ 24) 8 (MlxArray.ofData [1] fun _ => 2 ^ 24) :=
    ⟨by norm_num, by norm_num, by norm_num, rfl, MlxArray.ofData_rowContiguous _ _, by decide,
      fun i hi j hj _ => by omega⟩
  refine ⟨hb, fun hall => ?_⟩
  have hlt := block_of_agree hb (Nat.zero_ne_one) hall (by norm_num) (by norm_num)
    (by norm_num) Nat.one_pos (by decide)
  exact absurd hlt (by norm_num)

end SglangMlx
