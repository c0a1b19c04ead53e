import SglangMlx.ReshapeAndCache

/- `reshape_and_cache` against its reference. A store copies element `(i, h, d)` of
   the batch to the cells of its slot (`store_eq`); distinct tokens and elements have
   distinct cells, and the strided loops of the threads together make every store.
   So every order gives the same caches, as long as the loop counter does not pass
   the largest `int`. -/
namespace SglangMlx

open MachineInt Layout

theorem int32_eq {z : Int} {n : Nat} (h : z = n) (hn : n < 2 ^ 31) : int32 z = n := by rw [h, int32_natCast hn]

theorem threadgroupSize_natCast (n : Nat) : threadgroupSize n = min 512 n := by
  rw [threadgroupSize, if_pos (Int.natCast_nonneg n), Int.toNat_natCast]

theorem threadgroupSize_lt (n : Int) : threadgroupSize n < 2 ^ 31 := by
  have hle : threadgroupSize n ≤ 512 := by
    rw [threadgroupSize]
    split
    · exact Nat.min_le_left 512 _
    · exact Nat.le_refl 512
  exact hle.trans_lt (by norm_num)

theorem threads_pos {n : Nat} (hn : n ≠ 0) : 0 < min 512 n := Nat.lt_min.mpr ⟨by norm_num, Nat.pos_of_ne_zero hn⟩

theorem covers_min {n : Nat} (h : n + min 512 n ≤ 2 ^ 31) : ThreadGrid.Covers n (min 512 n) := ⟨h, threads_pos⟩

theorem visits_overflow_zero {n : Nat} (hn : n < 2 ^ 31) (h : 2 ^ 31 < n + min 512 n) :
    Visits n (min 512 n : Nat) (0 : Nat) (-2 ^ 31) := by
  have hmin : min 512 n = 512 := by
    apply Nat.min_eq_left
    by_contra hlt
    have hle := Nat.min_le_right 512 n
    omega
  rw [hmin] at h ⊢
  have hlast : 0 + 4194303 * 512 = 2 ^ 31 - 512 := by norm_num
  apply visits_overflow (k := 4194303) hn.le
  · rw [hlast]
    omega
  · rw [hlast]
    decide
  · have := Int.natCast_nonneg n
    norm_num
    omega

theorem eq_one_of_mul {a n : Nat} (ha : 0 < a) (hn : 2 ^ 31 < n + 512) (h : a * n < 2 ^ 31) : a = 1 := by
  by_contra hne
  have hle : 2 * n ≤ a * n := Nat.mul_le_mul_right n (by omega)
  omega

namespace ReshapeAndCache

/-- The cell of the key cache for element `(h, d)` of a token. -/
def keyCell (BS x : Nat) (slot h d : Nat) : List Nat := [slot / BS, h, d / x, slot % BS, d % x]

/-- The cell of the value cache for element `(h, d)` of a token. -/
def valueCell (BS : Nat) (slot h d : Nat) : List Nat := [slot / BS, h, d, slot % BS]

section
variable {K C : Type} {T H D B BS x : Nat} {key value : MlxArray K} {keyCache valueCache : MlxArray C}
  {slotMapping : MlxArray Int} (hs : ReshapeShapes T H D B BS x key value keyCache valueCache slotMapping)
  (hf : ReshapeFits key value keyCache valueCache slotMapping)
include hs

theorem keyCell_mem (hx : 0 < x) {slot h d : Nat} (hslot : slot < B * BS) (hh : h < H) (hd : d < D) :
    List.Forall₂ (· < ·) (keyCell BS x slot h d) keyCache.shape := by
  have hBS : 0 < BS := Nat.pos_of_ne_zero fun e => by rw [e, Nat.mul_zero] at hslot; exact Nat.not_lt_zero _ hslot
  rw [hs.keyCache]
  exact .cons (Nat.div_lt_of_lt_mul (Nat.mul_comm B BS ▸ hslot))
    (.cons hh (.cons (Nat.div_lt_div_of_lt_of_dvd hs.divides hd)
    (.cons (Nat.mod_lt _ hBS) (.cons (Nat.mod_lt _ hx) .nil))))

theorem valueCell_mem {slot h d : Nat} (hslot : slot < B * BS) (hh : h < H) (hd : d < D) :
    List.Forall₂ (· < ·) (valueCell BS slot h d) valueCache.shape := by
  have hBS : 0 < BS := Nat.pos_of_ne_zero fun e => by rw [e, Nat.mul_zero] at hslot; exact Nat.not_lt_zero _ hslot
  rw [hs.valueCache]
  exact .cons (Nat.div_lt_of_lt_mul (Nat.mul_comm B BS ▸ hslot))
    (.cons hh (.cons hd (.cons (Nat.mod_lt _ hBS) .nil)))

include hf

theorem batch_lt : T * (H * D) < 2 ^ 31 ∧ B * (H * (D * BS)) < 2 ^ 31 := by
  have hk := hf.key.2
  have hv := hf.valueCache.2
  rw [MlxArray.size, hs.key] at hk
  rw [MlxArray.size, hs.valueCache] at hv
  simp only [List.prod_cons, List.prod_nil, mul_one] at hk hv
  exact ⟨hk, hv⟩

end

/-- One element of the batch, and the slot of its token. -/
structure Job where
  token : Nat
  slot : Nat
  head : Nat
  dim : Nat

structure Job.Valid (T H D : Nat) (slotMapping : MlxArray Int) (j : Job) : Prop where
  token : j.token < T
  slot : slotMapping.get [j.token] = j.slot
  head : j.head < H
  dim : j.dim < D

/-- The dimensions when some thread has something to store. -/
structure Active (T H D B BS x : Nat) : Prop where
  tokens : 0 < T
  heads : 0 < H
  size : 0 < D
  blocks : 0 < B
  block : 0 < BS
  pack : 0 < x
  batch : H * D < 2 ^ 31
  cell : H * D * BS < 2 ^ 31
  divides : D / x * x = D

theorem lt_of_pos_mul {a b n : Nat} (ha : 0 < a) (h : a * b < n) : b < n :=
  Nat.lt_of_le_of_lt (Nat.le_mul_of_pos_left b ha) h

section
variable {K C : Type} {T H D B BS x : Nat} {key value : MlxArray K} {keyCache valueCache : MlxArray C}
  {slotMapping : MlxArray Int} (hs : ReshapeShapes T H D B BS x key value keyCache valueCache slotMapping)
  (hf : ReshapeFits key value keyCache valueCache slotMapping)
include hs hf

theorem active {i slot h d : Nat} (hi : i < T) (hslot : slot < B * BS) (hh : h < H) (hd : d < D) :
    Active T H D B BS x := by
  obtain ⟨hk, hv⟩ := batch_lt hs hf
  have hT : 0 < T := Nat.zero_lt_of_lt hi
  have hB : 0 < B := Nat.pos_of_ne_zero fun e => by rw [e, Nat.zero_mul] at hslot; exact Nat.not_lt_zero _ hslot
  have hBS : 0 < BS := Nat.pos_of_ne_zero fun e => by rw [e, Nat.mul_zero] at hslot; exact Nat.not_lt_zero _ hslot
  have hD : 0 < D := Nat.zero_lt_of_lt hd
  refine ⟨hT, Nat.zero_lt_of_lt hh, hD, hB, hBS, Nat.pos_of_dvd_of_pos hs.divides hD, lt_of_pos_mul hT hk, ?_,
    Nat.div_mul_cancel hs.divides⟩
  rw [Nat.mul_assoc]
  exact lt_of_pos_mul hB hv

omit hs hf in
theorem Active.lt (ha : Active T H D B BS x) : H < 2 ^ 31 ∧ D < 2 ^ 31 ∧ BS < 2 ^ 31 ∧ x < 2 ^ 31 := by
  have hD := lt_of_pos_mul ha.heads ha.batch
  refine ⟨lt_of_pos_mul ha.size (Nat.mul_comm H D ▸ ha.batch), hD, ?_, ?_⟩
  · exact lt_of_pos_mul (Nat.mul_pos ha.heads ha.size) ha.cell
  · exact Nat.lt_of_le_of_lt (Nat.le_of_dvd ha.size ⟨D / x, by rw [Nat.mul_comm]; exact ha.divides.symm⟩) hD

omit hf in
theorem Active.params (ha : Active T H D B BS x) :
    (reshapeAndCache key value keyCache).numHeads = H ∧ (reshapeAndCache key value keyCache).headSize = D ∧
      (reshapeAndCache key value keyCache).blockSize = BS ∧ (reshapeAndCache key value keyCache).x = x := by
  obtain ⟨hH, hD, hBS, hx⟩ := ha.lt
  simp only [reshapeAndCache, MlxArray.dim, hs.key, hs.keyCache, List.getD_cons_succ, List.getD_cons_zero]
  exact ⟨int32_natCast hH, int32_natCast hD, int32_natCast hBS, int32_natCast hx⟩

omit hs hf in
theorem batch_mem {a : MlxArray K} (hshape : a.shape = [T, H, D]) {i h d : Nat} (hi : i < T) (hh : h < H)
    (hd : d < D) :
    List.Forall₂ (· < ·) [i, h, d] a.shape := by
  rw [hshape]
  exact .cons hi (.cons hh (.cons hd .nil))

omit hs hf in
theorem row_eq {a : MlxArray K} (hshape : a.shape = [T, H, D]) (hc : a.RowContiguous)
    (hfit : T * (H * D) < 2 ^ 31) (hH : 0 < H) (hD : 0 < D) {i h d : Nat} (hi : i < T) (hh : h < H) (hd : d < D) :
    int32 (i * int32 (a.stride 0) + (h * D + d : Nat)) = (flat a.shape [i, h, d] : Nat) := by
  have hlt := flat_lt (batch_mem hshape hi hh hd)
  have hflat : flat a.shape [i, h, d] = i * (H * D) + (h * D + d) := by
    rw [hshape]
    simp [flat]
  have hprod : a.shape.prod = T * (H * D) := by
    rw [hshape]
    simp
  rw [hprod] at hlt
  refine int32_eq ?_ (hlt.trans hfit)
  rcases Nat.eq_zero_or_pos i with rfl | hpos
  · rw [hflat]
    simp
  · -- the stride is used, so it is the size of a row
    have hst := hc.stride_zero hshape (by omega : 1 < T) (by simp [hH, hD])
    have hrow : int32 (a.stride 0) = (H * D : Nat) := by
      rw [hst]
      refine int32_eq (by simp) (lt_of_pos_mul (by omega : 0 < T) hfit)
    rw [hrow, hflat]
    push_cast
    ring

/-- Where the element comes from and where it goes. -/
def storeOf (BS x : Nat) (key value : MlxArray K) (keyCache valueCache : MlxArray C) (j : Job) : Store where
  srcKey := (flat key.shape [j.token, j.head, j.dim] : Nat)
  srcValue := (flat value.shape [j.token, j.head, j.dim] : Nat)
  tgtKey := (flat keyCache.shape (keyCell BS x j.slot j.head j.dim) : Nat)
  tgtValue := (flat valueCache.shape (valueCell BS j.slot j.head j.dim) : Nat)

theorem store_eq {i slot h d : Nat} (hi : i < T) (hslot : slot < B * BS) (hh : h < H) (hd : d < D) :
    (reshapeAndCache key value keyCache).store i slot (h * D + d : Nat) =
      storeOf BS x key value keyCache valueCache ⟨i, slot, h, d⟩ := by
  have ha := active hs hf hi hslot hh hd
  obtain ⟨hnH, hnD, hnBS, hnx⟩ := ha.params hs
  obtain ⟨hk, hv⟩ := batch_lt hs hf
  have hdiv : (h * D + d) / D = h := by
    rw [Nat.mul_comm, Nat.mul_add_div ha.size, Nat.div_eq_of_lt hd, Nat.add_zero]
  have hmod : (h * D + d) % D = d := by rw [Nat.mul_comm, Nat.mul_add_mod, Nat.mod_eq_of_lt hd]
  have hkc := flat_lt (keyCell_mem hs ha.pack hslot hh hd)
  have hvc := flat_lt (valueCell_mem hs hslot hh hd)
  have hsk := hf.keyCache.2
  have hsv := hf.valueCache.2
  rw [MlxArray.size] at hsk hsv
  have hpack : D / x * BS * x = D * BS := by
    rw [Nat.mul_right_comm, ha.divides]
  have hblock : H * (D / x) * BS * x = H * D * BS := by
    calc H * (D / x) * BS * x = H * (D / x * BS * x) := by ring
      _ = H * D * BS := by rw [hpack]; ring
  have hDBS : D * BS < 2 ^ 31 := lt_of_pos_mul ha.heads (by rw [← Nat.mul_assoc]; exact ha.cell)
  have hBSx : BS * x < 2 ^ 31 := by
    refine lt_of_pos_mul (Nat.div_pos (Nat.le_of_dvd ha.size hs.divides) ha.pack) ?_
    rw [← Nat.mul_assoc, hpack]
    exact hDBS
  have hb : int32 ((H : Int) * (D / x : Nat) * BS * x) = (H * D * BS : Nat) :=
    int32_eq (by rw [← hblock]; push_cast; ring) ha.cell
  have hh' : int32 ((D / x : Nat) * (BS : Int) * x) = (D * BS : Nat) :=
    int32_eq (by rw [← hpack]; push_cast; ring) hDBS
  have hq : int32 ((BS : Int) * x) = (BS * x : Nat) := int32_eq (by push_cast; ring) hBSx
  have hvb : int32 ((H : Int) * D * BS) = (H * D * BS : Nat) := int32_eq (by push_cast; ring) ha.cell
  have hvh : int32 ((D : Int) * BS) = (D * BS : Nat) := int32_eq (by push_cast; ring) hDBS
  have hkey : (flat keyCache.shape (keyCell BS x slot h d) : Int) = ((slot / BS : Nat) : Int) *
    (H * D * BS : Nat) +
      (h : Nat) * (D * BS : Nat) + (d / x : Nat) * (BS * x : Nat) + (slot % BS : Nat) * x + (d % x : Nat) := by
    rw [← hblock, ← hpack, hs.keyCache, keyCell]
    simp only [flat, List.prod_cons, List.prod_nil]
    push_cast
    ring
  have hvalue : (flat valueCache.shape (valueCell BS slot h d) : Int) = ((slot / BS : Nat) : Int) *
    (H * D * BS : Nat) +
      (h : Nat) * (D * BS : Nat) + (d : Nat) * BS + (slot % BS : Nat) := by
    rw [hs.valueCache, valueCell]
    simp only [flat, List.prod_cons, List.prod_nil]
    push_cast
    ring
  have hk1 := row_eq hs.key hf.key.1 hk ha.heads ha.size hi hh hd
  have hv1 := row_eq hs.value hf.value.1 hk ha.heads ha.size hi hh hd
  have hwide : 2 ^ 31 < 2 ^ 63 := by norm_num
  have hk2 := int64_natCast (n := flat keyCache.shape (keyCell BS x slot h d)) (hkc.trans (hsk.trans hwide))
  have hv2 := int64_natCast (n := flat valueCache.shape (valueCell BS slot h d)) (hvc.trans (hsv.trans hwide))
  simp only [store, storeOf, hnH, hnD, hnBS, hnx, ← Int.ofNat_tdiv, ← Int.ofNat_tmod, hdiv, hmod, hb, hh',
    hq, hvb, hvh]
  rw [← hkey, ← hvalue, hk2, hv2, ← hk1, ← hv1]
  rfl

/-! ## All stores -/

omit hs hf in
theorem slot_data (hshape : slotMapping.shape = [T]) (hc : slotMapping.RowContiguous) {i : Nat} (hi : i < T) :
    slotMapping.data i = slotMapping.get [i] := by
  rw [hc.get (by rw [hshape]; exact .cons hi .nil : List.Forall₂ (· < ·) [i] slotMapping.shape), hshape]
  simp [flat]

omit hf in
theorem Active.grid (ha : Active T H D B BS x) :
    (reshapeAndCache key value keyCache).n = (H * D : Nat) ∧
      (reshapeAndCache key value keyCache).threads = min 512 (H * D) := by
  obtain ⟨hnH, hnD, _, _⟩ := ha.params hs
  have hn : (reshapeAndCache key value keyCache).n = (H * D : Nat) := by
    rw [n, hnH, hnD]
    exact int32_eq (by push_cast; ring) ha.batch
  have hthreads : (reshapeAndCache key value keyCache).threads =
      threadgroupSize (reshapeAndCache key value keyCache).n := by
    simp only [reshapeAndCache, n]
  refine ⟨hn, ?_⟩
  rw [hthreads, hn, threadgroupSize_natCast]

omit hf in
theorem numTokens_eq : (reshapeAndCache key value keyCache).numTokens = T := by
  simp only [reshapeAndCache, MlxArray.dim, hs.key, List.getD_cons_zero]

omit hf in
theorem threads_of_zero (h0 : H * D = 0) : (reshapeAndCache key value keyCache).threads = 0 := by
  have hzero : int32 H * int32 D = 0 := by
    rcases Nat.mul_eq_zero.mp h0 with rfl | rfl
    · exact zero_mul _
    · exact mul_zero _
  simp only [reshapeAndCache, MlxArray.dim, hs.key, List.getD_cons_succ, List.getD_cons_zero, hzero]
  exact threadgroupSize_natCast 0

omit hs hf in
theorem threadRun_iff {p : ReshapeAndCache} (hshape : slotMapping.shape = [T])
    (hc : slotMapping.RowContiguous ∧ slotMapping.size < 2 ^ 31) {gid : Nat} (hg : gid < T) (tid : Nat)
    (l : List Store) :
    p.ThreadRun slotMapping gid tid l ↔
      if slotMapping.get [gid] < 0 then l = []
      else ∃ fuel is, forLoop p.n p.threads fuel (int32 tid) = some is ∧
        l = is.map (p.store gid (slotMapping.get [gid])) := by
  have hT : T < 2 ^ 31 := by
    have hfit := hc.2
    rw [MlxArray.size, hshape] at hfit
    simpa using hfit
  have hgid : int32 (gid : Int) = gid := int32_natCast (hg.trans hT)
  simp only [ThreadRun, hgid, slot_data hshape hc.1 hg]

theorem threadRun_loops (hslots : GoodSlots T B BS slotMapping) : ∀ gid < T,
    ∀ tid < (reshapeAndCache key value keyCache).threads, ∀ l,
      (reshapeAndCache key value keyCache).ThreadRun slotMapping gid tid l ↔
        if slotMapping.get [gid] < 0 then l = []
        else ThreadGrid.Loops (H * D) (reshapeAndCache key value keyCache).threads
          ((reshapeAndCache key value keyCache).store gid (slotMapping.get [gid])) tid l := by
  intro gid hg tid ht l
  have hbelow := hslots.below gid hg
  rw [threadRun_iff hs.slotMapping hf.slotMapping hg tid]
  by_cases hneg : slotMapping.get [gid] < 0
  · rw [if_pos hneg, if_pos hneg]
  · obtain ⟨slot, hslot⟩ : ∃ slot : Nat, slotMapping.get [gid] = slot :=
      Int.eq_ofNat_of_zero_le (Int.not_lt.mp hneg)
    rw [hslot, Int.ofNat_lt] at hbelow
    have hpos : 0 < H * D := Nat.pos_of_ne_zero fun hzero => by
      rw [threads_of_zero hs hzero] at ht
      exact Nat.not_lt_zero tid ht
    have ha := active hs hf hg hbelow (Nat.pos_of_mul_pos_right hpos) (Nat.pos_of_mul_pos_left hpos)
    rw [if_neg hneg, if_neg hneg, (ha.grid hs).1]
    rfl

theorem covers (hg : GoodSlots T B BS slotMapping)
    (hok : (∀ i < T, slotMapping.get [i] < 0) ∨ H * D + min 512 (H * D) ≤ 2 ^ 31) {gid : Nat} (hgid : gid < T)
    (hslot : ¬slotMapping.get [gid] < 0) :
      ThreadGrid.Covers (H * D) (reshapeAndCache key value keyCache).threads := by
  have hsum := hok.resolve_left fun hneg => hslot (hneg gid hgid)
  rcases Nat.eq_zero_or_pos (H * D) with hzero | hpos
  · rw [threads_of_zero hs hzero, hzero]
    exact ⟨Nat.zero_le _, fun h => absurd rfl h⟩
  · obtain ⟨slot, hslot⟩ : ∃ slot : Nat, slotMapping.get [gid] = slot :=
      Int.eq_ofNat_of_zero_le (Int.not_lt.mp hslot)
    have hbelow := hg.below gid hgid
    rw [hslot, Int.ofNat_lt] at hbelow
    have ha := active hs hf hgid hbelow (Nat.pos_of_mul_pos_right hpos) (Nat.pos_of_mul_pos_left hpos)
    rw [(ha.grid hs).2]
    exact covers_min hsum

omit hs hf in
theorem exists_job (store : Int → Int → Int → Store) (s : Store) :
    (∃ gid < T, ¬slotMapping.get [gid] < 0 ∧ ∃ i < H * D, s = store gid (slotMapping.get [gid]) i) ↔
      ∃ j : Job, j.Valid T H D slotMapping ∧ s = store j.token j.slot (j.head * D + j.dim : Nat) := by
  constructor
  · rintro ⟨gid, hg, hneg, i, hi, rfl⟩
    obtain ⟨slot, hslot⟩ : ∃ slot : Nat, slotMapping.get [gid] = slot :=
      Int.eq_ofNat_of_zero_le (Int.not_lt.mp hneg)
    have hD : 0 < D := Nat.pos_of_mul_pos_left (Nat.zero_lt_of_lt hi)
    refine ⟨⟨gid, slot, i / D, i % D⟩,
      ⟨hg, hslot, Nat.div_lt_of_lt_mul (Nat.mul_comm H D ▸ hi), Nat.mod_lt _ hD⟩, ?_⟩
    rw [hslot, Nat.div_add_mod']
  · rintro ⟨j, hj, rfl⟩
    have hslot := hj.slot
    refine ⟨j.token, hj.token, ?_, _, digit_lt hj.head hj.dim, by rw [hslot]⟩
    rw [hslot]
    exact Int.not_lt.mpr (Int.natCast_nonneg _)

section
variable (hg : GoodSlots T B BS slotMapping)
  (hok : (∀ i < T, slotMapping.get [i] < 0) ∨ H * D + min 512 (H * D) ≤ 2 ^ 31)
include hg hok

/-- An order of the stores holds the store of every element of every token that has a
    slot, and no other. -/
theorem mem_schedule {order : List Store} (ho : (reshapeAndCache key value keyCache).Schedule slotMapping order)
    (s : Store) :
    s ∈ order ↔ ∃ j : Job, j.Valid T H D slotMapping ∧ s = storeOf BS x key value keyCache valueCache j := by
  rw [Schedule, numTokens_eq hs] at ho
  rw [ThreadGrid.mem_schedule (threadRun_loops hs hf hg)
    (fun _ => covers hs hf hg hok) ho, exists_job]
  apply exists_congr
  rintro ⟨i, slot, h, d⟩
  apply and_congr_right
  rintro ⟨hi, hslot, hh, hd⟩
  have hbelow := hg.below i hi
  rw [hslot, Int.ofNat_lt] at hbelow
  rw [store_eq hs hf hi hbelow hh hd]

theorem exists_schedule : ∃ order, (reshapeAndCache key value keyCache).Schedule slotMapping order := by
  unfold Schedule
  rw [numTokens_eq hs]
  exact ThreadGrid.exists_schedule (threadRun_loops hs hf hg)
    fun _ => covers hs hf hg hok

end

end

end ReshapeAndCache

/-! ## The caches afterwards -/

/-- What `ref_reshape_and_cache` computes: the caches after the stores hold the batch in
    the cells of its slots and are unchanged elsewhere. No store is out of bounds. -/
structure Scatters {K C : Type} (toCache : K → C) (T H D BS x : Nat) (key value : MlxArray K)
    (keyCache valueCache : MlxArray C) (slotMapping : MlxArray Int) (order : List Store) : Prop where
  keys : ∀ i < T, ∀ slot : Nat, slotMapping.get [i] = slot → ∀ h < H, ∀ d < D,
    (storeKeys toCache key keyCache order).get [slot / BS, h, d / x, slot % BS, d % x] =
      toCache (key.get [i, h, d])
  values : ∀ i < T, ∀ slot : Nat, slotMapping.get [i] = slot → ∀ h < H, ∀ d < D,
    (storeValues toCache value valueCache order).get [slot / BS, h, d, slot % BS] = toCache (value.get [i, h, d])
  keysKept : ∀ idx, List.Forall₂ (· < ·) idx keyCache.shape →
    (∀ i < T, ∀ slot : Nat, slotMapping.get [i] = slot → ∀ h < H, ∀ d < D,
      idx ≠ [slot / BS, h, d / x, slot % BS, d % x]) →
    (storeKeys toCache key keyCache order).get idx = keyCache.get idx
  valuesKept : ∀ idx, List.Forall₂ (· < ·) idx valueCache.shape →
    (∀ i < T, ∀ slot : Nat, slotMapping.get [i] = slot → ∀ h < H, ∀ d < D,
      idx ≠ [slot / BS, h, d, slot % BS]) →
    (storeValues toCache value valueCache order).get idx = valueCache.get idx
  inside : ∀ s ∈ order, (0 ≤ s.tgtKey ∧ s.tgtKey < keyCache.size) ∧ 0 ≤ s.tgtValue ∧ s.tgtValue < valueCache.size

namespace ReshapeAndCache
section
variable {K C : Type} {toCache : K → C} {T H D B BS x : Nat} {key value : MlxArray K}
  {keyCache valueCache : MlxArray C}
  {slotMapping : MlxArray Int} (hs : ReshapeShapes T H D B BS x key value keyCache valueCache slotMapping)
  (hf : ReshapeFits key value keyCache valueCache slotMapping)

theorem keyCell_inj {slot slot' h h' d d' : Nat} (heq : keyCell BS x slot h d = keyCell BS x slot' h' d') :
    slot = slot' ∧ h = h' ∧ d = d' := by
  simp only [keyCell, List.cons.injEq, and_true] at heq
  obtain ⟨hb, hh, hq, ht, hr⟩ := heq
  refine ⟨?_, hh, ?_⟩
  · rw [← Nat.div_add_mod slot BS, hb, ht, Nat.div_add_mod]
  · rw [← Nat.div_add_mod d x, hq, hr, Nat.div_add_mod]

theorem valueCell_inj {slot slot' h h' d d' : Nat} (heq : valueCell BS slot h d = valueCell BS slot' h' d') :
    slot = slot' ∧ h = h' ∧ d = d' := by
  simp only [valueCell, List.cons.injEq, and_true] at heq
  obtain ⟨hb, hh, hd, ht⟩ := heq
  refine ⟨?_, hh, hd⟩
  rw [← Nat.div_add_mod slot BS, hb, ht, Nat.div_add_mod]

include hs hf

theorem scatters_of_schedule (hg : GoodSlots T B BS slotMapping)
    (hok : (∀ i < T, slotMapping.get [i] < 0) ∨ H * D + min 512 (H * D) ≤ 2 ^ 31) {order : List Store}
    (ho : (reshapeAndCache key value keyCache).Schedule slotMapping order) :
    Scatters toCache T H D BS x key value keyCache valueCache slotMapping order := by
  have hmem := mem_schedule hs hf hg hok ho
  have hbelow : ∀ j : Job, j.Valid T H D slotMapping → j.slot < B * BS := by
    intro j hj
    have hlt := hg.below j.token hj.token
    rw [hj.slot] at hlt
    exact Int.ofNat_lt.mp hlt
  have hkc : ∀ j : Job, j.Valid T H D slotMapping →
      List.Forall₂ (· < ·) (keyCell BS x j.slot j.head j.dim) keyCache.shape := fun j hj =>
    keyCell_mem hs (active hs hf hj.token (hbelow j hj) hj.head hj.dim).pack (hbelow j hj) hj.head hj.dim
  have hvc : ∀ j : Job, j.Valid T H D slotMapping →
      List.Forall₂ (· < ·) (valueCell BS j.slot j.head j.dim) valueCache.shape := fun j hj =>
    valueCell_mem hs (hbelow j hj) hj.head hj.dim
  -- distinct tokens have distinct slots, so the slot tells the token
  have hsame : ∀ j j' : Job, j.Valid T H D slotMapping → j'.Valid T H D slotMapping →
      j.slot = j'.slot ∧ j.head = j'.head ∧ j.dim = j'.dim → j = j' := by
    rintro ⟨i, slot, h, d⟩ ⟨i', slot', h', d'⟩ hj hj' ⟨rfl, rfl, rfl⟩
    obtain rfl : i = i' := by
      refine hg.distinct i hj.token i' hj'.token ?_ (hj.slot.trans hj'.slot.symm)
      rw [hj.slot]
      exact Int.natCast_nonneg _
    rfl
  refine ⟨?_, ?_, ?_, ?_, ?_⟩
  · intro i hi slot hslot h hh d hd
    have hj : (Job.mk i slot h d).Valid T H D slotMapping := ⟨hi, hslot, hh, hd⟩
    show (storeKeys toCache key keyCache order).data (place keyCache.strides (keyCell BS x slot h d)) = _
    rw [hf.keyCache.1 _ (hkc _ hj), hf.key.1.get (batch_mem hs.key hi hh hd)]
    exact scatter_cell hmem hkc (fun _ => rfl) (fun j j' hj hj' heq => hsame j j' hj hj' (keyCell_inj heq))
      keyCache.data hj
  · intro i hi slot hslot h hh d hd
    have hj : (Job.mk i slot h d).Valid T H D slotMapping := ⟨hi, hslot, hh, hd⟩
    show (storeValues toCache value valueCache order).data (place valueCache.strides (valueCell BS slot h d)) = _
    rw [hf.valueCache.1 _ (hvc _ hj), hf.value.1.get (batch_mem hs.value hi hh hd)]
    exact scatter_cell hmem hvc (fun _ => rfl) (fun j j' hj hj' heq => hsame j j' hj hj' (valueCell_inj heq))
      valueCache.data hj
  · intro idx hidx hfree
    show (storeKeys toCache key keyCache order).data (place keyCache.strides idx) = keyCache.data (place _ idx)
    rw [hf.keyCache.1 _ hidx]
    exact scatter_other hmem hkc (fun _ => rfl) keyCache.data hidx fun j hj =>
      hfree j.token hj.token j.slot hj.slot j.head hj.head j.dim hj.dim
  · intro idx hidx hfree
    show (storeValues toCache value valueCache order).data (place valueCache.strides idx) =
      valueCache.data (place _ idx)
    rw [hf.valueCache.1 _ hidx]
    exact scatter_other hmem hvc (fun _ => rfl) valueCache.data hidx fun j hj =>
      hfree j.token hj.token j.slot hj.slot j.head hj.head j.dim hj.dim
  · intro s hs'
    obtain ⟨j, hj, rfl⟩ := (hmem s).mp hs'
    exact ⟨⟨Int.natCast_nonneg _, Int.ofNat_lt.mpr (flat_lt (hkc j hj))⟩,
      Int.natCast_nonneg _, Int.ofNat_lt.mpr (flat_lt (hvc j hj))⟩

omit hs hf in
theorem store_overflow {p : ReshapeAndCache} (hD : p.headSize = D) (hBS : p.blockSize = 1) (hlt : D < 2 ^ 31) :
    (p.store ((0 : Nat) : Int) ((0 : Nat) : Int) (-2 ^ 31)).tgtValue = -2 ^ 31 := by
  have hrow : (-2 ^ 31 : Int).tdiv D * D + (-2 ^ 31 : Int).tmod D = -2 ^ 31 := by
    rw [mul_comm]
    exact Int.mul_tdiv_add_tmod _ _
  have hsmall : int64 (-2 ^ 31) = -2 ^ 31 := by decide
  simp only [store, hD, hBS, Nat.cast_zero, Int.zero_tdiv, Int.zero_tmod, zero_mul, zero_add, mul_one, add_zero,
    int32_natCast hlt, hrow, hsmall]

/-- When the counter of thread 0 overflows, the next element is number `-2 ^ 31`. -/
theorem overflow {i : Nat} (hi : i < T) (hslot : ¬slotMapping.get [i] < 0) (hg : GoodSlots T B BS slotMapping)
    (hsum : 2 ^ 31 < H * D + min 512 (H * D)) {order : List Store}
    (ho : (reshapeAndCache key value keyCache).Schedule slotMapping order) :
      ∃ s ∈ order, s.tgtValue = -2 ^ 31 := by
  obtain ⟨slot, hs'⟩ : ∃ slot : Nat, slotMapping.get [i] = slot := Int.eq_ofNat_of_zero_le (Int.not_lt.mp hslot)
  have hbelow := hg.below i hi
  rw [hs', Int.ofNat_lt] at hbelow
  have hpos : 0 < H * D := Nat.pos_of_ne_zero fun h0 => by
    rw [h0, Nat.min_zero] at hsum
    exact absurd hsum (by norm_num)
  have hD : 0 < D := Nat.pos_of_mul_pos_left hpos
  have ha := active hs hf hi hbelow (Nat.pos_of_mul_pos_right hpos) hD
  obtain ⟨hn, hthreads⟩ := ha.grid hs
  obtain ⟨_, hnD, hnBS, _⟩ := ha.params hs
  obtain ⟨hk, hv⟩ := batch_lt hs hf
  -- only one token and one cell fit
  have hbig : 2 ^ 31 < H * D + 512 := hsum.trans_le (Nat.add_le_add_left (Nat.min_le_left 512 (H * D)) (H * D))
  obtain rfl : T = 1 := eq_one_of_mul ha.tokens hbig hk
  obtain rfl : i = 0 := Nat.lt_one_iff.mp hi
  have hcells : B * BS = 1 := by
    have hcomm : B * (H * (D * BS)) = B * BS * (H * D) := by ring
    exact eq_one_of_mul (Nat.mul_pos ha.blocks ha.block) hbig (hcomm ▸ hv)
  obtain rfl : slot = 0 := by omega
  have hthread : 0 < (reshapeAndCache key value keyCache).threads := by
    rw [hthreads]
    exact threads_pos hpos.ne'
  have hvisit : Visits (H * D : Nat) (reshapeAndCache key value keyCache).threads (int32 ((0 : Nat) : Int))
    (-2 ^ 31) := by
    rw [int32_natCast (by norm_num), hthreads]
    exact visits_overflow_zero ha.batch hsum
  rw [Schedule, numTokens_eq hs] at ho
  have hmem := ThreadGrid.mem_of_visits (threadRun_loops hs hf hg) ho
    hi hslot hthread hvisit
  rw [hs'] at hmem
  refine ⟨_, hmem, store_overflow hnD (hnBS.trans ?_) (lt_of_pos_mul ha.heads ha.batch)⟩
  rw [Nat.eq_one_of_mul_eq_one_left hcells]
  rfl

/-- The stores scatter the batch in any order, unless a counter passes the largest
    `int`: then thread 0 goes on at element `-2 ^ 31`. -/
theorem stores_scatter_batch (hg : GoodSlots T B BS slotMapping) :
    ((∃ order, (reshapeAndCache key value keyCache).Schedule slotMapping order) ∧
      ∀ order, (reshapeAndCache key value keyCache).Schedule slotMapping order →
        Scatters toCache T H D BS x key value keyCache valueCache slotMapping order) ↔
      (∀ i < T, slotMapping.get [i] < 0) ∨ H * D + min 512 (H * D) ≤ 2 ^ 31 := by
  constructor
  · rintro ⟨⟨order, ho⟩, hall⟩
    by_contra hcon
    obtain ⟨hslots, hsum⟩ := not_or.mp hcon
    simp only [not_forall] at hslots
    obtain ⟨i, hi, hslot⟩ := hslots
    obtain ⟨s, hmem, hs'⟩ := overflow hs hf hi hslot hg (Nat.lt_of_not_le hsum) ho
    have hpos := ((hall order ho).inside s hmem).2.1
    rw [hs'] at hpos
    exact absurd hpos (by norm_num)
  · intro hok
    exact ⟨exists_schedule hs hf hg hok, fun order ho => scatters_of_schedule hs hf hg hok ho⟩

end

/-- Three tokens, of which the second has no slot. -/
theorem stores_scatter_batch_three :
    let key := MlxArray.ofData [3, 1, 2] fun i => i
    let value := MlxArray.ofData [3, 1, 2] fun i => i + 10
    let keyCache := MlxArray.ofData [2, 1, 1, 2, 2] fun _ => (0 : Int)
    let valueCache := MlxArray.ofData [2, 1, 2, 2] fun _ => (0 : Int)
    let slotMapping := MlxArray.ofData [3] fun i => if i = 0 then 3 else if i = 1 then -1 else 0
    (∃ order, (reshapeAndCache key value keyCache).Schedule slotMapping order) ∧
      ∀ order, (reshapeAndCache key value keyCache).Schedule slotMapping order →
        Scatters id 3 1 2 2 2 key value keyCache valueCache slotMapping order := by
  intro key value keyCache valueCache slotMapping
  have hs : ReshapeShapes 3 1 2 2 2 2 key value keyCache valueCache slotMapping :=
    ⟨rfl, rfl, rfl, rfl, rfl, ⟨1, rfl⟩⟩
  have hf : ReshapeFits key value keyCache valueCache slotMapping :=
    ⟨⟨MlxArray.ofData_rowContiguous _ _, by decide⟩, ⟨MlxArray.ofData_rowContiguous _ _, by decide⟩,
      ⟨MlxArray.ofData_rowContiguous _ _, by decide⟩, ⟨MlxArray.ofData_rowContiguous _ _, by decide⟩,
      ⟨MlxArray.ofData_rowContiguous _ _, by decide⟩⟩
  have hg : GoodSlots 3 2 2 slotMapping := ⟨by decide, by decide⟩
  exact (stores_scatter_batch hs hf hg).mpr (Or.inr (by norm_num))

/-- One token of `2 ^ 31 - 1` elements: thread 0 leaves the cache. -/
theorem largest_token_overflows :
    let key := MlxArray.ofData [1, 1, 2147483647] fun i => i
    let keyCache := MlxArray.ofData [1, 1, 2147483647, 1, 1] fun _ => (0 : Int)
    let valueCache := MlxArray.ofData [1, 1, 2147483647, 1] fun _ => (0 : Int)
    let slotMapping := MlxArray.ofData [1] fun _ => (0 : Int)
    ReshapeShapes 1 1 2147483647 1 1 1 key key keyCache valueCache slotMapping ∧
      ReshapeFits key key keyCache valueCache slotMapping ∧ GoodSlots 1 1 1 slotMapping ∧
      ¬((∃ order, (reshapeAndCache key key keyCache).Schedule slotMapping order) ∧
        ∀ order, (reshapeAndCache key key keyCache).Schedule slotMapping order →
          Scatters id 1 1 2147483647 1 1 key key keyCache valueCache slotMapping order) := by
  intro key keyCache valueCache slotMapping
  have hs : ReshapeShapes 1 1 2147483647 1 1 1 key key keyCache valueCache slotMapping :=
    ⟨rfl, rfl, rfl, rfl, rfl, ⟨2147483647, rfl⟩⟩
  have hf : ReshapeFits key key keyCache valueCache slotMapping :=
    ⟨⟨MlxArray.ofData_rowContiguous _ _, by decide⟩, ⟨MlxArray.ofData_rowContiguous _ _, by decide⟩,
      ⟨MlxArray.ofData_rowContiguous _ _, by decide⟩, ⟨MlxArray.ofData_rowContiguous _ _, by decide⟩,
      ⟨MlxArray.ofData_rowContiguous _ _, by decide⟩⟩
  have hg : GoodSlots 1 1 1 slotMapping := ⟨by decide, by decide⟩
  refine ⟨hs, hf, hg, fun ⟨⟨order, ho⟩, hall⟩ => ?_⟩
  obtain ⟨s, hmem, hs'⟩ := overflow hs hf Nat.one_pos (by decide) hg (by norm_num) ho
  have hpos := ((hall order ho).inside s hmem).2.1
  rw [hs'] at hpos
  exact absurd hpos (by norm_num)

end ReshapeAndCache

end SglangMlx
