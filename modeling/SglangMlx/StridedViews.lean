import SglangMlx.CacheLayout

/- Views as inputs of the two kernels. The host hands on the outermost stride of key,
   value and query and the two outermost of the key cache; the kernels take the inner
   strides of a contiguous array for granted, and the strides of the key cache for the
   value cache. What they load is the element they mean exactly if these strides are
   right on every axis with more than one index. -/
namespace SglangMlx

open MachineInt Layout

/-- The threads of the group of a token visit these elements of it. -/
def ReshapeAndCache.Loads (p : ReshapeAndCache) (slotMapping : MlxArray Int) (gid : Nat) (i : Int) : Prop :=
  gid < p.numTokens ∧ 0 ≤ slotMapping.data (int32 gid) ∧ ∃ tid < p.threads, Visits p.n p.threads (int32 tid) i

/-- What `reshape_and_cache` loads as element `(head_idx, head_offset)` of a token is that
    element. -/
def ReshapeLoads {K C : Type} (key value : MlxArray K) (keyCache : MlxArray C) (slotMapping : MlxArray Int) :
    Prop := let p := reshapeAndCache key value keyCache
  ∀ gid i, p.Loads slotMapping gid i → ∃ h < key.dim 1, ∃ d < key.dim 2,
    i.tdiv p.headSize = h ∧ i.tmod p.headSize = d ∧
    (p.store (int32 gid) (slotMapping.data (int32 gid)) i).srcKey = place key.strides [gid, h, d] ∧
    (p.store (int32 gid) (slotMapping.data (int32 gid)) i).srcValue = place value.strides [gid, h, d]

/-- The first `n` elements of these tokens are rows of `D`, at places that an `int` holds. -/
structure RowsLoadable {K : Type} (a : MlxArray K) (n D : Nat) (tokens : Nat → Prop) : Prop where
  inner : 1 < min D n → a.stride 2 ≡ 1 [ZMOD 2 ^ 32]
  rows : D < n → a.stride 1 ≡ D [ZMOD 2 ^ 32]
  fits : ∀ gid, tokens gid → ∀ i < n,
    -2 ^ 31 ≤ place a.strides [gid, i / D, i % D] ∧ place a.strides [gid, i / D, i % D] < 2 ^ 31

theorem place_three {K : Type} {a : MlxArray K} (h : a.shape.length = 3) (i j k : Nat) :
    place a.strides [i, j, k] = a.stride 0 * i + (a.stride 1 * j + a.stride 2 * k) := by
  have hlen := a.aligned.trans h
  simp only [MlxArray.stride]
  obtain ⟨s0, rest, heq⟩ := List.exists_cons_of_length_eq_add_one hlen
  rw [heq] at hlen ⊢
  obtain ⟨s1, rest, rfl⟩ := List.exists_cons_of_length_eq_add_one (Nat.succ.inj hlen)
  obtain ⟨s2, rest, rfl⟩ := List.exists_cons_of_length_eq_add_one (Nat.succ.inj (Nat.succ.inj hlen))
  simp [place]

theorem mul_modEq {s m c : Int} {k : Nat} (h : 0 < k → s ≡ m [ZMOD c]) : s * k ≡ m * k [ZMOD c] := by
  rcases Nat.eq_zero_or_pos k with rfl | hpos
  · rw [Nat.cast_zero, mul_zero, mul_zero]
  · exact (h hpos).mul_right _

section
variable {K : Type} {a : MlxArray K} {n D : Nat} {tokens : Nat → Prop} (h3 : a.shape.length = 3) (hD : 0 < D)
include h3 hD

/-- The host's stride and the counter give the right places of the elements exactly if the
    inner strides are those of rows and no place is cut. -/
theorem rowsLoadable_iff (hsome : ∃ gid, tokens gid) :
    (∀ gid, tokens gid → ∀ i < n, int32 (gid * int32 (a.stride 0) + (i : Nat)) =
      place a.strides [gid, i / D, i % D]) ↔ RowsLoadable a n D tokens := by
  have hbase : ∀ gid i : Nat, (gid : Int) * int32 (a.stride 0) + i ≡ a.stride 0 * gid + i [ZMOD 2 ^ 32] := by
    intro gid i
    rw [mul_comm]
    exact ((int32_modEq _).mul_right _).add_right _
  constructor
  · intro hall
    obtain ⟨gid, hgid⟩ := hsome
    refine ⟨fun hinner => ?_, fun hrows => ?_, fun gid hgid i hi => ?_⟩
    · have h1 := (int32_eq_iff.mp (hall gid hgid 1 (by omega))).2.trans (hbase gid 1)
      rw [place_three h3, Nat.div_eq_of_lt (by omega), Nat.mod_eq_of_lt (by omega)] at h1
      simpa using h1.add_left_cancel'
    · have h1 := (int32_eq_iff.mp (hall gid hgid D hrows)).2.trans (hbase gid D)
      rw [place_three h3, Nat.div_self hD, Nat.mod_self] at h1
      simpa using h1.add_left_cancel'
    · rw [← hall gid hgid i hi]
      exact int32_range _
  · intro hl gid hgid i hi
    refine int32_eq_iff.mpr ⟨hl.fits gid hgid i hi, ?_⟩
    refine Int.ModEq.trans ?_ (hbase gid i).symm
    rw [place_three h3]
    apply Int.ModEq.add_left
    -- an axis at index 0 does not use its stride
    have hrows : a.stride 1 * (i / D : Nat) ≡ D * (i / D : Nat) [ZMOD 2 ^ 32] :=
      mul_modEq fun hpos => hl.rows (((Nat.div_pos_iff).mp hpos).2.trans_lt hi)
    have hinner : a.stride 2 * (i % D : Nat) ≡ 1 * (i % D : Nat) [ZMOD 2 ^ 32] := by
      refine mul_modEq fun hpos => hl.inner (Nat.lt_min.mpr ⟨?_, ?_⟩)
      · exact Nat.lt_of_le_of_lt hpos (Nat.mod_lt i hD)
      · exact Nat.lt_of_le_of_lt hpos ((Nat.mod_le i D).trans_lt hi)
    have hsplit : (D : Int) * (i / D : Nat) + 1 * (i % D : Nat) = i := by
      rw [one_mul, ← Nat.cast_mul, ← Nat.cast_add, Nat.div_add_mod]
    calc a.stride 1 * ((i / D : Nat) : Int) + a.stride 2 * (i % D : Nat)
        ≡ D * (i / D : Nat) + 1 * (i % D : Nat) [ZMOD 2 ^ 32] := hrows.add hinner
      _ = i := hsplit

end

namespace ReshapeAndCache
variable {K C : Type} {T H D : Nat} {key value : MlxArray K} {keyCache : MlxArray C} {slotMapping : MlxArray Int}

/-- The tokens that are written. -/
def Written (T : Nat) (slotMapping : MlxArray Int) (gid : Nat) : Prop := gid < T ∧ 0 ≤ slotMapping.data gid

variable (hkey : key.shape = [T, H, D]) (hvalue : value.shape = [T, H, D]) (hdims : ∀ m ∈ key.shape, m < 2 ^ 31)
include hkey hdims

variable (value keyCache) in
theorem view_params : (reshapeAndCache key value keyCache).numTokens = T ∧
    (reshapeAndCache key value keyCache).headSize = D ∧
    (reshapeAndCache key value keyCache).n = int32 (H * D) ∧
    (reshapeAndCache key value keyCache).threads = threadgroupSize (int32 (H * D)) := by
  rw [hkey] at hdims
  have hH : int32 H = H := int32_natCast (hdims H (by simp))
  have hD : int32 D = D := int32_natCast (hdims D (by simp))
  simp only [reshapeAndCache, n, MlxArray.dim, hkey, List.getD_cons_zero, List.getD_cons_succ, hH, hD]
  trivial

theorem loads_iff {n : Nat} (hn : int32 (H * D) = n) (hsum : n + min 512 n ≤ 2 ^ 31) (gid : Nat) (i : Int) :
    (reshapeAndCache key value keyCache).Loads slotMapping gid i ↔ Written T slotMapping gid ∧
      ∃ j < n, i = (j : Nat) := by
  obtain ⟨htokens, -, hpn, hthreads⟩ := view_params value keyCache hkey hdims
  have hT : T < 2 ^ 31 := hdims T (by rw [hkey]; exact List.mem_cons_self)
  rw [hn, threadgroupSize_natCast] at hthreads
  rw [Loads, Written, htokens, hpn, hn, hthreads, and_assoc]
  refine and_congr_right fun hgid => ?_
  rw [int32_natCast (hgid.trans hT)]
  refine and_congr_right fun _ => ?_
  constructor
  · rintro ⟨tid, htid, hvisit⟩
    rw [int32_natCast (by omega), visits_iff hsum] at hvisit
    obtain ⟨k, rfl, hk⟩ := hvisit
    exact ⟨_, hk, rfl⟩
  · rintro ⟨j, hj, rfl⟩
    have hstep : 0 < min 512 n := Nat.lt_min.mpr ⟨Nat.succ_pos 511, Nat.zero_lt_of_lt hj⟩
    obtain ⟨tid, htid, k, rfl⟩ := exists_thread (i := j) hstep
    refine ⟨tid, htid, ?_⟩
    rw [int32_natCast (by omega), visits_iff hsum]
    exact ⟨k, rfl, hj⟩

theorem not_reshapeLoads_of_overflow {n : Nat} (hn : int32 (H * D) = n) (hsum : 2 ^ 31 < n + min 512 n)
    {gid : Nat} (hgid : Written T slotMapping gid) : ¬ReshapeLoads key value keyCache slotMapping := by
  intro hall
  obtain ⟨htokens, hsize, hpn, hthreads⟩ := view_params value keyCache hkey hdims
  have hlt : n < 2 ^ 31 := by
    have := (int32_range (H * D)).2
    omega
  have hT : T < 2 ^ 31 := hdims T (by rw [hkey]; exact List.mem_cons_self)
  rw [hn, threadgroupSize_natCast] at hthreads
  have hthread : 0 < min 512 n := Nat.lt_min.mpr ⟨Nat.succ_pos 511, Nat.pos_of_ne_zero fun h0 => by
    rw [h0, Nat.min_zero] at hsum
    exact absurd hsum (by norm_num)⟩
  have hload : (reshapeAndCache key value keyCache).Loads slotMapping gid (-2 ^ 31) := by
    refine ⟨htokens ▸ hgid.1, ?_, 0, hthreads ▸ hthread, ?_⟩
    · rw [int32_natCast (hgid.1.trans hT)]
      exact hgid.2
    · rw [hpn, hn, hthreads, int32_natCast (by norm_num)]
      exact visits_overflow_zero hlt hsum
  obtain ⟨h, -, d, -, hrow, hoffset, -⟩ := hall gid _ hload
  rw [hsize] at hrow hoffset
  have hsplit := Int.mul_tdiv_add_tmod (-2 ^ 31) D
  rw [hrow, hoffset, ← Nat.cast_mul, ← Nat.cast_add] at hsplit
  have hpos := Int.natCast_nonneg (D * h + d)
  rw [hsplit] at hpos
  exact absurd hpos (by norm_num)

theorem reshapeLoads_rows {n : Nat} (hn : int32 (H * D) = n) (hsum : n + min 512 n ≤ 2 ^ 31) (hD : 0 < D)
    (hle : n ≤ H * D) :
    ReshapeLoads key value keyCache slotMapping ↔
      (∀ gid, Written T slotMapping gid → ∀ i < n,
        int32 (gid * int32 (key.stride 0) + (i : Nat)) = place key.strides [gid, i / D, i % D]) ∧
      ∀ gid, Written T slotMapping gid → ∀ i < n,
        int32 (gid * int32 (value.stride 0) + (i : Nat)) = place value.strides [gid, i / D, i % D] := by
  obtain ⟨-, hsize, -, -⟩ := view_params value keyCache hkey hdims
  have hT : T < 2 ^ 31 := hdims T (by rw [hkey]; exact List.mem_cons_self)
  have hH : key.dim 1 = H := by rw [MlxArray.dim, hkey]; rfl
  have hD' : key.dim 2 = D := by rw [MlxArray.dim, hkey]; rfl
  have hks : (reshapeAndCache key value keyCache).keyStride = int32 (key.stride 0) := by
    simp only [reshapeAndCache]
  have hvs : (reshapeAndCache key value keyCache).valueStride = int32 (value.stride 0) := by
    simp only [reshapeAndCache]
  simp only [ReshapeLoads, loads_iff hkey hdims hn hsum, hsize, hH, hD', store, hks, hvs]
  constructor
  · intro hall
    refine ⟨fun gid hgid i hi => ?_, fun gid hgid i hi => ?_⟩
    · obtain ⟨h, -, d, -, hrow, hoffset, hk, -⟩ := hall gid i ⟨hgid, i, hi, rfl⟩
      rw [← Int.ofNat_tdiv, Int.ofNat_inj] at hrow
      rw [← Int.ofNat_tmod, Int.ofNat_inj] at hoffset
      rw [hrow, hoffset, ← hk, int32_natCast (hgid.1.trans hT)]
    · obtain ⟨h, -, d, -, hrow, hoffset, -, hv⟩ := hall gid i ⟨hgid, i, hi, rfl⟩
      rw [← Int.ofNat_tdiv, Int.ofNat_inj] at hrow
      rw [← Int.ofNat_tmod, Int.ofNat_inj] at hoffset
      rw [hrow, hoffset, ← hv, int32_natCast (hgid.1.trans hT)]
  · rintro ⟨hk, hv⟩ gid _ ⟨hgid, i, hi, rfl⟩
    refine ⟨i / D, Nat.div_lt_of_lt_mul (by rw [Nat.mul_comm]; exact hi.trans_le hle), i % D, Nat.mod_lt i hD,
      (Int.ofNat_tdiv i D).symm, (Int.ofNat_tmod i D).symm, ?_, ?_⟩
    · rw [int32_natCast (hgid.1.trans hT), hk gid hgid i hi]
    · rw [int32_natCast (hgid.1.trans hT), hv gid hgid i hi]

include hvalue

/-- The loads of `reshape_and_cache` are the elements they stand for exactly if there are
    none, or the counters do not overflow and both arrays have rows that the kernel finds. -/
theorem reshapeLoads_iff :
    ReshapeLoads key value keyCache slotMapping ↔ (∀ gid < T, slotMapping.data gid < 0) ∨ int32 (H * D) ≤ 0 ∨
      ∃ n : Nat, int32 (H * D) = n ∧ n + min 512 n ≤ 2 ^ 31 ∧ RowsLoadable key n D (Written T slotMapping) ∧
        RowsLoadable value n D (Written T slotMapping) := by
  obtain ⟨htokens, hsize, hpn, hthreads⟩ := view_params value keyCache hkey hdims
  have hT : T < 2 ^ 31 := hdims T (by rw [hkey]; exact List.mem_cons_self)
  by_cases hneg : ∀ gid < T, slotMapping.data gid < 0
  · refine iff_of_true (fun gid i hload => ?_) (Or.inl hneg)
    obtain ⟨hgid, hslot, -⟩ := hload
    rw [htokens] at hgid
    rw [int32_natCast (hgid.trans hT)] at hslot
    exact absurd (hneg gid hgid) (Int.not_lt.mpr hslot)
  by_cases hnone : int32 (H * D) ≤ 0
  · refine iff_of_true (fun gid i hload => ?_) (Or.inr (Or.inl hnone))
    obtain ⟨-, -, tid, htid, k, -, hall⟩ := hload
    have hfirst := hall 0 (Nat.zero_le k)
    rw [hthreads] at htid
    rw [hpn, counter, int32_natCast (htid.trans (threadgroupSize_lt _))] at hfirst
    omega
  obtain ⟨n, hn⟩ : ∃ n : Nat, int32 (H * D) = n := Int.eq_ofNat_of_zero_le (by omega)
  have hnpos : 0 < n := by omega
  have hle : n ≤ H * D := by
    have hcut := int32_natCast_le (H * D)
    rw [Nat.cast_mul, hn, ← Nat.cast_mul] at hcut
    exact Int.ofNat_le.mp hcut
  have hD : 0 < D := Nat.pos_of_mul_pos_left (hnpos.trans_le hle)
  have hsome : ∃ gid, Written T slotMapping gid := by
    simp only [not_forall, Int.not_lt] at hneg
    obtain ⟨gid, hgid, hslot⟩ := hneg
    exact ⟨gid, hgid, hslot⟩
  rcases Nat.lt_or_ge (2 ^ 31) (n + min 512 n) with hsum | hsum
  · obtain ⟨gid, hgid⟩ := hsome
    refine iff_of_false (not_reshapeLoads_of_overflow hkey hdims hn hsum hgid) ?_
    rintro (hneg' | hnone' | ⟨n', hn', hsum', -⟩)
    · exact hneg hneg'
    · exact hnone hnone'
    · obtain rfl : n = n' := Int.ofNat_inj.mp (hn.symm.trans hn')
      exact absurd hsum (Nat.not_lt.mpr hsum')
  · have hkrows := rowsLoadable_iff (a := key) (n := n) (by rw [hkey]; rfl) hD hsome
    have hvrows := rowsLoadable_iff (a := value) (n := n) (by rw [hvalue]; rfl) hD hsome
    have hor : ((∀ gid < T, slotMapping.data gid < 0) ∨ int32 (H * D) ≤ 0 ∨
        ∃ n : Nat, int32 (H * D) = n ∧ n + min 512 n ≤ 2 ^ 31 ∧ RowsLoadable key n D (Written T slotMapping) ∧
          RowsLoadable value n D (Written T slotMapping)) ↔
        RowsLoadable key n D (Written T slotMapping) ∧ RowsLoadable value n D (Written T slotMapping) := by
      constructor
      · rintro (hneg' | hnone' | ⟨n', hn', -, hrows⟩)
        · exact absurd hneg' hneg
        · exact absurd hnone' hnone
        · obtain rfl : n = n' := Int.ofNat_inj.mp (hn.symm.trans hn')
          exact hrows
      · intro hrows
        exact Or.inr (Or.inr ⟨n, hn, hsum, hrows⟩)
    rw [hor, ← hkrows, ← hvrows]
    exact reshapeLoads_rows hkey hdims hn hsum hD hle

end ReshapeAndCache

/-! ## Attention -/

section
variable {F Q C I : Type}

/-- What `paged_attention` loads for query, keys and values are the elements it means, for
    all lengths, and all block tables that name blocks of the cache. -/
def AttentionLoads (p : PagedAttention F) (query : MlxArray Q) (keyCache valueCache : MlxArray C) : Prop :=
  ∀ (contextLens : Nat → Nat) (blockTables : Nat → Nat → Nat),
    (∀ s < p.numSeqs, contextLens s ≤ p.maxSeqLen → ∀ j, j * p.blockSize < contextLens s →
      blockTables s j < keyCache.dim 0) →
    ∀ s < p.numSeqs, ∀ head < p.numHeads, 0 < contextLens s → contextLens s ≤ p.maxSeqLen → ∀ d < p.headSize,
      p.qIndex s head d = place query.strides [s, head, d] ∧
      ∀ token < contextLens s,
        let block := blockTables s (token / p.blockSize)
        let kvHead := head / (p.numHeads / p.numKvHeads)
        let t := token % p.blockSize
        p.kIndex block kvHead t d =
            place keyCache.strides [block, kvHead, d / keyCache.dim 4, t, d % keyCache.dim 4] ∧
          p.vIndex block kvHead t d = place valueCache.strides [block, kvHead, d, t]

/-- The strides are what the kernel takes them for, on every axis it uses. -/
structure AttentionStrides (p : PagedAttention F) (query : MlxArray Q) (keyCache valueCache : MlxArray C) :
    Prop where
  query : SameStrides query.shape [int32 (query.stride 0), p.headSize, 1] query.strides
  pack : keyCache.dim 4 = p.x
  key : SameStrides [keyCache.dim 0, p.numKvHeads, p.headSize / p.x, min p.blockSize p.maxSeqLen, p.x]
    [int32 (keyCache.stride 0), int32 (keyCache.stride 1), p.blockSize * p.x, p.x, 1] keyCache.strides
  value : SameStrides [keyCache.dim 0, p.numKvHeads, p.headSize, min p.blockSize p.maxSeqLen]
    [int32 (keyCache.stride 0), int32 (keyCache.stride 1), p.blockSize, 1] valueCache.strides

variable {p : PagedAttention F} {query : MlxArray Q} {keyCache valueCache : MlxArray C}

theorem attentionLoads_iff (hS : 0 < p.numSeqs) (hH : 0 < p.numHeads) (hB : 0 < keyCache.dim 0)
    (hBS : 0 < p.blockSize) (hkv : 0 < p.numKvHeads ∧ p.numKvHeads ∣ p.numHeads) (hlen : 0 < p.maxSeqLen) :
    AttentionLoads p query keyCache valueCache ↔
      (∀ s < p.numSeqs, ∀ head < p.numHeads, ∀ d < p.headSize,
        p.qIndex s head d = place query.strides [s, head, d]) ∧
      ∀ b < keyCache.dim 0, ∀ h < p.numKvHeads, ∀ t < min p.blockSize p.maxSeqLen, ∀ d < p.headSize,
        p.kIndex b h t d = place keyCache.strides [b, h, d / keyCache.dim 4, t, d % keyCache.dim 4] ∧
          p.vIndex b h t d = place valueCache.strides [b, h, d, t] := by
  have hgroup : 0 < p.numHeads / p.numKvHeads := Nat.div_pos (Nat.le_of_dvd hH hkv.2) hkv.1
  have hheads : p.numKvHeads * (p.numHeads / p.numKvHeads) = p.numHeads := Nat.mul_div_cancel' hkv.2
  constructor
  · intro hall
    constructor
    · intro s hs head hhead d hd
      exact (hall (fun _ => 1) (fun _ _ => 0) (fun _ _ _ _ _ => hB) s hs head hhead Nat.one_pos hlen d hd).1
    · intro b hb h hh t ht d hd
      obtain ⟨htb, htl⟩ := Nat.lt_min.mp ht
      have hload := (hall (fun _ => t + 1) (fun _ _ => b)
        (fun _ _ _ _ _ => hb) 0 hS (h * (p.numHeads / p.numKvHeads))
        ((Nat.mul_lt_mul_of_pos_right hh hgroup).trans_eq hheads) (Nat.succ_pos t) htl d hd).2 t
          (Nat.lt_succ_self t)
      simpa only [Nat.mul_div_cancel _ hgroup, Nat.mod_eq_of_lt htb] using hload
  · rintro ⟨hq, hkvs⟩ contextLens blockTables hvalid s hs head hhead _ hctx d hd
    refine ⟨hq s hs head hhead d hd, fun token htoken => hkvs _ ?_ _ ?_ _ ?_ d hd⟩
    · exact hvalid s hs hctx _ ((Nat.div_mul_le_self token _).trans_lt htoken)
    · exact Nat.div_lt_of_lt_mul (by rw [Nat.mul_comm, hheads]; exact hhead)
    · exact Nat.lt_min.mpr ⟨Nat.mod_lt _ hBS, (Nat.mod_le token _).trans_lt (htoken.trans_le hctx)⟩

theorem qIndex_place (s head d : Nat) : p.qIndex s head d = place [p.qStride, p.headSize, 1] [s, head, d] := by
  simp only [PagedAttention.qIndex, place]
  ring

theorem kIndex_place (b h t d : Nat) : p.kIndex b h t d =
    place [p.kvBlockStride, p.kvHeadStride, p.blockSize * p.x, p.x, 1] [b, h, d / p.x, t, d % p.x] := by
  simp only [PagedAttention.kIndex, place]
  ring

theorem vIndex_place (b h t d : Nat) :
    p.vIndex b h t d = place [p.kvBlockStride, p.kvHeadStride, p.blockSize, 1] [b, h, d, t] := by
  simp only [PagedAttention.vIndex, place]
  ring

theorem packs_alike {s2 s4 : Int} {D BS x X : Nat} (hx : 0 < x) (hX : 1 < X) (hBS : 1 < BS) (hXD : X < D)
    (h : ∀ d < D, ((d / X * BS * X + d % X : Nat) : Int) = s2 * (d / x : Nat) + s4 * (d % x : Nat)) : x = X := by
  have hone : 1 < x → s4 = 1 := fun h1 => by
    have hd := h 1 (by omega)
    rw [Nat.div_eq_of_lt hX, Nat.mod_eq_of_lt hX, Nat.div_eq_of_lt h1, Nat.mod_eq_of_lt h1] at hd
    simpa using hd.symm
  have hpackX := h X hXD
  rw [Nat.div_self (by omega), Nat.mod_self] at hpackX
  rcases Nat.lt_trichotomy x X with hlt | heq | hgt
  · -- within one pack of `X` the places are the dimensions themselves
    have hs2 : s2 = x := by
      have hd := h x (hlt.trans hXD)
      rw [Nat.div_eq_of_lt hlt, Nat.mod_eq_of_lt hlt, Nat.div_self hx, Nat.mod_self] at hd
      simpa using hd.symm
    have hs4 : s4 * (X % x : Nat) = (X % x : Nat) := by
      rcases Nat.lt_or_ge 1 x with h1 | h1
      · rw [hone h1, one_mul]
      · obtain rfl : x = 1 := by omega
        rw [Nat.mod_one, Nat.cast_zero, mul_zero]
    rw [hs2, hs4, ← Nat.cast_mul, ← Nat.cast_add, Nat.div_add_mod, Int.ofNat_inj] at hpackX
    nlinarith
  · exact heq
  · rw [hone (by omega), Nat.div_eq_of_lt hgt, Nat.mod_eq_of_lt hgt] at hpackX
    have hpack : ((BS * X : Nat) : Int) = X := by
      simpa using hpackX
    have := Int.ofNat_inj.mp hpack
    nlinarith

variable [One F] {maxSmem : Nat} {blockTables contextLens : MlxArray I} {alibiSlopes : Option (MlxArray F)}

section
variable (ha : Accepted maxSmem query keyCache valueCache blockTables contextLens alibiSlopes p)
include ha

theorem Accepted.sizes : 32 ≤ p.headSize ∧ 8 ≤ p.blockSize ∧ (p.x = 4 ∨ p.x = 8) := by
  have hhead := ha.headSize
  have hblock := ha.blockSize
  have hbytes := ha.cacheBytes
  simp only [List.mem_cons, List.not_mem_nil, or_false] at hhead hblock hbytes
  refine ⟨by omega, by omega, ?_⟩
  rcases hbytes with h | h
  · exact Or.inr (by rw [PagedAttention.x, h])
  · exact Or.inl (by rw [PagedAttention.x, h])

theorem Accepted.query_iff (hS : 0 < p.numSeqs) (hH : 0 < p.numHeads) :
    (∀ s < p.numSeqs, ∀ head < p.numHeads, ∀ d < p.headSize, p.qIndex s head d = place query.strides
      [s, head, d]) ↔ SameStrides query.shape [int32 (query.stride 0), p.headSize, 1] query.strides := by
  have hpos : ∀ m ∈ query.shape, 0 < m := by
    have hhead := ha.sizes.1
    rw [ha.queryShape]
    simp only [List.mem_cons, List.not_mem_nil, or_false]
    omega
  rw [← place_eq_iff (by rw [ha.queryShape]; rfl) query.aligned hpos, ha.queryShape]
  simp only [forall_index_cons, forall_index_nil, qIndex_place, ha.qStride]

variable (hB : 0 < keyCache.dim 0)
include hB

theorem Accepted.value_iff :
    (∀ b < keyCache.dim 0, ∀ h < p.numKvHeads, ∀ t < min p.blockSize p.maxSeqLen, ∀ d < p.headSize,
        p.vIndex b h t d = place valueCache.strides [b, h, d, t]) ↔
      SameStrides [keyCache.dim 0, p.numKvHeads, p.headSize, min p.blockSize p.maxSeqLen]
        [int32 (keyCache.stride 0), int32 (keyCache.stride 1), p.blockSize, 1] valueCache.strides := by
  obtain ⟨hhead, hblock, -⟩ := ha.sizes
  have hpos : ∀ m ∈ [keyCache.dim 0, p.numKvHeads, p.headSize, min p.blockSize p.maxSeqLen], 0 < m := by
    have := ha.kvHeads.1
    have := ha.maxSeqLen.1
    simp only [List.mem_cons, List.not_mem_nil, or_false]
    omega
  rw [← place_eq_iff rfl (by rw [valueCache.aligned, ha.valueCacheShape]; rfl) hpos]
  simp only [forall_index_cons, forall_index_nil, vIndex_place, ha.kvBlockStride, ha.kvHeadStride]
  exact ⟨fun hall b hb h hh d hd t ht => hall b hb h hh t ht d hd, fun hall b hb h hh t ht d hd =>
    hall b hb h hh d hd t ht⟩

theorem Accepted.key_iff (hdoc : keyCache.dim 2 * keyCache.dim 4 = p.headSize) (hpack : keyCache.dim 4 = p.x) :
    (∀ b < keyCache.dim 0, ∀ h < p.numKvHeads, ∀ t < min p.blockSize p.maxSeqLen, ∀ d < p.headSize,
        p.kIndex b h t d = place keyCache.strides [b, h, d / keyCache.dim 4, t, d % keyCache.dim 4]) ↔
      SameStrides [keyCache.dim 0, p.numKvHeads, p.headSize / p.x, min p.blockSize p.maxSeqLen, p.x]
        [int32 (keyCache.stride 0), int32 (keyCache.stride 1), p.blockSize * p.x, p.x, 1] keyCache.strides := by
  obtain ⟨hhead, hblock, hx⟩ := ha.sizes
  have hdvd : p.x ∣ p.headSize := ⟨keyCache.dim 2, by rw [← hpack, Nat.mul_comm, hdoc]⟩
  have hxpos : 0 < p.x := by omega
  have hpacks : 0 < p.headSize / p.x := Nat.div_pos (by omega) hxpos
  have hpos : ∀ m ∈ [keyCache.dim 0, p.numKvHeads, p.headSize / p.x, min p.blockSize p.maxSeqLen, p.x],
      0 < m := by
    have := ha.kvHeads.1
    have := ha.maxSeqLen.1
    simp only [List.mem_cons, List.not_mem_nil, or_false]
    omega
  rw [← place_eq_iff rfl (by rw [keyCache.aligned, ha.keyCacheShape]; rfl) hpos, hpack]
  simp only [forall_index_cons, forall_index_nil, kIndex_place, ha.kvBlockStride, ha.kvHeadStride]
  have hdigits : ∀ b h t : Nat, (∀ d < p.headSize,
      place [int32 (keyCache.stride 0), int32 (keyCache.stride 1), p.blockSize * p.x, p.x, 1]
        [b, h, d / p.x, t, d % p.x] =
        place keyCache.strides [b, h, d / p.x, t, d % p.x]) ↔ ∀ j < p.headSize / p.x, ∀ r < p.x,
      place [int32 (keyCache.stride 0), int32 (keyCache.stride 1), p.blockSize * p.x, p.x, 1] [b, h, j, t, r] =
        place keyCache.strides [b, h, j, t, r] := fun b h t =>
    forall_digits hxpos hdvd (P := fun j r =>
      place [int32 (keyCache.stride 0), int32 (keyCache.stride 1), p.blockSize * p.x, p.x, 1] [b, h, j, t, r] =
        place keyCache.strides [b, h, j, t, r])
  simp only [hdigits]
  exact ⟨fun hall b hb h hh j hj t ht r hr => hall b hb h hh t ht j hj r hr,
    fun hall b hb h hh t ht j hj r hr => hall b hb h hh j hj t ht r hr⟩

theorem Accepted.pack_eq (hdoc : keyCache.dim 2 * keyCache.dim 4 = p.headSize)
    (hall : ∀ b < keyCache.dim 0, ∀ h < p.numKvHeads, ∀ t < min p.blockSize p.maxSeqLen, ∀ d < p.headSize,
      p.kIndex b h t d = place keyCache.strides [b, h, d / keyCache.dim 4, t, d % keyCache.dim 4]) :
    keyCache.dim 4 = p.x := by
  obtain ⟨hhead, hblock, hx⟩ := ha.sizes
  have hlen := keyCache.aligned
  rw [ha.keyCacheShape] at hlen
  obtain ⟨s0, rest, heq⟩ := List.exists_cons_of_length_eq_add_one hlen
  rw [heq] at hlen
  obtain ⟨s1, rest, rfl⟩ := List.exists_cons_of_length_eq_add_one (Nat.succ.inj hlen)
  obtain ⟨s2, rest, rfl⟩ := List.exists_cons_of_length_eq_add_one (Nat.succ.inj (Nat.succ.inj hlen))
  obtain ⟨s3, rest, rfl⟩ := List.exists_cons_of_length_eq_add_one
    (Nat.succ.inj (Nat.succ.inj (Nat.succ.inj hlen)))
  obtain ⟨s4, rest, rfl⟩ := List.exists_cons_of_length_eq_add_one
    (Nat.succ.inj (Nat.succ.inj (Nat.succ.inj (Nat.succ.inj hlen))))
  have hxpos : 0 < keyCache.dim 4 := Nat.pos_of_ne_zero fun h0 => by
    rw [h0, Nat.mul_zero] at hdoc
    omega
  have ht : 0 < min p.blockSize p.maxSeqLen := by
    have := ha.maxSeqLen.1
    omega
  have hX : 1 < p.x ∧ p.x < p.headSize := by omega
  refine packs_alike hxpos hX.1 (by omega : 1 < p.blockSize) hX.2 (fun d hd => ?_ : ∀ d < p.headSize,
    _ = s2 * _ + s4 * _)
  have hload := hall 0 hB 0 ha.kvHeads.1 0 ht d hd
  rw [heq, kIndex_place] at hload
  simp only [place] at hload
  push_cast at hload ⊢
  linarith

theorem Accepted.attentionLoads_strides (hS : 0 < p.numSeqs) (hH : 0 < p.numHeads)
    (hdoc : keyCache.dim 2 * keyCache.dim 4 = p.headSize) :
    AttentionLoads p query keyCache valueCache ↔ AttentionStrides p query keyCache valueCache := by
  rw [attentionLoads_iff hS hH hB (by have := ha.sizes; omega) ha.kvHeads ha.maxSeqLen.1, ha.query_iff hS hH]
  constructor
  · rintro ⟨hq, hkv⟩
    have hkeys := fun b hb h hh t ht d hd => (hkv b hb h hh t ht d hd).1
    have hpack := ha.pack_eq hB hdoc hkeys
    exact ⟨hq, hpack, (ha.key_iff hB hdoc hpack).mp hkeys,
      (ha.value_iff hB).mp fun b hb h hh t ht d hd => (hkv b hb h hh t ht d hd).2⟩
  · rintro ⟨hq, hpack, hk, hv⟩
    exact ⟨hq, fun b hb h hh t ht d hd => ⟨(ha.key_iff hB hdoc hpack).mpr hk b hb h hh t ht d hd,
      (ha.value_iff hB).mpr hv b hb h hh t ht d hd⟩⟩

end

/-- The loads of `paged_attention` are the elements they stand for exactly if it loads none, or
    all strides it uses are those of contiguous arrays with one layout. -/
theorem attentionLoads_strides
    (ha : Accepted maxSmem query keyCache valueCache blockTables contextLens alibiSlopes p)
    (hdoc : keyCache.dim 2 * keyCache.dim 4 = p.headSize) :
    AttentionLoads p query keyCache valueCache ↔
      p.numSeqs = 0 ∨ p.numHeads = 0 ∨ keyCache.dim 0 = 0 ∨ AttentionStrides p query keyCache valueCache := by
  rcases Nat.eq_zero_or_pos p.numSeqs with hS | hS
  · refine iff_of_true (fun _ _ _ s hs => ?_) (Or.inl hS)
    rw [hS] at hs
    exact absurd hs (Nat.not_lt_zero s)
  rcases Nat.eq_zero_or_pos p.numHeads with hH | hH
  · refine iff_of_true (fun _ _ _ s _ head hhead => ?_) (Or.inr (Or.inl hH))
    rw [hH] at hhead
    exact absurd hhead (Nat.not_lt_zero head)
  rcases Nat.eq_zero_or_pos (keyCache.dim 0) with hB | hB
  · refine iff_of_true (fun contextLens _ hvalid s hs head _ hpos hctx => ?_) (Or.inr (Or.inr (Or.inl hB)))
    have hblock := hvalid s hs hctx 0 (by rw [Nat.zero_mul]; exact hpos)
    rw [hB] at hblock
    exact absurd hblock (Nat.not_lt_zero _)
  rw [ha.attentionLoads_strides hB hS hH hdoc]
  constructor
  · exact fun hstrides => Or.inr (Or.inr (Or.inr hstrides))
  · rintro (h | h | h | hstrides)
    · exact absurd h (Nat.ne_of_gt hS)
    · exact absurd h (Nat.ne_of_gt hH)
    · exact absurd h (Nat.ne_of_gt hB)
    · exact hstrides

end

/-- What both kernels load is what they mean exactly under these conditions on shapes,
    strides and slots. -/
theorem strided_loads_iff {F Q K C C' I : Type} [One F] {T H D : Nat} {key value : MlxArray K}
    {cache : MlxArray C'}
    {slotMapping : MlxArray Int} (hkey : key.shape = [T, H, D]) (hvalue : value.shape = [T, H, D])
    (hdims : ∀ m ∈ key.shape, m < 2 ^ 31) {maxSmem : Nat} {dtype cacheDtype : Dtype} {query : MlxArray Q}
    {keyCache valueCache : MlxArray C} {blockTables contextLens : MlxArray I} {numKvHeads : Int} {scale : F}
    {blockSize maxSeqLen : Int} {alibiSlopes : Option (MlxArray F)} {p : PagedAttention F}
    (h : pagedAttentionV1 maxSmem dtype cacheDtype query keyCache valueCache blockTables contextLens
      numKvHeads scale blockSize maxSeqLen alibiSlopes = .ok p)
    (hdoc : keyCache.dim 2 * keyCache.dim 4 = query.dim 2) :
    (ReshapeLoads key value cache slotMapping ↔ (∀ gid < T, slotMapping.data gid < 0) ∨ int32 (H * D) ≤ 0 ∨
      ∃ n : Nat, int32 (H * D) = n ∧ n + min 512 n ≤ 2 ^ 31 ∧
        RowsLoadable key n D (ReshapeAndCache.Written T slotMapping) ∧
        RowsLoadable value n D (ReshapeAndCache.Written T slotMapping)) ∧
    (AttentionLoads p query keyCache valueCache ↔
      p.numSeqs = 0 ∨ p.numHeads = 0 ∨ keyCache.dim 0 = 0 ∨ AttentionStrides p query keyCache valueCache) := by
  obtain ⟨ha, -⟩ := accepted_of_ok h
  have hhead : query.dim 2 = p.headSize := by rw [MlxArray.dim, ha.queryShape]; rfl
  exact ⟨ReshapeAndCache.reshapeLoads_iff hkey hvalue hdims, attentionLoads_strides ha (hdoc.trans hhead)⟩

theorem strided_loads_iff_contiguous :
    let key := MlxArray.ofData [1, 1, 2] fun i => i
    let slotMapping := MlxArray.ofData [1] fun _ => (0 : Int)
    ReshapeLoads key key (smallKeyCache 4 8) slotMapping ∧
      ∃ p, smallCall 4 8 = .ok p ∧
        AttentionLoads p (MlxArray.ofData [1, 1, 32] fun _ => (0 : Int)) (smallKeyCache 4 8) smallValueCache := by
  intro key slotMapping
  have hcall : smallCall 4 8 = .ok ⟨1, 1, 32, 8, 4, 1, 1, 1, 1, false, 32, 256, 256, 8, 1568⟩ := by decide +kernel
  have hboth : (ReshapeLoads key key (smallKeyCache 4 8) slotMapping ↔ _) ∧ (AttentionLoads _ _ _ _ ↔ _) :=
    strided_loads_iff (T := 1) (H := 1) (D := 2) rfl rfl (by decide) hcall rfl
  obtain ⟨hwriter, hreader⟩ := hboth
  have hrows : RowsLoadable key 2 2 (ReshapeAndCache.Written 1 slotMapping) := by
    refine ⟨fun _ => Int.ModEq.refl 1, fun h => absurd h (Nat.lt_irrefl 2), fun gid hgid i hi => ?_⟩
    obtain rfl : gid = 0 := Nat.lt_one_iff.mp hgid.1
    obtain rfl | rfl : i = 0 ∨ i = 1 := by omega
    · decide
    · decide
  refine ⟨hwriter.mpr (Or.inr (Or.inr ⟨2, by decide, by norm_num, hrows, hrows⟩)), _, hcall, hreader.mpr ?_⟩
  exact Or.inr (Or.inr (Or.inr ⟨by decide, rfl, by decide, by decide⟩))

/-- Keys of two heads and two tokens, seen with the tokens first. -/
def transposedKeys : MlxArray Int where
  shape := [2, 2, 2]
  strides := [2, 4, 1]
  aligned := rfl
  data := id

/-- Head 1 of token 0 is read from the place of token 1. -/
theorem transposed_keys_misread :
    let keyCache := MlxArray.ofData [1, 2, 1, 8, 2] fun _ => (0 : Int)
    let valueCache := MlxArray.ofData [1, 2, 2, 8] fun _ => (0 : Int)
    let slotMapping := MlxArray.ofData [2] id
    ReshapeShapes 2 2 2 1 8 2 transposedKeys transposedKeys keyCache valueCache slotMapping ∧
      ¬ReshapeLoads transposedKeys transposedKeys keyCache slotMapping := by
  intro keyCache valueCache slotMapping
  refine ⟨⟨rfl, rfl, rfl, rfl, rfl, by decide⟩, fun hall => ?_⟩
  have hload : (reshapeAndCache transposedKeys transposedKeys keyCache).Loads slotMapping 0 2 := by
    refine ⟨by decide, by decide, 2, by decide, 0, by decide, fun j hj => ?_⟩
    obtain rfl := Nat.le_zero.mp hj
    decide
  obtain ⟨h, -, d, -, hrow, hoffset, hk, -⟩ := hall 0 2 hload
  obtain rfl : h = 1 := by
    rw [← Int.ofNat_inj, ← hrow]
    decide
  obtain rfl : d = 0 := by
    rw [← Int.ofNat_inj, ← hoffset]
    decide
  revert hk
  decide

end SglangMlx
