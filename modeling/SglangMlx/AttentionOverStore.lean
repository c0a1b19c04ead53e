import SglangMlx.AttentionAccuracy
import SglangMlx.PagedStore

/- Attention over what the calls have written. The arrays of a call with row-contiguous
   caches lie where the kernel addresses them (`ContiguousCall.addressed`), so `paged_attention`
   attends to the rows of the slots that its block table names. -/
namespace SglangMlx

open Layout MachineInt SlotStore Threadgroup

section
variable {F : Type} [Field F] (scale slope : F) (q : Nat → F) (headSize kvHead n : Nat) (rows : Nat → TokenRow F)

/-- `scale * (q . K_t) + slope * (t - context_len + 1)`. -/
def rowLogit (t : Nat) : F :=
  scale * ∑ d ∈ Finset.range headSize, q d * (rows t).1 kvHead d + slope * ((t : F) - n + 1)

/-- Softmax attention over `n` rows, with `ε` added to the sum of the weights. -/
def rowAttention [LinearOrder F] (exp : F → F) (hpos : 0 < n) (ε : F) (d : Nat) : F :=
  Softmax.mean exp (Finset.range n) (Softmax.range_nonempty hpos)
    (rowLogit scale slope q headSize kvHead n rows) (fun t => (rows t).2 kvHead d) ε

end

/-- A call of `paged_attention` on row-contiguous arrays, for caches with the packing of the
    kernel and a table that names blocks of them. -/
structure ContiguousCall {F : Type} (g : BlockShape) (numBlocks : Nat) (a : AttentionArrays F)
    (p : PagedAttention F) (s head : Nat) : Prop where
  caches : PagedCaches.Fits g numBlocks ⟨a.keyCache, a.valueCache⟩
  pack : g.x = p.x
  query : a.query.RowContiguous ∧ a.query.size < 2 ^ 31
  blockTables : a.blockTables.RowContiguous ∧ a.blockTables.dim 1 < 2 ^ 31
  contextLens : a.contextLens.RowContiguous
  alibiSlopes : ∀ slopes ∈ a.alibiSlopes, slopes.RowContiguous
  seq : s < p.numSeqs
  head : head < p.numHeads
  context : 0 < a.contextLens.get [s] ∧ a.contextLens.get [s] ≤ p.maxSeqLen
  blocks : ∀ j, j * p.blockSize < a.contextLens.get [s] → a.blockTables.get [s, j] < numBlocks

/-- The block table of a sequence. -/
def AttentionArrays.table {F : Type} (a : AttentionArrays F) (s j : Nat) : Nat := a.blockTables.get [s, j]

/-- A head of the query. -/
def AttentionArrays.queryHead {F : Type} (a : AttentionArrays F) (s head d : Nat) : F := a.query.get [s, head, d]

namespace ContiguousCall
variable {F : Type} [Field F] {g : BlockShape} {numBlocks : Nat} {a : AttentionArrays F} {p : PagedAttention F}
  {s head maxSmem : Nat}
  (ha : Accepted maxSmem a.query a.keyCache a.valueCache a.blockTables a.contextLens a.alibiSlopes p)
  (h : ContiguousCall g numBlocks a p s head)
include ha h

theorem shape_eq : g.numHeads = p.numKvHeads ∧ g.headSize = p.headSize ∧ g.blockSize = p.blockSize ∧
    a.keyCache.dim 4 = g.x := by
  have hvalue := ha.valueCacheShape.symm.trans h.caches.valueShape
  have hkey := h.caches.keyShape
  simp only [BlockShape.valueBlock, List.cons.injEq, and_true] at hvalue
  refine ⟨hvalue.2.1.symm, hvalue.2.2.1.symm, hvalue.2.2.2.symm, ?_⟩
  have hkey : a.keyCache.shape = numBlocks :: g.keyBlock := hkey
  rw [MlxArray.dim, hkey]
  rfl

theorem geometry : CacheGeometry p numBlocks g.x a.keyCache a.valueCache := by
  obtain ⟨hheads, hhead, hblock, -⟩ := h.shape_eq ha
  have hhead32 : 32 ≤ p.headSize := by
    have := ha.headSize
    simp only [List.mem_cons, List.not_mem_nil, or_false] at this
    omega
  have hblock8 : 8 ≤ p.blockSize := by
    have := ha.blockSize
    simp only [List.mem_cons, List.not_mem_nil, or_false] at this
    omega
  have hkey : a.keyCache.shape = numBlocks :: g.keyBlock := h.caches.keyShape
  have hvalue : a.valueCache.shape = numBlocks :: g.valueBlock := h.caches.valueShape
  have hsmall := h.caches.small
  rw [BlockShape.numel] at hsmall
  rw [BlockShape.keyBlock, hheads, hhead, hblock] at hkey
  rw [BlockShape.valueBlock, hheads, hhead, hblock] at hvalue
  rw [hheads, hhead, hblock] at hsmall
  exact ⟨hkey, hvalue, hhead ▸ g.divides, h.caches.blocks, ha.kvHeads.1, hhead32, hblock8, g.pack, hsmall⟩

theorem kvHead_lt : AttentionArrays.kvHead p head < p.numKvHeads := by
  have hheads : p.numKvHeads * (p.numHeads / p.numKvHeads) = p.numHeads := Nat.mul_div_cancel' ha.kvHeads.2
  exact Nat.div_lt_of_lt_mul (by rw [Nat.mul_comm, hheads]; exact h.head)

theorem block_lt {t : Nat} (ht : t < a.contextLen s) :
    t / p.blockSize < a.blockTables.dim 1 ∧ a.block p s t < numBlocks := by
  have hblock : 0 < p.blockSize := Nat.zero_lt_of_lt ha.sizes.2.1
  obtain ⟨hpos, hmax⟩ := ha.maxSeqLen
  rw [← Nat.cast_mul] at hmax
  have hcapacity : p.maxSeqLen ≤ a.blockTables.dim 1 * p.blockSize :=
    Int.ofNat_le.mp (hmax.trans (int32_natCast_le _))
  have hstart : t / p.blockSize * p.blockSize < a.contextLen s := (Nat.div_mul_le_self t _).trans_lt ht
  refine ⟨?_, h.blocks _ hstart⟩
  exact Nat.lt_of_mul_lt_mul_right (hstart.trans_le (h.context.2.trans hcapacity))

theorem addressed : a.Addressed p s head := by
  have g' := h.geometry ha
  have hkvHead := h.kvHead_lt ha
  have hblock : 0 < p.blockSize := Nat.zero_lt_of_lt ha.sizes.2.1
  obtain ⟨-, -, -, hx⟩ := h.shape_eq ha
  have hkc : a.keyCache.RowContiguous := h.caches.keyContiguous
  have hvc : a.valueCache.RowContiguous := h.caches.valueContiguous
  have hkeyShape := g'.keyShape
  have hvalueShape := g'.valueShape
  refine ⟨?_, fun t ht => ?_, fun d hd => ?_, fun t ht d hd => ?_, fun t ht d hd => ?_, fun slopes hmem => ?_⟩
  · have hmem : List.Forall₂ (· < ·) [s] a.contextLens.shape := ha.contextLensShape ▸ .cons h.seq .nil
    rw [AttentionArrays.LensAddressed, h.contextLens _ hmem, ha.contextLensShape]
    simp [flat]
  · have hj := (h.block_lt ha ht).1
    have hmem : List.Forall₂ (· < ·) [s, t / p.blockSize] a.blockTables.shape :=
      ha.blockTablesShape ▸ .cons h.seq (.cons hj .nil)
    rw [ha.maxNumBlocksPerSeq, int32_natCast h.blockTables.2, h.blockTables.1 _ hmem, ha.blockTablesShape]
    simp [flat]
  · have hmem : List.Forall₂ (· < ·) [s, head, d] a.query.shape :=
      ha.queryShape ▸ .cons h.seq (.cons h.head (.cons hd .nil))
    have hrow : (s : Int) * int32 (a.query.stride 0) = (s * (p.numHeads * p.headSize) : Nat) := by
      have hpos : 0 < p.numHeads * p.headSize := Nat.mul_pos (Nat.zero_lt_of_lt h.head) (Nat.zero_lt_of_lt hd)
      have hsize := h.query.2
      rw [MlxArray.size, ha.queryShape] at hsize
      simp only [List.prod_cons, List.prod_nil, mul_one] at hsize
      refine stride_term h.seq (fun hone => ?_) (ReshapeAndCache.lt_of_pos_mul (Nat.zero_lt_of_lt h.seq) hsize)
      have hstride := h.query.1.stride_zero ha.queryShape hone fun m hm => by
        simp only [List.mem_cons, List.not_mem_nil, or_false] at hm
        rcases hm with rfl | rfl
        · exact Nat.zero_lt_of_lt h.head
        · exact Nat.zero_lt_of_lt hd
      rw [hstride]
      simp
    rw [PagedAttention.qIndex, ha.qStride, hrow, h.query.1 _ hmem, ha.queryShape]
    simp only [flat, List.prod_cons, List.prod_nil]
    push_cast
    ring
  · have hb := (h.block_lt ha ht).2
    have ht' := Nat.mod_lt t hblock
    have hmem : List.Forall₂ (· < ·) (a.keyIdx p s head t d) a.keyCache.shape := by
      rw [AttentionArrays.keyIdx, hx, hkeyShape]
      exact .cons hb (.cons hkvHead (.cons (Nat.div_lt_of_lt_mul (by rw [Nat.mul_comm, g'.packs]; exact hd))
        (.cons ht' (.cons (Nat.mod_lt d g.pack) .nil))))
    rw [g'.kIndex_flat ha.kvBlockStride ha.kvHeadStride hkc h.pack hb hkvHead, hkc _ hmem,
      AttentionArrays.keyIdx, hx]
  · have hb := (h.block_lt ha ht).2
    have hmem : List.Forall₂ (· < ·) (a.valueIdx p s head t d) a.valueCache.shape := by
      rw [AttentionArrays.valueIdx, hvalueShape]
      exact .cons hb (.cons hkvHead (.cons hd (.cons (Nat.mod_lt t hblock) .nil)))
    rw [g'.vIndex_eq ha.kvBlockStride ha.kvHeadStride hkc hb hkvHead, hvc _ hmem, AttentionArrays.valueIdx]
  · have hmem' : List.Forall₂ (· < ·) [head] slopes.shape := ha.slopesShape slopes hmem ▸ .cons h.head .nil
    rw [h.alibiSlopes slopes hmem _ hmem', ha.slopesShape slopes hmem]
    simp [flat]

section
variable {m : Nat → TokenRow F} (hm : PagedCaches.Holds g numBlocks ⟨a.keyCache, a.valueCache⟩ m)
include hm

theorem row_eq {t d : Nat} (ht : t < a.contextLen s) (hd : d < g.headSize) :
    a.keyCache.get (a.keyIdx p s head t d) =
        (m (slotOf g.blockSize (a.table s) t)).1 (AttentionArrays.kvHead p head) d ∧
      a.valueCache.get (a.valueIdx p s head t d) =
        (m (slotOf g.blockSize (a.table s) t)).2 (AttentionArrays.kvHead p head) d := by
  obtain ⟨hheads, -, hblock, hx⟩ := h.shape_eq ha
  have hrow := hm _ (h.block_lt ha ht).2 (t % g.blockSize) (Nat.mod_lt t g.block) _ (hheads ▸ h.kvHead_lt ha) d hd
  rw [AttentionArrays.keyIdx, AttentionArrays.valueIdx, hx, ← hblock, slotOf]
  rw [AttentionArrays.block, ← hblock] at hrow
  rw [AttentionArrays.block, ← hblock]
  exact hrow

theorem logit_eq (scale : F) {t : Nat} (ht : t < a.contextLen s) : a.logit p scale s head t =
    rowLogit scale (a.slope head) (a.queryHead s head) g.headSize (AttentionArrays.kvHead p head) (a.contextLen s)
      (fun t => m (slotOf g.blockSize (a.table s) t)) t := by
  have hdot : ∀ d ∈ Finset.range g.headSize, a.query.get [s, head, d] * a.keyCache.get (a.keyIdx p s head t d) =
      a.queryHead s head d * (m (slotOf g.blockSize (a.table s) t)).1 (AttentionArrays.kvHead p head) d := by
    intro d hd
    rw [(h.row_eq ha hm ht (Finset.mem_range.mp hd)).1]
    rfl
  rw [AttentionArrays.logit, ← (h.shape_eq ha).2.1, Finset.sum_congr rfl hdot, rowLogit]

end

end ContiguousCall

/-! ## Attention after calls -/

section
variable {F K : Type} [Field F] [LinearOrder F] {g : BlockShape} {numBlocks : Nat} {a : AttentionArrays F}
  {p : PagedAttention F} {s head : Nat} {ops : FloatOps F} {maxSmem : Nat} {dtype cacheDtype : Dtype} {scale : F}
  {numKvHeads blockSize maxSeqLen : Int}
  (hcall : pagedAttentionV1 maxSmem dtype cacheDtype a.query a.keyCache a.valueCache a.blockTables
    a.contextLens numKvHeads scale blockSize maxSeqLen a.alibiSlopes = .ok p)
  (h : ContiguousCall g numBlocks a p s head)
include hcall

/-- The kernel attends to the rows of the slots of the sequence. -/
theorem attention_of_holds {rows : Nat → TokenRow F} {m : Nat → TokenRow F}
    (hm : PagedCaches.Holds g numBlocks ⟨a.keyCache, a.valueCache⟩ m)
    (hrows : ∀ t < a.contextLen s, rows t = m (slotOf g.blockSize (a.table s) t))
    (hlow : ∀ t < a.contextLen s, -ops.fltMax <
      rowLogit scale (a.slope head) (a.queryHead s head) g.headSize (AttentionArrays.kvHead p head)
        (a.contextLen s) rows t)
    {st st' : State (Fin 256) (Regs F) Cell F}
    (hrun : RunsAll warpIdx (p.pagedAttention ops a.buffers s head) st st') {d : Nat} (hd : d < g.headSize) :
    st'.mem (p.outPtr s head d) = rowAttention scale (a.slope head) (a.queryHead s head) g.headSize
      (AttentionArrays.kvHead p head) (a.contextLen s) rows ops.exp h.context.1 (1 / 10 ^ 6) d := by
  obtain ⟨ha, -⟩ := accepted_of_ok hcall
  have hlogit : ∀ t < a.contextLen s, a.logit p scale s head t = rowLogit scale (a.slope head)
    (a.queryHead s head)
      g.headSize (AttentionArrays.kvHead p head) (a.contextLen s) rows t := fun t ht => by
    rw [h.logit_eq ha hm scale ht, rowLogit, rowLogit, hrows t ht]
  rw [AttentionArrays.output_mean hcall (h.addressed ha) h.context.1 h.context.2
    (fun t ht => hlogit t ht ▸ hlow t ht) hrun ((h.shape_eq ha).2.1 ▸ hd)]
  apply Softmax.mean_congr
  · exact fun t ht => hlogit t (Finset.mem_range.mp ht)
  · intro t ht
    have ht := Finset.mem_range.mp ht
    rw [(h.row_eq ha hm ht hd).2, hrows t ht]

variable {toCache : K → F} {storeDtype : Dtype} {c : PagedCaches F} {calls : List (CacheCall K F)}
  (hf : c.Fits g numBlocks) (hv : ∀ call ∈ calls, call.Valid g numBlocks)
  (hcalls : CallRun toCache storeDtype c calls ⟨a.keyCache, a.valueCache⟩)
include hf hv hcalls

/-- After any calls on the caches, whatever the orders of their threads and of the threads
    of `paged_attention`, a head attends to what the store of slots has after them. -/
theorem attention_after_calls
    (hlow : ∀ t < a.contextLen s, -ops.fltMax < rowLogit scale (a.slope head) (a.queryHead s head) g.headSize
      (AttentionArrays.kvHead p head) (a.contextLen s)
      (fun t => applyCalls g toCache calls (c.row g) (slotOf g.blockSize (a.table s) t)) t)
    {st st' : State (Fin 256) (Regs F) Cell F}
    (hrun : RunsAll warpIdx (p.pagedAttention ops a.buffers s head) st st') {d : Nat} (hd : d < g.headSize) :
    st'.mem (p.outPtr s head d) = rowAttention scale (a.slope head) (a.queryHead s head) g.headSize
      (AttentionArrays.kvHead p head) (a.contextLen s)
      (fun t => applyCalls g toCache calls (c.row g) (slotOf g.blockSize (a.table s) t)) ops.exp h.context.1
      (1 / 10 ^ 6) d :=
  attention_of_holds hcall h (hcalls.holds hf hv (c.holds_row g numBlocks)).2 (fun _ _ => rfl) hlow hrun hd

end

/-! ## The rows of a sequence -/

/-- Calls that append the rows of a sequence to its first `n`, in the order given, and leave
    its slots alone otherwise: batches may have rows of other sequences, or only such. -/
inductive Appends {K C : Type} (g : BlockShape) (toCache : K → C) (table : Nat → Nat) :
    Nat → List (CacheCall K C) → List (TokenRow C) → Prop
  | nil (n : Nat) : Appends g toCache table n [] []
  | batch {n : Nat} {key value : MlxArray K} {slotMapping : MlxArray Int} {vs rest : List (TokenRow C)}
      {calls : List (CacheCall K C)} :
      (∀ w ∈ batchRows toCache key value slotMapping, ∀ t < n, w.1 ≠ slotOf g.blockSize table t) →
      (∀ i v, vs[i]? = some v → (slotOf g.blockSize table (n + i), v) ∈ batchRows toCache key value slotMapping) →
      Appends g toCache table (n + vs.length) calls rest →
      Appends g toCache table n (.reshapeAndCache key value slotMapping :: calls) (vs ++ rest)
  | copy {n : Nat} {blockMapping : MlxArray Int} {vs : List (TokenRow C)} {calls : List (CacheCall K C)} :
      (∀ q ∈ pairsOf blockMapping, ∀ j, j * g.blockSize < n → q.2 ≠ table j) →
        Appends g toCache table n calls vs → Appends g toCache table n (.copyBlocks blockMapping :: calls) vs
  | swap {n : Nat} {src : PagedCaches C} {blockMapping : MlxArray Int} {vs : List (TokenRow C)}
      {calls : List (CacheCall K C)} :
      (∀ q ∈ pairsOf blockMapping, ∀ j, j * g.blockSize < n → q.2 ≠ table j) →
        Appends g toCache table n calls vs → Appends g toCache table n (.swapBlocks src blockMapping :: calls) vs

section
variable {K C : Type} {g : BlockShape} {toCache : K → C} {table : Nat → Nat}

theorem nodup_batchRows {numBlocks : Nat} {key value : MlxArray K} {slotMapping : MlxArray Int}
    (hv : CacheCall.ValidBatch g numBlocks key value slotMapping) :
    ((batchRows toCache key value slotMapping).map Prod.fst).Nodup := by
  rw [batchRows, List.map_map]
  apply List.Nodup.map_on _ (List.nodup_range.filter _)
  intro i hi j hj heq
  simp only [List.mem_filter, List.mem_range, decide_eq_true_eq] at hi hj
  have heq : (slotMapping.get [i]).toNat = (slotMapping.get [j]).toNat := heq
  apply hv.good.distinct i hi.1 j hj.1 hi.2
  rw [← Int.toNat_of_nonneg hi.2, ← Int.toNat_of_nonneg hj.2, heq]

/-- A sequence sees its rows in order. -/
theorem Appends.view {numBlocks n : Nat} {calls : List (CacheCall K C)} {vs : List (TokenRow C)}
    (h : Appends g toCache table n calls vs) :
      ∀ {m : Nat → TokenRow C}, (∀ call ∈ calls, call.Valid g numBlocks) →
    SlotStore.view g.blockSize table (n + vs.length) (applyCalls g toCache calls m) =
      SlotStore.view g.blockSize table n m ++ vs := by
  induction h with
  | nil n =>
    intro m _
    simp [applyCalls]
  | @batch n key value slotMapping vs rest calls hold hnew _ ih =>
    intro m hv
    have hbatch : CacheCall.ValidBatch g numBlocks key value slotMapping := hv _ List.mem_cons_self
    have hview := ih (m := write m (batchRows toCache key value slotMapping)) fun call hcall =>
      hv call (List.mem_cons_of_mem _ hcall)
    rw [view_write (nodup_batchRows hbatch) hold hnew, Nat.add_assoc, ← List.length_append,
      List.append_assoc] at hview
    exact hview
  | @copy n blockMapping vs calls hfree _ ih =>
    intro m hv
    have hview := ih (m := SlotStore.copyBlocks g.blockSize (pairsOf blockMapping) m m) fun call hcall =>
      hv call (List.mem_cons_of_mem _ hcall)
    rw [view_copyBlocks_other g.block hfree] at hview
    exact hview
  | @swap n src blockMapping vs calls hfree _ ih =>
    intro m hv
    have hview := ih (m := SlotStore.copyBlocks g.blockSize (pairsOf blockMapping) (src.row g) m)
      fun call hcall =>
      hv call (List.mem_cons_of_mem _ hcall)
    rw [view_copyBlocks_other g.block hfree] at hview
    exact hview

theorem view_getD {C : Type} [Zero C] {size n : Nat} {table : Nat → Nat} {m : Nat → C} {t : Nat} (ht : t < n) :
    (SlotStore.view size table n m).getD t 0 = m (slotOf size table t) := by
  simp [SlotStore.view, ht]

end

section
variable {F K : Type} [Field F] [LinearOrder F] {g : BlockShape} {numBlocks : Nat} {a : AttentionArrays F}
  {p : PagedAttention F} {s head : Nat} {ops : FloatOps F} {maxSmem : Nat} {dtype cacheDtype : Dtype} {scale : F}
  {numKvHeads blockSize maxSeqLen : Int}
  (hcall : pagedAttentionV1 maxSmem dtype cacheDtype a.query a.keyCache a.valueCache a.blockTables
    a.contextLens numKvHeads scale blockSize maxSeqLen a.alibiSlopes = .ok p)
  (h : ContiguousCall g numBlocks a p s head)
include hcall

/-- A sequence whose rows were appended in batches of any sizes, with rows of other sequences
    and with copies and swaps of their blocks in between, attends to its rows in order. -/
theorem attention_of_sequence {toCache : K → F} {storeDtype : Dtype} {c : PagedCaches F}
    {calls : List (CacheCall K F)} (hf : c.Fits g numBlocks) (hv : ∀ call ∈ calls, call.Valid g numBlocks)
    (hcalls : CallRun toCache storeDtype c calls ⟨a.keyCache, a.valueCache⟩) {rows : List (TokenRow F)}
    (happend : Appends g toCache (a.table s) 0 calls rows) (hlen : a.contextLen s ≤ rows.length)
    (hlow : ∀ t < a.contextLen s, -ops.fltMax < rowLogit scale (a.slope head) (a.queryHead s head) g.headSize
      (AttentionArrays.kvHead p head) (a.contextLen s) (rows.getD · 0) t)
    {st st' : State (Fin 256) (Regs F) Cell F}
    (hrun : RunsAll warpIdx (p.pagedAttention ops a.buffers s head) st st') {d : Nat} (hd : d < g.headSize) :
    st'.mem (p.outPtr s head d) = rowAttention scale (a.slope head) (a.queryHead s head) g.headSize
      (AttentionArrays.kvHead p head) (a.contextLen s) (rows.getD · 0) ops.exp h.context.1 (1 / 10 ^ 6) d := by
  have hview := happend.view (m := c.row g) hv
  rw [Nat.zero_add] at hview
  have hempty : SlotStore.view g.blockSize (a.table s) 0 (c.row g) = [] := rfl
  rw [hempty, List.nil_append] at hview
  refine attention_of_holds hcall h (hcalls.holds hf hv (c.holds_row g numBlocks)).2 (fun t ht => ?_) hlow hrun hd
  rw [← hview, view_getD (ht.trans_le hlen)]

end

/-- A sequence may be forked: after its blocks are copied, a table that names some of the
    copies gives every head the same row as before. -/
theorem attention_of_fork {F K : Type} [Field F] [LinearOrder F] {g : BlockShape} {numBlocks : Nat}
    {a a' : AttentionArrays F} {p p' : PagedAttention F} {s head s' head' : Nat} {ops : FloatOps F}
    {maxSmem maxSmem' : Nat} {dtype cacheDtype dtype' cacheDtype' storeDtype : Dtype} {scale : F}
    {numKvHeads blockSize maxSeqLen numKvHeads' blockSize' maxSeqLen' : Int}
    (hcall : pagedAttentionV1 maxSmem dtype cacheDtype a.query a.keyCache a.valueCache a.blockTables a.contextLens
      numKvHeads scale blockSize maxSeqLen a.alibiSlopes = .ok p)
    (hcall' : pagedAttentionV1 maxSmem' dtype' cacheDtype' a'.query a'.keyCache a'.valueCache a'.blockTables
      a'.contextLens numKvHeads' scale blockSize' maxSeqLen' a'.alibiSlopes = .ok p')
    (h : ContiguousCall g numBlocks a p s head) (h' : ContiguousCall g numBlocks a' p' s' head')
    {toCache : K → F} {blockMapping : MlxArray Int}
    (hv : (CacheCall.copyBlocks blockMapping : CacheCall K F).Valid g numBlocks)
    (hstep : CallStep toCache storeDtype ⟨a.keyCache, a.valueCache⟩ (.copyBlocks blockMapping)
      ⟨a'.keyCache, a'.valueCache⟩)
    (hfork : ∀ j, j * g.blockSize < a.contextLen s → (a.table s j, a'.table s' j) ∈ pairsOf blockMapping ∨
      a'.table s' j = a.table s j ∧ ∀ q ∈ pairsOf blockMapping, q.2 ≠ a.table s j)
    (hlen : a'.contextLen s' = a.contextLen s) (hquery : a'.queryHead s' head' = a.queryHead s head)
    (hslope : a'.slope head' = a.slope head)
    (hhead : AttentionArrays.kvHead p' head' = AttentionArrays.kvHead p head)
    (hlow : ∀ t < a.contextLen s, -ops.fltMax < a.logit p scale s head t)
    {st st₁ st' st₁' : State (Fin 256) (Regs F) Cell F}
    (hrun : RunsAll warpIdx (p.pagedAttention ops a.buffers s head) st st₁)
    (hrun' : RunsAll warpIdx (p'.pagedAttention ops a'.buffers s' head') st' st₁') :
    ∀ d < g.headSize, st₁'.mem (p'.outPtr s' head' d) = st₁.mem (p.outPtr s head d) := by
  intro d hd
  obtain ⟨ha, -⟩ := accepted_of_ok hcall
  let m := PagedCaches.row g ⟨a.keyCache, a.valueCache⟩
  have hm : PagedCaches.Holds g numBlocks ⟨a.keyCache, a.valueCache⟩ m := PagedCaches.holds_row g numBlocks _
  have hm' : PagedCaches.Holds g numBlocks ⟨a'.keyCache, a'.valueCache⟩
      (SlotStore.copyBlocks g.blockSize (pairsOf blockMapping) m m) := hstep.holds h.caches hv hm
  let rows (t : Nat) : TokenRow F := m (slotOf g.blockSize (a.table s) t)
  have hrows' : ∀ t < a'.contextLen s', rows t =
      SlotStore.copyBlocks g.blockSize (pairsOf blockMapping) m m (slotOf g.blockSize (a'.table s') t) := by
    intro t ht
    have hstart : t / g.blockSize * g.blockSize < a.contextLen s := (Nat.div_mul_le_self t _).trans_lt (hlen ▸ ht)
    show m _ = _
    rw [copyBlocks_slotOf g.block hv.1.distinct (hfork _ hstart)]
  have hlow₁ : ∀ t < a.contextLen s, -ops.fltMax < rowLogit scale (a.slope head) (a.queryHead s head) g.headSize
      (AttentionArrays.kvHead p head) (a.contextLen s) rows t := fun t ht => h.logit_eq ha hm scale ht ▸ hlow t ht
  have hout : st₁.mem (p.outPtr s head d) = rowAttention scale (a.slope head) (a.queryHead s head) g.headSize
      (AttentionArrays.kvHead p head) (a.contextLen s) rows ops.exp h.context.1 (1 / 10 ^ 6) d :=
    attention_of_holds hcall h hm (fun _ _ => rfl) hlow₁ hrun hd
  have hout' := attention_of_holds hcall' h' hm' hrows' (by rw [hlen, hslope, hquery, hhead]; exact hlow₁)
    hrun' hd
  rw [hout, hout']
  simp only [hlen, hslope, hquery, hhead]

/-! ## Two tokens in block 1 -/

/-- The sequence in block `b` of these caches, with a query that is 1 in dimension 0. -/
def pairOver (b : Nat) (keys values : Int → ℚ) : AttentionArrays ℚ where
  query := MlxArray.ofData [1, 1, 32] fun i => if i = 0 then 1 else 0
  keyCache := MlxArray.ofData [2, 1, 8, 8, 4] keys
  valueCache := MlxArray.ofData [2, 1, 32, 8] values
  blockTables := MlxArray.ofData [1, 1] fun _ => b
  contextLens := MlxArray.ofData [1] fun _ => 2
  alibiSlopes := none

def pairCall : PagedAttention ℚ := ⟨1, 1, 32, 8, 4, 1, 1, 1, 1, false, 32, 256, 256, 8, 1568⟩

/-- Powers of two instead of `exp`. -/
def binaryOps : FloatOps ℚ := ⟨fun z => 2 ^ ⌊z⌋, id, 2 ^ 128 - 2 ^ 104⟩

section
variable (b : Nat) (keys values : Int → ℚ)

theorem pairOver_ok : pagedAttentionV1 32768 .float32 .float32 (pairOver b keys values).query
    (pairOver b keys values).keyCache (pairOver b keys values).valueCache (pairOver b keys values).blockTables
    (pairOver b keys values).contextLens 1 1 8 8 (pairOver b keys values).alibiSlopes = .ok pairCall := by
  have hslopes : (pairOver b keys values).alibiSlopes = none := rfl
  have hq : (pairOver b keys values).query.shape = [1, 1, 32] := rfl
  have hk : (pairOver b keys values).keyCache.shape = [2, 1, 8, 8, 4] := rfl
  have hv : (pairOver b keys values).valueCache.shape = [2, 1, 32, 8] := rfl
  have hb : (pairOver b keys values).blockTables.shape = [1, 1] := rfl
  have hc : (pairOver b keys values).contextLens.shape = [1] := rfl
  simp (disch := decide) only [pagedAttentionV1, hslopes, hq, hk, hv, hb, hc, MlxArray.dim, throwIf_false]
  rfl

theorem pairOver_contiguous (hb : b < 2) : ContiguousCall smallShape 2 (pairOver b keys values) pairCall 0 0 := by
  have hsize : [1, 1, 32].prod < 2 ^ 31 := by decide
  have hcontext : 0 < 2 ∧ 2 ≤ pairCall.maxSeqLen := by decide
  exact ⟨⟨rfl, rfl, MlxArray.ofData_rowContiguous _ _, MlxArray.ofData_rowContiguous _ _, by decide, by decide⟩,
    rfl, ⟨MlxArray.ofData_rowContiguous _ _, hsize⟩,
    ⟨MlxArray.ofData_rowContiguous _ _, Nat.one_lt_two_pow (by decide)⟩,
    MlxArray.ofData_rowContiguous _ _, fun _ h => (by cases h), by decide, by decide, hcontext, fun _ _ => hb⟩

variable {rows : Nat → TokenRow ℚ}

theorem pairOver_logit (n t : Nat) : rowLogit 1 ((pairOver b keys values).slope 0)
    ((pairOver b keys values).queryHead 0 0)
    smallShape.headSize (AttentionArrays.kvHead pairCall 0) n rows t = (rows t).1 0 0 := by
  have hslope : (pairOver b keys values).slope 0 = 0 := rfl
  have hhead : smallShape.headSize = 32 := rfl
  have hq : ∀ d ∈ Finset.range 32, (pairOver b keys values).queryHead 0 0 d * (rows t).1 0 d =
      if d = 0 then (rows t).1 0 0 else 0 := by
    intro d _
    have hplace : (32 * (0 : Nat) + (32 * (0 : Nat) + (1 * (d : Nat) + 0)) : Int) = 0 ↔ d = 0 := by omega
    have hquery : (pairOver b keys values).queryHead 0 0 d = if d = 0 then 1 else 0 :=
      ite_congr (propext hplace) (fun _ => rfl) fun _ => rfl
    rw [hquery, ite_mul, one_mul, zero_mul]
    split
    · next h => rw [h]
    · rfl
  have hkvHead : AttentionArrays.kvHead pairCall 0 = 0 := Nat.zero_div _
  rw [rowLogit, hslope, zero_mul, add_zero, one_mul, hhead, hkvHead, Finset.sum_congr rfl hq, Finset.sum_ite_eq',
    if_pos (Finset.mem_range.mpr (by decide))]

theorem pairOver_low {n t : Nat} (h : 0 ≤ (rows t).1 0 0) : -binaryOps.fltMax < rowLogit 1
    ((pairOver b keys values).slope 0) ((pairOver b keys values).queryHead 0 0) smallShape.headSize
    (AttentionArrays.kvHead pairCall 0) n rows t := by
  rw [pairOver_logit]
  have hmax : -binaryOps.fltMax < 0 := by norm_num [binaryOps]
  exact hmax.trans_le h

theorem pairOver_attention (h0 : (rows 0).1 0 0 = 0 ∧ (rows 0).2 0 5 = 0)
    (h1 : (rows 1).1 0 0 = 1 ∧ (rows 1).2 0 5 = 1)
    (hpos : 0 < 2) : rowAttention 1 ((pairOver b keys values).slope 0) ((pairOver b keys values).queryHead 0 0)
      smallShape.headSize (AttentionArrays.kvHead pairCall 0) 2 rows binaryOps.exp hpos (1 / 10 ^ 6) 5 =
        1 / (2⁻¹ + 1 + 1 / 10 ^ 6) := by
  have hkvHead : AttentionArrays.kvHead pairCall 0 = 0 := Nat.zero_div _
  have hmax : (Finset.range 2).sup' (Softmax.range_nonempty hpos) (fun t => (rows t).1 0 0) = 1 := by
    apply le_antisymm
    · apply Finset.sup'_le
      intro t ht
      have ht := Finset.mem_range.mp ht
      interval_cases t
      · exact h0.1.trans_le zero_le_one
      · exact h1.1.le
    · exact h1.1.symm.trans_le (Finset.le_sup' (fun t => (rows t).1 0 0) (Finset.mem_range.mpr Nat.one_lt_two))
  have hscore : rowLogit 1 ((pairOver b keys values).slope 0) ((pairOver b keys values).queryHead 0 0)
      smallShape.headSize (AttentionArrays.kvHead pairCall 0) 2 rows = fun t => (rows t).1 0 0 :=
    funext fun t => pairOver_logit b keys values 2 t
  rw [rowAttention, hscore, hkvHead, Softmax.mean]
  simp only [Softmax.weight, hmax, Finset.sum_range_succ, Finset.sum_range_zero, h0, h1]
  norm_num [binaryOps]

end

/-- The rows of the two tokens. -/
def twoRows : List (TokenRow ℚ) :=
  [0, 1].map fun i => (fun h d => twoTokens.get [i, h, d], fun h d => twoTokens.get [i, h, d])

theorem exists_written : ∃ keys values, CallRun (id : ℚ → ℚ) .float32 emptyCaches
    [.reshapeAndCache twoTokens twoTokens twoSlots]
    ⟨(pairOver 1 keys values).keyCache, (pairOver 1 keys values).valueCache⟩ := by
  obtain ⟨order, ho⟩ := emptyCaches_fits.exists_schedule twoTokens_valid
  exact ⟨_, _, .cons (.reshapeAndCache ho) (.nil _)⟩

theorem written_valid : ∀ call ∈ ([.reshapeAndCache twoTokens twoTokens twoSlots] : List (CacheCall ℚ ℚ)),
    call.Valid smallShape 2 := by
  intro call hcall
  obtain rfl := List.mem_singleton.mp hcall
  exact twoTokens_valid

/-- What they leave in a slot of block 1. -/
def writtenRow (t : Nat) : TokenRow ℚ := applyCalls smallShape id [.reshapeAndCache twoTokens twoTokens twoSlots]
  (emptyCaches.row smallShape) (slotOf 8 (fun _ => 1) t)

theorem writtenRow_eq : ((writtenRow 0).1 0 0 = 0 ∧ (writtenRow 0).2 0 5 = 0) ∧
    (writtenRow 1).1 0 0 = 1 ∧ (writtenRow 1).2 0 5 = 1 := by
  decide +kernel

/-- The first token scores 0 and the second 1, and so are their values. -/
theorem attention_after_calls_two : ∃ keys values st,
    CallRun (id : ℚ → ℚ) .float32 emptyCaches [.reshapeAndCache twoTokens twoTokens twoSlots]
      ⟨(pairOver 1 keys values).keyCache, (pairOver 1 keys values).valueCache⟩ ∧
    RunsAll warpIdx (pairCall.pagedAttention binaryOps (pairOver 1 keys values).buffers 0 0) zeroState st ∧
    st.mem (pairCall.outPtr 0 0 5) = 1 / (2⁻¹ + 1 + 1 / 10 ^ 6) := by
  obtain ⟨keys, values, hcalls⟩ := exists_written
  obtain ⟨st, hrun⟩ := exists_runsAll warpIdx
    (pairCall.pagedAttention binaryOps (pairOver 1 keys values).buffers 0 0) zeroState
  refine ⟨keys, values, st, hcalls, hrun, ?_⟩
  have hlow : ∀ t < 2, 0 ≤ (writtenRow t).1 0 0 := by decide +kernel
  calc st.mem (pairCall.outPtr 0 0 5) = _ :=
        attention_after_calls (pairOver_ok 1 keys values) (pairOver_contiguous 1 keys values (by decide))
          emptyCaches_fits written_valid hcalls (fun t ht => pairOver_low 1 keys values (hlow t ht))
            hrun (by decide)
    _ = 1 / (2⁻¹ + 1 + 1 / 10 ^ 6) := pairOver_attention 1 keys values writtenRow_eq.1 writtenRow_eq.2 _

theorem appends_two : Appends smallShape id (fun _ => 1) 0 [.reshapeAndCache twoTokens twoTokens twoSlots]
    (twoRows ++ []) := by
  refine .batch (fun _ _ t ht => absurd ht (Nat.not_lt_zero t)) (fun i v hv => ?_) (.nil _)
  have hi : i < 2 := (List.getElem?_eq_some_iff.mp hv).1
  rw [twoRows, List.getElem?_map, Option.map_eq_some_iff] at hv
  obtain ⟨j, hj, rfl⟩ := hv
  obtain rfl : i = j := by
    interval_cases i
    · exact Option.some.inj hj
    · exact Option.some.inj hj
  refine mem_batchRows.mpr ⟨i, hi, ?_, rfl⟩
  interval_cases i
  · rfl
  · rfl

theorem attention_of_sequence_two : ∃ keys values st,
    CallRun (id : ℚ → ℚ) .float32 emptyCaches [.reshapeAndCache twoTokens twoTokens twoSlots]
      ⟨(pairOver 1 keys values).keyCache, (pairOver 1 keys values).valueCache⟩ ∧
    RunsAll warpIdx (pairCall.pagedAttention binaryOps (pairOver 1 keys values).buffers 0 0) zeroState st ∧
    st.mem (pairCall.outPtr 0 0 5) = 1 / (2⁻¹ + 1 + 1 / 10 ^ 6) := by
  obtain ⟨keys, values, hcalls⟩ := exists_written
  obtain ⟨st, hrun⟩ := exists_runsAll warpIdx
    (pairCall.pagedAttention binaryOps (pairOver 1 keys values).buffers 0 0) zeroState
  refine ⟨keys, values, st, hcalls, hrun, ?_⟩
  have hlow : ∀ t < 2, 0 ≤ ((twoRows ++ []).getD t 0).1 0 0 := by decide +kernel
  have hrows : (((twoRows ++ []).getD 0 0).1 0 0 = 0 ∧ ((twoRows ++ []).getD 0 0).2 0 5 = 0) ∧
      ((twoRows ++ []).getD 1 0).1 0 0 = 1 ∧ ((twoRows ++ []).getD 1 0).2 0 5 = 1 := by decide +kernel
  calc st.mem (pairCall.outPtr 0 0 5) = _ :=
        attention_of_sequence (pairOver_ok 1 keys values) (pairOver_contiguous 1 keys values (by decide))
          emptyCaches_fits written_valid hcalls appends_two (Nat.le_refl 2)
          (fun t ht => pairOver_low 1 keys values (hlow t ht)) hrun (by decide)
    _ = 1 / (2⁻¹ + 1 + 1 / 10 ^ 6) := pairOver_attention 1 keys values hrows.1 hrows.2 _

/-- What the calls of `exists_written` leave in block 1. -/
def keptKeys (i : Int) : ℚ := if i / 256 = 1 ∧ i / 4 % 8 = 1 then 1 else 0

def keptValues (i : Int) : ℚ := if i / 256 = 1 ∧ i % 8 = 1 then 1 else 0

/-- Block 1 is copied to block 0, and the table names the copy. -/
theorem attention_of_fork_two : ∃ keys values st st',
    CallStep (id : ℚ → ℚ) .float32
      ⟨(pairOver 1 keptKeys keptValues).keyCache, (pairOver 1 keptKeys keptValues).valueCache⟩
      (.copyBlocks forkMapping) ⟨(pairOver 0 keys values).keyCache, (pairOver 0 keys values).valueCache⟩ ∧
    RunsAll warpIdx (pairCall.pagedAttention binaryOps (pairOver 1 keptKeys keptValues).buffers 0 0) zeroState st ∧
    RunsAll warpIdx (pairCall.pagedAttention binaryOps (pairOver 0 keys values).buffers 0 0) zeroState st' ∧
    st'.mem (pairCall.outPtr 0 0 5) = st.mem (pairCall.outPtr 0 0 5) := by
  have h : ContiguousCall smallShape 2 (pairOver 1 keptKeys keptValues) pairCall 0 0 :=
    pairOver_contiguous 1 keptKeys keptValues (by decide)
  have hdtype : ∃ text, Dtype.float32.cacheDtypeStr = .ok text := ⟨"float", rfl⟩
  obtain ⟨layer, hlayer, ⟨after, hcopies⟩, -⟩ :=
    h.caches.holds_copyBlocks (m := fun _ => 0) hdtype forkMapping_valid.1 forkMapping_valid.2
  have hstep : CallStep (id : ℚ → ℚ) .float32
      ⟨(pairOver 1 keptKeys keptValues).keyCache, (pairOver 1 keptKeys keptValues).valueCache⟩
      (.copyBlocks forkMapping) _ := .copyBlocks hlayer hcopies
  obtain ⟨st, hrun⟩ := exists_runsAll warpIdx
    (pairCall.pagedAttention binaryOps (pairOver 1 keptKeys keptValues).buffers 0 0) zeroState
  obtain ⟨st', hrun'⟩ := exists_runsAll warpIdx (pairCall.pagedAttention binaryOps
    (pairOver 0 (fun i => after (.key, i)) fun i => after (.value, i)).buffers 0 0) zeroState
  have hpair : (1, 0) ∈ pairsOf forkMapping := by decide
  have hlow : ∀ t < 2, -binaryOps.fltMax < (pairOver 1 keptKeys keptValues).logit pairCall 1 0 0 t := by
    decide +kernel
  refine ⟨_, _, st, st', hstep, hrun, hrun', ?_⟩
  exact attention_of_fork (pairOver_ok 1 keptKeys keptValues) (pairOver_ok 0 _ _) h
    (pairOver_contiguous 0 _ _ (by decide)) forkMapping_valid hstep (fun _ _ => Or.inl hpair) rfl rfl rfl rfl hlow
    hrun hrun' 5 (by decide)

end SglangMlx
