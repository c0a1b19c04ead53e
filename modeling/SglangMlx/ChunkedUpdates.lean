import SglangMlx.CausalModel

/- Several calls of `update_and_fetch` after one `set_indices`. The calls fill the new
   slots from the first one on (`Filled`), so only the rows supplied so far matter and
   not how they were split into calls; a call without a row raises. The position a call
   reports is that of the prefix, whatever was stored since `set_indices`. -/
namespace SglangMlx

variable {α : Type}

/-- `mx.concatenate([x, y], axis=2)`. -/
def HeadFirst.append (x y : HeadFirst α) : HeadFirst α where
  seqLen := x.seqLen + y.seqLen
  elem head t dim := if t < x.seqLen then x.elem head t dim else y.elem head (t - x.seqLen) dim

theorem HeadFirst.row_append_left (x y : HeadFirst α) {i : Nat} (h : i < x.seqLen) :
    (x.append y).row i = x.row i := by
  funext head dim
  show (if i < x.seqLen then _ else _) = _
  rw [if_pos h]
  rfl

theorem HeadFirst.row_append_right (x y : HeadFirst α) (i : Nat) : (x.append y).row (x.seqLen + i) = y.row i := by
  funext head dim
  show (if x.seqLen + i < x.seqLen then _ else y.elem head (x.seqLen + i - x.seqLen) dim) = _
  rw [if_neg (Nat.not_lt_of_le (Nat.le_add_right _ i)), Nat.add_sub_cancel_left]
  rfl

/-- The arguments of one call. -/
structure Chunk (α : Type) where
  keys : HeadFirst α
  values : HeadFirst α
  same : values.seqLen = keys.seqLen

namespace Chunk

def length (chunk : Chunk α) : Nat := chunk.keys.seqLen

def rows (chunk : Chunk α) : List (Row α × Row α) := SglangMlx.rows chunk.keys chunk.values

def append (a b : Chunk α) : Chunk α where
  keys := a.keys.append b.keys
  values := a.values.append b.values
  same := congrArg₂ (· + ·) a.same b.same

def concat (first : Chunk α) (rest : List (Chunk α)) : Chunk α := rest.foldl append first

@[simp] theorem rows_length (chunk : Chunk α) : chunk.rows.length = chunk.length := by
  simp [rows, SglangMlx.rows, length]

theorem rows_append (a b : Chunk α) : (a.append b).rows = a.rows ++ b.rows := by
  have hright : ∀ i, (a.values.append b.values).row (a.keys.seqLen + i) = b.values.row i := by
    rw [← a.same]
    exact HeadFirst.row_append_right a.values b.values
  show (List.range (a.keys.seqLen + b.keys.seqLen)).map _ = _
  rw [List.range_add, List.map_append, List.map_map]
  congr 1
  · refine List.map_congr_left fun i hi => ?_
    have hi := List.mem_range.mp hi
    exact Prod.ext (HeadFirst.row_append_left _ _ hi) (HeadFirst.row_append_left _ _ (a.same ▸ hi))
  · exact List.map_congr_left fun i _ => Prod.ext (HeadFirst.row_append_right _ _ i) (hright i)

theorem rows_concat (first : Chunk α) (rest : List (Chunk α)) :
    (concat first rest).rows = (first :: rest).flatMap rows := by
  induction rest generalizing first with
  | nil => simp [concat]
  | cons chunk rest ih =>
    show (concat (first.append chunk) rest).rows = _
    rw [ih, List.flatMap_cons, rows_append, List.flatMap_cons, List.flatMap_cons, List.append_assoc]

theorem flatMap_rows_length (chunks : List (Chunk α)) :
    (chunks.flatMap rows).length = (chunks.map length).sum := by
  rw [List.length_flatMap]
  congr 1
  exact List.map_congr_left fun chunk _ => rows_length chunk

end Chunk

namespace PooledKVCache

/-- `make_mask`; the mask is made by `create_attention_mask` of mlx-lm. -/
def makeMask {Mask : Type} (createAttentionMask : Nat → Nat → Bool → Option Nat → Mask)
    (c : PooledKVCache) (n : Nat) (returnArray : Bool) (windowSize : Option Nat) : Mask :=
  createAttentionMask n c.offset returnArray windowSize

/-- The adapter before a call, and what the call returns. -/
structure Update (α : Type) where
  before : PooledKVCache
  keys : HeadFirst α
  values : HeadFirst α

/-- Calls of `update_and_fetch`, one for each chunk. -/
def updates (c : PooledKVCache) (pool : MHATokenPool α) :
    List (Chunk α) → Except PyError (PooledKVCache × MHATokenPool α × List (Update α))
  | [] => .ok (c, pool, [])
  | chunk :: rest => do
    let (c', pool', k, v) ← c.updateAndFetch pool chunk.keys chunk.values
    let (c'', pool'', us) ← c'.updates pool' rest
    return (c'', pool'', { before := c, keys := k, values := v } :: us)

/-! ## One call -/

/-- The first new slots hold the rows supplied so far; nothing else has changed. -/
structure Filled (c : PooledKVCache) (pool₀ pool : MHATokenPool α) (sofar : List (Row α × Row α)) : Prop where
  offset : c.storeOffset = sofar.length
  room : sofar.length ≤ c.newIndices.length
  poolSize : pool.poolSize = pool₀.poolSize
  numLayers : pool.numLayers = pool₀.numLayers
  kept : ∀ l s, l ≠ c.layerIdx ∨ s ∉ c.newIndices.take sofar.length → pool.slot l s = pool₀.slot l s
  filled : ∀ (j : Nat) (s : Slot) (row : Row α × Row α), c.newIndices[j]? = some s →
    sofar[j]? = some row → pool.slot c.layerIdx s = row

theorem filled_setIndices (c : PooledKVCache) (pre new : List Slot) (pool : MHATokenPool α) :
    Filled (c.setIndices pre new) pool pool [] :=
  ⟨rfl, Nat.zero_le _, rfl, rfl, fun _ _ _ => rfl, fun _ _ _ _ h => (by cases h)⟩

variable {c : PooledKVCache} {pool₀ pool pool' : MHATokenPool α} {sofar : List (Row α × Row α)}

theorem Filled.unique (h : Filled c pool₀ pool sofar) (h' : Filled c pool₀ pool' sofar) : pool = pool' := by
  have hslot : ∀ l s, pool.slot l s = pool'.slot l s := by
    intro l s
    by_cases hs : l ≠ c.layerIdx ∨ s ∉ c.newIndices.take sofar.length
    · rw [h.kept l s hs, h'.kept l s hs]
    · push Not at hs
      obtain ⟨rfl, hs⟩ := hs
      obtain ⟨j, hj⟩ := List.mem_iff_getElem?.mp hs
      have hlt := (List.getElem?_eq_some_iff.mp hj).1
      rw [List.length_take, min_eq_left h.room] at hlt
      rw [List.getElem?_take_of_lt hlt] at hj
      have hrow := List.getElem?_eq_getElem hlt
      rw [h.filled j s _ hj hrow, h'.filled j s _ hj hrow]
  obtain ⟨size, layers, k, v⟩ := pool
  obtain ⟨size', layers', k', v'⟩ := pool'
  obtain rfl : size = size' := h.poolSize.trans h'.poolSize.symm
  obtain rfl : layers = layers' := h.numLayers.trans h'.numLayers.symm
  obtain rfl : k = k' := funext fun l => funext fun s => congrArg Prod.fst (hslot l s)
  obtain rfl : v = v' := funext fun l => funext fun s => congrArg Prod.snd (hslot l s)
  rfl

/-- What is fetched are the old rows of the prefix and the rows supplied so far. -/
theorem Filled.gathered (h : Filled c pool₀ pool sofar) (hnd : (c.prefixIndices ++ c.newIndices).Nodup) :
    rows (pool.gathered c.layerIdx (c.prefixIndices ++ c.newIndices.take sofar.length)).1
        (pool.gathered c.layerIdx (c.prefixIndices ++ c.newIndices.take sofar.length)).2 =
      c.prefixIndices.map (pool₀.slot c.layerIdx) ++ sofar := by
  have hdisj := (List.nodup_append.mp hnd).2.2
  rw [gathered_rows, List.map_append]
  congr 1
  · refine List.map_congr_left fun s hs => h.kept _ s (Or.inr fun hm => ?_)
    exact hdisj s hs s (List.mem_of_mem_take hm) rfl
  · apply List.ext_getElem
    · rw [List.length_map, List.length_take, min_eq_left h.room]
    · intro j h1 h2
      have hj : j < c.newIndices.length := h2.trans_le h.room
      rw [List.getElem_map, List.getElem_take]
      exact h.filled j _ _ (List.getElem?_eq_getElem hj) (List.getElem?_eq_getElem h2)

theorem Filled.update (h : Filled c pool₀ pool sofar) (hnd : c.newIndices.Nodup) {chunk : Chunk α}
    (hpos : 0 < chunk.length) (hlen : sofar.length + chunk.length ≤ c.newIndices.length) :
    ∃ pool', c.updateAndFetch pool chunk.keys chunk.values =
        .ok ({ c with storeOffset := sofar.length + chunk.length }, pool',
          pool'.gathered c.layerIdx (c.prefixIndices ++ c.newIndices.take (sofar.length + chunk.length))) ∧
      Filled { c with storeOffset := sofar.length + chunk.length } pool₀ pool' (sofar ++ chunk.rows) := by
  obtain ⟨pool', heq, hsize, hlayers, hother, hnew⟩ := updateAndFetch_spec pool chunk.values hpos
    (h.offset ▸ hlen) hnd
  rw [h.offset] at heq hother hnew
  have hrows : (sofar ++ chunk.rows).length = sofar.length + chunk.length := by
    rw [List.length_append, Chunk.rows_length]
  refine ⟨pool', heq, hrows.symm, hrows ▸ hlen, hsize.trans h.poolSize, hlayers.trans h.numLayers, ?_, ?_⟩
  · intro l s hs
    rw [hrows, List.take_add, List.mem_append, not_or] at hs
    rw [hother l s (hs.imp_right And.right), h.kept l s (hs.imp_right And.left)]
  · intro j s row hj hrow
    by_cases hlt : j < sofar.length
    · rw [List.getElem?_append_left hlt] at hrow
      rw [hother c.layerIdx s (Or.inr fun hm => ?_), h.filled j s row hj hrow]
      -- an earlier slot is not stored again
      have hfirst := List.mem_of_getElem? ((List.getElem?_take_of_lt hlt).trans hj)
      exact (List.disjoint_take_drop hnd (Nat.le_refl _)) hfirst (List.mem_of_mem_take hm)
    · have hle := Nat.le_of_not_lt hlt
      rw [List.getElem?_append_right hle] at hrow
      have hlt' : j - sofar.length < chunk.keys.seqLen := by
        have := (List.getElem?_eq_some_iff.mp hrow).1
        rwa [Chunk.rows_length, Chunk.length] at this
      have hnext : ((c.newIndices.drop sofar.length).take chunk.keys.seqLen)[j - sofar.length]? = some s := by
        rw [List.getElem?_take_of_lt hlt', List.getElem?_drop, Nat.add_sub_cancel' hle]
        exact hj
      show pool'.slot c.layerIdx s = row
      rw [hnew _ s hnext]
      have hrow' : chunk.rows[j - sofar.length]? =
          some (chunk.keys.row (j - sofar.length), chunk.values.row (j - sofar.length)) := by
        rw [Chunk.rows, rows, List.getElem?_map, List.getElem?_range hlt']
        rfl
      rw [hrow'] at hrow
      exact Option.some.inj hrow

/-! ## A run of calls -/

/-- The call returns these rows, position by position. -/
structure Update.Returns (u : Update α) (expected : List (Row α × Row α)) : Prop where
  rows : SglangMlx.rows u.keys u.values = expected
  same : u.values.seqLen = u.keys.seqLen

theorem Update.Returns.seqLen {u : Update α} {expected : List (Row α × Row α)} (h : u.Returns expected) :
    u.keys.seqLen = expected.length := by
  rw [← h.rows, SglangMlx.rows, List.length_map, List.length_range]

theorem updates_spec : ∀ (chunks : List (Chunk α)) {c : PooledKVCache} {pool : MHATokenPool α}
    {sofar : List (Row α × Row α)}, Filled c pool₀ pool sofar → (c.prefixIndices ++ c.newIndices).Nodup →
    (∀ chunk ∈ chunks, 0 < chunk.length) → sofar.length + (chunks.map Chunk.length).sum ≤ c.newIndices.length →
    ∃ pool' us,
      c.updates pool chunks = .ok ({ c with storeOffset := sofar.length + (chunks.map Chunk.length).sum },
        pool', us) ∧ Filled { c with storeOffset := sofar.length + (chunks.map Chunk.length).sum } pool₀ pool'
        (sofar ++ chunks.flatMap Chunk.rows) ∧
      us.length = chunks.length ∧
      (∀ (j : Nat) (u : Update α), us[j]? = some u → u.before.prefixIndices = c.prefixIndices ∧
        u.Returns (c.prefixIndices.map (pool₀.slot c.layerIdx) ++ sofar ++
          (chunks.take (j + 1)).flatMap Chunk.rows)) ∧
      ∀ u, us.getLast? = some u → (u.keys, u.values) = pool'.gathered c.layerIdx
        (c.prefixIndices ++ c.newIndices.take (sofar.length + (chunks.map Chunk.length).sum)) := by
  intro chunks
  induction chunks with
  | nil =>
    intro c pool sofar h _ _ _
    have hc : { c with storeOffset := sofar.length } = c := by rw [← h.offset]
    refine ⟨pool, [], ?_, ?_, rfl, fun j u hu => (by cases hu), fun u hu => (by cases hu)⟩
    · show Except.ok (c, pool, []) = Except.ok ({ c with storeOffset := sofar.length }, pool, [])
      rw [hc]
    · show Filled { c with storeOffset := sofar.length } pool₀ pool (sofar ++ [])
      rw [hc, List.append_nil]
      exact h
  | cons chunk rest ih =>
    intro c pool sofar h hnd hpos hlen
    rw [List.map_cons, List.sum_cons, ← Nat.add_assoc] at hlen
    obtain ⟨pool₁, heq, hfilled⟩ :=
      h.update (List.nodup_append.mp hnd).2.1 (hpos chunk List.mem_cons_self) (by omega)
    have hrows : (sofar ++ chunk.rows).length = sofar.length + chunk.length := by
      rw [List.length_append, Chunk.rows_length]
    have hfetch := hfilled.gathered hnd
    rw [hrows] at hfetch
    obtain ⟨pool', us, hrun, hfilled', hus, hcalls, hlast⟩ := ih hfilled hnd
      (fun chunk' hmem => hpos chunk' (List.mem_cons_of_mem _ hmem)) (by rw [hrows]; exact hlen)
    rw [hrows] at hrun hfilled' hlast
    let fetched := pool₁.gathered c.layerIdx (c.prefixIndices ++ c.newIndices.take (sofar.length + chunk.length))
    refine ⟨pool', ⟨c, fetched.1, fetched.2⟩ :: us, ?_, ?_, congrArg Nat.succ hus, ?_, ?_⟩
    · rw [updates, heq]
      show (do let (c'', pool'', us) ← updates _ pool₁ rest; _) = _
      rw [hrun, List.map_cons, List.sum_cons, ← Nat.add_assoc]
      rfl
    · rw [List.map_cons, List.sum_cons, ← Nat.add_assoc, List.flatMap_cons, ← List.append_assoc]
      exact hfilled'
    · intro j u hu
      cases j with
      | zero =>
        cases hu
        refine ⟨rfl, ?_, rfl⟩
        rw [hfetch, List.append_assoc]
        simp
      | succ j =>
        obtain ⟨hpre, hret⟩ := hcalls j u hu
        refine ⟨hpre, ?_⟩
        rw [List.take_succ_cons, List.flatMap_cons, ← List.append_assoc, List.append_assoc _ sofar]
        exact hret
    · intro u hu
      rw [List.map_cons, List.sum_cons, ← Nat.add_assoc]
      cases rest with
      | nil =>
        obtain rfl := List.eq_nil_of_length_eq_zero hus
        cases hu
        obtain rfl : pool' = pool₁ := by
          injection hrun with hrun
          injection hrun with _ hrun
          injection hrun with hrun _
          exact hrun.symm
        rfl
      | cons chunk' rest =>
        obtain ⟨u', us', rfl⟩ := List.exists_cons_of_length_eq_add_one hus
        exact hlast u (by rw [List.getLast?_cons_cons] at hu; exact hu)

/-! ## Chunks make no difference -/

/-- In chunks that are not empty or at once, `update_and_fetch` leaves the same pool and returns the
    same arrays in the end: the old rows of the prefix, then the supplied rows. Only the
    slots of these rows change, in this layer. -/
theorem updates_eq_concat (c : PooledKVCache) (pool : MHATokenPool α) (pre new : List Slot)
    (hnd : (pre ++ new).Nodup) (first : Chunk α) (rest : List (Chunk α))
    (hpos : ∀ chunk ∈ first :: rest, 0 < chunk.length)
    (hlen : ((first :: rest).map Chunk.length).sum ≤ new.length) :
    ∃ c' pool' us, (c.setIndices pre new).updates pool (first :: rest) = .ok (c', pool', us) ∧
      (∃ k v, (c.setIndices pre new).updateAndFetch pool (Chunk.concat first rest).keys
          (Chunk.concat first rest).values = .ok (c', pool', k, v) ∧
        us.getLast?.map (fun u => (u.keys, u.values)) = some (k, v)) ∧
      us.length = (first :: rest).length ∧
      (∀ (j : Nat) (u : Update α), us[j]? = some u → u.Returns
        (pre.map (pool.slot c.layerIdx) ++ ((first :: rest).take (j + 1)).flatMap Chunk.rows)) ∧
      ∀ l s, l ≠ c.layerIdx ∨ s ∉ new.take ((first :: rest).map Chunk.length).sum → pool'.slot l s =
        pool.slot l s := by
  have hrows := Chunk.rows_concat first rest
  have hsum : (Chunk.concat first rest).length = ((first :: rest).map Chunk.length).sum := by
    rw [← Chunk.rows_length, hrows, Chunk.flatMap_rows_length]
  have hsome : 0 < (Chunk.concat first rest).length := by
    rw [hsum, List.map_cons, List.sum_cons]
    exact Nat.add_pos_left (hpos first List.mem_cons_self) _
  obtain ⟨pool', us, heq, hfilled, hus, hcalls, hlast⟩ := updates_spec (first :: rest)
    (filled_setIndices c pre new pool) hnd hpos (by rw [List.length_nil, Nat.zero_add]; exact hlen)
  obtain ⟨pool'', heq', hfilled'⟩ := (filled_setIndices c pre new pool).update (List.nodup_append.mp hnd).2.1
    hsome (by rw [List.length_nil, Nat.zero_add, hsum]; exact hlen)
  rw [hsum] at heq' hfilled'
  rw [hrows] at hfilled'
  obtain rfl := hfilled.unique hfilled'
  refine ⟨_, pool', us, heq, ⟨_, _, heq', ?_⟩, hus, fun j u hu => ?_, fun l s h => ?_⟩
  · have hne : us ≠ [] := List.ne_nil_of_length_eq_add_one hus
    rw [List.getLast?_eq_getLast_of_ne_nil hne] at hlast ⊢
    exact congrArg some (hlast _ rfl)
  · have hret := (hcalls j u hu).2
    rw [List.append_nil] at hret
    exact hret
  · refine hfilled.kept l s (h.imp_right fun hs => ?_)
    rw [List.nil_append, Chunk.flatMap_rows_length]
    exact hs

/-- A row of one number, for one token. -/
def oneToken (n : Nat) : Chunk Nat where
  keys := { seqLen := 1, elem := fun _ _ _ => n }
  values := { seqLen := 1, elem := fun _ _ _ => n + 1 }
  same := rfl

theorem updates_eq_concat_two : ∃ c' pool' us,
    (({ layerIdx := 0 } : PooledKVCache).setIndices [3] [1, 5]).updates (MHATokenPool.init 0 8 2)
      [oneToken 7, oneToken 9] = .ok (c', pool', us) ∧
    (∃ k v, (({ layerIdx := 0 } : PooledKVCache).setIndices [3] [1, 5]).updateAndFetch (MHATokenPool.init 0 8 2)
        (Chunk.concat (oneToken 7) [oneToken 9]).keys (Chunk.concat (oneToken 7) [oneToken 9]).values =
          .ok (c', pool', k, v) ∧
      us.getLast?.map (fun u => (u.keys, u.values)) = some (k, v)) ∧
    us.length = 2 ∧
    (∀ (j : Nat) (u : Update Nat), us[j]? = some u → u.Returns
      ([3].map ((MHATokenPool.init 0 8 2).slot 0) ++ ([oneToken 7, oneToken 9].take (j + 1)).flatMap
        Chunk.rows)) ∧ ∀ l s, l ≠ 0 ∨ s ∉ [1, 5].take 2 → pool'.slot l s = (MHATokenPool.init 0 8 2).slot l s :=
  updates_eq_concat { layerIdx := 0 } (MHATokenPool.init 0 8 2) [3] [1, 5] (by decide) (oneToken 7) [oneToken 9]
    (by decide) (by decide)

/-! ## The reported position -/

/-- The position that the adapter gives to the model and to its masks. -/
def ReportsPosition (c : PooledKVCache) (position : Nat) : Prop :=
  c.offset = position ∧ ∀ (Mask : Type) (createAttentionMask : Nat → Nat → Bool → Option Nat → Mask) n returnArray
    windowSize, c.makeMask createAttentionMask n returnArray windowSize =
      createAttentionMask n position returnArray windowSize

theorem reportsPosition_iff (c : PooledKVCache) (position : Nat) :
    c.ReportsPosition position ↔ c.prefixIndices.length = position :=
  ⟨And.left, fun h => ⟨h, fun _ create n returnArray windowSize => by rw [← h]; rfl⟩⟩

theorem updateAndFetch_empty (c : PooledKVCache) (pool : MHATokenPool α) {keys : HeadFirst α}
    (values : HeadFirst α) (hkeys : keys.seqLen = 0) : ∃ e, c.updateAndFetch pool keys values = .error e := by
  refine ⟨.valueError "indices must be integral", ?_⟩
  unfold updateAndFetch MHATokenPool.store
  simp only [hkeys, List.take_zero, List.length_nil, ne_eq, not_true_eq_false, false_and, if_false, if_true]
  rfl

theorem updateAndFetch_ok (c : PooledKVCache) (pool : MHATokenPool α) {keys : HeadFirst α} (values : HeadFirst α)
    (hpos : 0 < keys.seqLen) (hlen : c.storeOffset + keys.seqLen ≤ c.newIndices.length) :
    ∃ pool' k v, c.updateAndFetch pool keys values =
        .ok ({ c with storeOffset := c.storeOffset + keys.seqLen }, pool', k, v) ∧
      k.seqLen = c.prefixIndices.length + (c.storeOffset + keys.seqLen) := by
  have hstored : ((c.newIndices.drop c.storeOffset).take keys.seqLen).length = keys.seqLen := by
    rw [List.length_take, List.length_drop]
    omega
  have hsome : (c.newIndices.drop c.storeOffset).take keys.seqLen ≠ [] :=
    List.ne_nil_of_length_pos (hstored.symm ▸ hpos)
  have hall : (c.prefixIndices ++ c.newIndices.take (c.storeOffset + keys.seqLen)).length =
      c.prefixIndices.length + (c.storeOffset + keys.seqLen) := by
    rw [List.length_append, List.length_take, min_eq_left hlen]
  have hne : c.prefixIndices ++ c.newIndices.take (c.storeOffset + keys.seqLen) ≠ [] :=
    List.ne_nil_of_length_pos (by omega)
  unfold updateAndFetch MHATokenPool.store MHATokenPool.fetch
  simp only [hstored, ne_eq, not_true_eq_false, false_and, if_false, hsome, hne]
  exact ⟨_, _, _, rfl, hall⟩

/-- The calls before call `j` have returned, and it finds the adapter `c'` and the pool
    `pool'`. -/
def Finds (c : PooledKVCache) (pool : MHATokenPool α) (chunks : List (Chunk α)) (j : Nat) (c' : PooledKVCache)
    (pool' : MHATokenPool α) : Prop :=
  ∃ us, c.updates pool (chunks.take j) = .ok (c', pool', us)

theorem updates_ok : ∀ (chunks : List (Chunk α)) (c : PooledKVCache) (pool : MHATokenPool α),
    c.storeOffset + (chunks.map Chunk.length).sum ≤ c.newIndices.length → (∀ chunk ∈ chunks, 0 < chunk.length) →
    ∃ c' pool' us, c.updates pool chunks = .ok (c', pool', us) := by
  intro chunks
  induction chunks with
  | nil => exact fun c pool _ _ => ⟨c, pool, [], rfl⟩
  | cons chunk rest ih =>
    intro c pool hlen hpos
    rw [List.map_cons, List.sum_cons, ← Nat.add_assoc] at hlen
    obtain ⟨pool₁, k, v, heq, -⟩ := c.updateAndFetch_ok pool chunk.values (hpos chunk List.mem_cons_self)
      ((Nat.le_add_right _ (rest.map Chunk.length).sum).trans hlen)
    obtain ⟨c', pool', us, hrun⟩ := ih { c with storeOffset := c.storeOffset + chunk.length } pool₁ hlen
      fun chunk' hmem => hpos chunk' (List.mem_cons_of_mem _ hmem)
    refine ⟨c', pool', ⟨c, k, v⟩ :: us, ?_⟩
    rw [updates, heq]
    show (do let (c'', pool'', us) ← updates _ pool₁ rest; _) = _
    rw [show chunk.keys.seqLen = chunk.length from rfl, hrun]
    rfl

/-- A run that has returned had no empty chunk, and has moved the store offset only. -/
theorem updates_moves : ∀ (chunks : List (Chunk α)) {c c' : PooledKVCache} {pool pool' : MHATokenPool α}
    {us : List (Update α)}, c.storeOffset + (chunks.map Chunk.length).sum ≤ c.newIndices.length →
    c.updates pool chunks = .ok (c', pool', us) →
    (∀ chunk ∈ chunks, 0 < chunk.length) ∧
      c' = { c with storeOffset := c.storeOffset + (chunks.map Chunk.length).sum } := by
  intro chunks
  induction chunks with
  | nil =>
    intro c c' pool pool' us _ h
    cases h
    exact ⟨fun _ hmem => absurd hmem List.not_mem_nil, rfl⟩
  | cons chunk rest ih =>
    intro c c' pool pool' us hlen h
    rw [List.map_cons, List.sum_cons, ← Nat.add_assoc] at hlen ⊢
    rcases Nat.eq_zero_or_pos chunk.length with h0 | hpos
    · obtain ⟨e, he⟩ := c.updateAndFetch_empty pool chunk.values h0
      rw [updates, he] at h
      cases h
    · obtain ⟨pool₁, k, v, heq, -⟩ := c.updateAndFetch_ok pool chunk.values hpos
        ((Nat.le_add_right _ (rest.map Chunk.length).sum).trans hlen)
      rw [updates, heq] at h
      cases hrun : updates { c with storeOffset := c.storeOffset + chunk.length } pool₁ rest with
      | error e =>
        have h : (do let (c'', pool'', us) ← updates _ pool₁ rest; _) = Except.ok (c', pool', us) := h
        rw [show chunk.keys.seqLen = chunk.length from rfl, hrun] at h
        cases h
      | ok x =>
        obtain ⟨c₂, pool₂, us₂⟩ := x
        have h : (do let (c'', pool'', us) ← updates _ pool₁ rest; _) = Except.ok (c', pool', us) := h
        rw [show chunk.keys.seqLen = chunk.length from rfl, hrun] at h
        cases h
        obtain ⟨hall, rfl⟩ := ih hlen hrun
        refine ⟨fun chunk' hmem => ?_, rfl⟩
        rcases List.mem_cons.mp hmem with rfl | hmem
        · exact hpos
        · exact hall chunk' hmem

theorem Chunk.take_sum_le (chunks : List (Chunk α)) (j : Nat) :
    ((chunks.take j).map Chunk.length).sum ≤ (chunks.map Chunk.length).sum :=
  List.Sublist.sum_le_sum ((List.take_sublist j chunks).map _) fun _ _ => Nat.zero_le _

section
variable {pre new : List Slot} {chunks : List (Chunk α)} (hlen : (chunks.map Chunk.length).sum ≤ new.length)
  {j : Nat}
include hlen

theorem finds_iff : (∃ c' pool', (c.setIndices pre new).Finds pool chunks j c' pool') ↔
    ∀ chunk ∈ chunks.take j, 0 < chunk.length := by
  have hroom : 0 + ((chunks.take j).map Chunk.length).sum ≤ new.length := by
    rw [Nat.zero_add]
    exact (Chunk.take_sum_le chunks j).trans hlen
  refine ⟨fun ⟨c', pool', us, hrun⟩ => (updates_moves _ hroom hrun).1, fun hpos => ?_⟩
  obtain ⟨c', pool', us, hrun⟩ := updates_ok _ (c.setIndices pre new) pool hroom hpos
  exact ⟨c', pool', us, hrun⟩

theorem Finds.eq {c' : PooledKVCache} (h : (c.setIndices pre new).Finds pool chunks j c' pool') :
    c' = { c.setIndices pre new with storeOffset := ((chunks.take j).map Chunk.length).sum } := by
  obtain ⟨us, hrun⟩ := h
  have hroom : 0 + ((chunks.take j).map Chunk.length).sum ≤ new.length := by
    rw [Nat.zero_add]
    exact (Chunk.take_sum_le chunks j).trans hlen
  have hc := (updates_moves _ hroom hrun).2
  rwa [show (c.setIndices pre new).storeOffset = 0 from rfl, Nat.zero_add] at hc

theorem Finds.returns {c' : PooledKVCache} (h : (c.setIndices pre new).Finds pool chunks j c' pool')
    {chunk : Chunk α} (hchunk : chunks[j]? = some chunk) (hpos : 0 < chunk.length) :
    ∃ c'' pool'' k v, c'.updateAndFetch pool' chunk.keys chunk.values = .ok (c'', pool'', k, v) ∧
      k.seqLen - chunk.length = pre.length + ((chunks.take j).map Chunk.length).sum := by
  rw [h.eq hlen]
  obtain ⟨hj, rfl⟩ := List.getElem?_eq_some_iff.mp hchunk
  have hsum := (Chunk.take_sum_le chunks (j + 1)).trans hlen
  rw [List.take_succ_eq_append_getElem hj, List.map_append, List.sum_append, List.map_singleton,
    List.sum_singleton] at hsum
  obtain ⟨pool'', k, v, heq, hk⟩ := updateAndFetch_ok
    { c.setIndices pre new with storeOffset := ((chunks.take j).map Chunk.length).sum } pool'
      chunks[j].values hpos hsum
  refine ⟨_, pool'', k, v, heq, ?_⟩
  rw [hk]
  show pre.length + (_ + chunks[j].length) - chunks[j].length = _
  rw [← Nat.add_assoc, Nat.add_sub_cancel]

end

/-- A call is made when no chunk before it is empty, and returns when its own is not:
    the prefix, what was stored before, and what it stores. The position that the calls
    report is that of their first row, in all of them, if and only if at most one is made. -/
theorem reportsPosition_updates_iff (c : PooledKVCache) (pool : MHATokenPool α) (pre new : List Slot)
    (chunks : List (Chunk α)) (hlen : (chunks.map Chunk.length).sum ≤ new.length) :
    (∀ j, (∃ c' pool', (c.setIndices pre new).Finds pool chunks j c' pool') ↔
      ∀ chunk ∈ chunks.take j, 0 < chunk.length) ∧
    (∀ (j : Nat) (chunk : Chunk α) (c' : PooledKVCache) (pool' : MHATokenPool α), chunks[j]? = some chunk →
      (c.setIndices pre new).Finds pool chunks j c' pool' →
      (chunk.length = 0 → ∃ e, c'.updateAndFetch pool' chunk.keys chunk.values = .error e) ∧
      (0 < chunk.length → ∃ c'' pool'' k v,
        c'.updateAndFetch pool' chunk.keys chunk.values = .ok (c'', pool'', k, v) ∧
        k.seqLen - chunk.length = pre.length + ((chunks.take j).map Chunk.length).sum)) ∧
    ((∀ (j : Nat) (c' : PooledKVCache) (pool' : MHATokenPool α), j < chunks.length →
        (c.setIndices pre new).Finds pool chunks j c' pool' →
        c'.ReportsPosition (pre.length + ((chunks.take j).map Chunk.length).sum)) ↔
      chunks.length ≤ 1 ∨ ∃ chunk, chunks.head? = some chunk ∧ chunk.length = 0) := by
  refine ⟨fun j => finds_iff hlen, fun j chunk c' pool' hchunk hf =>
    ⟨updateAndFetch_empty c' pool' chunk.values, hf.returns hlen hchunk⟩, fun h => ?_,
    fun h j c' pool' hj hf => ?_⟩
  · -- a second call reports the prefix alone
    by_contra hno
    push Not at hno
    obtain ⟨hlong, hhead⟩ := hno
    obtain ⟨first, rest, rfl⟩ := List.exists_cons_of_ne_nil (List.ne_nil_of_length_pos (Nat.zero_lt_of_lt hlong))
    have hpos : 0 < first.length := Nat.pos_of_ne_zero (hhead first rfl)
    obtain ⟨c', pool', hf⟩ : ∃ c' pool', (c.setIndices pre new).Finds pool (first :: rest) 1 c' pool' :=
      (finds_iff hlen).mpr fun chunk hmem => by rwa [List.mem_singleton.mp hmem]
    have hrep := (reportsPosition_iff _ _).mp (h 1 c' pool' hlong hf)
    rw [hf.eq hlen] at hrep
    have hsum : pre.length = pre.length + (first.length + 0) := hrep
    omega
  · have hzero : j = 0 := by
      by_contra hj0
      rcases h with h | ⟨chunk, hhead, h0⟩
      · omega
      · -- no call comes after one that raises
        obtain ⟨rest, rfl⟩ := List.head?_eq_some_iff.mp hhead
        obtain ⟨i, rfl⟩ := Nat.exists_eq_succ_of_ne_zero hj0
        have := (finds_iff hlen).mp ⟨c', pool', hf⟩ chunk List.mem_cons_self
        omega
    rw [hf.eq hlen, hzero, reportsPosition_iff]
    rfl

theorem reportsPosition_updates_iff_two :
    (∀ (j : Nat) (c' : PooledKVCache) (pool' : MHATokenPool Nat), j < [oneToken 7].length →
        (({ layerIdx := 0 } : PooledKVCache).setIndices [3] [1, 2]).Finds (MHATokenPool.init 0 8 1)
        [oneToken 7] j c' pool' →
        c'.ReportsPosition ([3].length + (([oneToken 7].take j).map Chunk.length).sum)) ∧
    ¬∀ (j : Nat) (c' : PooledKVCache) (pool' : MHATokenPool Nat), j < [oneToken 7, oneToken 9].length →
        (({ layerIdx := 0 } : PooledKVCache).setIndices [3] [1, 2]).Finds (MHATokenPool.init 0 8 1)
        [oneToken 7, oneToken 9]
          j c' pool' →
        c'.ReportsPosition ([3].length + (([oneToken 7, oneToken 9].take j).map Chunk.length).sum) := by
  have hone := (reportsPosition_updates_iff { layerIdx := 0 } (MHATokenPool.init 0 8 1) [3] [1, 2] [oneToken 7]
    (by decide)).2.2
  have htwo := (reportsPosition_updates_iff { layerIdx := 0 } (MHATokenPool.init 0 8 1) [3] [1, 2]
    [oneToken 7, oneToken 9] (by decide)).2.2
  refine ⟨hone.mpr (Or.inl (by decide)), fun h => ?_⟩
  rcases htwo.mp h with hlen | ⟨chunk, hhead, h0⟩
  · exact absurd hlen (by decide)
  · cases hhead
    exact absurd h0 (by decide)

/-- The second token of a prompt gets the position of the first one. -/
theorem second_call_reports_zero : ∃ c' pool' us u,
    (({ layerIdx := 0 } : PooledKVCache).setIndices [] [1, 2]).updates (MHATokenPool.init 0 8 1)
      [oneToken 7, oneToken 9] = .ok (c', pool', us) ∧
    us[1]? = some u ∧ u.before.offset = 0 ∧ u.keys.seqLen - (oneToken 9).length = 1 ∧
    ¬u.before.ReportsPosition (0 + (oneToken 7).length) := by
  refine ⟨_, _, _, _, rfl, rfl, rfl, rfl, ?_⟩
  rw [reportsPosition_iff]
  decide

end PooledKVCache

end SglangMlx
