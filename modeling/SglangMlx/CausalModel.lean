import SglangMlx.ModelRunner

/- A causal model behind the pooled caches. Layer by layer it calls
   `update_and_fetch` once. The key and value row of a new position depends on its
   token, on its place (`cache.offset` and the place among the new tokens) and on
   the rows that the layers below fetched for it and the positions before it; the
   logits of a position depend on its token and on the rows all layers fetched.

   `recompute` is what the same functions give for a token sequence alone. If the
   reused slots hold the recomputed rows, so do the written ones afterwards, and
   the logits are the recomputed ones (`forward_spec`). -/
namespace SglangMlx

/-! ## One layer -/

/-- One position of a key or value array: `row head dim`. -/
abbrev Row (α : Type) := Nat → Nat → α

variable {α Λ : Type}

def HeadFirst.row (x : HeadFirst α) (i : Nat) : Row α := fun head dim => x.elem head i dim

/-- The positions of a pair of arrays. -/
def rows (keys values : HeadFirst α) : List (Row α × Row α) :=
  (List.range keys.seqLen).map fun i => (keys.row i, values.row i)

/-- The rows of one slot. -/
def MHATokenPool.slot (pool : MHATokenPool α) (layerIdx : Nat) (s : Slot) : Row α × Row α :=
  (pool.kBuffer layerIdx s, pool.vBuffer layerIdx s)

theorem scatterFrom_of_notMem (f : Nat → Row α) {s : Slot} : ∀ (indices : List Slot) (i : Nat)
    (buf : Slot → Row α), s ∉ indices → scatterFrom f i indices buf s = buf s := by
  intro indices
  induction indices with
  | nil => intro i buf _; rfl
  | cons x rest ih =>
    intro i buf h
    rw [List.mem_cons, not_or] at h
    rw [scatterFrom, ih _ _ h.2, Function.update_of_ne h.1]

theorem scatterFrom_getElem (f : Nat → Row α) {s : Slot} : ∀ (indices : List Slot) (i j : Nat)
    (buf : Slot → Row α), indices.Nodup → indices[j]? = some s → scatterFrom f i indices buf s = f (i + j) := by
  intro indices
  induction indices with
  | nil => intro i j buf _ h; cases h
  | cons x rest ih =>
    intro i j buf hnd h
    obtain ⟨hx, hrest⟩ := List.nodup_cons.mp hnd
    cases j with
    | zero =>
      cases h
      rw [scatterFrom, scatterFrom_of_notMem f rest _ _ hx, Function.update_self]
      rfl
    | succ j =>
      rw [scatterFrom, ih (i + 1) j _ hrest h]
      congr 1
      omega

theorem gathered_rows (pool : MHATokenPool α) (layerIdx : Nat) (indices : List Slot) :
    rows (pool.gathered layerIdx indices).1 (pool.gathered layerIdx indices).2 =
      indices.map (pool.slot layerIdx) := by
  apply List.ext_getElem
  · simp [rows, MHATokenPool.gathered]
  · intro i _ h
    rw [List.length_map] at h
    have hi : indices.getD i 0 = indices[i] := by rw [List.getD_eq_getElem?_getD, List.getElem?_eq_getElem h]; rfl
    simp only [rows, List.getElem_map, List.getElem_range, ← hi]
    rfl

theorem store_spec (pool : MHATokenPool α) (layerIdx : Nat) {indices : List Slot} {keys : HeadFirst α}
    (values : HeadFirst α) (hlen : keys.seqLen = indices.length) (hne : indices ≠ []) (hnd : indices.Nodup) :
    ∃ pool', pool.store layerIdx indices keys values = .ok pool' ∧
      pool'.poolSize = pool.poolSize ∧ pool'.numLayers = pool.numLayers ∧
      (∀ l s, l ≠ layerIdx ∨ s ∉ indices → pool'.slot l s = pool.slot l s) ∧
      ∀ j s, indices[j]? = some s → pool'.slot layerIdx s = (keys.row j, values.row j) := by
  have hok : ¬(keys.seqLen ≠ indices.length ∧ keys.seqLen ≠ 1) := fun h => h.1 hlen
  unfold MHATokenPool.store
  simp only [hok, hne, if_false]
  refine ⟨_, rfl, rfl, rfl, fun l s h => ?_, fun j s hj => ?_⟩
  · by_cases hl : l = layerIdx
    · have hs := h.resolve_left (absurd hl)
      simp only [MHATokenPool.slot, hl, Function.update_self, scatterFrom_of_notMem _ _ _ _ hs]
    · simp only [MHATokenPool.slot, Function.update_of_ne hl]
  · have hjl := (List.getElem?_eq_some_iff.mp hj).1
    -- the row that is broadcast is the only row
    have hrow : (if keys.seqLen = 1 then 0 else j) = j := by split <;> omega
    simp only [MHATokenPool.slot, Function.update_self, scatterFrom_getElem _ _ 0 j _ hnd hj, zero_add, hrow]
    rfl

/-- One call with some row stores the new rows at the next new slots of its layer,
    changes nothing else, and fetches the slots filled so far. -/
theorem updateAndFetch_spec {c : PooledKVCache} (pool : MHATokenPool α) {keys : HeadFirst α}
    (values : HeadFirst α) (hpos : 0 < keys.seqLen) (hlen : c.storeOffset + keys.seqLen ≤ c.newIndices.length)
    (hnd : c.newIndices.Nodup) :
    ∃ pool', c.updateAndFetch pool keys values =
        .ok ({ c with storeOffset := c.storeOffset + keys.seqLen }, pool',
          pool'.gathered c.layerIdx (c.prefixIndices ++ c.newIndices.take (c.storeOffset + keys.seqLen))) ∧
      pool'.poolSize = pool.poolSize ∧ pool'.numLayers = pool.numLayers ∧
      (∀ l s, l ≠ c.layerIdx ∨ s ∉ (c.newIndices.drop c.storeOffset).take keys.seqLen → pool'.slot l s =
        pool.slot l s) ∧ ∀ j s, ((c.newIndices.drop c.storeOffset).take keys.seqLen)[j]? = some s →
        pool'.slot c.layerIdx s = (keys.row j, values.row j) := by
  have hstored : keys.seqLen = ((c.newIndices.drop c.storeOffset).take keys.seqLen).length := by
    rw [List.length_take, List.length_drop]
    omega
  have hnd' := (hnd.sublist (List.drop_sublist c.storeOffset _)).sublist (List.take_sublist keys.seqLen _)
  have hsome : (c.newIndices.drop c.storeOffset).take keys.seqLen ≠ [] :=
    List.ne_nil_of_length_pos (hstored ▸ hpos)
  have hall : c.prefixIndices ++ c.newIndices.take (c.storeOffset + keys.seqLen) ≠ [] :=
    List.append_ne_nil_of_right_ne_nil _ (List.ne_nil_of_length_pos (by rw [List.length_take]; omega))
  obtain ⟨pool', heq, hsize, hlayers, hother, hnew⟩ := store_spec pool c.layerIdx values hstored hsome hnd'
  refine ⟨pool', ?_, hsize, hlayers, hother, hnew⟩
  unfold PooledKVCache.updateAndFetch MHATokenPool.fetch
  simp only [heq, hall, if_false]
  rfl

/-! ## The model -/

structure CausalModel (α Λ : Type) where
  /-- `row layer position token past` -/
  row : Nat → Nat → Token → List (List (Row α × Row α)) → Row α × Row α
  logits : Token → List (List (Row α × Row α)) → Λ

/-- What one layer fetched, and the offset of its cache. -/
structure Fetched (α : Type) where
  offset : Nat
  rows : List (Row α × Row α)

/-- The rows up to the new position `j`. -/
def Fetched.visible (f : Fetched α) (j : Nat) : List (Row α × Row α) := f.rows.take (f.offset + j + 1)

namespace CausalModel
variable (m : CausalModel α Λ)

/-- The layers above those in `fetched`, one for each cache. -/
def forward (newTokens : List Token) : List PooledKVCache → MHATokenPool α → List (Fetched α) →
    MHATokenPool α × List PooledKVCache × Except PyError (List (Fetched α))
  | [], pool, fetched => (pool, [], .ok fetched)
  | cache :: rest, pool, fetched =>
    let new j := m.row fetched.length (cache.offset + j) (newTokens.getD j 0) (fetched.map (·.visible j))
    let keys : HeadFirst α := { seqLen := newTokens.length, elem := fun head j dim => (new j).1 head dim }
    let values : HeadFirst α := { seqLen := newTokens.length, elem := fun head j dim => (new j).2 head dim }
    match cache.updateAndFetch pool keys values with
    | .error e => (pool, cache :: rest, .error e)
    | .ok (cache', pool, k, v) =>
      let (pool, rest, out) :=
        forward newTokens rest pool (fetched ++ [{ offset := cache.offset, rows := rows k v }])
      (pool, cache' :: rest, out)

/-- The call of the model. -/
def toModel : Model α Λ where
  call newTokens pool kvCaches :=
    let (pool, kvCaches, fetched) := m.forward newTokens kvCaches pool []
    (pool, kvCaches, fetched.map fun fetched =>
      (List.range newTokens.length).map fun j => m.logits (newTokens.getD j 0) (fetched.map (·.visible j)))
  shape newTokens pool kvCaches logits h := by
    obtain ⟨fetched, _, rfl⟩ := map_eq_ok h
    rw [List.length_map, List.length_range]

/-- The rows that the first `layers` layers have for `tokens`. -/
def recompute : Nat → List Token → List (List (Row α × Row α))
  | 0, _ => []
  | l + 1, tokens => recompute l tokens ++
    [(List.range tokens.length).map fun i => m.row l i (tokens.getD i 0) (recompute l (tokens.take (i + 1)))]

/-- The row of the last token of `key`. -/
def recomputeRow (l : Nat) (key : List Token) : Row α × Row α :=
  m.row l (key.length - 1) (key.getD (key.length - 1) 0) (m.recompute l key)

/-- The rows of one layer for `tokens`. -/
def recomputeLayer (l : Nat) (tokens : List Token) : List (Row α × Row α) :=
  (List.range tokens.length).map fun i => m.recomputeRow l (tokens.take (i + 1))

/-- The logits of the last position of `tokens`. -/
def recomputeLogits (layers : Nat) (tokens : List Token) : Λ :=
  m.logits (tokens.getD (tokens.length - 1) 0) (m.recompute layers tokens)

theorem recompute_eq (l : Nat) (tokens : List Token) :
    m.recompute l tokens = (List.range l).map fun i => m.recomputeLayer i tokens := by
  induction l with
  | zero => rfl
  | succ l ih =>
    rw [recompute, ih, List.range_succ, List.map_append, List.map_singleton]
    congr 2
    refine List.map_congr_left fun i hi => ?_
    have hi := List.mem_range.mp hi
    have hlen : (tokens.take (i + 1)).length - 1 = i := by rw [List.length_take]; omega
    rw [recomputeRow, hlen, List.getD_eq_getElem?_getD, List.getD_eq_getElem?_getD,
      List.getElem?_take_of_lt (by omega)]

/-- Causality: the rows of a start of the tokens are the start of the rows. -/
theorem recomputeLayer_take (l k : Nat) (tokens : List Token) :
    m.recomputeLayer l (tokens.take k) = (m.recomputeLayer l tokens).take k := by
  unfold recomputeLayer
  rw [← List.map_take, List.take_range, List.length_take]
  refine List.map_congr_left fun i hi => ?_
  have hi := List.mem_range.mp hi
  rw [List.take_take, min_eq_left (by omega)]

theorem forward_cons {newTokens : List Token} {cache cache' : PooledKVCache} {rest caches : List PooledKVCache}
    {pool pool₁ pool' : MHATokenPool α} {fetched : List (Fetched α)} {out : Except PyError (List (Fetched α))}
    {keys values k v : HeadFirst α} {new : Nat → Row α × Row α} (hnew : ∀ j, new j =
      m.row fetched.length (cache.offset + j) (newTokens.getD j 0) (fetched.map (·.visible j)))
    (hkeys : keys = { seqLen := newTokens.length, elem := fun head j dim => (new j).1 head dim })
    (hvalues : values = { seqLen := newTokens.length, elem := fun head j dim => (new j).2 head dim })
    (heq : cache.updateAndFetch pool keys values = .ok (cache', pool₁, k, v))
    (hrest : m.forward newTokens rest pool₁ (fetched ++ [⟨cache.offset, rows k v⟩]) = (pool', caches, out)) :
    m.forward newTokens (cache :: rest) pool fetched = (pool', cache' :: caches, out) := by
  rw [funext hnew] at hkeys hvalues
  rw [hkeys, hvalues] at heq
  rw [forward]
  simp only [heq, hrest]

section
variable {tokens : List Token} {pre new : List Slot} (hlen : (pre ++ new).length = tokens.length)

theorem row_recomputed (pre : List Slot) (l : Nat) {j : Nat} (hj : pre.length + j < tokens.length) :
    m.row l (pre.length + j) ((tokens.drop pre.length).getD j 0)
        (((List.range l).map fun l' => (⟨pre.length, m.recomputeLayer l' tokens⟩ : Fetched α)).map
          (·.visible j)) = m.recomputeRow l (tokens.take (pre.length + j + 1)) := by
  have hl : (tokens.take (pre.length + j + 1)).length - 1 = pre.length + j := by rw [List.length_take]; omega
  have htok : (tokens.take (pre.length + j + 1)).getD (pre.length + j) 0 = (tokens.drop pre.length).getD j 0 := by
    rw [List.getD_eq_getElem?_getD, List.getD_eq_getElem?_getD, List.getElem?_take_of_lt (Nat.lt_succ_self _),
      List.getElem?_drop]
  rw [recomputeRow, hl, htok, recompute_eq, List.map_map]
  simp only [recomputeLayer_take]
  rfl

include hlen

/-- Storing the recomputed rows behind a prefix that holds such rows: the layer then
    fetches the recomputed layer. -/
theorem update_recomputed (hnd : (pre ++ new).Nodup) (hne : new ≠ []) {l : Nat} {pool : MHATokenPool α}
    (hpre : ∀ i s, pre[i]? = some s → pool.slot l s = m.recomputeRow l (tokens.take (i + 1)))
    {keys values : HeadFirst α} (hkeys : keys.seqLen = new.length)
    (hrow : ∀ j < new.length, (keys.row j, values.row j) = m.recomputeRow l (tokens.take (pre.length + j + 1))) :
    ∃ pool₁ k v, ({ layerIdx := l, prefixIndices := pre, newIndices := new } : PooledKVCache).updateAndFetch
      pool keys values = .ok ({ layerIdx := l, prefixIndices := pre, newIndices := new, storeOffset := new.length },
          pool₁, k, v) ∧ rows k v = m.recomputeLayer l tokens ∧
      (∀ l' s, l' ≠ l ∨ s ∉ new → pool₁.slot l' s = pool.slot l' s) ∧
      ∀ i s, (pre ++ new)[i]? = some s → pool₁.slot l s = m.recomputeRow l (tokens.take (i + 1)) := by
  obtain ⟨_, hnew, hdisj⟩ := List.nodup_append.mp hnd
  let cache : PooledKVCache := { layerIdx := l, prefixIndices := pre, newIndices := new }
  obtain ⟨pool₁, heq, -, -, hother, hstored⟩ := updateAndFetch_spec (c := cache) pool values
    (hkeys ▸ List.length_pos_of_ne_nil hne)
    (show 0 + keys.seqLen ≤ new.length by rw [Nat.zero_add]; exact hkeys.le) hnew
  have hall : (cache.newIndices.drop cache.storeOffset).take keys.seqLen = new := by
    rw [hkeys]
    exact List.take_length
  have hoff : cache.storeOffset + keys.seqLen = new.length := (Nat.zero_add _).trans hkeys
  rw [hoff, show cache.newIndices.take new.length = new from List.take_length] at heq
  rw [hall] at hother hstored
  have hlayer : ∀ i s, (pre ++ new)[i]? = some s → pool₁.slot l s = m.recomputeRow l (tokens.take (i + 1)) := by
    intro i s hs
    by_cases hi : i < pre.length
    · rw [List.getElem?_append_left hi] at hs
      rw [hother l s (Or.inr fun hm => hdisj s (List.mem_of_getElem? hs) s hm rfl)]
      exact hpre i s hs
    · have hi := Nat.le_of_not_lt hi
      rw [List.getElem?_append_right hi] at hs
      have := hrow (i - pre.length) (List.getElem?_eq_some_iff.mp hs).1
      rw [Nat.add_sub_cancel' hi] at this
      rw [← this]
      exact hstored (i - pre.length) s hs
  refine ⟨pool₁, _, _, heq, ?_, hother, hlayer⟩
  show rows (pool₁.gathered l (pre ++ new)).1 (pool₁.gathered l (pre ++ new)).2 = m.recomputeLayer l tokens
  rw [gathered_rows]
  apply List.ext_getElem
  · simp only [List.length_map, recomputeLayer, List.length_range]
    exact hlen
  · intro i h1 _
    rw [List.length_map] at h1
    simp only [recomputeLayer, List.getElem_map, List.getElem_range]
    exact hlayer i _ (List.getElem?_eq_getElem h1)

/-- If `pre` holds the recomputed rows of the start of `tokens` in the layers from
    `l` on, then these layers leave such rows also in `new`, and fetch the
    recomputed layers. -/
theorem forward_layers (hnd : (pre ++ new).Nodup) (hne : new ≠ []) : ∀ (n l : Nat) (pool : MHATokenPool α),
    (∀ l', l ≤ l' → l' < l + n → ∀ i s, pre[i]? = some s → pool.slot l' s =
      m.recomputeRow l' (tokens.take (i + 1))) →
    ∃ pool' caches, m.forward (tokens.drop pre.length) (ModelRunner.freshCaches (List.range' l n) pre new) pool
        ((List.range l).map fun l' => ⟨pre.length, m.recomputeLayer l' tokens⟩) =
        (pool', caches, .ok ((List.range (l + n)).map fun l' => ⟨pre.length, m.recomputeLayer l' tokens⟩)) ∧
      caches.map PooledKVCache.layerIdx = List.range' l n ∧
      (∀ l' s, l' < l ∨ s ∉ new → pool'.slot l' s = pool.slot l' s) ∧
      ∀ l', l ≤ l' → l' < l + n → ∀ i s, (pre ++ new)[i]? = some s →
        pool'.slot l' s = m.recomputeRow l' (tokens.take (i + 1)) := by
  intro n
  induction n with
  | zero =>
    intro l pool _
    exact ⟨pool, [], rfl, rfl, fun _ _ _ => rfl, fun l' h1 h2 => absurd h2 (by omega)⟩
  | succ n ih =>
    intro l pool hpre
    have hroom := hlen
    rw [List.length_append] at hroom
    let fetched : List (Fetched α) := (List.range l).map fun l' => ⟨pre.length, m.recomputeLayer l' tokens⟩
    have hfetched : fetched.length = l := by rw [List.length_map, List.length_range]
    let new' (j : Nat) := m.row l (pre.length + j) ((tokens.drop pre.length).getD j 0) (fetched.map (·.visible j))
    let keys : HeadFirst α :=
      { seqLen := (tokens.drop pre.length).length, elem := fun head j dim => (new' j).1 head dim }
    let values : HeadFirst α :=
      { seqLen := (tokens.drop pre.length).length, elem := fun head j dim => (new' j).2 head dim }
    have hkeys : keys.seqLen = new.length := by
      show (tokens.drop pre.length).length = new.length
      rw [List.length_drop]
      omega
    have hrow : ∀ j < new.length, (keys.row j, values.row j) =
      m.recomputeRow l (tokens.take (pre.length + j + 1)) := fun j hj => m.row_recomputed pre l (by omega)
    obtain ⟨pool₁, k, v, heq, hfetch, hother, hlayer⟩ := m.update_recomputed hlen hnd hne
      (hpre l (Nat.le_refl l) (by omega)) hkeys hrow
    obtain ⟨pool', caches, hrest, hidx, hsame, hdone⟩ := ih (l + 1) pool₁ fun l' h1 h2 i s hs => by
      rw [hother l' s (Or.inl (show l' ≠ l by omega))]
      exact hpre l' (by omega) (by omega) i s hs
    refine ⟨pool', { layerIdx := l, prefixIndices := pre, newIndices := new, storeOffset :=
      new.length } :: caches, ?_, ?_, fun l' s h => ?_, fun l' h1 h2 i s hs => ?_⟩
    · rw [List.range_succ, List.map_append, List.map_singleton, ← hfetch, Nat.add_right_comm] at hrest
      rw [List.range'_succ]
      refine m.forward_cons (show ∀ j, new' j = _ from fun j => ?_) rfl rfl heq hrest
      rw [hfetched]
      rfl
    · rw [List.range'_succ, List.map_cons, hidx]
    · rw [hsame l' s (h.imp_left fun h => by omega)]
      exact hother l' s (h.imp_left fun h => (by omega : l' ≠ l))
    · by_cases hl : l' = l
      · rw [hsame l' s (Or.inl (by omega)), hl]
        exact hlayer i s hs
      · exact hdone l' (by omega) (by omega) i s hs

end

/-- If `pre` holds the recomputed rows of the start of `tokens`, the call writes
    the other rows into `new` and returns the recomputed logits. -/
theorem toModel_spec {tokens : List Token} {pre new : List Slot} (hlen : (pre ++ new).length = tokens.length)
    (hnd : (pre ++ new).Nodup) (hne : new ≠ []) {layers : Nat} (pool : MHATokenPool α)
    (hpre : ∀ l < layers, ∀ i s, pre[i]? = some s → pool.slot l s = m.recomputeRow l (tokens.take (i + 1))) :
    ∃ pool' caches logits, m.toModel (tokens.drop pre.length) pool
        (ModelRunner.freshCaches (List.range layers) pre new) = (pool', caches, .ok logits) ∧
      caches.map PooledKVCache.layerIdx = List.range layers ∧
      (∀ l s, s ∉ new → pool'.slot l s = pool.slot l s) ∧
      (∀ l < layers, ∀ i s, (pre ++ new)[i]? = some s → pool'.slot l s = m.recomputeRow l (tokens.take (i + 1))) ∧
      logits.getLast? = some (m.recomputeLogits layers tokens) := by
  obtain ⟨pool', caches, heq, hidx, hsame, hdone⟩ := m.forward_layers hlen hnd hne layers 0 pool
    fun l _ hl i s hs => hpre l (by omega) i s hs
  rw [← List.range_eq_range', Nat.zero_add] at heq
  rw [← List.range_eq_range'] at hidx
  have hcall : m.toModel (tokens.drop pre.length) pool (ModelRunner.freshCaches (List.range layers) pre new) =
      (pool', caches, .ok ((List.range (tokens.drop pre.length).length).map fun j =>
        m.logits ((tokens.drop pre.length).getD j 0) (((List.range layers).map fun l =>
          (⟨pre.length, m.recomputeLayer l tokens⟩ : Fetched α)).map (·.visible j)))) := by
    show (_, _, Except.map _ _) = _
    rw [show ([] : List (Fetched α)) = (List.range 0).map fun l =>
      ⟨pre.length, m.recomputeLayer l tokens⟩ from rfl, heq]
    rfl
  refine ⟨pool', caches, _, hcall, hidx, fun l s hs => hsame l s (Or.inr hs),
    fun l hl i s hs => hdone l (Nat.zero_le l) (by omega) i s hs, ?_⟩
  have hpos := List.length_pos_of_ne_nil hne
  rw [List.length_append] at hlen
  have hn : (tokens.drop pre.length).length = (new.length - 1) + 1 := by rw [List.length_drop]; omega
  have hlast : pre.length + (new.length - 1) = tokens.length - 1 := by omega
  rw [hn, List.range_succ, List.map_append, List.map_singleton, List.getLast?_concat, recomputeLogits,
    recompute_eq, List.map_map, List.getD_eq_getElem?_getD, List.getD_eq_getElem?_getD, List.getElem?_drop, hlast]
  congr 2
  refine List.map_congr_left fun l _ => ?_
  show (m.recomputeLayer l tokens).take (pre.length + (new.length - 1) + 1) = _
  refine List.take_of_length_le ?_
  rw [recomputeLayer, List.length_map, List.length_range]
  omega

/-- A model to evaluate: it adds up what it may look at. -/
def tally : CausalModel Nat Nat where
  row layer position token past :=
    let seen := (past.map fun rows => (rows.map fun x => x.1 0 0).sum).sum + token + position
    (fun _ _ => seen, fun _ _ => seen + layer)
  logits token past := (past.map fun rows => (rows.map fun x => x.2 0 0).sum).sum + token

end CausalModel

end SglangMlx
