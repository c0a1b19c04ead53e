import SglangMlx.Lib.Layout

/- A store of slots that are numbered block by block. The entries of a sequence lie in
   blocks that need not be neighbours: its table names the block of every `size` entries
   (`slotOf`). What a sequence sees is changed by writes to its slots and copies onto its
   blocks only; entries written at its next slots come after the others (`view_write`),
   and a block may be replaced by a copy of it (`copyBlocks_slotOf`). -/
namespace SlotStore

open Layout

variable {V : Type} (size : Nat)

/-- The slot of entry `t`. -/
def slotOf (table : Nat → Nat) (t : Nat) : Nat := table (t / size) * size + t % size

/-- The first `n` entries. -/
def view (table : Nat → Nat) (n : Nat) (m : Nat → V) : List V := (List.range n).map fun t =>
    m (slotOf size table t)

/-- `dst` with every second block of a pair replaced by the first block in `src`. -/
def copyBlocks (pairs : List (Nat × Nat)) (src dst : Nat → V) : Nat → V := fun s =>
  match pairs.find? fun q => q.2 = s / size with
  | some q => src (q.1 * size + s % size)
  | none => dst s

variable {size}

theorem slot_div {b t : Nat} (ht : t < size) : (b * size + t) / size = b := by
  rw [Nat.mul_comm, Nat.mul_add_div (Nat.zero_lt_of_lt ht), Nat.div_eq_of_lt ht, Nat.add_zero]

theorem slot_mod {b t : Nat} (ht : t < size) : (b * size + t) % size = t := by
  rw [Nat.mul_comm, Nat.mul_add_mod, Nat.mod_eq_of_lt ht]

theorem view_congr {table table' : Nat → Nat} {n : Nat} {m m' : Nat → V}
    (h : ∀ t < n, m (slotOf size table t) = m' (slotOf size table' t)) :
      view size table n m = view size table' n m' := List.map_congr_left fun t ht => h t (List.mem_range.mp ht)

/-! ## Writes -/

theorem view_write {table : Nat → Nat} {n : Nat} {m : Nat → V} {vs : List V} {ws : List (Nat × V)}
    (hnd : (ws.map Prod.fst).Nodup) (hold : ∀ w ∈ ws, ∀ t < n, w.1 ≠ slotOf size table t)
    (hnew : ∀ i v, vs[i]? = some v → (slotOf size table (n + i), v) ∈ ws) :
    view size table (n + vs.length) (write m ws) = view size table n m ++ vs := by
  apply List.ext_getElem?
  intro t
  rcases Nat.lt_or_ge t n with hlt | hge
  · have hkept : write m ws (slotOf size table t) = m (slotOf size table t) :=
      write_of_forall_ne ws m fun w hw => hold w hw t hlt
    rw [List.getElem?_append_left (by simpa [view] using hlt)]
    simp [view, hlt, Nat.lt_add_right vs.length hlt, hkept]
  · obtain ⟨i, rfl⟩ := Nat.exists_eq_add_of_le hge
    have hlen : (view size table n m).length = n := by simp [view]
    rw [List.getElem?_append_right (by rw [hlen]; exact hge), hlen, Nat.add_sub_cancel_left]
    cases hv : vs[i]? with
    | none =>
      have hi := List.getElem?_eq_none_iff.mp hv
      simp [view, hi]
    | some v =>
      have hi := (List.getElem?_eq_some_iff.mp hv).1
      have hmem := hnew i v hv
      -- the slot has one write
      have hwritten : write m ws (slotOf size table (n + i)) = v := by
        refine write_of_mem ws m ⟨_, hmem, rfl⟩ fun w hw heq => ?_
        rw [List.inj_on_of_nodup_map hnd hw hmem heq]
      simp [view, hi, hwritten]

/-! ## Copies -/

section
variable {pairs : List (Nat × Nat)} {src dst : Nat → V}

theorem copyBlocks_of_mem (hnd : (pairs.map Prod.snd).Nodup) {q : Nat × Nat} (hq : q ∈ pairs) {t : Nat}
    (ht : t < size) :
    copyBlocks size pairs src dst (q.2 * size + t) = src (q.1 * size + t) := by
  have hfind : pairs.find? (fun p => p.2 = q.2) = some q := by
    rw [List.find?_eq_some_iff_append]
    obtain ⟨as, bs, rfl⟩ := List.append_of_mem hq
    refine ⟨decide_eq_true rfl, as, bs, rfl, fun p hp => ?_⟩
    rw [List.map_append, List.map_cons] at hnd
    have hne := (List.nodup_append.mp hnd).2.2 p.2 (List.mem_map_of_mem hp) q.2 List.mem_cons_self
    simpa using hne
  rw [copyBlocks, slot_div ht, slot_mod ht, hfind]

theorem copyBlocks_of_not {b : Nat} (hfree : ∀ q ∈ pairs, q.2 ≠ b) {t : Nat} (ht : t < size) :
    copyBlocks size pairs src dst (b * size + t) = dst (b * size + t) := by
  have hnone : pairs.find? (fun p => p.2 = b) = none := by
    rw [List.find?_eq_none]
    intro q hq
    simpa using hfree q hq
  rw [copyBlocks, slot_div ht, hnone]

theorem view_copyBlocks_other (hsize : 0 < size) {table : Nat → Nat} {n : Nat}
    (hfree : ∀ q ∈ pairs, ∀ j, j * size < n → q.2 ≠ table j) :
    view size table n (copyBlocks size pairs src dst) = view size table n dst :=
  view_congr fun t ht => copyBlocks_of_not (fun q hq => hfree q hq _ ((Nat.div_mul_le_self t size).trans_lt ht))
    (Nat.mod_lt t hsize)

/-- A table may name the copy of a block in its place. -/
theorem copyBlocks_slotOf (hsize : 0 < size) (hnd : (pairs.map Prod.snd).Nodup) {table table' : Nat → Nat}
    {t : Nat} {m : Nat → V} (h : (table (t / size), table' (t / size)) ∈ pairs ∨
      table' (t / size) = table (t / size) ∧ ∀ q ∈ pairs, q.2 ≠ table (t / size)) :
    copyBlocks size pairs m m (slotOf size table' t) = m (slotOf size table t) := by
  rcases h with hmem | ⟨heq, hfree⟩
  · exact copyBlocks_of_mem hnd hmem (Nat.mod_lt t hsize)
  · rw [slotOf, slotOf, heq]
    exact copyBlocks_of_not hfree (Nat.mod_lt t hsize)

end

end SlotStore
