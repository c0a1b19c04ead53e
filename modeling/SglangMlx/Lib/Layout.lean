import Mathlib

/- Memory written at computed addresses. A mixed-radix number `a * m + r` with
   `r < m` has one leading part and one last digit, so the row-major place of an
   index is injective and bounded (`flat`); `place` is the place of an index under
   any strides. A memory that has been written in any order holds at an address the
   value that all writes to the address agree on. -/
namespace Layout

/-! ## Mixed radix -/

theorem digit_lt {a n r m : Nat} (ha : a < n) (hr : r < m) : a * m + r < n * m :=
  calc a * m + r < a * m + m := Nat.add_lt_add_left hr _
    _ = (a + 1) * m := (Nat.succ_mul a m).symm
    _ ≤ n * m := Nat.mul_le_mul_right m ha

theorem digit_inj {a a' r r' m : Nat} (hr : r < m) (hr' : r' < m) (h : a * m + r = a' * m + r') :
    a = a' ∧ r = r' := by
  have hm : 0 < m := Nat.zero_lt_of_lt hr
  have h1 := congrArg (· / m) h
  have h2 := congrArg (· % m) h
  simp only [Nat.mul_comm _ m, Nat.mul_add_div hm, Nat.mul_add_mod, Nat.div_eq_of_lt hr, Nat.div_eq_of_lt hr',
    Nat.mod_eq_of_lt hr, Nat.mod_eq_of_lt hr', Nat.add_zero] at h1 h2
  exact ⟨h1, h2⟩

/-! ## Places of an index -/

theorem forall_index_nil {P : List Nat → Prop} :
    (∀ idx, List.Forall₂ (· < ·) idx ([] : List Nat) → P idx) ↔ P [] :=
  ⟨fun h => h [] .nil, fun h _ hidx => by cases hidx; exact h⟩

theorem forall_index_cons {m : Nat} {shape : List Nat} {P : List Nat → Prop} :
    (∀ idx, List.Forall₂ (· < ·) idx (m :: shape) → P idx) ↔
      ∀ i < m, ∀ idx, List.Forall₂ (· < ·) idx shape → P (i :: idx) := by
  constructor
  · exact fun h i hi idx hidx => h (i :: idx) (.cons hi hidx)
  · intro h idx hidx
    cases hidx with
    | cons hi hidx => exact h _ hi _ hidx

theorem forall_digits {n x : Nat} (hx : 0 < x) (hdvd : x ∣ n) {P : Nat → Nat → Prop} :
    (∀ d < n, P (d / x) (d % x)) ↔ ∀ j < n / x, ∀ r < x, P j r := by
  constructor
  · intro h j hj r hr
    have hd := h (j * x + r) (by rw [← Nat.div_mul_cancel hdvd]; exact digit_lt hj hr)
    rwa [Nat.mul_comm, Nat.mul_add_div hx, Nat.mul_add_mod, Nat.div_eq_of_lt hr, Nat.mod_eq_of_lt hr,
      Nat.add_zero] at hd
  · exact fun h d hd => h _ (Nat.div_lt_div_of_lt_of_dvd hdvd hd) _ (Nat.mod_lt d hx)

/-- The row-major place of an index in an array of this shape. -/
def flat : List Nat → List Nat → Nat
  | _ :: shape, i :: idx => i * shape.prod + flat shape idx
  | _, _ => 0

/-- The place of an index under these strides. -/
def place : List Int → List Nat → Int
  | s :: strides, i :: idx => s * i + place strides idx
  | _, _ => 0

/-- The strides that give the row-major places. -/
def rowStrides : List Nat → List Int
  | [] => []
  | _ :: shape => (shape.prod : Nat) :: rowStrides shape

theorem place_rowStrides : ∀ {shape idx : List Nat}, List.Forall₂ (· < ·) idx shape →
    place (rowStrides shape) idx = flat shape idx := by
  intro shape idx h
  induction h with
  | nil => rfl
  | cons _ _ ih =>
    rw [rowStrides, place, flat, ih]
    push_cast
    ring

theorem rowStrides_length (shape : List Nat) : (rowStrides shape).length = shape.length := by
  induction shape with
  | nil => rfl
  | cons _ shape ih => rw [rowStrides, List.length_cons, List.length_cons, ih]

theorem flat_lt {idx shape : List Nat} (h : List.Forall₂ (· < ·) idx shape) : flat shape idx < shape.prod := by
  induction h with
  | nil => exact Nat.one_pos
  | cons hi _ ih =>
    rw [flat, List.prod_cons]
    exact digit_lt hi ih

theorem flat_inj {idx shape : List Nat} (h : List.Forall₂ (· < ·) idx shape) : ∀ {idx' : List Nat},
    List.Forall₂ (· < ·) idx' shape → flat shape idx = flat shape idx' → idx = idx' := by
  induction h with
  | nil =>
    intro idx' h' _
    cases h'
    rfl
  | cons _ hrest ih =>
    intro idx' h' heq
    cases h' with
    | cons _ hrest' =>
      rw [flat, flat] at heq
      obtain ⟨rfl, hflat⟩ := digit_inj (flat_lt hrest) (flat_lt hrest') heq
      rw [ih hrest' hflat]

theorem exists_index : ∀ {shape : List Nat} {n : Nat}, n < shape.prod →
    ∃ idx, List.Forall₂ (· < ·) idx shape ∧ flat shape idx = n := by
  intro shape
  induction shape with
  | nil =>
    intro n h
    exact ⟨[], .nil, (Nat.lt_one_iff.mp h).symm⟩
  | cons m shape ih =>
    intro n h
    rw [List.prod_cons, Nat.mul_comm] at h
    have hpos : 0 < shape.prod := Nat.pos_of_mul_pos_right (Nat.zero_lt_of_lt h)
    obtain ⟨idx, hidx, hflat⟩ := ih (Nat.mod_lt n hpos)
    refine ⟨n / shape.prod :: idx, .cons (Nat.div_lt_of_lt_mul h) hidx, ?_⟩
    rw [flat, hflat, Nat.div_add_mod']

/-! ## Strides that give the same places -/

/-- The strides agree on every axis that has more than one index. -/
def SameStrides : List Nat → List Int → List Int → Prop
  | m :: shape, s :: strides, s' :: strides' => (1 < m → s = s') ∧ SameStrides shape strides strides'
  | _, _, _ => True

instance SameStrides.instDecidable : ∀ shape strides strides', Decidable (SameStrides shape strides strides')
  | [], _, _ => isTrue trivial
  | _ :: _, [], _ => isTrue trivial
  | _ :: _, _ :: _, [] => isTrue trivial
  | m :: shape, s :: strides, s' :: strides' =>
    have := instDecidable shape strides strides'
    inferInstanceAs (Decidable ((1 < m → s = s') ∧ SameStrides shape strides strides'))

theorem zeros_mem {shape : List Nat} (hpos : ∀ m ∈ shape, 0 < m) :
    List.Forall₂ (· < ·) (shape.map fun _ => 0) shape := by
  induction shape with
  | nil => exact .nil
  | cons m shape ih =>
    exact .cons (hpos m List.mem_cons_self) (ih fun k hk => hpos k (List.mem_cons_of_mem m hk))

theorem place_zeros (shape : List Nat) : ∀ strides : List Int, place strides (shape.map fun _ => 0) = 0 := by
  induction shape with
  | nil =>
    intro strides
    cases strides <;> rfl
  | cons m shape ih =>
    intro strides
    cases strides with
    | nil => rfl
    | cons s strides => rw [List.map_cons, place, ih, Nat.cast_zero, mul_zero, add_zero]

/-- Strides that differ on an axis with two indices give some index another place. -/
theorem place_eq_iff : ∀ {shape : List Nat} {strides strides' : List Int}, strides.length = shape.length →
    strides'.length = shape.length → (∀ m ∈ shape, 0 < m) →
    ((∀ idx, List.Forall₂ (· < ·) idx shape → place strides idx = place strides' idx) ↔
      SameStrides shape strides strides') := by
  intro shape
  induction shape with
  | nil =>
    intro strides strides' h h' _
    refine iff_of_true (fun idx hidx => ?_) trivial
    cases hidx
    rw [List.length_eq_zero_iff.mp h, List.length_eq_zero_iff.mp h']
  | cons m shape ih =>
    intro strides strides' h h' hpos
    obtain ⟨s, strides, rfl⟩ := List.exists_cons_of_length_eq_add_one h
    obtain ⟨s', strides', rfl⟩ := List.exists_cons_of_length_eq_add_one h'
    have hrest : ∀ k ∈ shape, 0 < k := fun k hk => hpos k (List.mem_cons_of_mem m hk)
    rw [SameStrides, ← ih (Nat.succ.inj h) (Nat.succ.inj h') hrest]
    constructor
    · intro hall
      constructor
      · intro hm
        have hone := hall (1 :: shape.map fun _ => 0) (.cons hm (zeros_mem hrest))
        simpa only [place, place_zeros, Nat.cast_one, mul_one, add_zero] using hone
      · intro idx hidx
        have hzero := hall (0 :: idx) (.cons (hpos m List.mem_cons_self) hidx)
        simpa only [place, Nat.cast_zero, mul_zero, zero_add] using hzero
    · rintro ⟨hfirst, hall⟩ idx hidx
      cases hidx with
      | @cons i _ idx _ hi hidx =>
        rw [place, place, hall idx hidx, add_left_inj]
        rcases Nat.eq_zero_or_pos i with rfl | hi'
        · rw [Nat.cast_zero, mul_zero, mul_zero]
        · rw [hfirst (Nat.lt_of_le_of_lt hi' hi)]

/-! ## Writes -/

variable {A V : Type} [DecidableEq A]

/-- The memory after the writes `ws`, in this order. -/
def write (mem : A → V) (ws : List (A × V)) : A → V := ws.foldl (fun mem w => Function.update mem w.1 w.2) mem

theorem write_of_forall_ne {a : A} : ∀ (ws : List (A × V)) (mem : A → V), (∀ w ∈ ws, w.1 ≠ a) →
    write mem ws a = mem a := by
  intro ws
  induction ws with
  | nil => intro mem _; rfl
  | cons w rest ih =>
    intro mem h
    show write (Function.update mem w.1 w.2) rest a = mem a
    rw [ih _ fun w' hw' => h w' (List.mem_cons_of_mem w hw'), Function.update_of_ne (h w List.mem_cons_self).symm]

theorem write_of_mem {a : A} {v : V} : ∀ (ws : List (A × V)) (mem : A → V), (∃ w ∈ ws, w.1 = a) →
    (∀ w ∈ ws, w.1 = a → w.2 = v) → write mem ws a = v := by
  intro ws
  induction ws with
  | nil =>
    intro mem ⟨w, hw, _⟩
    cases hw
  | cons w rest ih =>
    intro mem hex hall
    show write (Function.update mem w.1 w.2) rest a = v
    by_cases hrest : ∃ w' ∈ rest, w'.1 = a
    · exact ih _ hrest fun w' hw' => hall w' (List.mem_cons_of_mem w hw')
    · have hw : w.1 = a := by
        obtain ⟨w', hw', ha⟩ := hex
        rcases List.mem_cons.mp hw' with rfl | hw'
        · exact ha
        · exact absurd ⟨w', hw', ha⟩ hrest
      rw [write_of_forall_ne rest _ fun w' hw' ha => hrest ⟨w', hw', ha⟩, hw, Function.update_self]
      exact hall w List.mem_cons_self hw

theorem write_or_kept {a : A} {v : V} (ws : List (A × V)) (mem : A → V) (hall : ∀ w ∈ ws, w.1 = a → w.2 = v) :
    write mem ws a = v ∨ write mem ws a = mem a := by
  by_cases hex : ∃ w ∈ ws, w.1 = a
  · exact Or.inl (write_of_mem ws mem hex hall)
  · exact Or.inr (write_of_forall_ne ws mem fun w hw ha => hex ⟨w, hw, ha⟩)

/-! ## Scattering

Jobs `j` make one store each, into the cells of an array; the stores come in any order. -/

section
variable {J S V : Type} {order : List S} {store : J → S} {Job : J → Prop} {shape : List Nat} {cell : J → List Nat}
  {tgt : S → Int} {val : S → V} (hmem : ∀ s, s ∈ order ↔ ∃ j, Job j ∧ s = store j)
  (hin : ∀ j, Job j → List.Forall₂ (· < ·) (cell j) shape)
  (htgt : ∀ j, tgt (store j) = (flat shape (cell j) : Nat))
include hmem hin htgt

/-- When no two jobs share a cell, a job's cell holds its value. -/
theorem scatter_cell (hinj : ∀ j j', Job j → Job j' → cell j = cell j' → j = j') (mem : Int → V) {j : J}
    (hj : Job j) :
    write mem (order.map fun s => (tgt s, val s)) (flat shape (cell j) : Nat) = val (store j) := by
  refine write_of_mem _ mem ⟨_, List.mem_map_of_mem ((hmem _).mpr ⟨j, hj, rfl⟩), htgt j⟩ fun w hw haddr => ?_
  obtain ⟨s, hs, rfl⟩ := List.mem_map.mp hw
  obtain ⟨j', hj', rfl⟩ := (hmem s).mp hs
  rw [htgt, Int.ofNat_inj] at haddr
  rw [hinj j' j hj' hj (flat_inj (hin j' hj') (hin j hj) haddr)]

theorem scatter_other (mem : Int → V) {idx : List Nat} (hidx : List.Forall₂ (· < ·) idx shape)
    (hfree : ∀ j, Job j → idx ≠ cell j) :
    write mem (order.map fun s => (tgt s, val s)) (flat shape idx : Nat) = mem (flat shape idx : Nat) := by
  refine write_of_forall_ne _ mem fun w hw haddr => ?_
  obtain ⟨s, hs, rfl⟩ := List.mem_map.mp hw
  obtain ⟨j, hj, rfl⟩ := (hmem s).mp hs
  rw [htgt, Int.ofNat_inj] at haddr
  exact hfree j hj (flat_inj hidx (hin j hj) haddr.symm)

end

end Layout
