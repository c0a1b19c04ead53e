import Mathlib

/- Signed machine integers as integers that wrap in two's complement, and the
   counting loop of a thread over a strided range. Nothing here names the program
   that uses it. -/
namespace MachineInt

/-- The value of `z` in a signed 32-bit register. -/
def int32 (z : Int) : Int := z.bmod (2 ^ 32)

/-- The value of `z` in a signed 64-bit register. -/
def int64 (z : Int) : Int := z.bmod (2 ^ 64)

theorem int32_of_range {z : Int} (h0 : -2 ^ 31 ≤ z) (h : z < 2 ^ 31) : int32 z = z :=
  Int.bmod_eq_of_le_mul_two (by omega) (by omega)

theorem int64_of_range {z : Int} (h0 : -2 ^ 63 ≤ z) (h : z < 2 ^ 63) : int64 z = z :=
  Int.bmod_eq_of_le_mul_two (by omega) (by omega)

theorem int32_natCast {n : Nat} (h : n < 2 ^ 31) : int32 n = n := int32_of_range (by omega) (by omega)

theorem int64_natCast {n : Nat} (h : n < 2 ^ 63) : int64 n = n := int64_of_range (by omega) (by omega)

theorem int32_range (z : Int) : -2 ^ 31 ≤ int32 z ∧ int32 z < 2 ^ 31 :=
  ⟨Int.le_bmod (by norm_num), Int.bmod_lt (by norm_num)⟩

theorem int32_modEq (z : Int) : int32 z ≡ z [ZMOD 2 ^ 32] :=
  (Int.modEq_iff_dvd.mpr Int.dvd_bmod_sub_self).symm

theorem int32_eq_iff {z w : Int} : int32 z = w ↔ (-2 ^ 31 ≤ w ∧ w < 2 ^ 31) ∧ w ≡ z [ZMOD 2 ^ 32] := by
  constructor
  · rintro rfl
    exact ⟨int32_range z, int32_modEq z⟩
  · rintro ⟨⟨h0, h1⟩, hmod⟩
    obtain ⟨k, hk⟩ := Int.modEq_iff_dvd.mp ((int32_modEq z).trans hmod.symm)
    obtain ⟨hz0, hz1⟩ := int32_range z
    omega

theorem int32_natCast_le (n : Nat) : int32 n ≤ n := by
  rcases Nat.lt_or_ge n (2 ^ 31) with h | h
  · rw [int32_natCast h]
  · have := (int32_range n).2
    omega

/-- The values of `i` in `for (int i = start; i < bound; i += step)`; `none` when
    the loop takes `fuel` rounds or more. -/
def forLoop (bound step : Int) : Nat → Int → Option (List Int)
  | 0, _ => none
  | fuel + 1, i => if i < bound then (forLoop bound step fuel (int32 (i + step))).map (i :: ·) else some []

theorem forLoop_mono {bound step : Int} : ∀ {fuel fuel' : Nat} {i : Int} {l : List Int}, fuel ≤ fuel' →
    forLoop bound step fuel i = some l → forLoop bound step fuel' i = some l := by
  intro fuel
  induction fuel with
  | zero => intro fuel' i l _ h; cases h
  | succ fuel ih =>
    intro fuel' i l hle h
    obtain ⟨fuel', rfl⟩ : ∃ k, fuel' = k + 1 := ⟨fuel' - 1, by omega⟩
    rw [forLoop] at h ⊢
    split at h
    · next hlt =>
      obtain ⟨l', hl', rfl⟩ := Option.map_eq_some_iff.mp h
      rw [if_pos hlt, ih (Nat.le_of_succ_le_succ hle) hl']
      rfl
    · next hlt => rw [if_neg hlt, h]

theorem forLoop_unique {bound step : Int} {fuel fuel' : Nat} {i : Int} {l l' : List Int}
    (h : forLoop bound step fuel i = some l) (h' : forLoop bound step fuel' i = some l') : l = l' :=
  Option.some.inj ((forLoop_mono (Nat.le_max_left fuel fuel') h).symm.trans
    (forLoop_mono (Nat.le_max_right fuel fuel') h'))

/-- A loop that cannot overflow visits the arithmetic progression below its bound. -/
theorem forLoop_spec {bound step : Nat} (hstep : 0 < step) (hsum : bound + step ≤ 2 ^ 31) : ∀ (fuel start : Nat),
    bound ≤ start + fuel → ∃ l, forLoop bound step (fuel + 1) start = some l ∧
      ∀ z : Int, z ∈ l ↔ ∃ k : Nat, z = (start + k * step : Nat) ∧ start + k * step < bound := by
  intro fuel
  induction fuel with
  | zero =>
    intro start h
    have hge : ¬(start : Int) < bound := by omega
    refine ⟨[], by simp [forLoop, hge], fun z => iff_of_false List.not_mem_nil ?_⟩
    intro ⟨k, _, hk⟩
    have := Nat.le_add_right start (k * step)
    omega
  | succ fuel ih =>
    intro start h
    by_cases hlt : start < bound
    · have hnext : int32 ((start : Int) + step) = (start + step : Nat) := by
        rw [← Nat.cast_add, int32_natCast (by omega)]
      obtain ⟨l, hl, hmem⟩ := ih (start + step) (by omega)
      have hltz : (start : Int) < bound := by omega
      refine ⟨start :: l, ?_, fun z => ?_⟩
      · rw [forLoop, if_pos hltz, hnext, hl]
        rfl
      · rw [List.mem_cons, hmem]
        constructor
        · rintro (rfl | ⟨k, rfl, hk⟩)
          · exact ⟨0, by rw [Nat.zero_mul, Nat.add_zero], by omega⟩
          · have : start + (k + 1) * step = start + step + k * step := by ring
            exact ⟨k + 1, by rw [this], by omega⟩
        · intro ⟨k, hz, hk⟩
          cases k with
          | zero => exact Or.inl (by rw [hz, Nat.zero_mul, Nat.add_zero])
          | succ k =>
            have : start + (k + 1) * step = start + step + k * step := by ring
            exact Or.inr ⟨k, by rw [hz, this], by omega⟩
    · have hge : ¬(start : Int) < bound := by omega
      refine ⟨[], by rw [forLoop, if_neg hge], fun z => iff_of_false List.not_mem_nil ?_⟩
      intro ⟨k, _, hk⟩
      have := Nat.le_add_right start (k * step)
      omega

/-! ## Loops that may not end -/

/-- The value of `i` in round `k`. -/
def counter (step start : Int) : Nat → Int
  | 0 => start
  | k + 1 => int32 (counter step start k + step)

/-- Some round of the loop has this value of `i`. -/
def Visits (bound step start i : Int) : Prop := ∃ k, counter step start k = i ∧
    ∀ j ≤ k, counter step start j < bound

theorem counter_succ (step start : Int) : ∀ k, counter step start (k + 1) = counter step (int32 (start + step)) k
  | 0 => rfl
  | k + 1 => by rw [counter, counter_succ step start k, counter]

/-- When the loop ends, these are the rounds it made. -/
theorem forLoop_visits {bound step : Int} : ∀ {fuel : Nat} {start : Int} {l : List Int},
    forLoop bound step fuel start = some l → ∀ i, i ∈ l ↔ Visits bound step start i := by
  intro fuel
  induction fuel with
  | zero => intro start l h; cases h
  | succ fuel ih =>
    intro start l h i
    rw [forLoop] at h
    split at h
    · next hlt =>
      obtain ⟨l', hl', rfl⟩ := Option.map_eq_some_iff.mp h
      rw [List.mem_cons, ih hl']
      constructor
      · rintro (rfl | ⟨k, hk, hall⟩)
        · refine ⟨0, rfl, fun j hj => ?_⟩
          obtain rfl := Nat.le_zero.mp hj
          exact hlt
        · refine ⟨k + 1, by rw [counter_succ, hk], fun j hj => ?_⟩
          cases j with
          | zero => exact hlt
          | succ j => rw [counter_succ]; exact hall j (Nat.le_of_succ_le_succ hj)
      · rintro ⟨k, hk, hall⟩
        cases k with
        | zero => exact Or.inl hk.symm
        | succ k =>
          refine Or.inr ⟨k, by rw [← counter_succ, hk], fun j hj => ?_⟩
          rw [← counter_succ]
          exact hall (j + 1) (Nat.succ_le_succ hj)
    · next hge =>
      obtain rfl := Option.some.inj h
      refine iff_of_false List.not_mem_nil fun ⟨_, _, hall⟩ => hge (hall 0 (Nat.zero_le _))

theorem counter_eq {bound step start : Nat} (hb : bound ≤ 2 ^ 31) : ∀ k, start + k * step < bound →
    counter step start k = (start + k * step : Nat)
  | 0, _ => by rw [Nat.zero_mul]; rfl
  | k + 1, h => by
    have hsucc : start + (k + 1) * step = start + k * step + step := by ring
    rw [hsucc] at h ⊢
    rw [counter, counter_eq hb k (by omega), ← Nat.cast_add, int32_natCast (by omega)]

theorem visits_progression {bound step start k : Nat} (hb : bound ≤ 2 ^ 31) (h : start + k * step < bound) :
    Visits bound step start (start + k * step : Nat) := by
  refine ⟨k, counter_eq hb k h, fun j hj => ?_⟩
  have hle : start + j * step ≤ start + k * step := Nat.add_le_add_left (Nat.mul_le_mul_right step hj) start
  rw [counter_eq hb j (by omega)]
  omega

/-- The round after the last one that does not overflow. -/
theorem visits_overflow {bound step start k : Nat} (hb : bound ≤ 2 ^ 31) (h : start + k * step < bound) {i : Int}
    (hi : int32 (start + k * step + step : Nat) = i) (hlt : i < bound) : Visits bound step start i := by
  obtain ⟨k', hk', hall⟩ := visits_progression hb h
  have hnext : counter step start (k' + 1) = i := by rw [counter, hk', ← Nat.cast_add, hi]
  refine ⟨k' + 1, hnext, fun j hj => ?_⟩
  rcases Nat.le_succ_iff.mp hj with hj | rfl
  · exact hall j hj
  · exact hnext ▸ hlt

theorem visits_iff {bound step start : Nat} (hsum : bound + step ≤ 2 ^ 31) (i : Int) :
    Visits bound step start i ↔ ∃ k : Nat, i = (start + k * step : Nat) ∧ start + k * step < bound := by
  constructor
  · rintro ⟨k, rfl, hall⟩
    have heq : ∀ j ≤ k, counter step start j = (start + j * step : Nat) := by
      intro j
      induction j with
      | zero => intro _; rw [Nat.zero_mul]; rfl
      | succ j ih =>
        intro hj
        have hlt := hall j (by omega)
        rw [ih (by omega)] at hlt
        have hsucc : start + (j + 1) * step = start + j * step + step := by ring
        rw [counter, ih (by omega), ← Nat.cast_add, ← hsucc, int32_natCast (by omega)]
    have hlt := hall k (Nat.le_refl k)
    rw [heq k (Nat.le_refl k)] at hlt
    exact ⟨k, heq k (Nat.le_refl k), Int.ofNat_lt.mp hlt⟩
  · rintro ⟨k, rfl, h⟩
    exact visits_progression (by omega) h

theorem forLoop_eq_none (bound step : Int) (hdvd : step ∣ 2 ^ 31) (hbound : 2 ^ 31 < bound + step) :
    ∀ (fuel : Nat) (i : Int), step ∣ i → forLoop bound step fuel (int32 i) = none := by
  intro fuel
  induction fuel with
  | zero => exact fun _ _ => rfl
  | succ fuel ih =>
    intro i hi
    have hwrap : step ∣ i - int32 i := (hdvd.mul_left 2).trans (Int.modEq_iff_dvd.mp (int32_modEq i))
    have hmul : step ∣ int32 i := (dvd_sub_right hi).mp hwrap
    have hlast : step ≤ 2 ^ 31 - int32 i :=
      Int.le_of_dvd (Int.sub_pos_of_lt (int32_range i).2) (dvd_sub hdvd hmul)
    rw [forLoop, if_pos (by omega), ih _ (dvd_add hmul (dvd_refl step))]
    rfl

/-! ## Loops that do not overflow -/

def loopNat (bound step : Nat) : Nat → Nat → List Nat
  | 0, _ => []
  | fuel + 1, i => if i < bound then i :: loopNat bound step fuel (i + step) else []

/-- The values of `i` in `for (i = start; i < bound; i += step)`. -/
def strided (start bound step : Nat) : List Nat := loopNat bound step bound start

theorem mem_loopNat {bound step : Nat} (hstep : 0 < step) {i : Nat} : ∀ {fuel start : Nat}, bound ≤ start + fuel →
    (i ∈ loopNat bound step fuel start ↔ i < bound ∧ ∃ k, i = start + k * step) := by
  intro fuel
  induction fuel with
  | zero =>
    intro start h
    refine iff_of_false List.not_mem_nil fun ⟨hi, k, hk⟩ => ?_
    have := Nat.le_add_right start (k * step)
    omega
  | succ fuel ih =>
    intro start h
    rw [loopNat]
    split
    · next hlt =>
      rw [List.mem_cons, ih (by omega)]
      constructor
      · rintro (rfl | ⟨hi, k, rfl⟩)
        · exact ⟨hlt, 0, by rw [Nat.zero_mul, Nat.add_zero]⟩
        · exact ⟨hi, k + 1, by ring⟩
      · rintro ⟨hi, k, rfl⟩
        cases k with
        | zero => exact Or.inl (by rw [Nat.zero_mul, Nat.add_zero])
        | succ k => exact Or.inr ⟨hi, k, by ring⟩
    · next hge =>
      refine iff_of_false List.not_mem_nil fun ⟨hi, k, hk⟩ => ?_
      have := Nat.le_add_right start (k * step)
      omega

theorem loopNat_sorted {bound step : Nat} (hstep : 0 < step) : ∀ (fuel start : Nat),
    (loopNat bound step fuel start).Pairwise (· < ·) ∧ ∀ i ∈ loopNat bound step fuel start, start ≤ i := by
  intro fuel
  induction fuel with
  | zero => exact fun _ => ⟨List.Pairwise.nil, fun i hi => absurd hi List.not_mem_nil⟩
  | succ fuel ih =>
    intro start
    rw [loopNat]
    split
    · obtain ⟨hsorted, hle⟩ := ih (start + step)
      refine ⟨List.Pairwise.cons (fun i hi => ?_) hsorted, fun i hi => ?_⟩
      · have := hle i hi
        omega
      · rcases List.mem_cons.mp hi with rfl | hi
        · exact Nat.le_refl _
        · have := hle i hi
          omega
    · exact ⟨List.Pairwise.nil, fun i hi => absurd hi List.not_mem_nil⟩

theorem nodup_strided {start bound step : Nat} (hstep : 0 < step) : (strided start bound step).Nodup :=
  (loopNat_sorted hstep bound start).1.imp Nat.ne_of_lt

/-- Thread `start` of `step` visits the indices with remainder `start`. -/
theorem mem_strided {start bound step i : Nat} (hstart : start < step) :
    i ∈ strided start bound step ↔ i < bound ∧ i % step = start := by
  rw [strided, mem_loopNat (Nat.zero_lt_of_lt hstart) (Nat.le_add_left bound start)]
  refine and_congr_right fun _ => ?_
  constructor
  · rintro ⟨k, rfl⟩
    rw [Nat.add_mul_mod_self_right, Nat.mod_eq_of_lt hstart]
  · intro h
    exact ⟨i / step, by rw [← h, Nat.mul_comm]; exact (Nat.mod_add_div i step).symm⟩

/-- With `int`s the loop does the same, as long as its counter fits. -/
theorem forLoop_strided {start bound step : Nat} (hsum : bound + step ≤ 2 ^ 31) (hstep : 0 < step) :
    ∃ fuel, forLoop bound step fuel start = some ((strided start bound step).map Nat.cast) := by
  have hloop : ∀ fuel start : Nat, bound ≤ start + fuel →
      forLoop bound step (fuel + 1) start = some ((loopNat bound step fuel start).map Nat.cast) := by
    intro fuel
    induction fuel with
    | zero =>
      intro start h
      rw [forLoop, if_neg (by omega)]
      rfl
    | succ fuel ih =>
      intro start h
      rw [forLoop, loopNat]
      split
      · next hlt =>
        rw [if_pos (Int.ofNat_lt.mp hlt), ← Nat.cast_add, int32_natCast (by omega), ih _ (by omega)]
        rfl
      · next hge =>
        rw [if_neg fun h => hge (Int.ofNat_lt.mpr h)]
        rfl
  exact ⟨bound + 1, hloop bound start (Nat.le_add_left bound start)⟩

theorem visits_iff_mod {start bound step : Nat} (hsum : bound + step ≤ 2 ^ 31) (hstart : start < step) (i : Int) :
    Visits bound step start i ↔ ∃ j : Nat, i = j ∧ j < bound ∧ j % step = start := by
  obtain ⟨fuel, hloop⟩ := @forLoop_strided start bound step hsum (Nat.zero_lt_of_lt hstart)
  rw [← forLoop_visits hloop, List.mem_map]
  constructor
  · rintro ⟨j, hj, rfl⟩
    exact ⟨j, rfl, (mem_strided hstart).mp hj⟩
  · rintro ⟨j, rfl, hj⟩
    exact ⟨j, (mem_strided hstart).mpr hj, rfl⟩

theorem sum_strided {M : Type} [AddCommMonoid M] (f : Nat → M) (bound : Nat) {step : Nat} (hstep : 0 < step) :
    ∑ start ∈ Finset.range step, ((strided start bound step).map f).sum = ∑ i ∈ Finset.range bound, f i := by
  have hthread : ∀ start ∈ Finset.range step,
      ((strided start bound step).map f).sum = ∑ i ∈ (Finset.range bound).filter fun i => i % step =
        start, f i := by
    intro start hstart
    rw [← List.sum_toFinset f (nodup_strided hstep)]
    apply Finset.sum_congr _ fun _ _ => rfl
    ext i
    rw [List.mem_toFinset, mem_strided (Finset.mem_range.mp hstart), Finset.mem_filter, Finset.mem_range]
  rw [Finset.sum_congr rfl hthread]
  exact Finset.sum_fiberwise_of_maps_to (fun i _ => Finset.mem_range.mpr (Nat.mod_lt i hstep)) f

theorem exists_thread {step i : Nat} (hstep : 0 < step) : ∃ tid < step, ∃ k, i = tid + k * step :=
  ⟨i % step, Nat.mod_lt i hstep, i / step, by rw [Nat.mul_comm]; exact (Nat.mod_add_div i step).symm⟩

end MachineInt
