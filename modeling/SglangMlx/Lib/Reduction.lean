import Mathlib

/- Reductions over the lanes of a simdgroup. In a butterfly every lane combines its
   value with that of the lane whose number differs in one bit; after all bits every lane
   holds the combination of all. It is stated for any operation that is the image of a
   commutative sum: the sum itself, or the maximum above a lower bound. -/
namespace Reduction

variable {M V : Type}

/-- Exchanges with the lanes that differ in bit `k - 1`, …, `0`. -/
def butterfly (op : V → V → V) : Nat → (Nat → V) → Nat → V
  | 0, v => v
  | k + 1, v => butterfly op k fun l => op (v l) (v (l ^^^ 2 ^ k))

theorem two_pow_xor {k j : Nat} (hj : j < 2 ^ k) : 2 ^ k ^^^ j = 2 ^ k + j := by
  have hdiv : (2 ^ k ^^^ j) / 2 ^ k = 1 := by
    rw [Nat.xor_div_two_pow, Nat.div_self (Nat.two_pow_pos k), Nat.div_eq_of_lt hj, Nat.xor_zero]
  have hmod : (2 ^ k ^^^ j) % 2 ^ k = j := by
    rw [Nat.xor_mod_two_pow, Nat.mod_self, Nat.mod_eq_of_lt hj, Nat.zero_xor]
  rw [← Nat.div_add_mod (2 ^ k ^^^ j) (2 ^ k), hdiv, hmod, Nat.mul_one]

/-- Lanes outside the block of `2 ^ k` do not count. -/
theorem butterfly_congr {op : V → V → V} : ∀ {k : Nat} {v v' : Nat → V} {l : Nat},
    (∀ j < 2 ^ k, v (l ^^^ j) = v' (l ^^^ j)) → butterfly op k v l = butterfly op k v' l := by
  intro k
  induction k with
  | zero =>
    intro v v' l h
    simpa [butterfly] using h 0
  | succ k ih =>
    intro v v' l h
    rw [butterfly, butterfly]
    apply ih
    intro j hj
    have hbit : l ^^^ j ^^^ 2 ^ k = l ^^^ (2 ^ k + j) := by
      rw [← two_pow_xor hj, Nat.xor_assoc, Nat.xor_comm j]
    rw [hbit, h j (by rw [pow_succ]; omega), h (2 ^ k + j) (by rw [pow_succ]; omega)]

theorem butterfly_sum [AddCommMonoid M] {op : V → V → V} {g : M → V} (hg : ∀ a b, g (a + b) = op (g a) (g b)) :
    ∀ (k : Nat) (v : Nat → M) (l : Nat),
      butterfly op k (fun i => g (v i)) l = g (∑ j ∈ Finset.range (2 ^ k), v (l ^^^ j)) := by
  intro k
  induction k with
  | zero =>
    intro v l
    simp [butterfly]
  | succ k ih =>
    intro v l
    have hbit : ∀ j ∈ Finset.range (2 ^ k), v (l ^^^ j ^^^ 2 ^ k) = v (l ^^^ (2 ^ k + j)) := fun j hj => by
      rw [← two_pow_xor (Finset.mem_range.mp hj), Nat.xor_assoc, Nat.xor_comm j]
    have hstep : (fun i => op (g (v i)) (g (v (i ^^^ 2 ^ k)))) = fun i => g (v i + v (i ^^^ 2 ^ k)) :=
      funext fun i => (hg _ _).symm
    rw [butterfly, hstep, ih, Finset.sum_add_distrib, Finset.sum_congr rfl hbit, pow_succ, Nat.mul_two,
      Finset.sum_range_add]

/-- The lanes reached are those of the block of `2 ^ k` lanes. -/
theorem sum_xor [AddCommMonoid M] (k : Nat) (v : Nat → M) (l : Nat) :
    ∑ j ∈ Finset.range (2 ^ k), v (l ^^^ j) = ∑ j ∈ Finset.range (2 ^ k), v (l / 2 ^ k * 2 ^ k + j) := by
  have hlow : ∀ j, (l ^^^ j) % 2 ^ k < 2 ^ k := fun j => Nat.mod_lt _ (Nat.two_pow_pos k)
  have hself : ∀ j < 2 ^ k, (l ^^^ (l ^^^ j) % 2 ^ k) % 2 ^ k = j := fun j hj => by
    rw [Nat.xor_mod_two_pow, Nat.mod_mod, ← Nat.xor_mod_two_pow, ← Nat.xor_assoc, Nat.xor_self, Nat.zero_xor,
      Nat.mod_eq_of_lt hj]
  refine Finset.sum_nbij' (fun j => (l ^^^ j) % 2 ^ k) (fun j => (l ^^^ j) % 2 ^ k) ?_ ?_ ?_ ?_ ?_
  · exact fun j _ => Finset.mem_range.mpr (hlow j)
  · exact fun j _ => Finset.mem_range.mpr (hlow j)
  · exact fun j hj => hself j (Finset.mem_range.mp hj)
  · exact fun j hj => hself j (Finset.mem_range.mp hj)
  · intro j hj
    have hhigh : (l ^^^ j) / 2 ^ k = l / 2 ^ k := by
      rw [Nat.xor_div_two_pow, Nat.div_eq_of_lt (Finset.mem_range.mp hj), Nat.xor_zero]
    rw [← hhigh, Nat.div_add_mod']

theorem foldl_add {ι : Type} [AddCommMonoid M] (f : ι → M) : ∀ (L : List ι) (x : M),
    L.foldl (fun acc i => acc + f i) x = x + (L.map f).sum := by
  intro L
  induction L with
  | nil => exact fun x => (add_zero x).symm
  | cons i L ih => exact fun x => by rw [List.foldl_cons, ih, List.map_cons, List.sum_cons, add_assoc]

theorem foldl_range_add [AddCommMonoid M] (f : Nat → M) (n : Nat) :
    (List.range n).foldl (fun acc i => acc + f i) 0 = ∑ i ∈ Finset.range n, f i := by
  rw [foldl_add, zero_add, ← List.sum_toFinset f List.nodup_range, List.toFinset_range]

theorem sum_column [AddCommMonoid M] {ι κ : Type} [DecidableEq κ] (f : ι × κ → M) {D : List κ}
    (hD : D.Nodup) {d : κ} (hd : d ∈ D) (B : List ι) :
    (((B.flatMap fun i => D.map (Prod.mk i)).filter fun x : ι × κ => x.2 = d).map f).sum =
      (B.map fun i => f (i, d)).sum := by
  have hrow : ∀ i : ι, (D.map (Prod.mk i)).filter (fun x : ι × κ => x.2 = d) = [(i, d)] := by
    intro i
    have hone : D.filter (fun k => k = d) = [d] := by
      rw [List.filter_eq, List.count_eq_one_of_mem hD hd, List.replicate_one]
    rw [List.filter_map]
    exact congrArg (List.map (Prod.mk i)) hone
  induction B with
  | nil => rfl
  | cons i B ih => rw [List.flatMap_cons, List.filter_append, hrow, List.singleton_append, List.map_cons,
    List.sum_cons, ih, List.map_cons, List.sum_cons]

theorem sum_rows [AddCommMonoid M] (f : Nat → M) (k : Nat) : ∀ n : Nat,
    ∑ w ∈ Finset.range n, ∑ j ∈ Finset.range k, f (w * k + j) = ∑ i ∈ Finset.range (n * k), f i := by
  intro n
  induction n with
  | zero => rw [Nat.zero_mul, Finset.sum_range_zero, Finset.sum_range_zero]
  | succ n ih => rw [Finset.sum_range_succ, ih, Nat.succ_mul, Finset.sum_range_add]

/-! ## Maxima above a bound -/

/-- A number that is at least `b`; sums are maxima. -/
structure AtLeast {F : Type} [LinearOrder F] (b : F) where
  val : F
  le : b ≤ val

namespace AtLeast
variable {F : Type} [LinearOrder F] {b : F}

theorem ext' {x y : AtLeast b} (h : x.val = y.val) : x = y := by
  cases x
  cases y
  cases h
  rfl

instance : Add (AtLeast b) := ⟨fun x y => ⟨max x.val y.val, x.le.trans (le_max_left _ _)⟩⟩

instance : Zero (AtLeast b) := ⟨⟨b, le_refl b⟩⟩

instance : AddCommMonoid (AtLeast b) where
  add_assoc x y z := ext' (max_assoc x.val y.val z.val)
  zero_add x := ext' (max_eq_right x.le)
  add_zero x := ext' (max_eq_left x.le)
  add_comm x y := ext' (max_comm x.val y.val)
  nsmul := nsmulRec

theorem val_add (x y : AtLeast b) : (x + y).val = max x.val y.val := rfl

theorem val_sum {ι : Type} {s : Finset ι} (hs : s.Nonempty) (f : ι → AtLeast b) :
    (∑ i ∈ s, f i).val = s.sup' hs fun i => (f i).val := by
  induction hs using Finset.Nonempty.cons_induction with
  | singleton i => simp
  | cons i s hi hs ih => rw [Finset.sum_cons, val_add, ih, Finset.sup'_cons hs]

/-- A number, or the bound if that is above it. -/
def raise (b x : F) : AtLeast b := ⟨max b x, le_max_left b x⟩

theorem val_raise {x : F} (h : b ≤ x) : (raise b x).val = x := max_eq_right h

theorem foldl_max {ι : Type} (f : ι → F) : ∀ (L : List ι) (x : AtLeast b),
    L.foldl (fun m i => max m (f i)) x.val = (x + (L.map fun i => raise b (f i)).sum).val := by
  intro L
  induction L with
  | nil => exact fun x => congrArg val (add_zero x).symm
  | cons i L ih =>
    intro x
    have hstep : max x.val (f i) = (x + raise b (f i)).val := by
      rw [val_add, raise, ← max_assoc, max_eq_left x.le]
    rw [List.foldl_cons, hstep, ih, List.map_cons, List.sum_cons, add_assoc]

/-- The maximum of numbers that are all above the bound. -/
theorem val_sum_raise {ι : Type} {s : Finset ι} (hs : s.Nonempty) {f : ι → F} (hf : ∀ i ∈ s, b ≤ f i) :
    (∑ i ∈ s, raise b (f i)).val = s.sup' hs f := by
  rw [val_sum hs]
  exact Finset.sup'_congr hs rfl fun i hi => val_raise (hf i hi)

end AtLeast

end Reduction
