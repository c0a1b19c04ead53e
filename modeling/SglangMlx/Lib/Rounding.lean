import Mathlib

/- Rounding to the nearest point of an increasing grid, on a tie to the point at an even
   place. A place is right exactly if the number lies between the midpoints to its
   neighbours (`nearestEven_iff`), and signs do not matter (`signed_iff`). Nothing here
   names the program that uses it. -/
namespace Rounding

variable {F : Type} [CommRing F] [LinearOrder F] [IsStrictOrderedRing F]

/-- Of the first `N` points no one is nearer to `x` than point `n`, and one that is as near
    leaves `n` even. -/
structure NearestEven (g : Nat → F) (N : Nat) (x : F) (n : Nat) : Prop where
  lt : n < N
  nearest : ∀ k < N, |g n - x| ≤ |g k - x|
  even : ∀ k < N, g k ≠ g n → |g k - x| = |g n - x| → Even n

/-- The number lies between the midpoints; it is at one of them only if the place is even. -/
structure Between (g : Nat → F) (x : F) (n : Nat) : Prop where
  above : 2 * x ≤ g n + g (n + 1)
  below : ∀ k, n = k + 1 → g k + g n ≤ 2 * x
  tie : Odd n → 2 * x ≠ g n + g (n + 1) ∧ ∀ k, n = k + 1 → g k + g n ≠ 2 * x

theorem abs_le_iff_mid {a b : F} (h : a < b) (x : F) : |a - x| ≤ |b - x| ↔ 2 * x ≤ a + b := by
  have hsq : (b - x) ^ 2 - (a - x) ^ 2 = (b - a) * (a + b - 2 * x) := by ring
  rw [← sq_le_sq, ← sub_nonneg, hsq, mul_nonneg_iff_of_pos_left (sub_pos.mpr h), sub_nonneg]

theorem abs_le_iff_mid' {a b : F} (h : a < b) (x : F) : |b - x| ≤ |a - x| ↔ a + b ≤ 2 * x := by
  have hsq : (a - x) ^ 2 - (b - x) ^ 2 = (b - a) * (2 * x - (a + b)) := by ring
  rw [← sq_le_sq, ← sub_nonneg, hsq, mul_nonneg_iff_of_pos_left (sub_pos.mpr h), sub_nonneg]

theorem abs_eq_iff_mid {a b : F} (h : a < b) (x : F) : |a - x| = |b - x| ↔ 2 * x = a + b := by
  rw [le_antisymm_iff, abs_le_iff_mid h, abs_le_iff_mid' h, ← le_antisymm_iff]

section
variable {g : Nat → F} (hg : StrictMono g) {N : Nat} {x : F}
include hg

/-- Nearest among the first points, for a number below the midpoint to the next one. -/
theorem nearestEven_iff (hx : 2 * x < g (N - 1) + g N) (n : Nat) :
    NearestEven g N x n ↔ n < N ∧ Between g x n := by
  constructor
  · intro h
    have habove : 2 * x ≤ g n + g (n + 1) ∧ (Odd n → 2 * x ≠ g n + g (n + 1)) := by
      by_cases hn : n + 1 < N
      · have hlt := hg (Nat.lt_succ_self n)
        refine ⟨(abs_le_iff_mid hlt x).mp (h.nearest _ hn), fun hodd heq => ?_⟩
        have htie := ((abs_eq_iff_mid hlt x).mpr heq).symm
        exact Nat.not_even_iff_odd.mpr hodd (h.even _ hn hlt.ne' htie)
      · obtain rfl : N = n + 1 := by
          have := h.lt
          omega
        rw [Nat.add_sub_cancel] at hx
        exact ⟨hx.le, fun _ => hx.ne⟩
    have hbelow : ∀ k, n = k + 1 → g k + g n ≤ 2 * x ∧ (Odd n → g k + g n ≠ 2 * x) := by
      rintro k rfl
      have hk : k < N := (Nat.lt_succ_self k).trans h.lt
      have hlt := hg (Nat.lt_succ_self k)
      refine ⟨(abs_le_iff_mid' hlt x).mp (h.nearest _ hk), fun hodd heq => ?_⟩
      exact Nat.not_even_iff_odd.mpr hodd (h.even _ hk hlt.ne ((abs_eq_iff_mid hlt x).mpr heq.symm))
    exact ⟨h.lt, habove.1, fun k hk => (hbelow k hk).1,
      fun hodd => ⟨habove.2 hodd, fun k hk => (hbelow k hk).2 hodd⟩⟩
  · rintro ⟨hn, h⟩
    -- a point further up is no nearer than the next one, and so below
    have hup : ∀ k, n < k → 2 * x ≤ g n + g k ∧ (2 * x = g n + g k → ¬Odd n) := by
      intro k hk
      have hle : g n + g (n + 1) ≤ g n + g k := add_le_add_right (hg.monotone hk) (g n)
      refine ⟨h.above.trans hle, fun heq hodd => (h.tie hodd).1 ?_⟩
      exact le_antisymm h.above (heq ▸ hle)
    have hdown : ∀ k < n, g k + g n ≤ 2 * x ∧ (2 * x = g k + g n → ¬Odd n) := by
      intro k hk
      obtain ⟨j, rfl⟩ : ∃ j, n = j + 1 := Nat.exists_eq_add_one.mpr (Nat.zero_lt_of_lt hk)
      have hle : g k + g (j + 1) ≤ g j + g (j + 1) := by
        have := hg.monotone (Nat.le_of_lt_succ hk)
        linarith
      refine ⟨hle.trans (h.below j rfl), fun heq hodd => (h.tie hodd).2 j rfl ?_⟩
      exact le_antisymm (h.below j rfl) (heq ▸ hle)
    refine ⟨hn, fun k _ => ?_, fun k _ hne heq => ?_⟩
    · obtain hk | rfl | hk := Nat.lt_trichotomy k n
      · exact (abs_le_iff_mid' (hg hk) x).mpr (hdown k hk).1
      · exact le_refl _
      · exact (abs_le_iff_mid (hg hk) x).mpr (hup k hk).1
    · apply Nat.not_odd_iff_even.mp
      obtain hk | rfl | hk := Nat.lt_trichotomy k n
      · exact (hdown k hk).2 ((abs_eq_iff_mid (hg hk) x).mp heq)
      · exact absurd rfl hne
      · exact (hup k hk).2 ((abs_eq_iff_mid (hg hk) x).mp heq.symm)

theorem between_floor_iff {n : Nat} (hle : g n ≤ x) :
    Between g x n ↔ 2 * x ≤ g n + g (n + 1) ∧ (2 * x = g n + g (n + 1) → Even n) := by
  constructor
  · exact fun h => ⟨h.above, fun heq => Nat.not_odd_iff_even.mp fun hodd => (h.tie hodd).1 heq⟩
  · rintro ⟨habove, htie⟩
    have hbelow : ∀ k, n = k + 1 → g k + g n < 2 * x := by
      rintro k rfl
      have hlt := hg (Nat.lt_succ_self k)
      linarith
    exact ⟨habove, fun k hk => (hbelow k hk).le,
      fun hodd => ⟨fun heq => Nat.not_even_iff_odd.mpr hodd (htie heq), fun k hk => (hbelow k hk).ne⟩⟩

theorem between_succ_iff {n : Nat} (hlt : x < g (n + 1)) :
    Between g x (n + 1) ↔ g n + g (n + 1) ≤ 2 * x ∧ (g n + g (n + 1) = 2 * x → Odd n) := by
  constructor
  · refine fun h => ⟨h.below n rfl, fun heq => Nat.not_even_iff_odd.mp fun heven => ?_⟩
    exact (h.tie heven.add_one).2 n rfl heq
  · rintro ⟨hbelow, htie⟩
    have habove : 2 * x < g (n + 1) + g (n + 1 + 1) := by
      have hnext := hg (Nat.lt_succ_self (n + 1))
      linarith
    refine ⟨habove.le, ?_, fun hodd => ⟨habove.ne, ?_⟩⟩
    · rintro k hk
      rwa [← Nat.succ.inj hk]
    · rintro k hk heq
      rw [← Nat.succ.inj hk] at heq
      exact Nat.not_even_iff_odd.mpr (htie heq) (Nat.not_odd_iff_even.mp (Nat.odd_add_one.mp hodd))

end

/-- The number is `r / w` of the way from point `n` to the next one. -/
structure Rest (g : Nat → Int) (x : Int) (n r w : Nat) (t : Int) : Prop where
  pos : 0 < t
  value : x = g n + r * t
  step : g (n + 1) = g n + w * t
  lt : r < w

section
variable {g : Nat → Int} (hg : StrictMono g) {x t : Int} {n r w : Nat} (h : Rest g x n r w t)
include h

theorem Rest.le : g n ≤ x := by
  have hr : 0 ≤ (r : Int) * t := mul_nonneg (Int.natCast_nonneg r) h.pos.le
  rw [h.value]
  omega

theorem Rest.lt_succ : x < g (n + 1) := by
  have hr : (r : Int) * t < w * t := mul_lt_mul_of_pos_right (Int.ofNat_lt.mpr h.lt) h.pos
  rw [h.value, h.step]
  omega

theorem Rest.mid : (2 * x ≤ g n + g (n + 1) ↔ 2 * r ≤ w) ∧ (g n + g (n + 1) ≤ 2 * x ↔ w ≤ 2 * r) := by
  have hx : 2 * x = g n + g n + ((2 * r : Nat) : Int) * t := by
    rw [h.value]
    push_cast
    ring
  rw [hx, h.step, ← add_assoc, add_le_add_iff_left, add_le_add_iff_left, mul_le_mul_iff_left₀ h.pos,
    mul_le_mul_iff_left₀ h.pos, Int.ofNat_le, Int.ofNat_le]
  exact ⟨Iff.rfl, Iff.rfl⟩

theorem Rest.mid_eq : 2 * x = g n + g (n + 1) ↔ 2 * r = w := by
  rw [le_antisymm_iff, h.mid.1, h.mid.2, ← le_antisymm_iff]

include hg

theorem Rest.of_point {k : Nat} (hk : x = g k) : n = k ∧ r = 0 := by
  have hle := hg.le_iff_le.mp (hk ▸ h.le)
  have hlt := hg.lt_iff_lt.mp (hk ▸ h.lt_succ)
  obtain rfl : n = k := by omega
  have hzero : (r : Int) * t = 0 := by
    have := h.value
    omega
  exact ⟨rfl, Int.natCast_eq_zero.mp ((mul_eq_zero.mp hzero).resolve_right h.pos.ne')⟩

theorem Rest.between_floor : Between g x n ↔ 2 * r ≤ w ∧ (2 * r = w → Even n) := by
  rw [between_floor_iff hg h.le, h.mid.1, h.mid_eq]

theorem Rest.between_succ : Between g x (n + 1) ↔ w ≤ 2 * r ∧ (2 * r = w → Odd n) := by
  rw [between_succ_iff hg h.lt_succ, h.mid.2, eq_comm, h.mid_eq]

end

theorem between_scale {t : F} (ht : 0 < t) {g : Nat → Int} {x : Int} {n : Nat} :
    Between (fun n => (g n : F) * t) (x * t) n ↔ Between g x n := by
  have hle : ∀ a b c : Int, (2 * (a * t) ≤ b * t + c * t : Prop) ↔ 2 * a ≤ b + c := fun a b c => by
    rw [← mul_assoc, ← add_mul, mul_le_mul_iff_left₀ ht]
    exact_mod_cast Iff.rfl
  have hge : ∀ a b c : Int, (b * t + c * t ≤ 2 * (a * t) : Prop) ↔ b + c ≤ 2 * a := fun a b c => by
    rw [← mul_assoc, ← add_mul, mul_le_mul_iff_left₀ ht]
    exact_mod_cast Iff.rfl
  have heq : ∀ a b c : Int, (2 * (a * t) = b * t + c * t : Prop) ↔ 2 * a = b + c := fun a b c => by
    rw [le_antisymm_iff, hle, hge, ← le_antisymm_iff]
  constructor
  · refine fun h => ⟨(hle _ _ _).mp h.above, fun k hk => (hge _ _ _).mp (h.below k hk), fun hodd => ?_⟩
    refine ⟨fun he => (h.tie hodd).1 ((heq _ _ _).mpr he), fun k hk he => ?_⟩
    exact (h.tie hodd).2 k hk ((heq _ _ _).mpr he.symm).symm
  · refine fun h => ⟨(hle _ _ _).mpr h.above, fun k hk => (hge _ _ _).mpr (h.below k hk), fun hodd => ?_⟩
    refine ⟨fun he => (h.tie hodd).1 ((heq _ _ _).mp he), fun k hk he => ?_⟩
    exact (h.tie hodd).2 k hk ((heq _ _ _).mp he.symm).symm

/-! ## Signs -/

/-- The number of this sign and magnitude. -/
def signed (negative : Bool) (a : F) : F := if negative then -a else a

omit [LinearOrder F] [IsStrictOrderedRing F] in
theorem signed_sub (negative : Bool) (a b : F) :
    signed negative a - signed negative b = signed negative (a - b) := by
  cases negative
  · rfl
  · exact (neg_sub_neg a b).trans (neg_sub a b).symm

omit [IsStrictOrderedRing F] in
theorem abs_signed_sub (negative : Bool) (a b : F) : |signed negative a - signed negative b| = |a - b| := by
  rw [signed_sub]
  cases negative
  · rfl
  · exact abs_neg _

theorem abs_signed_not_sub (negative : Bool) {a b : F} (ha : 0 ≤ a) (hb : 0 ≤ b) :
    |signed (!negative) a - signed negative b| = a + b := by
  cases negative
  · show |-a - b| = a + b
    rw [← neg_add', abs_neg, abs_of_nonneg (add_nonneg ha hb)]
  · show |a - -b| = a + b
    rw [sub_neg_eq_add, abs_of_nonneg (add_nonneg ha hb)]

/-- A place that is right for the magnitude is right among the points of both signs. -/
theorem signed_iff {g : Nat → F} (hg : StrictMono g) (h0 : g 0 = 0) {N : Nat} {x : F} (hx : 0 ≤ x)
    (negative : Bool) (n : Nat) :
    NearestEven g N x n ↔ n < N ∧ ∀ negative' : Bool, ∀ k < N,
      |signed negative (g n) - signed negative x| ≤ |signed negative' (g k) - signed negative x| ∧
        (signed negative' (g k) ≠ signed negative (g n) →
          |signed negative' (g k) - signed negative x| = |signed negative (g n) - signed negative x| →
            Even n) := by
  have hnonneg : ∀ k, 0 ≤ g k := fun k => h0 ▸ hg.monotone (Nat.zero_le k)
  constructor
  · refine fun h => ⟨h.lt, fun negative' k hk => ?_⟩
    rw [abs_signed_sub]
    obtain rfl | rfl : negative' = negative ∨ negative' = !negative := by
      cases negative <;> cases negative' <;> simp
    · rw [abs_signed_sub]
      exact ⟨h.nearest k hk, fun hne heq => h.even k hk (fun he => hne (by rw [he])) heq⟩
    · rw [abs_signed_not_sub negative (hnonneg k) hx]
      have hle : |g n - x| ≤ g k + x := (h.nearest k hk).trans (by
        rw [abs_le]
        constructor <;> linarith [hnonneg k])
      refine ⟨hle, fun hne heq => ?_⟩
      -- zero is as near as the point
      have hzero : |g n - x| ≤ x := by
        have := h.nearest 0 (Nat.zero_lt_of_lt h.lt)
        rwa [h0, zero_sub, abs_neg, abs_of_nonneg hx] at this
      have hk0 : g k = 0 := le_antisymm (by linarith) (hnonneg k)
      refine h.even 0 (Nat.zero_lt_of_lt h.lt) (fun he => hne ?_) ?_
      · rw [hk0, ← he, h0]
        cases negative <;> simp [signed]
      · rw [h0, zero_sub, abs_neg, abs_of_nonneg hx, ← heq, hk0, zero_add]
  · rintro ⟨hn, h⟩
    refine ⟨hn, fun k hk => ?_, fun k hk hne heq => ?_⟩
    · have hle := (h negative k hk).1
      rwa [abs_signed_sub, abs_signed_sub] at hle
    · refine (h negative k hk).2 (fun he => hne ?_) (by rw [abs_signed_sub, abs_signed_sub, heq])
      cases negative
      · exact he
      · exact neg_injective he

theorem Between.lt_iff {g : Nat → F} (hg : StrictMono g) {N n : Nat} {x : F} (h : Between g x n) (hn : n ≤ N)
    (hodd : Odd (N - 1)) : n < N ↔ 2 * x < g (N - 1) + g N := by
  constructor
  · intro hlt
    have hle : g n + g (n + 1) ≤ g (N - 1) + g N :=
      add_le_add (hg.monotone (by omega)) (hg.monotone hlt)
    refine lt_of_le_of_ne (h.above.trans hle) fun heq => ?_
    -- at the midpoint the place would be odd
    by_cases hlast : n = N - 1
    · have hN : n + 1 = N := by omega
      exact (h.tie (hlast ▸ hodd)).1 (by rw [heq, hN, hlast])
    · have hless : g n + g (n + 1) < g (N - 1) + g N := add_lt_add (hg (by omega)) (hg (by omega))
      exact (h.above.trans_lt hless).ne heq
  · intro hlt
    refine lt_of_le_of_ne hn fun heq => ?_
    have hpos : 0 < N := by
      obtain ⟨j, hj⟩ := hodd
      omega
    have hbelow := h.below (N - 1) (by omega)
    rw [heq] at hbelow
    exact hlt.not_ge hbelow

/-- A right place is nearest among the points of both signs, in any units. -/
theorem Between.signed_nearest {g : Nat → Int} (hg : StrictMono g) (h0 : g 0 = 0) {t : F} (ht : 0 < t) {N n : Nat}
    {x : Int} (h : Between g x n) (hn : n < N) (hx : 0 ≤ x) (hlt : 2 * x < g (N - 1) + g N)
    (negative negative' : Bool) {k : Nat} (hk : k < N) :
    |signed negative (g n * t) - signed negative (x * t)| ≤
      |signed negative' (g k * t) - signed negative (x * t)| ∧
      (signed negative' (g k * t) ≠ signed negative (g n * t) →
        |signed negative' (g k * t) - signed negative (x * t)| =
          |signed negative (g n * t) - signed negative (x * t)| → Even n) := by
  have hmono : StrictMono fun n => (g n : F) * t := fun _ _ h =>
    mul_lt_mul_of_pos_right (Int.cast_lt.mpr (hg h)) ht
  have hzero : (g 0 : F) * t = 0 := by rw [h0, Int.cast_zero, zero_mul]
  have hpos : (0 : F) ≤ x * t := mul_nonneg (Int.cast_nonneg hx) ht.le
  have hhalf : 2 * ((x : F) * t) < g (N - 1) * t + g N * t := by
    rw [← mul_assoc, ← add_mul]
    exact mul_lt_mul_of_pos_right (by exact_mod_cast hlt) ht
  have hnearest := (nearestEven_iff hmono hhalf n).mpr ⟨hn, (between_scale ht).mpr h⟩
  exact ((signed_iff hmono hzero hpos negative n).mp hnearest).2 negative' k hk

end Rounding
