import SglangMlx.Lib.MachineInt

/- A grid of threadgroups whose threads each run a strided loop and make one store a
   round, unless their group is idle; the stores of all threads come in any order.
   Nothing here names the program that uses it. -/
namespace ThreadGrid

open MachineInt

variable {S : Type}

/-- An order in which all threads make their stores; `run gid tid l` says that the stores of
    thread `tid` of threadgroup `gid` are `l`. -/
def Schedule (groups threads : Nat) (run : Nat → Nat → List S → Prop) (order : List S) : Prop :=
  ∃ runs : Nat → Nat → List S, (∀ gid < groups, ∀ tid < threads, run gid tid (runs gid tid)) ∧
    order.Perm ((List.range groups).flatMap fun gid => (List.range threads).flatMap (runs gid))

theorem schedule_iff_nil {groups threads : Nat} {run : Nat → Nat → List S → Prop}
    (hempty : groups = 0 ∨ threads = 0) (order : List S) : Schedule groups threads run order ↔ order = [] := by
  have hnil : ∀ runs : Nat → Nat → List S,
      ((List.range groups).flatMap fun gid => (List.range threads).flatMap (runs gid)) = [] := by
    intro runs
    obtain rfl | rfl := hempty
    · rfl
    · simp
  constructor
  · rintro ⟨runs, _, hperm⟩
    rw [hnil] at hperm
    exact hperm.eq_nil
  · rintro rfl
    refine ⟨fun _ _ => [], fun gid hg tid ht => ?_, by rw [hnil]⟩
    omega

/-- The thread makes a store in every round of a loop over `tid, tid + threads, …` below `n`. -/
def Loops (n threads : Nat) (store : Int → S) (tid : Nat) (stores : List S) : Prop :=
  ∃ fuel is, forLoop n threads fuel (int32 tid) = some is ∧ stores = is.map store

/-- The threads together make all rounds below `n`, and no counter overflows. -/
structure Covers (n threads : Nat) : Prop where
  fits : n + threads ≤ 2 ^ 31
  pos : n ≠ 0 → 0 < threads

section
variable {groups n threads : Nat} {run : Nat → Nat → List S → Prop} {store : Nat → Int → S} {idle : Nat → Prop}
  [DecidablePred idle] (hrun : ∀ gid < groups, ∀ tid < threads, ∀ l,
    run gid tid l ↔ if idle gid then l = [] else Loops n threads (store gid) tid l)
include hrun

theorem mem_of_visits {order : List S} (ho : Schedule groups threads run order) {gid tid : Nat}
    (hg : gid < groups)
    (hidle : ¬idle gid) (ht : tid < threads) {i : Int} (hi : Visits n threads (int32 tid) i) :
      store gid i ∈ order := by
  obtain ⟨runs, hruns, hperm⟩ := ho
  have hloop := (hrun gid hg tid ht _).mp (hruns gid hg tid ht)
  rw [if_neg hidle] at hloop
  obtain ⟨fuel, is, his, hstores⟩ := hloop
  rw [hperm.mem_iff]
  simp only [List.mem_flatMap, List.mem_range]
  refine ⟨gid, hg, tid, ht, ?_⟩
  rw [hstores]
  exact List.mem_map_of_mem ((forLoop_visits his i).mpr hi)

variable (hcovers : ∀ gid < groups, ¬idle gid → Covers n threads)
include hcovers

theorem exists_schedule : ∃ order, Schedule groups threads run order := by
  have hloop : ∀ gid tid, ∃ l, gid < groups → tid < threads → run gid tid l := by
    intro gid tid
    by_cases hin : gid < groups ∧ tid < threads
    · by_cases hidle : idle gid
      · exact ⟨[], fun hg ht => (hrun gid hg tid ht _).mpr (if_pos hidle ▸ rfl)⟩
      · have hfit := (hcovers gid hin.1 hidle).fits
        obtain ⟨l, hl, _⟩ := forLoop_spec (Nat.zero_lt_of_lt hin.2) hfit n tid (Nat.le_add_left n tid)
        refine ⟨l.map (store gid), fun hg ht => (hrun gid hg tid ht _).mpr ?_⟩
        rw [if_neg hidle]
        refine ⟨n + 1, l, ?_, rfl⟩
        rw [int32_natCast (by omega), hl]
    · exact ⟨[], fun hg ht => absurd ⟨hg, ht⟩ hin⟩
  choose runs hruns using hloop
  exact ⟨_, runs, fun gid hg tid ht => hruns gid tid hg ht, List.Perm.refl _⟩

/-- Every threadgroup that is not idle makes the rounds below `n`. -/
theorem mem_schedule {order : List S} (ho : Schedule groups threads run order) (s : S) :
    s ∈ order ↔ ∃ gid < groups, ¬idle gid ∧ ∃ i < n, s = store gid i := by
  constructor
  · intro hs
    obtain ⟨runs, hruns, hperm⟩ := ho
    rw [hperm.mem_iff] at hs
    simp only [List.mem_flatMap, List.mem_range] at hs
    obtain ⟨gid, hg, tid, ht, hmem⟩ := hs
    have hloop := (hrun gid hg tid ht _).mp (hruns gid hg tid ht)
    by_cases hidle : idle gid
    · rw [if_pos hidle] at hloop
      rw [hloop] at hmem
      exact absurd hmem List.not_mem_nil
    · have hfit := (hcovers gid hg hidle).fits
      rw [if_neg hidle] at hloop
      obtain ⟨fuel, is, his, hstores⟩ := hloop
      rw [hstores, List.mem_map] at hmem
      obtain ⟨i, hi, rfl⟩ := hmem
      have hvisit := (forLoop_visits his i).mp hi
      rw [int32_natCast (by omega)] at hvisit
      obtain ⟨k, rfl, hlt⟩ := (visits_iff hfit i).mp hvisit
      exact ⟨gid, hg, hidle, _, hlt, rfl⟩
  · rintro ⟨gid, hg, hidle, i, hi, rfl⟩
    obtain ⟨hfit, hpos⟩ := hcovers gid hg hidle
    obtain ⟨tid, ht, k, rfl⟩ := exists_thread (i := i) (hpos (Nat.ne_of_gt (Nat.zero_lt_of_lt hi)))
    refine mem_of_visits hrun ho hg hidle ht ?_
    rw [int32_natCast (by omega)]
    exact visits_progression (by omega) hi

end

end ThreadGrid
