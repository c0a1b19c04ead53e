import Mathlib

/- Threads of a GPU threadgroup. Between two barriers every thread has private
   registers and a list of actions, each of which reads the shared memory and stores at
   most one cell; the threads of a simdgroup exchange registers in shuffles. Threads take
   turns in any order, a shuffle waits for all threads of its simdgroup, a barrier for
   all threads. When every thread stores only cells it owns and reads only these and
   cells that nobody owns, all orders end in one state, the one that the threads reach
   alone (`Runs.same`), and some order ends (`exists_runs`). -/
namespace Threadgroup

variable {T W σ A V : Type}

/-- Reads registers and memory; sets the registers and stores at most one cell. -/
abbrev Action (σ A V : Type) := σ → (A → V) → σ × Option (A × V)

/-- A shuffle and what the threads do after it. -/
structure Round (T σ A V : Type) where
  shuffle : T → (T → σ) → σ
  actions : T → List (Action σ A V)

/-- What is left to do before the next barrier. -/
structure Phase (T W σ A V : Type) where
  actions : T → List (Action σ A V)
  rounds : W → List (Round T σ A V)

structure State (T σ A V : Type) where
  reg : T → σ
  mem : A → V

def Phase.Done (ph : Phase T W σ A V) : Prop := (∀ t, ph.actions t = []) ∧ ∀ w, ph.rounds w = []

/-- The memory after a store. -/
def put [DecidableEq A] (m : A → V) : Option (A × V) → A → V
  | none => m
  | some w => Function.update m w.1 w.2

section
variable [DecidableEq T] [DecidableEq W] [DecidableEq A] (group : T → W)

/-- One action of a thread, or one shuffle of a simdgroup. -/
inductive Step : Phase T W σ A V → State T σ A V → Phase T W σ A V → State T σ A V → Prop
  | act {ph : Phase T W σ A V} (s : State T σ A V) {t : T} {f : Action σ A V} {l : List (Action σ A V)}
      (h : ph.actions t = f :: l) :
      Step ph s { ph with actions := Function.update ph.actions t l }
        { reg := Function.update s.reg t (f (s.reg t) s.mem).1, mem := put s.mem (f (s.reg t) s.mem).2 }
  | shuffle {ph : Phase T W σ A V} (s : State T σ A V) {w : W} {r : Round T σ A V} {more : List (Round T σ A V)}
      (hr : ph.rounds w = r :: more) (hw : ∀ t, group t = w → ph.actions t = []) :
      Step ph s
        { actions := fun t => if group t = w then r.actions t else ph.actions t
          rounds := Function.update ph.rounds w more }
        { s with reg := fun t => if group t = w then r.shuffle t s.reg else s.reg t }

/-- Some order of the steps leads from barrier to barrier. -/
inductive Runs : Phase T W σ A V → State T σ A V → State T σ A V → Prop
  | done {ph : Phase T W σ A V} (s : State T σ A V) (h : ph.Done) : Runs ph s s
  | step {ph ph' : Phase T W σ A V} {s s' s'' : State T σ A V} (h : Step group ph s ph' s')
      (hrun : Runs ph' s' s'') :
      Runs ph s s''

/-- Phases with barriers between them. -/
inductive RunsAll : List (Phase T W σ A V) → State T σ A V → State T σ A V → Prop
  | nil (s : State T σ A V) : RunsAll [] s s
  | cons {ph : Phase T W σ A V} {phs : List (Phase T W σ A V)} {s s' s'' : State T σ A V} (h : Runs group ph s s')
      (hrest : RunsAll phs s' s'') : RunsAll (ph :: phs) s s''

end

section
variable [DecidableEq T] [DecidableEq W] [DecidableEq A] {group : T → W} {s s' : State T σ A V}

theorem runsAll_nil : RunsAll group [] s s' ↔ s = s' := by
  constructor
  · rintro ⟨⟩
    rfl
  · rintro rfl
    exact RunsAll.nil s

theorem runsAll_cons {ph : Phase T W σ A V} {phs : List (Phase T W σ A V)} :
    RunsAll group (ph :: phs) s s' ↔ ∃ s₁, Runs group ph s s₁ ∧ RunsAll group phs s₁ s' := by
  constructor
  · intro h
    cases h with
    | cons hrun hrest => exact ⟨_, hrun, hrest⟩
  · rintro ⟨s₁, hrun, hrest⟩
    exact RunsAll.cons hrun hrest

end

/-! ## Owned cells -/

section
variable [DecidableEq A] (group : T → W) (owner : A → Option T)

/-- What a thread alone makes of its registers and the memory. -/
def solo : List (Action σ A V) → σ → (A → V) → σ × (A → V)
  | [], r, m => (r, m)
  | f :: l, r, m => solo l (f r m).1 (put m (f r m).2)

/-- The memories agree on the cells of the thread and on those that nobody owns. -/
def Alike (t : T) (m m' : A → V) : Prop := ∀ a, owner a = some t ∨ owner a = none → m a = m' a

structure Local (t : T) (f : Action σ A V) : Prop where
  reads : ∀ r m m', Alike owner t m m' → f r m = f r m'
  writes : ∀ r m c, (f r m).2 = some c → owner c.1 = some t

structure Phase.Owned (ph : Phase T W σ A V) : Prop where
  actions : ∀ t, ∀ f ∈ ph.actions t, Local owner t f
  shuffles : ∀ w, ∀ r ∈ ph.rounds w, ∀ t, group t = w → ∀ reg reg', (∀ t', group t' = w → reg t' = reg' t') →
    r.shuffle t reg = r.shuffle t reg'
  rounds : ∀ w, ∀ r ∈ ph.rounds w, ∀ t, group t = w → ∀ f ∈ r.actions t, Local owner t f

/-- Every thread alone, from the same state. -/
def par (acts : T → List (Action σ A V)) (s : State T σ A V) : State T σ A V where
  reg t := (solo (acts t) (s.reg t) s.mem).1
  mem a := match owner a with
    | some t => (solo (acts t) (s.reg t) s.mem).2 a
    | none => s.mem a

/-- Shuffles and what every thread does between them alone. -/
def eval : List (Round T σ A V) → State T σ A V → State T σ A V
  | [], s => s
  | r :: more, s => eval more (par owner r.actions { s with reg := fun t => r.shuffle t s.reg })

/-- What a simdgroup will have made of the state. -/
def future (w : W) (ph : Phase T W σ A V) (s : State T σ A V) : State T σ A V :=
  eval owner (ph.rounds w) (par owner ph.actions s)

omit [DecidableEq A] in
/-- The states agree on the registers and the visible cells of a simdgroup. -/
structure SameFor (w : W) (s s' : State T σ A V) : Prop where
  reg : ∀ t, group t = w → s.reg t = s'.reg t
  mem : ∀ a, (∀ t, owner a = some t → group t = w) → s.mem a = s'.mem a

end

/-! ## All orders end alike -/

section
variable {owner : A → Option T} {group : T → W}

theorem SameFor.refl (w : W) (s : State T σ A V) : SameFor group owner w s s := ⟨fun _ _ => rfl, fun _ _ => rfl⟩

theorem SameFor.trans {w : W} {s s' s'' : State T σ A V} (h : SameFor group owner w s s')
    (h' : SameFor group owner w s' s'') : SameFor group owner w s s'' :=
  ⟨fun t ht => (h.reg t ht).trans (h'.reg t ht), fun a ha => (h.mem a ha).trans (h'.mem a ha)⟩

theorem SameFor.alike {w : W} {s s' : State T σ A V} (h : SameFor group owner w s s') {t : T} (ht : group t = w) :
    Alike owner t s.mem s'.mem := by
  rintro a (ha | ha)
  · exact h.mem a fun t' ht' => by rw [ha] at ht'; exact (Option.some.inj ht') ▸ ht
  · exact h.mem a fun t' ht' => by rw [ha] at ht'; cases ht'

variable [DecidableEq A]

theorem put_of_ne {m : A → V} {c : Option (A × V)} {a : A} (h : ∀ w, c = some w → w.1 ≠ a) : put m c a = m a := by
  cases c with
  | none => rfl
  | some w => exact Function.update_of_ne (h w rfl).symm _ _

theorem Alike.put {t : T} {m m' : A → V} (h : Alike owner t m m') (c : Option (A × V)) :
    Alike owner t (put m c) (put m' c) := by
  intro a ha
  cases c with
  | none => exact h a ha
  | some w =>
    rcases eq_or_ne a w.1 with rfl | hne
    · rw [Threadgroup.put, Threadgroup.put, Function.update_self, Function.update_self]
    · rw [Threadgroup.put, Threadgroup.put, Function.update_of_ne hne, Function.update_of_ne hne, h a ha]

theorem solo_congr {t : T} : ∀ {l : List (Action σ A V)} {r : σ} {m m' : A → V}, (∀ f ∈ l, Local owner t f) →
    Alike owner t m m' → (solo l r m).1 = (solo l r m').1 ∧ Alike owner t (solo l r m).2 (solo l r m').2 := by
  intro l
  induction l with
  | nil => exact fun _ h => ⟨rfl, h⟩
  | cons f l ih =>
    intro r m m' hl h
    have hf := (hl f List.mem_cons_self).reads r m m' h
    rw [solo, solo, hf]
    exact ih (fun g hg => hl g (List.mem_cons_of_mem f hg)) (h.put _)

theorem par_congr {w : W} {acts acts' : T → List (Action σ A V)} {s s' : State T σ A V}
    (hacts : ∀ t, group t = w → acts t = acts' t) (hl : ∀ t, group t = w → ∀ f ∈ acts t, Local owner t f)
    (h : SameFor group owner w s s') : SameFor group owner w (par owner acts s) (par owner acts' s') := by
  constructor
  · intro t ht
    show (solo (acts t) (s.reg t) s.mem).1 = (solo (acts' t) (s'.reg t) s'.mem).1
    rw [← hacts t ht, ← h.reg t ht]
    exact (solo_congr (hl t ht) (h.alike ht)).1
  · intro a ha
    simp only [par]
    split
    · next t hown =>
      have ht := ha t hown
      rw [← hacts t ht, ← h.reg t ht]
      exact (solo_congr (hl t ht) (h.alike ht)).2 a (Or.inl hown)
    · exact h.mem a ha

theorem eval_congr {w : W} : ∀ {l : List (Round T σ A V)} {s s' : State T σ A V},
    (∀ r ∈ l, ∀ t, group t = w → ∀ reg reg', (∀ t', group t' = w → reg t' = reg' t') → r.shuffle t reg =
      r.shuffle t reg') → (∀ r ∈ l, ∀ t, group t = w → ∀ f ∈ r.actions t, Local owner t f) →
    SameFor group owner w s s' → SameFor group owner w (eval owner l s) (eval owner l s') := by
  intro l
  induction l with
  | nil => exact fun _ _ h => h
  | cons r more ih =>
    intro s s' hsh hl h
    rw [eval, eval]
    apply ih (fun r' hr' => hsh r' (List.mem_cons_of_mem r hr'))
      (fun r' hr' => hl r' (List.mem_cons_of_mem r hr'))
    apply par_congr (fun _ _ => rfl) (hl r List.mem_cons_self)
    exact ⟨fun t ht => hsh r List.mem_cons_self t ht s.reg s'.reg h.reg, h.mem⟩

variable [DecidableEq T] [DecidableEq W]

theorem Step.mem_actions {ph ph' : Phase T W σ A V} {s s' : State T σ A V} (h : Step group ph s ph' s') {t : T}
    {f : Action σ A V} (hf : f ∈ ph'.actions t) :
    f ∈ ph.actions t ∨ ∃ r ∈ ph.rounds (group t), f ∈ r.actions t := by
  cases h with
  | @act t' g l hact =>
    dsimp only at hf
    rcases eq_or_ne t t' with rfl | hne
    · rw [Function.update_self] at hf
      exact Or.inl (hact ▸ List.mem_cons_of_mem g hf)
    · rw [Function.update_of_ne hne] at hf
      exact Or.inl hf
  | @shuffle w r more hr hw =>
    dsimp only at hf
    split at hf
    · next ht => exact Or.inr ⟨r, ht ▸ hr ▸ List.mem_cons_self, hf⟩
    · exact Or.inl hf

theorem Step.mem_rounds {ph ph' : Phase T W σ A V} {s s' : State T σ A V} (h : Step group ph s ph' s') {w : W}
    {r : Round T σ A V} (hr : r ∈ ph'.rounds w) : r ∈ ph.rounds w := by
  cases h with
  | act => exact hr
  | @shuffle w' r' more hr' hw =>
    dsimp only at hr
    rcases eq_or_ne w w' with rfl | hne
    · rw [Function.update_self] at hr
      exact hr' ▸ List.mem_cons_of_mem r' hr
    · rwa [Function.update_of_ne hne] at hr

theorem Step.owned {ph ph' : Phase T W σ A V} {s s' : State T σ A V} (h : Step group ph s ph' s')
    (ho : ph.Owned group owner) : ph'.Owned group owner where
  actions t f hf := (h.mem_actions hf).elim (ho.actions t f) fun ⟨r, hr, hf⟩ =>
    ho.rounds (group t) r hr t rfl f hf
  shuffles w r hr := ho.shuffles w r (h.mem_rounds hr)
  rounds w r hr := ho.rounds w r (h.mem_rounds hr)

/-- An action is part of what its thread does alone, and invisible to the others. -/
theorem par_act {acts : T → List (Action σ A V)} {s : State T σ A V} {t : T} {f : Action σ A V}
    {l : List (Action σ A V)} (h : acts t = f :: l) (hl : ∀ t, ∀ f ∈ acts t, Local owner t f) :
    par owner acts s = par owner (Function.update acts t l)
      { reg := Function.update s.reg t (f (s.reg t) s.mem).1, mem := put s.mem (f (s.reg t) s.mem).2 } := by
  have hwrite := (hl t f (h ▸ List.mem_cons_self)).writes (s.reg t) s.mem
  have hkept : ∀ a, owner a ≠ some t → put s.mem (f (s.reg t) s.mem).2 a = s.mem a := fun a ha =>
    put_of_ne fun c hc he => ha (he ▸ hwrite c hc)
  have hsolo : ∀ t', (solo (acts t') (s.reg t') s.mem).1 =
      (solo (Function.update acts t l t') (Function.update s.reg t (f (s.reg t) s.mem).1 t')
        (put s.mem (f (s.reg t) s.mem).2)).1 ∧
      ∀ a, owner a = some t' → (solo (acts t') (s.reg t') s.mem).2 a =
        (solo (Function.update acts t l t') (Function.update s.reg t (f (s.reg t) s.mem).1 t')
          (put s.mem (f (s.reg t) s.mem).2)).2 a := by
    intro t'
    rcases eq_or_ne t' t with rfl | hne
    · rw [h, Function.update_self, Function.update_self, solo]
      exact ⟨rfl, fun _ _ => rfl⟩
    · rw [Function.update_of_ne hne, Function.update_of_ne hne]
      have halike : Alike owner t' s.mem (put s.mem (f (s.reg t) s.mem).2) := by
        rintro a (ha | ha)
        · exact (hkept a (by rw [ha]; exact fun he => hne (Option.some.inj he))).symm
        · exact (hkept a (by rw [ha]; exact fun he => nomatch he)).symm
      obtain ⟨hreg, hmem⟩ := solo_congr (hl t') halike
      exact ⟨hreg, fun a ha => hmem a (Or.inl ha)⟩
  simp only [par, State.mk.injEq]
  refine ⟨funext fun t' => (hsolo t').1, funext fun a => ?_⟩
  split
  · next t' ha => exact (hsolo t').2 a ha
  · next ha => exact (hkept a (by rw [ha]; exact fun he => nomatch he)).symm

theorem Step.future {ph ph' : Phase T W σ A V} {s s' : State T σ A V} (h : Step group ph s ph' s')
    (ho : ph.Owned group owner) (w : W) : SameFor group owner w (future owner w ph s)
    (future owner w ph' s') := by
  cases h with
  | @act t f l hact =>
    dsimp only [Threadgroup.future]
    rw [par_act hact ho.actions]
    exact SameFor.refl w _
  | @shuffle w' r more hr hw =>
    dsimp only [Threadgroup.future]
    rcases eq_or_ne w w' with rfl | hne
    · -- the simdgroup has nothing to do before the shuffle
      have hidle : SameFor group owner w (par owner ph.actions s) s := by
        constructor
        · intro t ht
          show (solo (ph.actions t) (s.reg t) s.mem).1 = s.reg t
          rw [hw t ht, solo]
        · intro a ha
          simp only [par]
          split
          · next t hown => rw [hw t (ha t hown), solo]
          · rfl
      have hmem : r ∈ ph.rounds w := hr ▸ List.mem_cons_self
      rw [hr, Function.update_self, eval]
      apply eval_congr (fun r' hr' => ho.shuffles w r' (hr ▸ List.mem_cons_of_mem r hr'))
        fun r' hr' => ho.rounds w r' (hr ▸ List.mem_cons_of_mem r hr')
      apply par_congr (fun t ht => (if_pos ht).symm) (ho.rounds w r hmem)
      refine ⟨fun t ht => ?_, hidle.mem⟩
      show r.shuffle t (par owner ph.actions s).reg = if group t = w then r.shuffle t s.reg else s.reg t
      rw [if_pos ht]
      exact ho.shuffles w r hmem t ht _ _ hidle.reg
    · rw [Function.update_of_ne hne]
      have hother : ∀ t, group t = w → group t ≠ w' := fun t ht he => hne (ht.symm.trans he)
      apply eval_congr (ho.shuffles w) (ho.rounds w)
      apply par_congr (fun t ht => (if_neg (hother t ht)).symm) fun t _ => ho.actions t
      exact ⟨fun t ht => (if_neg (hother t ht)).symm, fun _ _ => rfl⟩

theorem Step.unowned {ph ph' : Phase T W σ A V} {s s' : State T σ A V} (h : Step group ph s ph' s')
    (ho : ph.Owned group owner) {a : A} (ha : owner a = none) : s'.mem a = s.mem a := by
  cases h with
  | @act t f l hact =>
    apply put_of_ne
    intro c hc he
    have hown := (ho.actions t f (hact ▸ List.mem_cons_self)).writes _ _ c hc
    rw [he, ha] at hown
    cases hown
  | shuffle => rfl

/-- In every order the simdgroups make of the state what they make of it alone. -/
theorem Runs.same {ph : Phase T W σ A V} {s s' : State T σ A V} (h : Runs group ph s s')
    (ho : ph.Owned group owner) (w : W) : SameFor group owner w (future owner w ph s) s' := by
  induction h with
  | @done ph s hdone =>
    have hactions := funext hdone.1
    rw [future, hdone.2 w, eval]
    constructor
    · intro t _
      show (solo (ph.actions t) (s.reg t) s.mem).1 = s.reg t
      rw [hdone.1 t, solo]
    · intro a _
      simp only [par]
      split
      · next t _ => rw [hdone.1 t, solo]
      · rfl
  | step h _ ih => exact (h.future ho w).trans (ih (h.owned ho))

theorem Runs.unowned {ph : Phase T W σ A V} {s s' : State T σ A V} (h : Runs group ph s s')
    (ho : ph.Owned group owner) {a : A} (ha : owner a = none) : s'.mem a = s.mem a := by
  induction h with
  | done => rfl
  | step h _ ih => rw [ih (h.owned ho), h.unowned ho ha]

theorem Runs.owned {ph : Phase T W σ A V} {s s' : State T σ A V} (h : Runs group ph s s')
    (ho : ph.Owned group owner)
    {a : A} {t : T} (ha : owner a = some t) : s'.mem a = (future owner (group t) ph s).mem a :=
  ((h.same ho (group t)).mem a fun t' ht' => by rw [ha] at ht'; rw [Option.some.inj ht']).symm

omit [DecidableEq A] [DecidableEq T] [DecidableEq W] in
theorem local_store {t : T} {next : σ → σ} {cell : A} {val : σ → V} (h : owner cell = some t) :
    Local owner t fun r _ => (next r, some (cell, val r)) where
  reads _ _ _ _ := rfl
  writes _ _ c hc := by
    cases hc
    exact h

omit [DecidableEq A] [DecidableEq T] [DecidableEq W] in
theorem local_load {t : T} {next : σ → (A → V) → σ} (h : ∀ r m m', Alike owner t m m' → next r m = next r m') :
    Local owner t fun r m => (next r m, none) where
  reads r m m' hm := by rw [h r m m' hm]
  writes _ _ _ hc := by cases hc

/-- Without shuffles every thread makes of its cells what it makes of them alone. -/
theorem Runs.idle {ph : Phase T W σ A V} {s s' : State T σ A V} (h : Runs group ph s s')
    (ho : ph.Owned group owner) {a : A} {t : T} (ha : owner a = some t) (hrounds : ph.rounds (group t) = []) :
    s'.mem a = (solo (ph.actions t) (s.reg t) s.mem).2 a := by
  rw [h.owned ho ha, future, hrounds, eval]
  simp only [par, ha]

/-! ## Some order ends -/

variable [Fintype T] [Fintype W]

/-- The actions and shuffles that are left. -/
def Phase.weight (ph : Phase T W σ A V) : Nat :=
  ∑ t, (ph.actions t).length + ∑ w, ((ph.rounds w).map fun r => ∑ t, (r.actions t).length + 1).sum

variable (group) in
theorem exists_step (ph : Phase T W σ A V) (s : State T σ A V) (h : ¬ph.Done) :
    ∃ ph' s', Step group ph s ph' s' ∧ ph'.weight < ph.weight := by
  by_cases hact : ∀ t, ph.actions t = []
  · obtain ⟨w, hw⟩ := not_forall.mp fun hrounds => h ⟨hact, hrounds⟩
    obtain ⟨r, more, hr⟩ := List.exists_cons_of_ne_nil hw
    refine ⟨_, _, Step.shuffle s hr fun t _ => hact t, ?_⟩
    have hzero : ∑ t, (ph.actions t).length = 0 := Finset.sum_eq_zero fun t _ => by rw [hact t]; rfl
    have hactions : ∑ t, (if group t = w then r.actions t else ph.actions t).length ≤ ∑ t,
      (r.actions t).length := by
      refine Finset.sum_le_sum fun t _ => ?_
      split
      · exact Nat.le_refl _
      · rw [hact t]
        exact Nat.zero_le _
    have hrounds : ∀ g : List (Round T σ A V) → Nat, ∑ w', g (Function.update ph.rounds w more w') +
      g (ph.rounds w) = ∑ w', g (ph.rounds w') + g more := by
      intro g
      rw [← Finset.add_sum_erase _ _ (Finset.mem_univ w),
        ← Finset.add_sum_erase _ (fun w' => g (ph.rounds w')) (Finset.mem_univ w), Function.update_self,
        Finset.sum_congr rfl fun w' hw' => by rw [Function.update_of_ne (Finset.ne_of_mem_erase hw')]]
      omega
    have hsum := hrounds fun l => (l.map fun r => ∑ t, (r.actions t).length + 1).sum
    rw [hr, List.map_cons, List.sum_cons] at hsum
    simp only [Phase.weight]
    omega
  · obtain ⟨t, ht⟩ := not_forall.mp hact
    obtain ⟨f, l, hf⟩ := List.exists_cons_of_ne_nil ht
    refine ⟨_, _, Step.act s hf,
      Nat.add_lt_add_right (Finset.sum_lt_sum (fun t' _ => ?_) ⟨t, Finset.mem_univ t, ?_⟩) _⟩
    · dsimp only
      rcases eq_or_ne t' t with rfl | hne
      · rw [Function.update_self, hf]
        exact Nat.le_succ _
      · rw [Function.update_of_ne hne]
    · dsimp only
      rw [Function.update_self, hf]
      exact Nat.lt_succ_self _

variable (group) in
/-- No order gets stuck or goes on for ever. -/
theorem exists_runs (ph : Phase T W σ A V) (s : State T σ A V) : ∃ s', Runs group ph s s' := by
  induction hn : ph.weight using Nat.strong_induction_on generalizing ph s with
  | _ n ih =>
    by_cases hdone : ph.Done
    · exact ⟨s, Runs.done s hdone⟩
    · obtain ⟨ph', s', hstep, hlt⟩ := exists_step group ph s hdone
      obtain ⟨s'', hrun⟩ := ih _ (hn ▸ hlt) ph' s' rfl
      exact ⟨s'', Runs.step hstep hrun⟩

variable (group) in
theorem exists_runsAll : ∀ (phs : List (Phase T W σ A V)) (s : State T σ A V), ∃ s', RunsAll group phs s s' := by
  intro phs
  induction phs with
  | nil => exact fun s => ⟨s, RunsAll.nil s⟩
  | cons ph phs ih =>
    intro s
    obtain ⟨s', h⟩ := exists_runs group ph s
    obtain ⟨s'', hrest⟩ := ih s'
    exact ⟨s'', RunsAll.cons h hrest⟩

end

/-! ## Chosen orders -/

section
variable [DecidableEq A] {a : A}

/-- The action stores nothing in the cell. -/
def StoresOff (a : A) (f : Action σ A V) : Prop := ∀ r m c, (f r m).2 = some c → c.1 ≠ a

/-- Nothing that is left to do stores in the cell. -/
structure Phase.Keeps (ph : Phase T W σ A V) (a : A) : Prop where
  actions : ∀ t, ∀ f ∈ ph.actions t, StoresOff a f
  rounds : ∀ w, ∀ r ∈ ph.rounds w, ∀ t, ∀ f ∈ r.actions t, StoresOff a f

theorem solo_keeps : ∀ {l : List (Action σ A V)} {r : σ} {m : A → V}, (∀ f ∈ l, StoresOff a f) →
    (solo l r m).2 a = m a := by
  intro l
  induction l with
  | nil => exact fun _ => rfl
  | cons f l ih =>
    intro r m hl
    rw [solo, ih fun g hg => hl g (List.mem_cons_of_mem f hg)]
    exact put_of_ne (hl f List.mem_cons_self r m)

variable [DecidableEq T] [DecidableEq W] {group : T → W}

theorem Step.keeps {ph ph' : Phase T W σ A V} {s s' : State T σ A V} (h : Step group ph s ph' s')
    (hk : ph.Keeps a) :
    ph'.Keeps a ∧ s'.mem a = s.mem a := by
  refine ⟨⟨fun t f hf => ?_, fun w r hr => hk.rounds w r (h.mem_rounds hr)⟩, ?_⟩
  · exact (h.mem_actions hf).elim (hk.actions t f) fun ⟨r, hr, hf⟩ => hk.rounds _ r hr t f hf
  · cases h with
    | @act t f l hact => exact put_of_ne (hk.actions t f (hact ▸ List.mem_cons_self) _ _)
    | shuffle => rfl

theorem Runs.keeps {ph : Phase T W σ A V} {s s' : State T σ A V} (h : Runs group ph s s') (hk : ph.Keeps a) :
    s'.mem a = s.mem a := by
  induction h with
  | done => rfl
  | step h _ ih => rw [ih (h.keeps hk).1, (h.keeps hk).2]

theorem Runs.first {t : T} {s' : State T σ A V} (l₂ : List (Action σ A V)) : ∀ (l₁ : List (Action σ A V))
    {ph : Phase T W σ A V} {s : State T σ A V}, ph.actions t = l₁ ++ l₂ →
    Runs group { ph with actions := Function.update ph.actions t l₂ }
      { reg := Function.update s.reg t (solo l₁ (s.reg t) s.mem).1, mem := (solo l₁ (s.reg t) s.mem).2 } s' →
    Runs group ph s s' := by
  intro l₁
  induction l₁ with
  | nil =>
    intro ph s h hrun
    rw [List.nil_append] at h
    rw [← h, Function.update_eq_self, solo, Function.update_eq_self] at hrun
    exact hrun
  | cons f l₁ ih =>
    intro ph s h hrun
    refine Runs.step (Step.act s h) (ih (Function.update_self _ _ _) ?_)
    dsimp only
    rw [Function.update_idem, Function.update_idem, Function.update_self]
    exact hrun

theorem Runs.last (ph : Phase T W σ A V) {t : T} {s s' : State T σ A V} (hrounds : ∀ w, ph.rounds w = [])
    (h : Runs group { ph with actions := Function.update ph.actions t [] } s s') :
    ∃ r, Runs group ph s { reg := r, mem := (solo (ph.actions t) (s.reg t) s'.mem).2 } := by
  generalize hph : ({ ph with actions := Function.update ph.actions t [] } : Phase T W σ A V) = ph' at h
  induction h generalizing ph with
  | @done ph' s hdone =>
    subst hph
    refine ⟨_, Runs.first [] _ (List.append_nil _).symm (Runs.done _ ⟨fun t' => ?_, hrounds⟩)⟩
    exact hdone.1 t'
  | @step ph' ph'' s s'' s' h _ ih =>
    subst hph
    cases h with
    | @act t' f l hact =>
      dsimp only at hact ih
      have hne : t' ≠ t := by
        rintro rfl
        rw [Function.update_self] at hact
        cases hact
      rw [Function.update_of_ne hne] at hact
      obtain ⟨r, hr⟩ := ih { ph with actions := Function.update ph.actions t' l } hrounds
        (by rw [Function.update_comm hne])
      dsimp only at hr
      rw [Function.update_of_ne hne.symm, Function.update_of_ne hne.symm] at hr
      exact ⟨r, Runs.step (Step.act s hact) hr⟩
    | @shuffle w r more hr _ =>
      dsimp only at hr
      rw [hrounds w] at hr
      cases hr

end

/-! ## Loops of one thread -/

section
variable [DecidableEq A]

theorem solo_append (l l' : List (Action σ A V)) : ∀ (r : σ) (m : A → V),
    solo (l ++ l') r m = solo l' (solo l r m).1 (solo l r m).2 := by
  induction l with
  | nil => exact fun _ _ => rfl
  | cons f l ih => exact fun r m => ih _ _

theorem par_nil (owner : A → Option T) (s : State T σ A V) : par owner (fun _ => []) s = s := by
  simp only [par, solo]
  congr 1
  funext a
  split <;> rfl

variable {ι : Type} {cell : ι → A} {C : Set A} {m₀ : A → V}

/-- A loop whose rounds store in different cells. A round may read its own cell, cells
    outside `C` and registers that the loop keeps (`P`). -/
theorem solo_stores (P : σ → Prop) (act : ι → Action σ A V) (val : ι → V) (next : σ → ι → σ) :
    ∀ {L : List ι} (r : σ)
    (m : A → V), (L.map cell).Nodup → (∀ i ∈ L, cell i ∈ C) → P r → (∀ a ∉ C, m a = m₀ a) →
    (∀ i ∈ L, m (cell i) = m₀ (cell i)) →
    (∀ i ∈ L, ∀ r m, P r → m (cell i) = m₀ (cell i) → (∀ a ∉ C, m a = m₀ a) →
      act i r m = (next r i, some (cell i, val i)) ∧ P (next r i)) →
    (solo (L.map act) r m).1 = L.foldl next r ∧ (∀ i ∈ L, (solo (L.map act) r m).2 (cell i) = val i) ∧
      ∀ a ∉ L.map cell, (solo (L.map act) r m).2 a = m a := by
  intro L
  induction L with
  | nil =>
    intro r m _ _ _ _ _ _
    exact ⟨rfl, fun i hi => absurd hi List.not_mem_nil, fun _ _ => rfl⟩
  | cons i L ih =>
    intro r m hnd hC hr hout hin hact
    rw [List.map_cons, List.nodup_cons] at hnd
    obtain ⟨heq, hnext⟩ := hact i List.mem_cons_self r m hr (hin i List.mem_cons_self) hout
    have hother : ∀ j ∈ L, cell j ≠ cell i := fun j hj he => hnd.1 (he ▸ List.mem_map_of_mem hj)
    obtain ⟨hreg, hval, hkept⟩ := ih (next r i) (put m (some (cell i, val i))) hnd.2
      (fun j hj => hC j (List.mem_cons_of_mem i hj)) hnext
      (fun a ha => (Function.update_of_ne (fun he => ha (by rw [he]; exact hC i List.mem_cons_self)) _ _).trans
        (hout a ha))
      (fun j hj => (Function.update_of_ne (hother j hj) _ _).trans (hin j (List.mem_cons_of_mem i hj)))
      fun j hj => hact j (List.mem_cons_of_mem i hj)
    rw [List.map_cons, solo, heq]
    refine ⟨hreg, fun j hj => ?_, fun a ha => ?_⟩
    · rcases List.mem_cons.mp hj with rfl | hj
      · rw [hkept _ hnd.1]
        exact Function.update_self _ _ _
      · exact hval j hj
    · rw [List.map_cons, List.mem_cons, not_or] at ha
      rw [hkept a ha.2]
      exact Function.update_of_ne ha.1 _ _

theorem solo_writes (val : (A → V) → ι → V) {L : List ι} {r : σ} {m : A → V} (hnd : (L.map cell).Nodup)
    (hval : ∀ m', (∀ a ∉ L.map cell, m' a = m a) → val m' = val m) :
    ∀ i ∈ L, (solo (L.map fun i r m => (r, some (cell i, val m i))) r m).2 (cell i) = val m i := by
  refine (solo_stores (C := {a | a ∈ L.map cell}) (fun _ => True) _ (val m) (fun r _ => r) r m hnd
    (fun i hi => List.mem_map_of_mem hi) trivial (fun _ _ => rfl) (fun _ _ => rfl) ?_).2.1
  intro i _ r m' _ _ hout
  rw [hval m' hout]
  exact ⟨rfl, trivial⟩

theorem solo_adds [AddCommMonoid V] (cell : ι → A) (P : σ → Prop) (act : ι → Action σ A V) (inc : ι → V) :
    ∀ {L : List ι} (r : σ)
    (m : A → V), (∀ i ∈ L, cell i ∈ C) → P r → (∀ a ∉ C, m a = m₀ a) →
    (∀ i ∈ L, ∀ r m, P r → (∀ a ∉ C, m a = m₀ a) → act i r m = (r, some (cell i, m (cell i) + inc i))) →
    ∀ a, (solo (L.map act) r m).2 a = m a + ((L.filter fun i => cell i = a).map inc).sum := by
  intro L
  induction L with
  | nil =>
    intro r m _ _ _ _ a
    exact (add_zero _).symm
  | cons i L ih =>
    intro r m hC hr hout hact a
    have heq := hact i List.mem_cons_self r m hr hout
    have hsum := ih r (put m (some (cell i, m (cell i) + inc i)))
      (fun j hj => hC j (List.mem_cons_of_mem i hj)) hr
      (fun a ha => (Function.update_of_ne (fun he => ha (by rw [he]; exact hC i List.mem_cons_self)) _ _).trans
        (hout a ha))
      (fun j hj => hact j (List.mem_cons_of_mem i hj)) a
    rw [List.map_cons, solo, heq, hsum]
    rcases eq_or_ne (cell i) a with rfl | hne
    · rw [List.filter_cons_of_pos (by simp), List.map_cons, List.sum_cons, ← add_assoc]
      congr 1
      exact Function.update_self _ _ _
    · rw [List.filter_cons_of_neg (by simpa using hne)]
      congr 1
      exact Function.update_of_ne hne.symm _ _

end

end Threadgroup
