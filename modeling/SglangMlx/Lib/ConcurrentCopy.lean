import SglangMlx.Lib.Threadgroup

/- Threads that copy cells of one memory. A copy is a load into a register and later a
   store, so other threads may store in between. When every cell of a set has one source,
   in the set as well, and the sources that are stored to get back what they held, all
   orders leave in the set what simultaneous copies leave there (`copied`). -/
namespace Threadgroup

variable {T W A V : Type} [DecidableEq T] [DecidableEq W] [DecidableEq A]

def loadAct (a : A) : Action V A V := fun _ m => (m a, none)

def storeAct (a : A) : Action V A V := fun r _ => (r, some (a, r))

/-- Copies from the first to the second cell, one after the other. -/
def copyActions : List (A × A) → List (Action V A V)
  | [] => []
  | c :: rest => loadAct c.1 :: storeAct c.2 :: copyActions rest

def copyPhase (moves : T → List (A × A)) : Phase T W V A V where
  actions t := copyActions (moves t)
  rounds _ := []

omit [DecidableEq A] in
theorem storesOff_copyActions {a : A} : ∀ {l : List (A × A)}, (∀ c ∈ l, c.2 ≠ a) →
    ∀ f ∈ copyActions (V := V) l, StoresOff a f := by
  intro l
  induction l with
  | nil => exact fun _ f hf => absurd hf List.not_mem_nil
  | cons c l ih =>
    intro h f hf
    rcases List.mem_cons.mp hf with rfl | hf
    · exact fun r m w hw => by cases hw
    rcases List.mem_cons.mp hf with rfl | hf
    · intro r m w hw
      cases hw
      exact h c List.mem_cons_self
    · exact ih (fun c' hc' => h c' (List.mem_cons_of_mem c hc')) f hf

/-- The thread has these copies before it; of the first it may have made the load. -/
inductive Pending (m₀ : A → V) (S : Set A) (r : V) : List (Action V A V) → List (A × A) → Prop
  | start (l : List (A × A)) : Pending m₀ S r (copyActions l) l
  | loaded (c : A × A) (l : List (A × A)) (h : c.2 ∈ S → r = m₀ c.1) :
      Pending m₀ S r (storeAct c.2 :: copyActions l) (c :: l)

/-- Copies under way: in the set `S` a cell holds what it held or what its source held. -/
structure Copying (moves : T → List (A × A)) (m₀ : A → V) (S : Set A) (ph : Phase T W V A V) (s : State T V A V)
    (rest : T → List (A × A)) : Prop where
  rounds : ∀ w, ph.rounds w = []
  pending : ∀ t, Pending m₀ S (s.reg t) (ph.actions t) (rest t)
  subset : ∀ t, ∀ c ∈ rest t, c ∈ moves t
  cells : ∀ a ∈ S, s.mem a = m₀ a ∨ ∃ t, ∃ c ∈ moves t, c.2 = a ∧ s.mem a = m₀ c.1
  made : ∀ t, ∀ c ∈ moves t, c.2 ∈ S → c ∈ rest t ∨ s.mem c.2 = m₀ c.1

section
variable {group : T → W} {moves : T → List (A × A)} {m₀ : A → V} {S : Set A}
  (hclosed : ∀ t, ∀ c ∈ moves t, c.2 ∈ S → c.1 ∈ S)
  (hsource : ∀ t t', ∀ c ∈ moves t, ∀ c' ∈ moves t', c.2 ∈ S → c.2 = c'.2 → c.1 = c'.1)
  (hstable : ∀ t t', ∀ c ∈ moves t, ∀ c' ∈ moves t', c.2 ∈ S → c.1 = c'.2 → m₀ c'.1 = m₀ c'.2)
include hclosed hsource hstable

omit [DecidableEq T] [DecidableEq W] [DecidableEq A] hsource in
theorem Copying.source {ph : Phase T W V A V} {s : State T V A V} {rest : T → List (A × A)}
    (h : Copying moves m₀ S ph s rest) {t : T} {c : A × A} (hc : c ∈ moves t) (hS : c.2 ∈ S) :
      s.mem c.1 = m₀ c.1 := by
  rcases h.cells c.1 (hclosed t c hc hS) with heq | ⟨t', c', hc', ha, heq⟩
  · exact heq
  · rw [heq, hstable t t' c hc c' hc' hS ha.symm, ha]

theorem Copying.step {ph ph' : Phase T W V A V} {s s' : State T V A V} {rest : T → List (A × A)}
    (h : Copying moves m₀ S ph s rest) (hstep : Step group ph s ph' s') :
    ∃ rest', Copying moves m₀ S ph' s' rest' := by
  cases hstep with
  | shuffle hr => exact absurd ((h.rounds _).symm.trans hr) (List.cons_ne_nil _ _).symm
  | @act t f l hact =>
    have hpend := h.pending t
    rw [hact] at hpend
    generalize hl : f :: l = acts at hpend
    generalize hrest : rest t = todo at hpend
    cases hpend with
    | start todo =>
      cases todo with
      | nil => cases hl
      | cons c todo =>
        -- a load
        injection hl with hf hl
        subst hf hl
        refine ⟨rest, h.rounds, fun t' => ?_, h.subset, h.cells, h.made⟩
        dsimp only
        rcases eq_or_ne t' t with rfl | hne
        · rw [Function.update_self, Function.update_self, hrest]
          have hc := h.subset t' c (hrest ▸ List.mem_cons_self)
          exact Pending.loaded c todo fun hS => h.source hclosed hstable hc hS
        · rw [Function.update_of_ne hne, Function.update_of_ne hne]
          exact h.pending t'
    | loaded c todo hreg =>
      -- a store
      injection hl with hf hl
      subst hf hl
      have hc := h.subset t c (hrest ▸ List.mem_cons_self)
      have hput : ∀ a, a ≠ c.2 → put s.mem (storeAct c.2 (s.reg t) s.mem).2 a = s.mem a := fun a ha =>
        Function.update_of_ne ha _ _
      have hself : put s.mem (storeAct c.2 (s.reg t) s.mem).2 c.2 = s.reg t := Function.update_self _ _ _
      refine ⟨Function.update rest t todo, h.rounds, fun t' => ?_, fun t' c' hc' => ?_, fun a ha => ?_,
        fun t' c' hc' hS => ?_⟩
      · dsimp only
        rcases eq_or_ne t' t with rfl | hne
        · rw [Function.update_self, Function.update_self, Function.update_self]
          exact Pending.start todo
        · rw [Function.update_of_ne hne, Function.update_of_ne hne, Function.update_of_ne hne]
          exact h.pending t'
      · rcases eq_or_ne t' t with rfl | hne
        · rw [Function.update_self] at hc'
          exact h.subset t' c' (hrest ▸ List.mem_cons_of_mem c hc')
        · rw [Function.update_of_ne hne] at hc'
          exact h.subset t' c' hc'
      · dsimp only
        rcases eq_or_ne a c.2 with rfl | hne
        · rw [hself]
          exact Or.inr ⟨t, c, hc, rfl, hreg ha⟩
        · rw [hput a hne]
          exact h.cells a ha
      · dsimp only
        rcases eq_or_ne c'.2 c.2 with heq | hne
        · rw [heq, hself]
          refine Or.inr ((hreg (heq ▸ hS)).trans ?_)
          rw [hsource t' t c' hc' c hc hS heq]
        · rw [hput _ hne]
          refine (h.made t' c' hc' hS).imp_left fun hmem => ?_
          rcases eq_or_ne t' t with rfl | ht
          · rw [Function.update_self]
            rw [hrest, List.mem_cons] at hmem
            exact hmem.resolve_left fun he => hne (he ▸ rfl)
          · rw [Function.update_of_ne ht]
            exact hmem

theorem Copying.run {ph : Phase T W V A V} {s s' : State T V A V} {rest : T → List (A × A)}
    (h : Copying moves m₀ S ph s rest) (hrun : Runs group ph s s') :
    ∃ ph' : Phase T W V A V, Copying moves m₀ S ph' s' fun _ => [] := by
  induction hrun generalizing rest with
  | @done ph s hdone =>
    have hnil : rest = fun _ => [] := by
      funext t
      have hpend := h.pending t
      rw [hdone.1 t] at hpend
      generalize hl : ([] : List (Action V A V)) = acts at hpend
      generalize hrest : rest t = todo at hpend
      cases hpend with
      | start todo =>
        cases todo with
        | nil => rfl
        | cons => cases hl
      | loaded => cases hl
    exact ⟨ph, hnil ▸ h⟩
  | step hstep _ ih =>
    obtain ⟨rest', h'⟩ := h.step hclosed hsource hstable hstep
    exact ih h'

/-- In every order the cells of `S` end as after simultaneous copies. -/
theorem copied {s s' : State T V A V} (hm : s.mem = m₀) (hrun : Runs group (copyPhase moves) s s') :
    (∀ t, ∀ c ∈ moves t, c.2 ∈ S → s'.mem c.2 = m₀ c.1) ∧
      ∀ a ∈ S, (∀ t, ∀ c ∈ moves t, c.2 ≠ a) → s'.mem a = m₀ a := by
  have hstart : Copying moves m₀ S (copyPhase (W := W) moves) s moves :=
    ⟨fun _ => rfl, fun t => Pending.start (moves t), fun _ _ hc => hc, fun a _ => Or.inl (hm ▸ rfl),
      fun _ _ hc _ => Or.inl hc⟩
  obtain ⟨_, h⟩ := hstart.run hclosed hsource hstable hrun
  refine ⟨fun t c hc hS => (h.made t c hc hS).resolve_left List.not_mem_nil, fun a ha hfree => ?_⟩
  exact (h.cells a ha).resolve_right fun ⟨t, c, hc, hca, _⟩ => hfree t c hc hca

end

/-! ## Orders that go wrong -/

section
variable {group : T → W} {moves : T → List (A × A)} [Fintype T] [Fintype W]

omit [Fintype T] [Fintype W] in
theorem Runs.copy {ph : Phase T W V A V} {s s' : State T V A V} {t : T} {c : A × A} {l : List (Action V A V)}
    (h : ph.actions t = loadAct c.1 :: storeAct c.2 :: l)
    (hrun : Runs group { ph with actions := Function.update ph.actions t l }
      { reg := Function.update s.reg t (s.mem c.1), mem := Function.update s.mem c.2 (s.mem c.1) } s') :
    Runs group ph s s' :=
  Runs.first l [loadAct c.1, storeAct c.2] h hrun

variable (group) in
/-- A copy may find in its source what another copy has stored there. -/
theorem exists_runs_chain {t t' : T} (hne : t ≠ t') {c c' : A × A} {l l' : List (A × A)} (ht : moves t = c :: l)
    (ht' : moves t' = c' :: l') (hsrc : c.1 = c'.2) (hl : ∀ d ∈ l, d.2 ≠ c.2)
    (hothers : ∀ u ≠ t, ∀ d ∈ moves u, d.2 ≠ c.2) (s : State T V A V) :
    ∃ s', Runs group (copyPhase moves) s s' ∧ s'.mem c.2 = s.mem c'.1 := by
  let acts : T → List (Action V A V) :=
    Function.update (Function.update (fun u => copyActions (moves u)) t' (copyActions l')) t (copyActions l)
  let mem : A → V := Function.update s.mem c'.2 (s.mem c'.1)
  let s₁ : State T V A V :=
    { reg := Function.update (Function.update s.reg t' (s.mem c'.1)) t (mem c.1), mem :=
      Function.update mem c.2 (mem c.1) }
  obtain ⟨s₂, hrun⟩ := exists_runs group { actions := acts, rounds := fun _ => [] } s₁
  refine ⟨s₂, Runs.copy (t := t') (c := c')
    (l := copyActions l') ?_ (Runs.copy (t := t) (c := c) (l := copyActions l) ?_ hrun), ?_⟩
  · show copyActions (moves t') = _
    rw [ht']
    rfl
  · show Function.update _ t' _ t = _
    rw [Function.update_of_ne hne]
    show copyActions (moves t) = _
    rw [ht]
    rfl
  · have hkeeps : ∀ u, ∀ f ∈ acts u, StoresOff c.2 f := by
      intro u
      rcases eq_or_ne u t with rfl | hu
      · rw [show acts u = copyActions l from Function.update_self _ _ _]
        exact storesOff_copyActions hl
      rw [show acts u = _ from Function.update_of_ne hu _ _]
      rcases eq_or_ne u t' with rfl | hu'
      · rw [Function.update_self]
        exact storesOff_copyActions fun d hd => hothers u hu d (ht' ▸ List.mem_cons_of_mem c' hd)
      · rw [Function.update_of_ne hu']
        exact storesOff_copyActions (hothers u hu)
    rw [hrun.keeps ⟨hkeeps, fun _ r hr => absurd hr List.not_mem_nil⟩]
    show Function.update mem c.2 (mem c.1) c.2 = _
    rw [Function.update_self, hsrc]
    exact Function.update_self _ _ _

variable (group) in
/-- A copy may store after all others what it loaded before them. -/
theorem exists_runs_late {t : T} {c : A × A} {l : List (A × A)} (ht : moves t = c :: l) (hl : ∀ d ∈ l, d.2 ≠ c.2)
    (s : State T V A V) : ∃ s', Runs group (copyPhase moves) s s' ∧ s'.mem c.2 = s.mem c.1 := by
  let acts : T → List (Action V A V) :=
    Function.update (fun u => copyActions (moves u)) t (storeAct c.2 :: copyActions l)
  let s₁ : State T V A V := { reg := Function.update s.reg t (s.mem c.1), mem := s.mem }
  obtain ⟨s₂, hrun⟩ := exists_runs group { actions := Function.update acts t [], rounds := fun _ => [] } s₁
  obtain ⟨r, hlast⟩ := Runs.last { actions := acts, rounds := fun _ => [] } (fun _ => rfl) hrun
  refine ⟨_, Runs.first (storeAct c.2 :: copyActions l) [loadAct c.1] ?_ hlast, ?_⟩
  · show copyActions (moves t) = _
    rw [ht]
    rfl
  · have hacts : acts t = storeAct c.2 :: copyActions l := Function.update_self _ _ _
    have hreg : s₁.reg t = s.mem c.1 := Function.update_self _ _ _
    show (solo (acts t) (s₁.reg t) s₂.mem).2 c.2 = s.mem c.1
    rw [hacts, hreg, solo, solo_keeps (storesOff_copyActions hl)]
    exact Function.update_self _ _ _

end

end Threadgroup
