import SglangMlx.AttentionKernel

/- What each phase of `paged_attention` makes of threadgroup memory, in every order of
   its threads. A phase assigns the cells it stores to threads (`owners`), so that the run
   can be read off the threads one at a time; reductions are the sums of `Reduction`. -/
namespace SglangMlx

open MachineInt Reduction Threadgroup

/-! ## Reductions -/

section
variable {F M : Type} {op : F → F → F} {get : Regs F → F} {set : Regs F → F → Regs F}
  {last : Fin 256 → List (Action (Regs F) Cell F)} {owner : Cell → Option (Fin 256)}

theorem warpIdx_xor (tid : Fin 256) {mask : Nat} (hmask : mask < 32) :
    warpIdx (Fin.ofNat 256 (tid ^^^ mask)) = warpIdx tid := by
  have hlt : tid ^^^ mask < 2 ^ 8 := Nat.xor_lt_two_pow tid.isLt (hmask.trans (by norm_num))
  have hdiv : (tid ^^^ mask) / 2 ^ 5 = tid / 2 ^ 5 := by
    rw [Nat.xor_div_two_pow, Nat.div_eq_of_lt hmask, Nat.xor_zero]
  apply Fin.ext
  show (tid ^^^ mask) % 2 ^ 8 / 2 ^ 5 = tid / 2 ^ 5
  rw [Nat.mod_eq_of_lt hlt, hdiv]

/-- The registers of all threads after a shuffle. -/
def shuffled (op : F → F → F) (get : Regs F → F) (set : Regs F → F → Regs F) (mask : Nat) (reg : Fin 256 → Regs F)
    (tid : Fin 256) : Regs F := shuffleXor op get set mask tid reg

theorem shuffleXor_congr {mask : Nat} (hmask : mask < 32) (tid : Fin 256) {reg reg' : Fin 256 → Regs F}
    (h : ∀ t, warpIdx t = warpIdx tid → reg t = reg' t) :
    shuffleXor op get set mask tid reg = shuffleXor op get set mask tid reg' := by
  rw [shuffleXor, shuffleXor, h tid rfl, h _ (warpIdx_xor tid hmask)]

theorem reduction_mem {r : Round (Fin 256) (Regs F) Cell F} (h : r ∈ reduction op get set last) :
    (∃ mask < 32, r.shuffle = shuffleXor op get set mask) ∧ ∀ t, ∀ f ∈ r.actions t, f ∈ last t := by
  simp only [reduction, List.mem_cons, List.not_mem_nil, or_false] at h
  rcases h with rfl | rfl | rfl | rfl | rfl
  · exact ⟨⟨16, by norm_num, rfl⟩, fun t f hf => absurd hf List.not_mem_nil⟩
  · exact ⟨⟨8, by norm_num, rfl⟩, fun t f hf => absurd hf List.not_mem_nil⟩
  · exact ⟨⟨4, by norm_num, rfl⟩, fun t f hf => absurd hf List.not_mem_nil⟩
  · exact ⟨⟨2, by norm_num, rfl⟩, fun t f hf => absurd hf List.not_mem_nil⟩
  · exact ⟨⟨1, by norm_num, rfl⟩, fun t f hf => hf⟩

theorem owned_reduction {ph : Phase (Fin 256) (Fin 8) (Regs F) Cell F}
    (hrounds : ∀ w, ∀ r ∈ ph.rounds w, r ∈ reduction op get set last)
    (hacts : ∀ t, ∀ f ∈ ph.actions t, Local owner t f) (hlast : ∀ t, ∀ f ∈ last t, Local owner t f) :
    ph.Owned warpIdx owner where
  actions := hacts
  shuffles w r hr t ht reg reg' h := by
    obtain ⟨⟨mask, hmask, heq⟩, -⟩ := reduction_mem (hrounds w r hr)
    rw [heq]
    exact shuffleXor_congr hmask t fun t' ht' => h t' (ht'.trans ht)
  rounds w r hr t _ f hf := hlast t f ((reduction_mem (hrounds w r hr)).2 t f hf)

theorem owned_idle {ph : Phase (Fin 256) (Fin 8) (Regs F) Cell F} (hrounds : ∀ w, ph.rounds w = [])
    (hacts : ∀ t, ∀ f ∈ ph.actions t, Local owner t f) : ph.Owned warpIdx owner where
  actions := hacts
  shuffles w r hr := by
    rw [hrounds w] at hr
    cases hr
  rounds w r hr := by
    rw [hrounds w] at hr
    cases hr

variable (hset : ∀ r v, get (set r v) = v)
include hset

theorem butterfly_shuffle (k : Nat) (reg : Fin 256 → Regs F) :
    butterfly op (k + 1) (fun i => get (reg (Fin.ofNat 256 i))) =
      butterfly op k fun i => get (shuffled op get set (2 ^ k) reg (Fin.ofNat 256 i)) := by
  rw [butterfly]
  congr 1
  funext i
  have hlane : Fin.ofNat 256 ((Fin.ofNat 256 i : Fin 256).val ^^^ 2 ^ k) = Fin.ofNat 256 (i ^^^ 2 ^ k) := by
    apply Fin.ext
    show (i % 2 ^ 8 ^^^ 2 ^ k) % 2 ^ 8 = (i ^^^ 2 ^ k) % 2 ^ 8
    rw [Nat.xor_mod_two_pow, Nat.mod_mod, ← Nat.xor_mod_two_pow]
  rw [shuffled, shuffleXor, hset, hlane]

/-- The shuffles leave the butterfly of the registers, and what comes after them sees it. -/
theorem eval_reduction (s : State (Fin 256) (Regs F) Cell F) :
    ∃ reg : Fin 256 → Regs F, eval owner (reduction op get set last) s = par owner last ⟨reg, s.mem⟩ ∧
      ∀ t, get (reg t) = butterfly op 5 (fun i => get (s.reg (Fin.ofNat 256 i))) t := by
  refine ⟨_, by simp only [reduction, eval, par_nil]; rfl, fun t => ?_⟩
  rw [butterfly_shuffle hset, butterfly_shuffle hset, butterfly_shuffle hset, butterfly_shuffle hset,
    butterfly_shuffle hset, butterfly, Fin.ofNat_val_eq_self]
  rfl

variable [AddCommMonoid M] {g : M → F}

/-- When the registers of a simdgroup are images of a monoid, they are summed. -/
theorem eval_reduction_sum (hg : ∀ a b, g (a + b) = op (g a) (g b)) (s : State (Fin 256) (Regs F) Cell F)
    (m : Fin 256 → M) :
    ∃ reg : Fin 256 → Regs F, eval owner (reduction op get set last) s = par owner last ⟨reg, s.mem⟩ ∧
      ∀ t : Fin 256, (∀ t', warpIdx t' = warpIdx t → get (s.reg t') = g (m t')) →
        get (reg t) = g (∑ j ∈ Finset.range 32, m (Fin.ofNat 256 ((warpIdx t : Nat) * 32 + j))) := by
  obtain ⟨reg, heval, hreg⟩ := eval_reduction hset s
  refine ⟨reg, heval, fun t hm => ?_⟩
  have hlanes : ∀ j < 2 ^ 5, get (s.reg (Fin.ofNat 256 (t ^^^ j))) = g (m (Fin.ofNat 256 (t ^^^ j))) :=
    fun j hj => hm _ (warpIdx_xor t hj)
  rw [hreg, @butterfly_congr _ op 5 _ (fun i => g (m (Fin.ofNat 256 i))) _ hlanes, butterfly_sum hg 5 fun i =>
    m (Fin.ofNat 256 i), sum_xor 5 fun i => m (Fin.ofNat 256 i)]
  rfl

variable {ph : Phase (Fin 256) (Fin 8) (Regs F) Cell F} {s s' : State (Fin 256) (Regs F) Cell F}
  (h : Runs warpIdx ph s s') (ho : ph.Owned warpIdx owner) {a : Cell} {tid : Fin 256} (ha : owner a = some tid)
  (hrounds : ph.rounds (warpIdx tid) = reduction op get set last)
include h ho ha hrounds

/-- A cell that is not stored after the reduction keeps what its thread stored before. -/
theorem run_keeps (hlast : ∀ f ∈ last tid, StoresOff a f) :
    s'.mem a = (solo (ph.actions tid) (s.reg tid) s.mem).2 a := by
  obtain ⟨reg, heval, -⟩ := @eval_reduction _ op _ _ last owner hset (par owner ph.actions s)
  rw [h.owned ho ha, future, hrounds, heval]
  simp only [par, ha]
  rw [solo_keeps hlast]
  simp only [ha]

/-- A cell that is stored after the reduction holds the sum over the simdgroup. -/
theorem run_reduces (hg : ∀ a b, g (a + b) = op (g a) (g b)) (m : Fin 256 → M)
    (hm : ∀ t, warpIdx t = warpIdx tid → get (solo (ph.actions t) (s.reg t) s.mem).1 = g (m t))
    (hlast : last tid = [fun r _ => (r, some (a, get r))]) :
    s'.mem a = g (∑ j ∈ Finset.range 32, m (Fin.ofNat 256 ((warpIdx tid : Nat) * 32 + j))) := by
  obtain ⟨reg, heval, hreg⟩ := eval_reduction_sum hset hg (par owner ph.actions s) m
  rw [h.owned ho ha, future, hrounds, heval, ← hreg tid hm]
  simp only [par, ha, hlast, solo, put, Function.update_self]

end

/-! ## Who stores what -/

/-- The thread that has index `i` of a loop over all threads. -/
def thread (i : Nat) : Fin 256 := ⟨i % 256, Nat.mod_lt i (Nat.succ_pos 255)⟩

/-- The first lane of a simdgroup. -/
def firstLane (w : Nat) : Fin 256 := thread (w * 32)

theorem mem_strided_thread {i bound : Nat} {tid : Fin 256} : i ∈ strided tid bound 256 ↔ i < bound ∧
    thread i = tid := by
  rw [mem_strided tid.isLt, Fin.ext_iff]
  rfl

theorem warpIdx_firstLane {w : Nat} (hw : w < 8) : (warpIdx (firstLane w) : Nat) = w ∧
    lane (firstLane w) = 0 := by
  have hval : (firstLane w : Nat) = w * 32 := Nat.mod_eq_of_lt (by omega)
  simp only [warpIdx, lane, hval]
  omega

theorem eq_firstLane {tid : Fin 256} (h : lane tid = 0) : firstLane (warpIdx tid) = tid := by
  apply Fin.ext
  show (tid : Nat) / 32 * 32 % 256 = tid
  rw [lane] at h
  omega

namespace PagedAttention
variable {F : Type} (p : PagedAttention F)

/-- Owners for each array: `logits`, `red_smem`, `out_smem` and `out`. -/
def owners (logits red acc out : Nat → Option (Fin 256)) : Cell → Option (Fin 256)
  | .shared i =>
    if i < p.maxSeqLen then logits i
    else if i < p.maxSeqLen + 128 then red (i - p.maxSeqLen) else acc (i - (p.maxSeqLen + 128))
  | .out i => out i

section
variable {l r acc out : Nat → Option (Fin 256)} {i : Nat}

theorem owners_logits (hi : i < p.maxSeqLen) : p.owners l r acc out (logits i) = l i := if_pos hi

theorem owners_redSmem (hi : i < 128) : p.owners l r acc out (p.redSmem i) = r i := by
  simp only [owners, redSmem]
  rw [if_neg (by omega), if_pos (by omega), Nat.add_sub_cancel_left]

theorem owners_outSmem : p.owners l r acc out (p.outSmem i) = acc i := by
  simp only [owners, outSmem]
  rw [if_neg (by omega), if_neg (by omega), Nat.add_sub_cancel_left]

end

theorem logits_ne_redSmem {i c : Nat} (hi : i < p.maxSeqLen) : logits i ≠ p.redSmem c := fun h => by
  have := Cell.shared.inj h
  omega

theorem outSmem_ne_redSmem {j c : Nat} (hc : c < 128) : p.outSmem j ≠ p.redSmem c := fun h => by
  have := Cell.shared.inj h
  omega

/-- No thread stores in the array. -/
def nobody (_ : Nat) : Option (Fin 256) := none

/-- The first lanes store for their simdgroups. -/
def warpOwner (i : Nat) : Option (Fin 256) := if i < 8 then some (firstLane i) else none

theorem owners_warp {l acc out : Nat → Option (Fin 256)} {w : Nat} (hw : w < 8) :
    p.owners l warpOwner acc out (p.redSmem w) = some (firstLane w) := by
  rw [p.owners_redSmem (by omega), warpOwner, if_pos hw]

theorem local_warp {l acc out : Nat → Option (Fin 256)} {val : Regs F → F} {tid : Fin 256} :
    ∀ f ∈ (if lane tid = 0 then [fun r _ => (r, some (p.redSmem (warpIdx tid), val r))] else []),
      Local (p.owners l warpOwner acc out) tid f := by
  intro f hf
  split at hf
  · next hlane =>
    rw [List.mem_singleton] at hf
    subst hf
    exact local_store ((p.owners_warp (warpIdx tid).isLt).trans (congrArg some (eq_firstLane hlane)))
  · cases hf

theorem storesOff_logits {cond : Prop} [Decidable cond] {i c : Nat} {val : Regs F → F} (hi : i < p.maxSeqLen) :
    ∀ f ∈ (if cond then [fun r _ => (r, some (p.redSmem c, val r))] else []), StoresOff (V := F)
      (logits i) f := by
  intro f hf
  split at hf
  · rw [List.mem_singleton] at hf
    subst hf
    intro r m w hw he
    cases hw
    exact p.logits_ne_redSmem hi he.symm
  · cases hf

/-- Thread 0 stores the total. -/
def totalOwner (cell i : Nat) : Option (Fin 256) := if i = cell then some (thread 0) else none

/-- The thread that scores a position. -/
def tokenOwner (i : Nat) : Option (Fin 256) := some (thread (i / p.blockSize % 8 * 32 + i % p.blockSize % 32))

/-- The thread that adds up an element of a simdgroup's row. -/
def accOwner (j : Nat) : Option (Fin 256) := some (thread (j / p.headSize * 32 + j % p.headSize % 32))

def outStart (seqIdx headIdx : Nat) : Nat := seqIdx * p.numHeads * p.headSize + headIdx * p.headSize

/-- The thread that writes an element of the row. -/
def outOwner (seqIdx headIdx i : Nat) : Option (Fin 256) :=
  if p.outStart seqIdx headIdx ≤ i ∧ i < p.outStart seqIdx headIdx + p.headSize then
    some (thread (i - p.outStart seqIdx headIdx))
  else none

theorem outOwner_outPtr {seqIdx headIdx i : Nat} (hi : i < p.headSize) :
    p.owners nobody nobody nobody (p.outOwner seqIdx headIdx) (p.outPtr seqIdx headIdx i) = some (thread i) := by
  show p.outOwner seqIdx headIdx (p.outStart seqIdx headIdx + i) = some (thread i)
  rw [outOwner, if_pos ⟨Nat.le_add_right _ i, Nat.add_lt_add_left hi _⟩, Nat.add_sub_cancel_left]

theorem logits_injective : Function.Injective logits := fun _ _ h => Cell.shared.inj h

theorem outSmem_injective : Function.Injective p.outSmem := fun _ _ h => Nat.add_left_cancel (Cell.shared.inj h)

theorem outPtr_injective (seqIdx headIdx : Nat) : Function.Injective (p.outPtr seqIdx headIdx) :=
  fun _ _ h => Nat.add_left_cancel (Cell.out.inj h)

/-! ## Who scores what -/

section
variable (b : AttentionBuffers F) (seqIdx : Nat)

theorem mem_tokens (hblock : 0 < p.blockSize) {tid : Fin 256} {blockIdx t : Nat} :
    (blockIdx, t) ∈ p.tokens b seqIdx tid ↔
      (t < p.blockSize ∧ blockIdx * p.blockSize + t < contextLen b seqIdx) ∧
        blockIdx % 8 = warpIdx tid ∧ t % 32 = lane tid := by
  have hlane : lane tid < 32 := Nat.mod_lt _ (Nat.succ_pos 31)
  simp only [tokens, List.mem_flatMap, List.mem_map, List.mem_filter, mem_strided (warpIdx tid).isLt,
    mem_strided hlane, Prod.mk.injEq, decide_eq_true_eq, p.lt_numContextBlocks b seqIdx hblock]
  constructor
  · rintro ⟨_, ⟨-, hwarp⟩, _, ⟨⟨ht, hmod⟩, hctx⟩, rfl, rfl⟩
    exact ⟨⟨ht, hctx⟩, hwarp, hmod⟩
  · rintro ⟨⟨ht, hctx⟩, hwarp, hmod⟩
    exact ⟨blockIdx, ⟨(Nat.le_add_right _ t).trans_lt hctx, hwarp⟩, t, ⟨⟨ht, hmod⟩, hctx⟩, rfl, rfl⟩

/-- The index of a position of a block. -/
def position (x : Nat × Nat) : Nat := x.1 * p.blockSize + x.2

theorem position_div_mod (hblock : 0 < p.blockSize) (blockIdx : Nat) {t : Nat} (ht : t < p.blockSize) :
    p.position (blockIdx, t) / p.blockSize = blockIdx ∧ p.position (blockIdx, t) % p.blockSize = t := by
  rw [position, Nat.mul_comm]
  exact ⟨by rw [Nat.mul_add_div hblock, Nat.div_eq_of_lt ht, Nat.add_zero], by rw [Nat.mul_add_mod,
    Nat.mod_eq_of_lt ht]⟩

theorem tokenOwner_position (hblock : 0 < p.blockSize) {tid : Fin 256} {x : Nat × Nat}
    (hx : x ∈ p.tokens b seqIdx tid) :
    p.tokenOwner (p.position x) = some tid := by
  obtain ⟨blockIdx, t⟩ := x
  obtain ⟨⟨ht, -⟩, hwarp, hlane⟩ := (p.mem_tokens b seqIdx hblock).mp hx
  obtain ⟨hdiv, hmod⟩ := p.position_div_mod hblock blockIdx ht
  rw [tokenOwner, hdiv, hmod, hwarp, hlane]
  congr 1
  apply Fin.ext
  show ((tid : Nat) / 32 * 32 + tid % 32) % 256 = tid
  omega

theorem exists_token (hblock : 0 < p.blockSize) {i : Nat} (hi : i < contextLen b seqIdx) :
    ∃ tid, p.tokenOwner i = some tid ∧ (i / p.blockSize, i % p.blockSize) ∈ p.tokens b seqIdx tid := by
  refine ⟨_, rfl, (p.mem_tokens b seqIdx hblock).mpr ⟨⟨Nat.mod_lt i hblock, by rwa [Nat.div_add_mod']⟩, ?_⟩⟩
  have hval : (thread (i / p.blockSize % 8 * 32 + i % p.blockSize % 32) : Nat) =
      i / p.blockSize % 8 * 32 + i % p.blockSize % 32 := Nat.mod_eq_of_lt (by omega)
  simp only [warpIdx, lane, hval]
  omega

theorem nodup_tokens (hblock : 0 < p.blockSize) (tid : Fin 256) :
    ((p.tokens b seqIdx tid).map (logits ∘ p.position)).Nodup := by
  have htokens : (p.tokens b seqIdx tid).Nodup := by
    rw [tokens, List.nodup_flatMap]
    refine ⟨fun blockIdx _ => ?_, ?_⟩
    · exact ((nodup_strided (Nat.succ_pos 31)).filter _).map fun _ _ h => (Prod.mk.inj h).2
    · refine (nodup_strided (Nat.succ_pos 7)).imp fun hne => List.disjoint_left.mpr fun x hx hx' => hne ?_
      obtain ⟨t, -, rfl⟩ := List.mem_map.mp hx
      obtain ⟨t', -, heq⟩ := List.mem_map.mp hx'
      exact (Prod.mk.inj heq).1.symm
  refine htokens.map_on fun x hx y hy h => ?_
  obtain ⟨⟨hx, -⟩, -⟩ := (p.mem_tokens b seqIdx hblock).mp hx
  obtain ⟨⟨hy, -⟩, -⟩ := (p.mem_tokens b seqIdx hblock).mp hy
  obtain ⟨hdiv, hmod⟩ := p.position_div_mod hblock x.1 hx
  obtain ⟨hdiv', hmod'⟩ := p.position_div_mod hblock y.1 hy
  have hpos : p.position x = p.position y := logits_injective h
  exact Prod.ext (hdiv.symm.trans ((congrArg (· / p.blockSize) hpos).trans hdiv'))
    (hmod.symm.trans ((congrArg (· % p.blockSize) hpos).trans hmod'))

end

/-! ## The rows of zeros, and the start -/

variable [Field F] {ops : FloatOps F} {b : AttentionBuffers F} {seqIdx headIdx : Nat}
  {s s' : State (Fin 256) (Regs F) Cell F}

omit [Field F] in
theorem row_run (val : (Cell → F) → Nat → F)
    (hval : ∀ m m', (∀ i, m (p.outSmem i) = m' (p.outSmem i)) → val m = val m')
    {ph : Phase (Fin 256) (Fin 8) (Regs F) Cell F} (hrounds : ∀ w, ph.rounds w = [])
    (hacts : ∀ tid, ph.actions tid =
      (strided tid p.headSize 256).map fun i => fun r m => (r, some (p.outPtr seqIdx headIdx i, val m i)))
    (h : Runs warpIdx ph s s') :
    (∀ i < p.headSize, s'.mem (p.outPtr seqIdx headIdx i) = val s.mem i) ∧
      ∀ c, (∀ i < p.headSize, p.outPtr seqIdx headIdx i ≠ c) → s'.mem c = s.mem c := by
  have ho : ph.Owned warpIdx (p.owners nobody nobody nobody (p.outOwner seqIdx headIdx)) := by
    refine owned_idle hrounds fun tid f hf => ?_
    rw [hacts, List.mem_map] at hf
    obtain ⟨i, hi, rfl⟩ := hf
    obtain ⟨hlt, htid⟩ := mem_strided_thread.mp hi
    constructor
    · intro r m m' hm
      rw [hval m m' fun j => hm _ (Or.inr p.owners_outSmem)]
    · intro r m c hc
      cases hc
      rw [p.outOwner_outPtr hlt, htid]
  have hstores : ∀ tid : Fin 256, ∀ i ∈ strided tid p.headSize 256,
      (solo (ph.actions tid) (s.reg tid) s.mem).2 (p.outPtr seqIdx headIdx i) = val s.mem i := by
    intro tid
    rw [hacts]
    apply solo_writes val ((nodup_strided (Nat.succ_pos 255)).map (p.outPtr_injective seqIdx headIdx))
    refine fun m hm => hval m s.mem fun j => hm _ fun hmem => ?_
    obtain ⟨i, -, hi⟩ := List.mem_map.mp hmem
    cases hi
  constructor
  · intro i hi
    rw [h.idle ho (p.outOwner_outPtr hi) (hrounds _)]
    exact hstores (thread i) i (mem_strided_thread.mpr ⟨hi, rfl⟩)
  · intro c hc
    apply h.unowned ho
    cases c with
    | shared i => simp only [owners, nobody, ite_self]
    | out i =>
      refine if_neg fun hin => hc (i - p.outStart seqIdx headIdx) (by omega) ?_
      rw [outPtr, ← outStart, Nat.add_sub_cancel' hin.1]

theorem zero_run (h : Runs warpIdx (p.zeroPhase seqIdx headIdx) s s') :
    (∀ i < p.headSize, s'.mem (p.outPtr seqIdx headIdx i) = 0) ∧
      ∀ c, (∀ i < p.headSize, p.outPtr seqIdx headIdx i ≠ c) → s'.mem c = s.mem c :=
  p.row_run (fun _ _ => 0) (fun _ _ _ => rfl) (fun _ => rfl) (fun _ => rfl) h

theorem out_run (h : Runs warpIdx (p.outPhase seqIdx headIdx) s s') :
    (∀ i < p.headSize, s'.mem (p.outPtr seqIdx headIdx i) =
      ∑ w ∈ Finset.range 8, s.mem (p.outSmem (w * p.headSize + i))) ∧
      ∀ c, (∀ i < p.headSize, p.outPtr seqIdx headIdx i ≠ c) → s'.mem c = s.mem c := by
  have hrun := p.row_run
    (fun m i => (List.range 8).foldl (fun acc w => acc + m (p.outSmem (w * p.headSize + i))) 0)
    (fun m m' hm => by simp only [hm]) (fun _ => rfl) (fun _ => rfl) h
  refine ⟨fun i hi => ?_, hrun.2⟩
  rw [hrun.1 i hi]
  exact foldl_range_add _ 8

theorem init_run (h : Runs warpIdx (p.initPhase ops) s s') :
    (∀ j < 8 * p.headSize, s'.mem (p.outSmem j) = 0) ∧ ∀ i, s'.mem (.out i) = s.mem (.out i) := by
  have ho : (p.initPhase ops).Owned warpIdx (p.owners (some ∘ thread) nobody (some ∘ thread) nobody) := by
    refine owned_idle (fun _ => rfl) fun tid f hf => ?_
    rw [initPhase, List.mem_append, List.mem_map, List.mem_map] at hf
    rcases hf with ⟨i, hi, rfl⟩ | ⟨i, hi, rfl⟩
    · obtain ⟨hlt, htid⟩ := mem_strided_thread.mp hi
      exact local_store (p.owners_logits hlt |>.trans (congrArg some htid))
    · obtain ⟨hlt, htid⟩ := mem_strided_thread.mp hi
      exact local_store (p.owners_outSmem.trans (congrArg some htid))
  refine ⟨fun j hj => ?_, fun i => h.unowned ho rfl⟩
  rw [h.idle ho p.owners_outSmem rfl, initPhase, solo_append]
  exact solo_writes (fun _ _ => 0) ((nodup_strided (Nat.succ_pos 255)).map p.outSmem_injective) (fun _ _ => rfl) j
    (mem_strided_thread.mpr ⟨hj, rfl⟩)

/-! ## Scores and maxima -/

section
variable [LinearOrder F] (ops b seqIdx headIdx)

/-- The score of a position of the context. -/
def score (i : Nat) : F :=
  p.qk ops b seqIdx headIdx (fun j => b.q (p.qIndex seqIdx headIdx j)) (i / p.blockSize) (i % p.blockSize)

/-- What a thread adds up over its positions. -/
def tokenSum {M : Type} [AddCommMonoid M] (f : Nat → M) (tid : Fin 256) : M :=
  ((p.tokens b seqIdx tid).map fun x => f (p.position x)).sum

/-- What a simdgroup adds up. -/
def warpSum {M : Type} [AddCommMonoid M] (f : Fin 256 → M) (w : Nat) : M :=
  ∑ j ∈ Finset.range 32, f (thread (w * 32 + j))

theorem qk_solo (hblock : 0 < p.blockSize) (tid : Fin 256) (r : Regs F) (m : Cell → F) :
    (solo ((p.qkPhase ops b seqIdx headIdx).actions tid) r m).1.qkMax =
        (p.tokenSum b seqIdx (fun i => AtLeast.raise (-ops.fltMax) (p.score ops b seqIdx headIdx i)) tid).val ∧
      ∀ x ∈ p.tokens b seqIdx tid, (solo ((p.qkPhase ops b seqIdx headIdx).actions tid) r m).2
        (logits (p.position x)) = p.score ops b seqIdx headIdx (p.position x) := by
  rw [qkPhase, solo]
  obtain ⟨hreg, hval, -⟩ := solo_stores (C := Set.univ)
    (fun r : Regs F => r.qLocal = fun j => b.q (p.qIndex seqIdx headIdx j)) (fun x => fun r _ =>
      let qk := p.qk ops b seqIdx headIdx r.qLocal x.1 x.2
      ({ r with qkMax := max r.qkMax qk }, some (logits (p.position x), qk)))
    (fun x => p.score ops b seqIdx headIdx (p.position x))
    (fun r x => { r with qkMax := max r.qkMax (p.score ops b seqIdx headIdx (p.position x)) })
    { r with qLocal := fun j => b.q (p.qIndex seqIdx headIdx j), qkMax := -ops.fltMax } m
    (p.nodup_tokens b seqIdx hblock tid) (fun _ _ => trivial) rfl (fun _ h => absurd trivial h) (fun _ _ => rfl)
    fun x hx r m hr _ _ => by
      obtain ⟨blockIdx, t⟩ := x
      obtain ⟨⟨ht, -⟩, -⟩ := (p.mem_tokens b seqIdx hblock).mp hx
      obtain ⟨hdiv, hmod⟩ := p.position_div_mod hblock blockIdx ht
      have hscore : p.score ops b seqIdx headIdx (p.position (blockIdx, t)) =
          p.qk ops b seqIdx headIdx r.qLocal blockIdx t := by rw [score, hdiv, hmod, hr]
      rw [hscore]
      exact ⟨rfl, hr⟩
  refine ⟨?_, hval⟩
  have hmax : (p.tokens b seqIdx tid).foldl (fun m x => max m (p.score ops b seqIdx headIdx (p.position x)))
        (-ops.fltMax) =
      (p.tokenSum b seqIdx (fun i => AtLeast.raise (-ops.fltMax) (p.score ops b seqIdx headIdx i)) tid).val := by
    rw [tokenSum, ← zero_add (List.sum _)]
    exact AtLeast.foldl_max (fun x => p.score ops b seqIdx headIdx (p.position x)) _ 0
  exact (congrArg Regs.qkMax hreg).trans ((List.foldl_hom Regs.qkMax fun _ _ => rfl).symm.trans hmax)

/-- Owners of the scores and of the maxima of the simdgroups. -/
def qkOwner : Cell → Option (Fin 256) := p.owners p.tokenOwner warpOwner nobody nobody

theorem qk_owned (hblock : 0 < p.blockSize) (hctx : contextLen b seqIdx ≤ p.maxSeqLen) :
    (p.qkPhase ops b seqIdx headIdx).Owned warpIdx p.qkOwner := by
  refine owned_reduction (fun w r hr => hr) (fun tid f hf => ?_) fun tid => p.local_warp
  rcases List.mem_cons.mp hf with rfl | hf
  · exact local_load fun _ _ _ _ => rfl
  · obtain ⟨x, hx, rfl⟩ := List.mem_map.mp hf
    obtain ⟨⟨-, hlt⟩, -⟩ := (p.mem_tokens b seqIdx hblock).mp hx
    exact local_store ((p.owners_logits (hlt.trans_le hctx)).trans (p.tokenOwner_position b seqIdx hblock hx))

end

section
variable [LinearOrder F]

/-- Every position has its score, every simdgroup its maximum. -/
theorem qk_run (hblock : 0 < p.blockSize) (hctx : contextLen b seqIdx ≤ p.maxSeqLen)
    (h : Runs warpIdx (p.qkPhase ops b seqIdx headIdx) s s') :
    (∀ i < contextLen b seqIdx, s'.mem (logits i) = p.score ops b seqIdx headIdx i) ∧
      (∀ w < 8, s'.mem (p.redSmem w) = (warpSum (p.tokenSum b seqIdx fun i =>
        AtLeast.raise (-ops.fltMax) (p.score ops b seqIdx headIdx i)) w).val) ∧
      (∀ j, s'.mem (p.outSmem j) = s.mem (p.outSmem j)) ∧ ∀ i, s'.mem (.out i) = s.mem (.out i) := by
  have ho := p.qk_owned ops b seqIdx headIdx hblock hctx
  refine ⟨fun i hi => ?_, fun w hw => ?_, fun j => h.unowned ho p.owners_outSmem, fun i => h.unowned ho rfl⟩
  · obtain ⟨tid, htid, hmem⟩ := p.exists_token b seqIdx hblock hi
    have hown : p.qkOwner (logits i) = some tid := (p.owners_logits (hi.trans_le hctx)).trans htid
    rw [run_keeps (fun _ _ => rfl) h ho hown rfl]
    · have hval := (p.qk_solo ops b seqIdx headIdx hblock tid (s.reg tid) s.mem).2 _ hmem
      rwa [position, Nat.div_add_mod'] at hval
    · exact p.storesOff_logits (hi.trans_le hctx)
  · have hown : p.qkOwner (p.redSmem w) = some (firstLane w) := p.owners_warp hw
    obtain ⟨hwarp, hlane⟩ := warpIdx_firstLane hw
    rw [run_reduces (fun _ _ => rfl) h ho hown rfl AtLeast.val_add _
      (fun t _ => (p.qk_solo ops b seqIdx headIdx hblock t (s.reg t) s.mem).1), hwarp]
    · rfl
    · rw [if_pos hlane, hwarp]

/-! ## Totals of the simdgroups -/

section
variable {op : F → F → F} {get : Regs F → F} {set : Regs F → F → Regs F} {set' : Regs F → (Cell → F) → F → Regs F}
  {idle : F} {M : Type} [AddCommMonoid M] {g : M → F}

omit [Field F] [LinearOrder F] in
/-- The first simdgroup combines what the simdgroups left in `red_smem`. -/
theorem total_run (hset : ∀ r v, get (set r v) = v) (hg : ∀ a b, g (a + b) = op (g a) (g b)) (hidle : idle = g 0)
    {cell : Nat} (hcell : 8 ≤ cell ∧ cell < 128) {ph : Phase (Fin 256) (Fin 8) (Regs F) Cell F}
    (hacts : ∀ tid : Fin 256, ph.actions tid = if tid.val < 32 then
      [fun r mem => (set r (if tid.val < 8 then mem (p.redSmem tid) else idle), none)] else [])
    (hrounds : ∀ w, ph.rounds w = if w = 0 then
      reduction op get set fun tid =>
        if tid = 0 then [fun r _ => (r, some (p.redSmem cell, get r))] else [] else [])
    (h : Runs warpIdx ph s s') {x : Nat → M} (hx : ∀ w < 8, s.mem (p.redSmem w) = g (x w)) :
    s'.mem (p.redSmem cell) = g (∑ w ∈ Finset.range 8, x w) ∧ ∀ c, c ≠ p.redSmem cell → s'.mem c = s.mem c := by
  have hown : p.owners nobody (totalOwner cell) nobody nobody (p.redSmem cell) = some 0 := by
    rw [p.owners_redSmem hcell.2, totalOwner, if_pos rfl]
    rfl
  have ho : ph.Owned warpIdx (p.owners nobody (totalOwner cell) nobody nobody) := by
    refine @owned_reduction _ op get set
      (fun tid => if tid = 0 then [fun r _ => (r, some (p.redSmem cell, get r))] else []) _ ph
      (fun w r hr => ?_) (fun tid f hf => ?_) fun tid f hf => ?_
    · rw [hrounds] at hr
      split at hr
      · exact hr
      · cases hr
    · rw [hacts] at hf
      split at hf
      · rw [List.mem_singleton] at hf
        subst hf
        refine local_load fun r m m' hm => ?_
        by_cases htid : tid.val < 8
        · rw [if_pos htid, if_pos htid, hm _ (Or.inr _)]
          rw [p.owners_redSmem (by omega), totalOwner, if_neg (by omega)]
        · rw [if_neg htid, if_neg htid]
      · cases hf
    · split at hf
      · next htid =>
        rw [List.mem_singleton] at hf
        subst hf
        exact local_store (hown.trans (congrArg some htid.symm))
      · cases hf
  constructor
  · have hrounds0 : ph.rounds (warpIdx 0) = reduction op get set fun tid =>
        if tid = 0 then [fun r _ => (r, some (p.redSmem cell, get r))] else [] := (hrounds _).trans (if_pos rfl)
    rw [run_reduces hset h ho hown hrounds0 hg (fun t => if t.val < 8 then x t else 0) ?_ (if_pos rfl)]
    · have hlane : ∀ j ∈ Finset.range 32, (if (thread (warpIdx 0 * 32 + j)).val < 8 then
          x (thread (warpIdx 0 * 32 + j)).val else 0) = if j < 8 then x j else 0 := by
        intro j hj
        have hval : (thread (warpIdx 0 * 32 + j)).val = j := by
          show (0 / 32 * 32 + j) % 256 = j
          have := Finset.mem_range.mp hj
          omega
        rw [hval]
      have hfirst : (Finset.range 32).filter (· < 8) = Finset.range 8 := by decide
      congr 1
      exact (Finset.sum_congr rfl hlane).trans (by rw [← Finset.sum_filter, hfirst])
    · intro t ht
      have hlt : t.val < 32 := by
        have hwarp : t.val / 32 = 0 := congrArg Fin.val ht
        omega
      rw [hacts, if_pos hlt]
      simp only [solo, hset]
      split
      · next h8 => exact hx t h8
      · exact hidle
  · intro c hc
    apply h.unowned ho
    cases c with
    | out i => rfl
    | shared i =>
      simp only [owners, nobody, totalOwner]
      split
      · rfl
      · split
        · refine if_neg fun he => hc ?_
          rw [redSmem, ← he]
          congr 1
          omega
        · rfl

end

theorem max_run (h : Runs warpIdx (p.maxPhase ops) s s') {x : Nat → AtLeast (-ops.fltMax)}
    (hx : ∀ w < 8, s.mem (p.redSmem w) = (x w).val) :
    s'.mem (p.redSmem 127) = (∑ w ∈ Finset.range 8, x w).val ∧ ∀ c, c ≠ p.redSmem 127 → s'.mem c = s.mem c :=
  p.total_run (fun _ _ => rfl) AtLeast.val_add rfl (by norm_num) (fun _ => rfl) (fun _ => rfl) h hx

omit [LinearOrder F] in
theorem sum_run (h : Runs warpIdx p.sumPhase s s') {x : Nat → F} (hx : ∀ w < 8, s.mem (p.redSmem w) = x w) :
    s'.mem (p.redSmem 126) = ∑ w ∈ Finset.range 8, x w ∧ ∀ c, c ≠ p.redSmem 126 → s'.mem c = s.mem c :=
  p.total_run (g := id) (fun _ _ => rfl) (fun _ _ => rfl) rfl (by norm_num) (fun _ => rfl) (fun _ => rfl) h hx

/-! ## Exponentials -/

section
variable (ops b seqIdx)

/-- What a thread adds up over its indices. -/
def strideSum (f : Nat → F) (tid : Fin 256) : F := ((strided tid (contextLen b seqIdx) 256).map f).sum

variable {l : Nat → F} {M : F} (hctx : contextLen b seqIdx ≤ p.maxSeqLen)
  (hl : ∀ i < contextLen b seqIdx, s.mem (logits i) = l i) (hlow : ∀ i < contextLen b seqIdx, l i ≠ -ops.fltMax)
  (hM : s.mem (p.redSmem 127) = M)
include hl hlow hM

theorem exp_solo (tid : Fin 256) :
    (solo ((p.expPhase ops b seqIdx).actions tid) (s.reg tid) s.mem).1.expSum =
        strideSum b seqIdx (fun i => ops.exp (l i - M)) tid ∧
      ∀ i ∈ strided tid (contextLen b seqIdx) 256,
        (solo ((p.expPhase ops b seqIdx).actions tid) (s.reg tid) s.mem).2 (logits i) = ops.exp (l i - M) := by
  rw [expPhase, solo]
  obtain ⟨hreg, hval, -⟩ := solo_stores (C := Set.univ) (fun r : Regs F => r.qkMax = M)
    (fun i => fun r mem =>
      let val := if mem (logits i) = -ops.fltMax then 0 else ops.exp (mem (logits i) - r.qkMax)
      ({ r with expSum := r.expSum + val }, some (logits i, val)))
    (fun i => ops.exp (l i - M)) (fun r i => { r with expSum := r.expSum + ops.exp (l i - M) })
    { s.reg tid with qkMax := s.mem (p.redSmem 127), expSum := 0 } s.mem
    ((nodup_strided (Nat.succ_pos 255)).map logits_injective)
    (fun _ _ => trivial) hM (fun _ h => absurd trivial h) (fun _ _ => rfl) fun i hi r m hr hm _ => by
      obtain ⟨hlt, -⟩ := mem_strided_thread.mp hi
      have hscore : m (logits i) = l i := hm.trans (hl i hlt)
      simp only [hscore, hr, if_neg (hlow i hlt)]
      trivial
  refine ⟨?_, hval⟩
  have hsum : (strided tid (contextLen b seqIdx) 256).foldl (fun acc i => acc + ops.exp (l i - M)) 0 =
      strideSum b seqIdx (fun i => ops.exp (l i - M)) tid := by rw [foldl_add, zero_add, strideSum]
  exact (congrArg Regs.expSum hreg).trans ((List.foldl_hom Regs.expSum fun _ _ => rfl).symm.trans hsum)

include hctx

/-- Every position has its exponential, every simdgroup its sum. -/
theorem exp_run (h : Runs warpIdx (p.expPhase ops b seqIdx) s s') :
    (∀ i < contextLen b seqIdx, s'.mem (logits i) = ops.exp (l i - M)) ∧
      (∀ w < 8, s'.mem (p.redSmem w) = warpSum (strideSum b seqIdx fun i => ops.exp (l i - M)) w) ∧
      (∀ j, s'.mem (p.outSmem j) = s.mem (p.outSmem j)) ∧ ∀ i, s'.mem (.out i) = s.mem (.out i) := by
  have ho : (p.expPhase ops b seqIdx).Owned warpIdx (p.owners (some ∘ thread) warpOwner nobody nobody) := by
    refine owned_reduction (fun w r hr => hr) (fun tid f hf => ?_) fun tid => p.local_warp
    rcases List.mem_cons.mp hf with rfl | hf
    · refine local_load fun r m m' hm => ?_
      rw [hm _ (Or.inr (p.owners_redSmem (by norm_num)))]
    · obtain ⟨i, hi, rfl⟩ := List.mem_map.mp hf
      obtain ⟨hlt, htid⟩ := mem_strided_thread.mp hi
      have hown : p.owners (some ∘ thread) warpOwner nobody nobody (logits i) = some tid :=
        (p.owners_logits (hlt.trans_le hctx)).trans (congrArg some htid)
      constructor
      · intro r m m' hm
        simp only [hm _ (Or.inl hown)]
      · intro r m c hc
        cases hc
        exact hown
  refine ⟨fun i hi => ?_, fun w hw => ?_, fun j => h.unowned ho p.owners_outSmem, fun i => h.unowned ho rfl⟩
  · rw [run_keeps (fun _ _ => rfl) h ho (p.owners_logits (hi.trans_le hctx)) rfl
      (p.storesOff_logits (hi.trans_le hctx))]
    exact (p.exp_solo ops b seqIdx hl hlow hM (thread i)).2 i (mem_strided_thread.mpr ⟨hi, rfl⟩)
  · obtain ⟨hwarp, hlane⟩ := warpIdx_firstLane hw
    rw [run_reduces (g := id) (fun _ _ => rfl) h ho (p.owners_warp hw) rfl (fun _ _ => rfl) _
      (fun t _ => (p.exp_solo ops b seqIdx hl hlow hM t).1), hwarp]
    · rfl
    · rw [if_pos hlane, hwarp]

end

end

/-! ## Values -/

section
variable (b seqIdx headIdx)

/-- Dimension `d` of the value of a position. -/
def value (i d : Nat) : F :=
  b.vCache (p.vIndex (p.blockTable b seqIdx (i / p.blockSize)) (p.kvHeadIdx headIdx) (i % p.blockSize) d)

/-- What a block adds to dimension `d`. -/
def blockSum (f : Nat → F) (blockIdx : Nat) : F :=
  ∑ t ∈ Finset.range p.blockSize,
    if blockIdx * p.blockSize + t < contextLen b seqIdx then f (blockIdx * p.blockSize + t) else 0

variable {w : Nat → F} {total : F} (hblock : 0 < p.blockSize) (hctx : contextLen b seqIdx ≤ p.maxSeqLen)
  (hw : ∀ i < contextLen b seqIdx, s.mem (logits i) = w i) (htotal : s.mem (p.redSmem 126) = total)

/-- The rows that a simdgroup adds up, one element a round. -/
def rounds (tid : Fin 256) : List (Nat × Nat) :=
  (strided (warpIdx tid) (p.numContextBlocks b seqIdx) 8).flatMap fun blockIdx =>
    (strided (lane tid) p.headSize 32).map (Prod.mk blockIdx)

def accCell (tid : Fin 256) (x : Nat × Nat) : Cell := p.outSmem (warpIdx tid * p.headSize + x.2)

def accAct (tid : Fin 256) (x : Nat × Nat) : Action (Regs F) Cell F := fun r mem =>
  let acc := (List.range p.blockSize).foldl (fun acc t =>
    let tokenIdx := x.1 * p.blockSize + t
    if tokenIdx < contextLen b seqIdx then
      acc + mem (logits tokenIdx) * r.invSum *
        b.vCache (p.vIndex (p.blockTable b seqIdx x.1) (p.kvHeadIdx headIdx) t x.2)
    else acc) 0
  (r, some (p.accCell tid x, mem (p.accCell tid x) + acc))

theorem valuePhase_actions (tid : Fin 256) : (p.valuePhase b seqIdx headIdx).actions tid =
    (fun r mem => ({ r with invSum := 1 / (mem (p.redSmem 126) + 1 / 10 ^ 6) }, none)) ::
      (p.rounds b seqIdx tid).map (p.accAct b seqIdx headIdx tid) := by
  simp only [valuePhase, rounds, List.map_flatMap, List.map_map]
  rfl

theorem accAct_congr (tid : Fin 256) (x : Nat × Nat) (r : Regs F) {m m' : Cell → F}
    (hm : ∀ i < contextLen b seqIdx, m (logits i) = m' (logits i))
    (hcell : m (p.accCell tid x) = m' (p.accCell tid x)) :
    p.accAct b seqIdx headIdx tid x r m = p.accAct b seqIdx headIdx tid x r m' := by
  have hterm : ∀ (acc : F), ∀ t ∈ List.range p.blockSize,
      (if x.1 * p.blockSize + t < contextLen b seqIdx then
        acc + m (logits (x.1 * p.blockSize + t)) * r.invSum *
          b.vCache (p.vIndex (p.blockTable b seqIdx x.1) (p.kvHeadIdx headIdx) t x.2)
      else acc) = if x.1 * p.blockSize + t < contextLen b seqIdx then
        acc + m' (logits (x.1 * p.blockSize + t)) * r.invSum *
          b.vCache (p.vIndex (p.blockTable b seqIdx x.1) (p.kvHeadIdx headIdx) t x.2)
      else acc := by
    intro acc t _
    split
    · next hlt => rw [hm _ hlt]
    · rfl
  rw [accAct, accAct]
  dsimp only
  rw [List.foldl_ext _ _ _ hterm, hcell]

include hblock hctx hw in
theorem accAct_eq (tid : Fin 256) (x : Nat × Nat) {r : Regs F} {m : Cell → F} {inv : F} (hr : r.invSum = inv)
    (hm : ∀ i < p.maxSeqLen, m (logits i) = s.mem (logits i)) :
    p.accAct b seqIdx headIdx tid x r m = (r, some (p.accCell tid x, m (p.accCell tid x) +
      p.blockSum b seqIdx (fun i => w i * inv * p.value b seqIdx headIdx i x.2) x.1)) := by
  have hterm : ∀ (acc : F), ∀ t ∈ List.range p.blockSize,
      (if x.1 * p.blockSize + t < contextLen b seqIdx then
        acc + m (logits (x.1 * p.blockSize + t)) * r.invSum *
          b.vCache (p.vIndex (p.blockTable b seqIdx x.1) (p.kvHeadIdx headIdx) t x.2)
      else acc) = acc + if x.1 * p.blockSize + t < contextLen b seqIdx then
        w (x.1 * p.blockSize + t) * inv * p.value b seqIdx headIdx (x.1 * p.blockSize + t) x.2 else 0 := by
    intro acc t ht
    split
    · next hlt =>
      obtain ⟨hdiv, hmod⟩ := p.position_div_mod hblock x.1 (List.mem_range.mp ht)
      rw [position] at hdiv hmod
      rw [hm _ (hlt.trans_le hctx), hw _ hlt, hr, value, hdiv, hmod]
    · exact (add_zero acc).symm
  rw [accAct, blockSum, ← foldl_range_add]
  dsimp only
  rw [List.foldl_ext _ _ _ hterm]

include hblock hctx hw htotal in
theorem value_solo (tid : Fin 256) {d : Nat} (hd : d < p.headSize) (hlane : d % 32 = lane tid) :
    (solo ((p.valuePhase b seqIdx headIdx).actions tid) (s.reg tid) s.mem).2
        (p.outSmem (warpIdx tid * p.headSize + d)) = s.mem (p.outSmem (warpIdx tid * p.headSize + d)) +
      ((strided (warpIdx tid) (p.numContextBlocks b seqIdx) 8).map
        (p.blockSum b seqIdx fun i => w i * (1 / (total + 1 / 10 ^ 6)) * p.value b seqIdx headIdx i d)).sum := by
  have hlt : lane tid < 32 := Nat.mod_lt _ (Nat.succ_pos 31)
  have hadds := solo_adds (C := {c | ∃ j, c = p.outSmem j}) (p.accCell tid)
    (fun r : Regs F => r.invSum = 1 / (total + 1 / 10 ^ 6)) (p.accAct b seqIdx headIdx tid)
    (fun x =>
      p.blockSum b seqIdx (fun i => w i * (1 / (total + 1 / 10 ^ 6)) * p.value b seqIdx headIdx i x.2) x.1)
    (L := p.rounds b seqIdx tid) { s.reg tid with invSum := 1 / (s.mem (p.redSmem 126) + 1 / 10 ^ 6) } s.mem
    (fun _ _ => ⟨_, rfl⟩) (by rw [htotal]) (fun _ _ => rfl)
    (fun x _ r m hr hout => p.accAct_eq b seqIdx headIdx hblock hctx hw tid x hr fun i hi =>
      hout _ fun ⟨j, hj⟩ => by
      have := Cell.shared.inj hj
      omega)
    (p.outSmem (warpIdx tid * p.headSize + d))
  have hcolumn : (p.rounds b seqIdx tid).filter
    (fun x => p.accCell tid x = p.outSmem (warpIdx tid * p.headSize + d)) =
      (p.rounds b seqIdx tid).filter fun x => x.2 = d := by
    apply List.filter_congr
    intro x _
    rw [decide_eq_decide, accCell, p.outSmem_injective.eq_iff, Nat.add_left_cancel_iff]
  rw [valuePhase_actions, solo]
  refine hadds.trans ?_
  rw [hcolumn, rounds, sum_column _ (nodup_strided (Nat.succ_pos 31)) ((mem_strided hlt).mpr ⟨hd, hlane⟩)]

include hblock hctx hw htotal in
/-- Every simdgroup has the weighted values of its blocks. -/
theorem value_run (hzero : ∀ j < 8 * p.headSize, s.mem (p.outSmem j) = 0)
    (h : Runs warpIdx (p.valuePhase b seqIdx headIdx) s s') :
    (∀ n < 8, ∀ d < p.headSize, s'.mem (p.outSmem (n * p.headSize + d)) =
      ((strided n (p.numContextBlocks b seqIdx) 8).map
        (p.blockSum b seqIdx fun i => w i * (1 / (total + 1 / 10 ^ 6)) * p.value b seqIdx headIdx i d)).sum) ∧
      ∀ i, s'.mem (.out i) = s.mem (.out i) := by
  have hown : ∀ (tid : Fin 256) (d : Nat), d < p.headSize → d % 32 = lane tid →
      p.owners nobody nobody p.accOwner nobody (p.outSmem (warpIdx tid * p.headSize + d)) = some tid := by
    intro tid d hd hlane
    have hdiv : (warpIdx tid * p.headSize + d) / p.headSize = warpIdx tid := by
      rw [Nat.mul_comm, Nat.mul_add_div (Nat.zero_lt_of_lt hd), Nat.div_eq_of_lt hd, Nat.add_zero]
    have hmod : (warpIdx tid * p.headSize + d) % p.headSize = d := by
      rw [Nat.mul_comm, Nat.mul_add_mod, Nat.mod_eq_of_lt hd]
    rw [p.owners_outSmem, accOwner, hdiv, hmod, hlane]
    congr 1
    apply Fin.ext
    show ((tid : Nat) / 32 * 32 + tid % 32) % 256 = tid
    omega
  have ho : (p.valuePhase b seqIdx headIdx).Owned warpIdx (p.owners nobody nobody p.accOwner nobody) := by
    refine owned_idle (fun _ => rfl) fun tid f hf => ?_
    rw [valuePhase_actions] at hf
    rcases List.mem_cons.mp hf with rfl | hf
    · refine local_load fun r m m' hm => ?_
      rw [hm _ (Or.inr (p.owners_redSmem (by norm_num)))]
    · obtain ⟨⟨blockIdx, d⟩, hx, rfl⟩ := List.mem_map.mp hf
      have hlane : lane tid < 32 := Nat.mod_lt _ (Nat.succ_pos 31)
      have hd : d < p.headSize ∧ d % 32 = lane tid := by
        obtain ⟨_, -, hmem⟩ := List.mem_flatMap.mp hx
        obtain ⟨_, hd, heq⟩ := List.mem_map.mp hmem
        cases heq
        exact (mem_strided hlane).mp hd
      constructor
      · intro r m m' hm
        apply p.accAct_congr b seqIdx headIdx tid
        · exact fun i hi => hm _ (Or.inr (p.owners_logits (hi.trans_le hctx)))
        · exact hm _ (Or.inl (hown tid d hd.1 hd.2))
      · intro r m c hc
        cases hc
        exact hown tid d hd.1 hd.2
  refine ⟨fun n hn d hd => ?_, fun i => h.unowned ho rfl⟩
  have hval : (thread (n * 32 + d % 32)).val = n * 32 + d % 32 := Nat.mod_eq_of_lt (by omega)
  have hwarp : (warpIdx (thread (n * 32 + d % 32)) : Nat) = n := by
    simp only [warpIdx, hval]
    omega
  have hlane : d % 32 = lane (thread (n * 32 + d % 32)) := by
    simp only [lane, hval]
    omega
  have hrun := h.idle ho (hown _ d hd hlane) rfl
  rw [p.value_solo b seqIdx headIdx hblock hctx hw htotal _ hd hlane, hwarp, hzero _ ?_, zero_add] at hrun
  · exact hrun
  · calc n * p.headSize + d < n * p.headSize + p.headSize := Nat.add_lt_add_left hd _
      _ = (n + 1) * p.headSize := (Nat.succ_mul n p.headSize).symm
      _ ≤ 8 * p.headSize := Nat.mul_le_mul_right _ hn

end

end PagedAttention

end SglangMlx
