import SglangMlx.Lib.Reduction
import SglangMlx.Lib.Threadgroup
import SglangMlx.PagedAttention

/- The kernel `paged_attention` (`metal/attention/paged_attention_kernels.metal`): the
   256 threads of the threadgroup for one sequence and one head, phase by phase between
   the barriers.

   Numbers are those of any ordered field, with its own `exp`, `tanh` and `FLT_MAX`;
   conversions between the float types are the identity there. Loop counters are natural
   numbers: the limit on threadgroup memory keeps them within an `int`
   (`Accepted.loopsFit`). Thread `tid` is lane `tid % 32` of simdgroup `tid / 32`. -/
namespace SglangMlx

open MachineInt Reduction Threadgroup

/-- What the kernel calls in the Metal library. -/
structure FloatOps (F : Type) where
  exp : F → F
  tanh : F → F
  fltMax : F

/-- The buffers, from their first elements on. -/
structure AttentionBuffers (F : Type) where
  q : Int → F
  kCache : Int → F
  vCache : Int → F
  blockTables : Int → Nat
  contextLens : Nat → Nat
  alibiSlopes : Nat → F

/-- The variables of a thread that live across statements. -/
structure Regs (F : Type) where
  qLocal : Nat → F
  qkMax : F
  m : F
  expSum : F
  s : F
  invSum : F

/-- A `float` of threadgroup memory, or an element of `out`. -/
inductive Cell where
  | shared (i : Nat)
  | out (i : Nat)
  deriving DecidableEq, Repr

def warpIdx (tid : Fin 256) : Fin 8 := ⟨tid / 32, Nat.div_lt_of_lt_mul tid.isLt⟩

def lane (tid : Fin 256) : Nat := tid % 32

section
variable {F : Type}

/-- `v = op(v, simd_shuffle_xor(v, mask))`. -/
def shuffleXor (op : F → F → F) (get : Regs F → F) (set : Regs F → F → Regs F) (mask : Nat) (tid : Fin 256)
    (reg : Fin 256 → Regs F) : Regs F :=
  set (reg tid) (op (get (reg tid)) (get (reg (Fin.ofNat 256 (tid ^^^ mask)))))

/-- `for (mask = NUM_SIMD_LANES / 2; mask >= 1; mask /= 2)`, and what follows. -/
def reduction (op : F → F → F) (get : Regs F → F) (set : Regs F → F → Regs F)
    (last : Fin 256 → List (Action (Regs F) Cell F)) : List (Round (Fin 256) (Regs F) Cell F) :=
  [⟨shuffleXor op get set 16, fun _ => []⟩, ⟨shuffleXor op get set 8, fun _ => []⟩,
    ⟨shuffleXor op get set 4, fun _ => []⟩, ⟨shuffleXor op get set 2, fun _ => []⟩,
    ⟨shuffleXor op get set 1, last⟩]

end

namespace PagedAttention
variable {F : Type} [Field F] [LinearOrder F] (ops : FloatOps F) (p : PagedAttention F) (b : AttentionBuffers F)
  (seqIdx headIdx : Nat)

def contextLen : Nat := b.contextLens seqIdx

/-- `DIVIDE_ROUND_UP(context_len, BLOCK_SIZE)`. -/
def numContextBlocks : Nat := (contextLen b seqIdx + p.blockSize - 1) / p.blockSize

omit [Field F] [LinearOrder F] in
theorem lt_numContextBlocks (hblock : 0 < p.blockSize) {blockIdx : Nat} :
    blockIdx < p.numContextBlocks b seqIdx ↔ blockIdx * p.blockSize < contextLen b seqIdx := by
  rw [numContextBlocks, Nat.lt_div_iff_mul_lt hblock, Nat.mul_comm]
  omega

def kvHeadIdx : Nat := headIdx / (p.numHeads / p.numKvHeads)

def alibiSlope : F := if p.useAlibi then b.alibiSlopes headIdx else 0

def blockTable (blockIdx : Nat) : Nat := b.blockTables (seqIdx * p.maxNumBlocksPerSeq + blockIdx)

def logits (i : Nat) : Cell := .shared i

def redSmem (i : Nat) : Cell := .shared (p.maxSeqLen + i)

def outSmem (i : Nat) : Cell := .shared (p.maxSeqLen + 128 + i)

def outPtr (i : Nat) : Cell := .out (seqIdx * p.numHeads * p.headSize + headIdx * p.headSize + i)

/-- The score of position `t` of a block. -/
def qk (qLocal : Nat → F) (blockIdx t : Nat) : F :=
  let tokenIdx := blockIdx * p.blockSize + t
  let dot := (List.range p.headSize).foldl (fun qk d => qk + qLocal d *
    b.kCache (p.kIndex (p.blockTable b seqIdx blockIdx) (p.kvHeadIdx headIdx) t d)) 0
  let qk := dot * p.scale
  let qk := if p.softcapping ≠ 0 ∧ p.softcapping ≠ 1 then ops.tanh (qk / p.softcapping) * p.softcapping else qk
  if p.useAlibi ∧ p.alibiSlope b headIdx ≠ 0 then
    qk + p.alibiSlope b headIdx * ((tokenIdx - contextLen b seqIdx + 1 : Int) : F)
  else qk

/-- The positions of the context that a thread scores. -/
def tokens (tid : Fin 256) : List (Nat × Nat) :=
  (strided (warpIdx tid) (p.numContextBlocks b seqIdx) 8).flatMap fun blockIdx =>
    ((strided (lane tid) p.blockSize 32).filter fun t => blockIdx * p.blockSize + t < contextLen b seqIdx).map
      fun t => (blockIdx, t)

/-! ## The phases -/

/-- No context, or too much: `out_ptr[i] = 0`. -/
def zeroPhase : Phase (Fin 256) (Fin 8) (Regs F) Cell F where
  actions tid := (strided tid p.headSize 256).map fun i => fun r _ => (r, some (p.outPtr seqIdx headIdx i, 0))
  rounds _ := []

def initPhase : Phase (Fin 256) (Fin 8) (Regs F) Cell F where
  actions tid :=
    (strided tid p.maxSeqLen 256).map (fun i => fun r _ => (r, some (logits i, -ops.fltMax))) ++
      (strided tid (8 * p.headSize) 256).map fun i => fun r _ => (r, some (p.outSmem i, 0))
  rounds _ := []

/-- Step 1 and the maximum of each simdgroup. -/
def qkPhase : Phase (Fin 256) (Fin 8) (Regs F) Cell F where
  actions tid :=
    (fun r _ => ({ r with qLocal := fun i => b.q (p.qIndex seqIdx headIdx i), qkMax := -ops.fltMax }, none)) ::
      (p.tokens b seqIdx tid).map fun (blockIdx, t) => fun r _ =>
        let qk := p.qk ops b seqIdx headIdx r.qLocal blockIdx t
        ({ r with qkMax := max r.qkMax qk }, some (logits (blockIdx * p.blockSize + t), qk))
  rounds _ := reduction max Regs.qkMax (fun r v => { r with qkMax := v }) fun tid =>
    if lane tid = 0 then [fun r _ => (r, some (p.redSmem (warpIdx tid), r.qkMax))] else []

/-- The maximum of the simdgroups. -/
def maxPhase : Phase (Fin 256) (Fin 8) (Regs F) Cell F where
  actions tid :=
    if tid.val < 32 then
      [fun r mem => ({ r with m := if tid.val < 8 then mem (p.redSmem tid) else -ops.fltMax }, none)]
    else []
  rounds w :=
    if w = 0 then
      reduction max Regs.m (fun r v => { r with m := v }) fun tid =>
        if tid = 0 then [fun r _ => (r, some (p.redSmem 127, r.m))] else []
    else []

/-- The exponentials and the sum of each simdgroup. -/
def expPhase : Phase (Fin 256) (Fin 8) (Regs F) Cell F where
  actions tid :=
    (fun r mem => ({ r with qkMax := mem (p.redSmem 127), expSum := 0 }, none)) ::
      (strided tid (contextLen b seqIdx) 256).map fun i => fun r mem =>
        let val := if mem (logits i) = -ops.fltMax then 0 else ops.exp (mem (logits i) - r.qkMax)
        ({ r with expSum := r.expSum + val }, some (logits i, val))
  rounds _ := reduction (· + ·) Regs.expSum (fun r v => { r with expSum := v }) fun tid =>
    if lane tid = 0 then [fun r _ => (r, some (p.redSmem (warpIdx tid), r.expSum))] else []

/-- The sum of the simdgroups. -/
def sumPhase : Phase (Fin 256) (Fin 8) (Regs F) Cell F where
  actions tid :=
    if tid.val < 32 then [fun r mem => ({ r with s := if tid.val < 8 then mem (p.redSmem tid) else 0 }, none)]
    else []
  rounds w :=
    if w = 0 then
      reduction (· + ·) Regs.s (fun r v => { r with s := v }) fun tid =>
        if tid = 0 then [fun r _ => (r, some (p.redSmem 126, r.s))] else []
    else []

/-- Step 2. -/
def valuePhase : Phase (Fin 256) (Fin 8) (Regs F) Cell F where
  actions tid :=
    (fun r mem => ({ r with invSum := 1 / (mem (p.redSmem 126) + 1 / 10 ^ 6) }, none)) ::
      (strided (warpIdx tid) (p.numContextBlocks b seqIdx) 8).flatMap fun blockIdx =>
        (strided (lane tid) p.headSize 32).map fun d => fun r mem =>
          let acc := (List.range p.blockSize).foldl (fun acc t =>
            let tokenIdx := blockIdx * p.blockSize + t
            if tokenIdx < contextLen b seqIdx then
              acc + mem (logits tokenIdx) * r.invSum *
                b.vCache (p.vIndex (p.blockTable b seqIdx blockIdx) (p.kvHeadIdx headIdx) t d)
            else acc) 0
          let cell := p.outSmem (warpIdx tid * p.headSize + d)
          (r, some (cell, mem cell + acc))
  rounds _ := []

/-- Step 3. -/
def outPhase : Phase (Fin 256) (Fin 8) (Regs F) Cell F where
  actions tid := (strided tid p.headSize 256).map fun i => fun r mem =>
    (r, some (p.outPtr seqIdx headIdx i,
      (List.range 8).foldl (fun acc w => acc + mem (p.outSmem (w * p.headSize + i))) 0))
  rounds _ := []

/-- The kernel; barriers stand between the phases. -/
def pagedAttention : List (Phase (Fin 256) (Fin 8) (Regs F) Cell F) :=
  if contextLen b seqIdx = 0 ∨ contextLen b seqIdx > p.maxSeqLen then [p.zeroPhase seqIdx headIdx]
  else [p.initPhase ops, p.qkPhase ops b seqIdx headIdx, p.maxPhase ops, p.expPhase ops b seqIdx, p.sumPhase,
    p.valuePhase b seqIdx headIdx, p.outPhase seqIdx headIdx]

end PagedAttention

end SglangMlx
