import SglangMlx.MemoryPool

/- The nodes of the radix tree and the eviction strategies
   (`sglang_mlx/srt/mem_cache/evict_policy.py`).

   `time.monotonic()` is read many times by one cache operation. A node stores
   which reading it was stamped with, and a `Clock` says what each reading
   returned; only the strategies look at the values. -/
namespace SglangMlx

/-- Object identity of a `TreeNode`. -/
abbrev NodeId := Nat

/-- The `call`-th call of `time.monotonic()` inside the `op`-th cache operation. -/
structure Reading where
  op : Nat
  call : Nat
  deriving DecidableEq, Repr, Inhabited

/-- What each reading returned. -/
abbrev Clock := Reading → Int

/-- `time.monotonic()` never decreases, and is strictly larger in a later cache
    operation than in an earlier one. -/
structure Clock.Monotonic (now : Clock) : Prop where
  within : ∀ op i j, i ≤ j → now ⟨op, i⟩ ≤ now ⟨op, j⟩
  across : ∀ r s : Reading, r.op < s.op → now r < now s

/-- All that `time.monotonic()` promises: it never goes backwards. -/
structure Clock.Nondecreasing (now : Clock) : Prop where
  within : ∀ op i j, i ≤ j → now ⟨op, i⟩ ≤ now ⟨op, j⟩
  across : ∀ r s : Reading, r.op < s.op → now r ≤ now s

theorem Clock.op_monotonic : Clock.Monotonic fun r => r.op :=
  ⟨fun _ _ _ _ => Int.le_refl _, fun _ _ h => Int.ofNat_lt.mpr h⟩

theorem Clock.Monotonic.nondecreasing {now : Clock} (h : now.Monotonic) : now.Nondecreasing :=
  ⟨h.within, fun r s hlt => (h.across r s hlt).le⟩

theorem Clock.Monotonic.op_le {now : Clock} (h : now.Monotonic) {r s : Reading} (hle : now r ≤ now s) :
    r.op ≤ s.op := by
  by_contra hlt
  have := h.across s r (Nat.lt_of_not_le hlt)
  omega

/-- `TreeNode`: `children` is the dict from a first token to the child filed
    under it; `value` is `None` until the node holds pool indices. -/
structure TreeNode where
  children : AList (fun _ : Token => NodeId) := ∅
  parent : Option NodeId := none
  key : List Token := []
  value : Option (List Slot) := none
  lockRef : Int := 0
  lastAccessTime : Reading := default
  creationTime : Reading := default
  hitCount : Int := 0
  priority : Int := 0
  deriving Inhabited

def TreeNode.evicted (x : TreeNode) : Bool := x.value.isNone

/-- A strategy's priority: a number, or a tuple of two compared
    lexicographically. A plain number `p` is `(p, 0)`. -/
abbrev Priority := Int ×ₗ Int

inductive EvictionStrategy where
  | lru | lfu | fifo | mru | filo | priority
  deriving DecidableEq, Repr

/-- `EvictionStrategy.get_priority`, one line for each strategy class. -/
def EvictionStrategy.getPriority (now : Clock) (x : TreeNode) : EvictionStrategy → Priority
  | .lru => toLex (now x.lastAccessTime, 0)
  | .lfu => toLex (x.hitCount, now x.lastAccessTime)
  | .fifo => toLex (now x.creationTime, 0)
  | .mru => toLex (-now x.lastAccessTime, 0)
  | .filo => toLex (-now x.creationTime, 0)
  | .priority => toLex (x.priority, now x.lastAccessTime)

/-- The policy names of `RadixCache.__init__`, after `lower()`. -/
def EvictionStrategy.ofName (policy : String) : Except PyError EvictionStrategy :=
  match policy.toLower with
  | "lru" => .ok .lru
  | "lfu" => .ok .lfu
  | "fifo" => .ok .fifo
  | "mru" => .ok .mru
  | "filo" => .ok .filo
  | "priority" => .ok .priority
  | name => .error (.valueError s!"Unknown eviction policy: {name}")

end SglangMlx
