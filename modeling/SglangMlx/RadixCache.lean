import SglangMlx.EvictPolicy

/- The radix tree of the KV cache (`sglang_mlx/srt/mem_cache/radix_cache.py`).

   The tree lives on a heap of node objects that point at each other, as in the
   source: `nodes` maps an object identity to the object's fields, `counter` is
   the next identity. A method returns `none` where the source would raise
   (`None` dereferenced, the assertion of `_delete_leaf`) or a walk would not
   end; the walks carry a fuel that a well-formed tree never exhausts.

   `evictable_leaves` is a Python set, and `heapq` says nothing about the order
   of equal entries. `evict` therefore takes an arbitrary `tie`, which chooses
   among the smallest entries at every pop. -/
namespace SglangMlx

structure RadixCache where
  disable : Bool
  evictionStrategy : EvictionStrategy
  allocator : Option TokenPoolAllocator
  evictableLeaves : List NodeId
  rootNode : NodeId
  evictableSize_ : Int
  protectedSize_ : Int
  nodes : NodeId → TreeNode
  counter : NodeId
  clock : Reading

/-- Entry `(priority, node)` of the eviction heap. -/
structure HeapEntry where
  priority : Priority
  node : NodeId
  deriving DecidableEq

abbrev TieBreak := List HeapEntry → Nat

structure MatchResult where
  deviceIndices : List Slot
  lastNode : NodeId
  deriving DecidableEq, Repr

/-- Length of the common prefix of two token sequences. -/
def keyMatch : List Token → List Token → Nat
  | k0 :: key0, k1 :: key1 => if k0 ≠ k1 then 0 else keyMatch key0 key1 + 1
  | _, _ => 0

namespace RadixCache

/-! ## Objects and time -/

/-- Assign to fields of the object `n`. -/
def modify (c : RadixCache) (n : NodeId) (f : TreeNode → TreeNode) : RadixCache :=
  { c with nodes := Function.update c.nodes n (f (c.nodes n)) }

/-- `node.last_access_time = access_time`. -/
def stamp (c : RadixCache) (n : NodeId) (accessTime : Reading) : RadixCache :=
  c.modify n fun x => { x with lastAccessTime := accessTime }

/-- `node.priority = max(node.priority, priority)`. -/
def raisePriority (c : RadixCache) (n : NodeId) (priority : Int) : RadixCache :=
  c.modify n fun x => { x with priority := max x.priority priority }

/-- `time.monotonic()`. -/
def monotonic (c : RadixCache) : Reading × RadixCache :=
  (c.clock, { c with clock := { c.clock with call := c.clock.call + 1 } })

/-- Every public method is one cache operation. -/
def beginOp (c : RadixCache) : RadixCache := { c with clock := ⟨c.clock.op + 1, 0⟩ }

/-- `TreeNode(priority=…)`. -/
def newTreeNode (c : RadixCache) (priority : Int) : NodeId × RadixCache :=
  let (lastAccessTime, c) := c.monotonic
  let (creationTime, c) := c.monotonic
  let n := c.counter
  (n, { c with
    nodes := Function.update c.nodes n { lastAccessTime, creationTime, priority }
    counter := n + 1 })

def reset (c : RadixCache) (minPriority : Int) : RadixCache :=
  let (root, c) := c.newTreeNode minPriority
  let c := c.modify root fun x => { x with key := [], value := some [], lockRef := 1 }
  { c with rootNode := root, evictableSize_ := 0, protectedSize_ := 0, evictableLeaves := [] }

/-- `sys.maxsize`. -/
def maxsize : Int := 2 ^ 63 - 1

/-- `RadixCache.__init__`, the policy already looked up. -/
protected def init (disable : Bool) (evictionStrategy : EvictionStrategy) : RadixCache :=
  reset
    { disable, evictionStrategy, allocator := none, evictableLeaves := [], rootNode := 0
      evictableSize_ := 0, protectedSize_ := 0, nodes := fun _ => default, counter := 0
      clock := ⟨0, 0⟩ } (-maxsize)

/-- The free list of the attached allocator. -/
def freeList (c : RadixCache) : List Slot := (c.allocator.map (·.freeSlots)).getD []

def setAllocator (c : RadixCache) (allocator : TokenPoolAllocator) : RadixCache :=
  { c with allocator := some allocator }

/-! ## The evictable leaves -/

def discardLeaf (c : RadixCache) (n : NodeId) : RadixCache :=
  if n ∈ c.evictableLeaves then { c with evictableLeaves := c.evictableLeaves.erase n } else c

def addLeaf (c : RadixCache) (n : NodeId) : RadixCache :=
  if n ∈ c.evictableLeaves then c else { c with evictableLeaves := c.evictableLeaves ++ [n] }

/-- `node.children.values()`. -/
def childValues (c : RadixCache) (n : NodeId) : List NodeId :=
  (c.nodes n).children.entries.map Sigma.snd

/-- Maintain the evictable leaves incrementally. -/
def updateLeafStatus (c : RadixCache) (n : NodeId) : RadixCache :=
  if (c.nodes n).evicted || decide (0 < (c.nodes n).lockRef) then c.discardLeaf n
  else if (c.childValues n).any fun child => !(c.nodes child).evicted then c.discardLeaf n
  else c.addLeaf n

/-! ## Splitting -/

/-- Before: `parent -> child[A,B,C,D,E]`; after: `parent -> new[A,B,C] -> child[D,E]`. -/
def splitNode (c : RadixCache) (key : List Token) (child : NodeId) (splitLen : Nat) :
    Option (RadixCache × NodeId) := do
  let (new, c) := c.newTreeNode (c.nodes child).priority
  let splitToken ← (c.nodes child).key[splitLen]?
  let value ← (c.nodes child).value
  let parent ← (c.nodes child).parent
  let firstToken ← key[0]?
  let c := c.modify new fun x => { x with
    children := AList.singleton splitToken child
    parent := some parent
    lockRef := (c.nodes child).lockRef
    key := (c.nodes child).key.take splitLen
    value := some (value.take splitLen) }
  let c := c.modify child fun x => { x with
    parent := some new, key := x.key.drop splitLen, value := some (value.drop splitLen) }
  let c := c.modify parent fun x => { x with children := x.children.insert firstToken new }
  return (c, new)

/-! ## Lookup -/

/-- The `while` loop of `_match_prefix_helper`. -/
def matchLoop (accessTime : Reading) : Nat → RadixCache → NodeId → List Token → List (List Slot) →
    Option (RadixCache × List (List Slot) × NodeId)
  | 0, _, _, _, _ => none
  | _ + 1, c, node, [], value => some (c, value, node)
  | fuel + 1, c, node, childKey :: rest, value =>
    match (c.nodes node).children.lookup childKey with
    | none => some (c, value, node)
    | some child => do
      let c := c.stamp child accessTime
      let prefixLen := keyMatch (c.nodes child).key (childKey :: rest)
      if prefixLen < (c.nodes child).key.length then
        -- partial match: split
        let (c, new) ← c.splitNode (c.nodes child).key child prefixLen
        let v ← (c.nodes new).value
        return (c, value ++ [v], new)
      else
        let v ← (c.nodes child).value
        matchLoop accessTime fuel c child ((childKey :: rest).drop prefixLen) (value ++ [v])

def matchPrefixHelper (c : RadixCache) (node : NodeId) (key : List Token) :
    Option (RadixCache × List (List Slot) × NodeId) :=
  let (accessTime, c) := c.monotonic
  let c := c.stamp node accessTime
  matchLoop accessTime (key.length + 1) c node key []

def matchPrefix (c : RadixCache) (key : List Token) : Option (RadixCache × MatchResult) := do
  let c := c.beginOp
  if c.disable || key.isEmpty then
    return (c, ⟨[], c.rootNode⟩)
  else
    let (c, value, lastNode) ← c.matchPrefixHelper c.rootNode key
    return (c, ⟨value.flatten, lastNode⟩)

/-! ## Insertion -/

/-- The `while` loop of `_insert_helper`: what is left of key and value, the
    node reached and the length matched so far. -/
def insertLoop (accessTime : Reading) (priority : Int) :
    Nat → RadixCache → NodeId → List Token → List Slot → Nat →
    Option (RadixCache × NodeId × List Token × List Slot × Nat)
  | 0, _, _, _, _, _ => none
  | _ + 1, c, node, [], value, total => some (c, node, [], value, total)
  | fuel + 1, c, node, childKey :: rest, value, total =>
    match (c.nodes node).children.lookup childKey with
    | none => some (c, node, childKey :: rest, value, total)
    | some child => do
      let c := c.stamp child accessTime
      let prefixLen := keyMatch (c.nodes child).key (childKey :: rest)
      let total := total + prefixLen
      let key := (childKey :: rest).drop prefixLen
      let value := value.drop prefixLen
      if prefixLen < (c.nodes child).key.length then
        let (c, new) ← c.splitNode (c.nodes child).key child prefixLen
        let c := c.raisePriority new priority
        insertLoop accessTime priority fuel c new key value total
      else
        let c := c.raisePriority child priority
        insertLoop accessTime priority fuel c child key value total

/-- The new node at the end of `_insert_helper`, filed under its parent. -/
def attachLeaf (c : RadixCache) (node : NodeId) (childKey : Token) (key : List Token)
    (value : List Slot) (priority : Int) : NodeId × RadixCache :=
  let (new, c) := c.newTreeNode priority
  let c := c.modify new fun x => { x with parent := some node, key := key, value := some value }
  let c := c.modify node fun x => { x with children := x.children.insert childKey new }
  (new, { c with evictableSize_ := c.evictableSize_ + key.length })

def insertLeaf (c : RadixCache) (node : NodeId) (childKey : Token) (key : List Token)
    (value : List Slot) (priority : Int) : RadixCache :=
  let (new, c) := c.attachLeaf node childKey key value priority
  (c.updateLeafStatus node).updateLeafStatus new

def insertHelper (c : RadixCache) (node : NodeId) (key : List Token) (value : List Slot)
    (priority : Int) : Option (RadixCache × Nat) := do
  let (accessTime, c) := c.monotonic
  let c := c.stamp node accessTime
  let c := c.raisePriority node priority
  let (c, node, key, value, total) ← insertLoop accessTime priority (key.length + 1) c node key value 0
  match key with
  | [] => return (c, total)
  | childKey :: _ => return (c.insertLeaf node childKey key value priority, total)

/-- `insert`; without a value the token ids stand for the pool indices. -/
protected def insert (c : RadixCache) (key : List Token) (value : Option (List Slot)) (priority : Int) :
    Option (RadixCache × Nat) :=
  let c := c.beginOp
  if c.disable then some (c, 0)
  else c.insertHelper c.rootNode key (value.getD key) priority

/-! ## Locks -/

def incLockLoop : Nat → RadixCache → NodeId → Int → Option (RadixCache × Int)
  | 0, _, _, _ => none
  | fuel + 1, c, node, delta =>
    if node = c.rootNode then some (c, delta)
    else do
      let len : Int := (c.nodes node).key.length
      let (c, delta) :=
        if (c.nodes node).lockRef = 0 then
          ({ c with evictableSize_ := c.evictableSize_ - len, protectedSize_ := c.protectedSize_ + len },
           delta - len)
        else (c, delta)
      let c := c.modify node fun x => { x with lockRef := x.lockRef + 1 }
      let c := c.updateLeafStatus node
      let parent ← (c.nodes node).parent
      incLockLoop fuel c parent delta

/-- Lock a node and all ancestors: prevents eviction. -/
def incLockRef (c : RadixCache) (node : NodeId) : Option (RadixCache × Int) :=
  let c := c.beginOp
  if c.disable then some (c, 0) else incLockLoop (c.counter + 1) c node 0

def decLockLoop : Nat → RadixCache → NodeId → Int → Option (RadixCache × Int)
  | 0, _, _, _ => none
  | fuel + 1, c, node, delta =>
    if node = c.rootNode then some (c, delta)
    else do
      let len : Int := (c.nodes node).key.length
      let (c, delta) :=
        if (c.nodes node).lockRef = 1 then
          ({ c with evictableSize_ := c.evictableSize_ + len, protectedSize_ := c.protectedSize_ - len },
           delta + len)
        else (c, delta)
      let c := c.modify node fun x => { x with lockRef := x.lockRef - 1 }
      let c := c.updateLeafStatus node
      let parent ← (c.nodes node).parent
      decLockLoop fuel c parent delta

/-- Unlock a node and all ancestors: allows eviction. -/
def decLockRef (c : RadixCache) (node : NodeId) : Option (RadixCache × Int) :=
  let c := c.beginOp
  if c.disable then some (c, 0) else decLockLoop (c.counter + 1) c node 0

/-! ## Eviction -/

def deleteLeaf (c : RadixCache) (node : NodeId) : Option RadixCache := do
  let key ← (c.nodes node).key[0]?
  let parent ← (c.nodes node).parent
  let v := (c.nodes parent).children.lookup key
  let c := c.modify parent fun x => { x with children := x.children.erase key }
  if v = some node then
    let c := { c with evictableSize_ := c.evictableSize_ - (c.nodes node).key.length }
    return (c.discardLeaf node).updateLeafStatus parent
  else none

/-- What a heap entry is compared by: its priority, then `TreeNode.__lt__`. -/
def entryKey (now : Clock) (c : RadixCache) (e : HeapEntry) : Priority ×ₗ Int :=
  toLex (e.priority, now (c.nodes e.node).lastAccessTime)

/-- `heapq.heappop`: some smallest entry, and the heap without it. -/
def heappop (now : Clock) (tie : TieBreak) (c : RadixCache) (heap : List HeapEntry) :
    Option (HeapEntry × List HeapEntry) := do
  let smallest := heap.filter fun e => heap.all fun e' => decide (c.entryKey now e ≤ c.entryKey now e')
  let e ← smallest[tie heap % smallest.length]?
  return (e, heap.erase e)

def heapEntry (now : Clock) (c : RadixCache) (n : NodeId) : HeapEntry :=
  ⟨c.evictionStrategy.getPriority now (c.nodes n), n⟩

/-- `self.allocator.free(indices)`, when an allocator is attached. -/
def freeSlots (c : RadixCache) (indices : List Slot) : RadixCache :=
  { c with allocator := c.allocator.map fun a => a.free indices }

/-- The `while` loop of `evict`. -/
def evictLoop (now : Clock) (tie : TieBreak) (numTokens : Int) :
    Nat → RadixCache → List HeapEntry → Int → Option (RadixCache × Int)
  | 0, _, _, _ => none
  | fuel + 1, c, heap, numEvicted =>
    if numEvicted < numTokens ∧ heap ≠ [] then do
      let (x, heap) ← c.heappop now tie heap
      let value ← (c.nodes x.node).value
      let c := c.freeSlots value
      let numEvicted := numEvicted + value.length
      let c ← c.deleteLeaf x.node
      let parent ← (c.nodes x.node).parent
      let heap :=
        if (c.nodes parent).children.entries.length = 0 ∧ (c.nodes parent).lockRef = 0 then
          heap ++ [c.heapEntry now parent]
        else heap
      evictLoop now tie numTokens fuel c heap numEvicted
    else some (c, numEvicted)

def evict (now : Clock) (tie : TieBreak) (c : RadixCache) (numTokens : Int) : Option (RadixCache × Int) :=
  let c := c.beginOp
  if c.disable then some (c, 0)
  else evictLoop now tie numTokens (c.counter + 1) c (c.evictableLeaves.map (c.heapEntry now)) 0

/-! ## Sizes -/

def evictableSize (c : RadixCache) : Int := c.evictableSize_
def protectedSize (c : RadixCache) : Int := c.protectedSize_

/-- The traversal of `_total_size_helper`; the top of the stack is its head. -/
def totalSizeLoop (c : RadixCache) : Nat → List NodeId → Nat → Option Nat
  | 0, _, _ => none
  | _ + 1, [], totalSize => some totalSize
  | fuel + 1, current :: stack, totalSize =>
    let live := (c.childValues current).filter fun child => !(c.nodes child).evicted
    c.totalSizeLoop fuel (live.reverse ++ stack) (totalSize + ((c.nodes current).value.getD []).length)

def totalSize (c : RadixCache) : Option Nat := c.totalSizeLoop (c.counter + 1) [c.rootNode] 0

end RadixCache

end SglangMlx
