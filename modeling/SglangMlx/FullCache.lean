import SglangMlx.LiveSlots
import SglangMlx.StepFailure

/- What happens when the pool is full. The runner never evicts by itself, so a call
   raises the `MemoryError` of `alloc` exactly when the slots it asks for are not
   free, however many cached tokens could be evicted. These come back by a call of
   `evict`: evicting `evictable_size()` tokens leaves what is locked, and since no
   slot is stored twice every other cached token has given its slot back. -/
namespace SglangMlx

namespace RadixCache

section
variable {c : RadixCache} {T : Tree} (h : Rep c T)
include h

end

end RadixCache

namespace ModelRunner
variable {α Λ : Type}

/-- The runner's own methods. -/
def Call.own : Call → Bool
  | .evict _ _ => false
  | _ => true

section
variable {r : ModelRunner α} {T : Tree} {orphans : List NodeId} {own : Slot → List Token}

end

end ModelRunner

end SglangMlx
