import Nsdci.Broadcast

/-!
# Network cache flush (`flush.c`)

The init message of the cache flush broadcaster: a request to flush all registered caches, when
`flushonconnect` is set.
-/

namespace Nsdci.Flush

open Lib

/-- The message `NcfClientInitMsg` builds: no cache, no key and the flag `NCF_ALLCACHE`. -/
def allCacheMsg : Msg := ⟨asciz [] ++ asciz [] ++ asciz [65, 75], by decide⟩

/-- `NcfClientInitMsg`. -/
def ncfClientInitMsg (flushOnInit : Bool) (h : Heap Msg) : Bool × Heap Msg × Option Nat :=
  if flushOnInit then
    let r := h.alloc allCacheMsg
    (flushOnInit, r.1, some r.2)
  else (flushOnInit, h, none)

/-- The cache flush broadcaster calls `NcfClientInitMsg`, and nobody keeps the reference of the
creator of the message it returns. -/
def ncfClientInitProc : Broadcast.InitProc Bool where
  proc := ncfClientInitMsg
  holds _ := 0
  keeps flushOnInit := flushOnInit = false
  sound d h H hc := by
    cases d with
    | false => exact ⟨0, by simpa [ncfClientInitMsg] using hc, by simp [ncfClientInitMsg], by simp⟩
    | true =>
        have halloc := (show h.Counted H by simpa using hc).alloc allCacheMsg
        exact ⟨{(h.alloc allCacheMsg).2}, by simpa [ncfClientInitMsg] using halloc,
          by simp [ncfClientInitMsg], by simp⟩
  later d h := by
    cases d with
    | false => exact Heap.Extends.refl h
    | true => exact Heap.extends_alloc h _

end Nsdci.Flush
