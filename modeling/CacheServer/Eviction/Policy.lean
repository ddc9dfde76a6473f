import CacheServer.Eviction.Adaptive
import CacheServer.Eviction.Admission
import CacheServer.Eviction.Pool
import CacheServer.Eviction.Ranking
import CacheServer.Eviction.Ring
import CacheServer.Eviction.Rule
import CacheServer.Eviction.TwoQueues

/-!
What a store has to know to make room by a rule. The store reports every change of its keys and
every use of one, and asks which key is to go.
-/

namespace CacheServer

/-- The bookkeeping of each rule. -/
inductive Policy where
  | none
  | random (keys : Pool)
  | lru (keys : Recency)
  | mru (keys : Recency)
  | fifo (keys : Recency)
  | lfu (keys : Ranking)
  | clock (keys : Ring)
  | arc (keys : Adaptive)
  | twoQueues (keys : TwoQueues)
  | tinyLfu (keys : Admission)

namespace Policy

/-- The bookkeeping of a rule before there are keys. -/
def ofRule (hash : RowHash) (capacity : Nat) : EvictionRule → Policy
  | .none => .none
  | .random => .random .empty
  | .lru => .lru .empty
  | .mru => .mru .empty
  | .fifo => .fifo .empty
  | .lfu => .lfu .empty
  | .clock => .clock .empty
  | .arc => .arc (.ofCapacity capacity)
  | .twoQueues => .twoQueues (.ofCapacity capacity)
  | .tinyLfu => .tinyLfu (.ofCapacity hash capacity)

/-- The keys that may be chosen to go. Without a rule none is kept. -/
def residents : Policy → List Key
  | none => []
  | random p => p.keys.toList
  | lru r | mru r | fifo r => r.toList
  | lfu r => r.toList
  | clock r => r.toList
  | arc a => a.recent.toList ++ a.frequent.toList
  | twoQueues q => q.fresh.toList ++ q.hot.toList
  | tinyLfu a => a.window.toList ++ a.main.toList

/-- A key that was not in the store is there now. -/
def inserted (k : Key) : Policy → Policy
  | none => none
  | random p => random (p.add k)
  | lru r => lru (r.touch k)
  | mru r => mru (r.touch k)
  | fifo r => fifo (r.touch k)
  | lfu r => lfu (r.add k)
  | clock r => clock (r.add k)
  | arc a => arc (a.add k)
  | twoQueues q => twoQueues (q.add k)
  | tinyLfu a => tinyLfu (a.add k)

/-- The value of a key has been read or overwritten. -/
def used (k : Key) : Policy → Policy
  | none => none
  | random p => random p
  | lru r => lru (r.touch k)
  | mru r => mru (r.touch k)
  | fifo r => fifo r
  | lfu r => lfu (r.use k)
  | clock r => clock (r.use k)
  | arc a => arc (a.use k)
  | twoQueues q => twoQueues (q.use k)
  | tinyLfu a => tinyLfu (a.use k)

/-- A key has been removed on request. -/
def removed (k : Key) : Policy → Policy
  | none => none
  | random p => random (p.erase k)
  | lru r => lru (r.erase k)
  | mru r => mru (r.erase k)
  | fifo r => fifo (r.erase k)
  | lfu r => lfu (r.erase k)
  | clock r => clock (r.erase k)
  | arc a => arc (a.erase k)
  | twoQueues q => twoQueues (q.erase k)
  | tinyLfu a => tinyLfu (a.erase k)

/-- The key to go, and the bookkeeping without it. Only the random rule looks at `draw`, an
arbitrary number that makes its choice. -/
def victim? (draw : Nat) : Policy → Option (Key × Policy)
  | none => .none
  | random p => (p.draw? draw).map fun (k, p) => (k, random p)
  | lru r => r.takeOldest?.map fun (k, r) => (k, lru r)
  | mru r => r.takeNewest?.map fun (k, r) => (k, mru r)
  | fifo r => r.takeOldest?.map fun (k, r) => (k, fifo r)
  | lfu r => r.takeLeast?.map fun (k, r) => (k, lfu r)
  | clock r => r.take?.map fun (k, r) => (k, clock r)
  | arc a => a.take?.map fun (k, a) => (k, arc a)
  | twoQueues q => q.take?.map fun (k, q) => (k, twoQueues q)
  | tinyLfu a => a.take?.map fun (k, a) => (k, tinyLfu a)

/-- All keys have been removed. -/
def cleared : Policy → Policy
  | none => none
  | random p => random p.clear
  | lru r => lru r.clear
  | mru r => mru r.clear
  | fifo r => fifo r.clear
  | lfu r => lfu r.clear
  | clock r => clock r.clear
  | arc a => arc a.clear
  | twoQueues q => twoQueues q.clear
  | tinyLfu a => tinyLfu a.clear

end Policy

end CacheServer
