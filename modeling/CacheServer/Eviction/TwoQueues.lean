import CacheServer.Eviction.Recency

/-!
Two queues. A new key waits in `fresh`, where uses do not move it, and leaves from there first; it
is remembered for a while among the `ghosts`. A key that comes back while it is remembered goes to
`hot`, which is ordered by use. Keys that come once thus pass without driving out keys that come
again.
-/

namespace CacheServer

/-- The keys of the two queues, and the keys that left `fresh` not long ago. -/
structure TwoQueues where
  freshCapacity : Nat
  ghostCapacity : Nat
  fresh : Recency
  hot : Recency
  ghosts : Recency

namespace TwoQueues

/-- No keys, for a store of the given capacity. A quarter of it is for `fresh`, and half of it is
how many ghosts there may be. -/
def ofCapacity (capacity : Nat) : TwoQueues :=
  ⟨max 1 (capacity / 4), max 1 (capacity / 2), .empty, .empty, .empty⟩

/-- Adds a key that is in neither queue. -/
def add (q : TwoQueues) (k : Key) : TwoQueues :=
  if q.ghosts.contains k then { q with ghosts := q.ghosts.erase k, hot := q.hot.touch k }
  else { q with fresh := q.fresh.touch k }

/-- Notes a use of `k`, which counts in `hot` only. -/
def use (q : TwoQueues) (k : Key) : TwoQueues :=
  if q.hot.contains k then { q with hot := q.hot.touch k } else q

/-- Drops `k` and the memory of it. -/
def erase (q : TwoQueues) (k : Key) : TwoQueues :=
  { q with fresh := q.fresh.erase k, hot := q.hot.erase k, ghosts := q.ghosts.erase k }

/-- The key to go, and the others: the oldest of `fresh` if there are too many of those or no
others, else the oldest of `hot`. Only the first kind is remembered. -/
def take? (q : TwoQueues) : Option (Key × TwoQueues) :=
  if q.freshCapacity < q.fresh.size || q.hot.isEmpty then
    q.fresh.takeOldest?.map fun (k, fresh) =>
      (k, { q with fresh := fresh, ghosts := (q.ghosts.touch k).shrinkTo q.ghostCapacity })
  else
    q.hot.takeOldest?.map fun (k, hot) => (k, { q with hot := hot })

/-- Drops all keys and the memory of them. -/
def clear (q : TwoQueues) : TwoQueues :=
  { q with fresh := q.fresh.clear, hot := q.hot.clear, ghosts := q.ghosts.clear }

end TwoQueues

end CacheServer
