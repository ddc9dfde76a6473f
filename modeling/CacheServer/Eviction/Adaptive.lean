import CacheServer.Eviction.Recency

/-!
Adaptive replacement. Keys used once since they came are in `recent`, keys used again in `frequent`.
A key that leaves is remembered among the ghosts of its list, and if it comes back while it is
remembered, the list that lost it is given a larger share of the capacity.
-/

namespace CacheServer

/-- The keys of the two lists, and the keys that left them not long ago. -/
structure Adaptive where
  capacity : Nat
  /-- How many keys `recent` may hold before it is the one to give. -/
  target : Nat
  recent : Recency
  frequent : Recency
  recentGhosts : Recency
  frequentGhosts : Recency

namespace Adaptive

def ofCapacity (capacity : Nat) : Adaptive :=
  ⟨capacity, 0, .empty, .empty, .empty, .empty⟩

/-- How far the target moves for a ghost: as many times as the other ghosts outnumber those of its
own list, and at least by one. -/
def shift (own other : Recency) : Nat :=
  max 1 (other.size / own.size)

/-- Adds a key that is in neither list. A ghost comes back as a frequent key and moves the target in
favour of the list that lost it. -/
def add (a : Adaptive) (k : Key) : Adaptive :=
  if a.recentGhosts.contains k then
    { a with
      target := min (a.target + shift a.recentGhosts a.frequentGhosts) a.capacity
      recentGhosts := a.recentGhosts.erase k
      frequent := a.frequent.touch k }
  else if a.frequentGhosts.contains k then
    { a with
      target := a.target - shift a.frequentGhosts a.recentGhosts
      frequentGhosts := a.frequentGhosts.erase k
      frequent := a.frequent.touch k }
  else { a with recent := a.recent.touch k }

/-- Notes a use of `k`, if it is in one of the lists. -/
def use (a : Adaptive) (k : Key) : Adaptive :=
  if a.recent.contains k then
    { a with recent := a.recent.erase k, frequent := a.frequent.touch k }
  else if a.frequent.contains k then { a with frequent := a.frequent.touch k }
  else a

/-- Drops `k` and the memory of it. -/
def erase (a : Adaptive) (k : Key) : Adaptive :=
  { a with
    recent := a.recent.erase k
    frequent := a.frequent.erase k
    recentGhosts := a.recentGhosts.erase k
    frequentGhosts := a.frequentGhosts.erase k }

def ghostCount (a : Adaptive) : Nat :=
  a.recentGhosts.size + a.frequentGhosts.size

/-- Forgets the oldest ghost of the longer list, of `recentGhosts` if they are equally long. -/
def dropGhost (a : Adaptive) : Adaptive :=
  if a.frequentGhosts.size ≤ a.recentGhosts.size then
    { a with recentGhosts := a.recentGhosts.dropOldest }
  else { a with frequentGhosts := a.frequentGhosts.dropOldest }

/-- Forgets ghosts until no more than the capacity are left. -/
def trimGhosts (a : Adaptive) : Adaptive :=
  Nat.repeat dropGhost (a.ghostCount - a.capacity) a

/-- Whether the next key to go is one of `recent`. -/
def takesRecent (a : Adaptive) : Bool :=
  !a.recent.isEmpty && (a.target < a.recent.size || a.frequent.isEmpty)

/-- The key to go, and the others: the oldest of `recent` if that list is beyond its target, else
the oldest of `frequent`. It becomes a ghost of its list. -/
def take? (a : Adaptive) : Option (Key × Adaptive) :=
  if a.takesRecent then
    a.recent.takeOldest?.map fun (k, recent) =>
      (k, trimGhosts { a with recent := recent, recentGhosts := a.recentGhosts.touch k })
  else
    a.frequent.takeOldest?.map fun (k, frequent) =>
      (k, trimGhosts { a with frequent := frequent, frequentGhosts := a.frequentGhosts.touch k })

/-- Drops all keys and the memory of them. -/
def clear (a : Adaptive) : Adaptive :=
  { a with
    target := 0
    recent := a.recent.clear
    frequent := a.frequent.clear
    recentGhosts := a.recentGhosts.clear
    frequentGhosts := a.frequentGhosts.clear }

end Adaptive

end CacheServer
