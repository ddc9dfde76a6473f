import CacheServer.Key

/-!
Keys from the least to the most recently touched. A logical clock stamps every touch; `order` leads
from stamps to keys and `stamps` back, so that a key is found, moved and removed without a search.
-/

namespace CacheServer

/-- Keys in the order of their latest touch. -/
structure Recency where
  /-- The stamp of the next touch. It never goes back, not even when all keys are dropped. -/
  clock : Nat
  order : Std.ExtTreeMap Nat Key
  stamps : KeyMap Nat

namespace Recency

def empty : Recency := ⟨0, ∅, ∅⟩

/-- The keys, the least recently touched first. -/
def toList (r : Recency) : List Key :=
  r.order.toList.map Prod.snd

def size (r : Recency) : Nat :=
  r.order.size

def isEmpty (r : Recency) : Bool :=
  r.order.isEmpty

def contains (r : Recency) (k : Key) : Bool :=
  r.stamps.contains k

/-- Makes `k` the newest key, whether or not it was there. -/
def touch (r : Recency) (k : Key) : Recency where
  clock := r.clock + 1
  order := (match r.stamps[k]? with
    | some stamp => r.order.erase stamp
    | none => r.order).insert r.clock k
  stamps := r.stamps.insert k r.clock

/-- Whether `k` is there, and the other keys. -/
def remove (r : Recency) (k : Key) : Bool × Recency :=
  match r.stamps[k]? with
  | some stamp => (true, { r with order := r.order.erase stamp, stamps := r.stamps.erase k })
  | none => (false, r)

def erase (r : Recency) (k : Key) : Recency :=
  (r.remove k).2

/-- The key at a stamp, and the others. -/
def takeAt? (r : Recency) (stamp : Nat) : Option (Key × Recency) :=
  r.order[stamp]?.map fun k =>
    (k, { r with order := r.order.erase stamp, stamps := r.stamps.erase k })

def oldest? (r : Recency) : Option Key :=
  r.order.minKey?.bind fun stamp => r.order[stamp]?

def takeOldest? (r : Recency) : Option (Key × Recency) :=
  r.order.minKey?.bind r.takeAt?

def takeNewest? (r : Recency) : Option (Key × Recency) :=
  r.order.maxKey?.bind r.takeAt?

/-- Drops the least recently touched key, if there is one. -/
def dropOldest (r : Recency) : Recency :=
  (r.takeOldest?.map Prod.snd).getD r

/-- Drops the least recently touched keys until no more than `n` are left. -/
def shrinkTo (r : Recency) (n : Nat) : Recency :=
  Nat.repeat dropOldest (r.size - n) r

/-- Drops all keys. The clock goes on. -/
def clear (r : Recency) : Recency :=
  { r with order := ∅, stamps := ∅ }

end Recency

end CacheServer
