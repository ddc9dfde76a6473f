import CacheServer.Key

/-!
Keys from the least to the most frequently used. Keys with as many uses are in the order in which
they were added.
-/

namespace CacheServer

/-- What decides between two keys: first the number of uses, then the place in the order of
addition. -/
structure Rank where
  uses : Nat
  place : Nat
deriving DecidableEq, Repr

namespace Rank

instance : Ord Rank where
  compare := compareLex (compareOn Rank.uses) (compareOn Rank.place)

instance : Std.TransOrd Rank :=
  inferInstanceAs (Std.TransCmp (compareLex (compareOn Rank.uses) (compareOn Rank.place)))

instance : Std.LawfulEqOrd Rank where
  eq_of_compare {a b} h := by
    obtain ⟨uses, place⟩ := a
    obtain ⟨uses', place'⟩ := b
    have h : (compare uses uses').then (compare place place') = .eq := h
    rw [Ordering.then_eq_eq] at h
    simp_all

end Rank

/-- Keys with their ranks. `order` leads from ranks to keys and `ranks` back. -/
structure Ranking where
  /-- The place of the next key. It never goes back, not even when all keys are dropped. -/
  places : Nat
  order : Std.ExtTreeMap Rank Key
  ranks : KeyMap Rank

namespace Ranking

def empty : Ranking := ⟨0, ∅, ∅⟩

/-- The keys, the least used first. -/
def toList (r : Ranking) : List Key :=
  r.order.toList.map Prod.snd

def add (r : Ranking) (k : Key) : Ranking where
  places := r.places + 1
  order := r.order.insert ⟨1, r.places⟩ k
  ranks := r.ranks.insert k ⟨1, r.places⟩

/-- Counts a use of `k`, if it is there. -/
def use (r : Ranking) (k : Key) : Ranking :=
  match r.ranks[k]? with
  | some rank =>
    let next : Rank := { rank with uses := rank.uses + 1 }
    { r with order := (r.order.erase rank).insert next k, ranks := r.ranks.insert k next }
  | none => r

def erase (r : Ranking) (k : Key) : Ranking :=
  match r.ranks[k]? with
  | some rank => { r with order := r.order.erase rank, ranks := r.ranks.erase k }
  | none => r

/-- The least used key, and the others. -/
def takeLeast? (r : Ranking) : Option (Key × Ranking) :=
  r.order.minKey?.bind fun rank =>
    r.order[rank]?.map fun k =>
      (k, { r with order := r.order.erase rank, ranks := r.ranks.erase k })

def clear (r : Ranking) : Ranking :=
  { r with order := ∅, ranks := ∅ }

end Ranking

end CacheServer
