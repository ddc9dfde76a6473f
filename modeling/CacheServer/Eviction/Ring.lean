import CacheServer.Key

/-!
Keys on a ring, each with a mark that every use sets. A hand goes round: it clears set marks, and it
takes the first key whose mark is clear. So every use since the hand's last visit is a second
chance.
-/

namespace CacheServer

/-- Keys on a ring. The key at the hand's position is the next to be visited. -/
structure Ring where
  keys : Array Key
  /-- Whether a key has been used since the hand last passed it. -/
  marks : KeyMap Bool
  hand : Nat

namespace Ring

def empty : Ring := ⟨#[], ∅, 0⟩

/-- The keys in the order in which the hand will visit them. -/
def toList (r : Ring) : List Key :=
  r.keys.toList.drop r.hand ++ r.keys.toList.take r.hand

/-- Adds a key that is not there, marked, right behind the hand: all others are visited before it.
-/
def add (r : Ring) (k : Key) : Ring :=
  let position := min r.hand r.keys.size
  { keys := r.keys.insertIdxIfInBounds position k
    marks := r.marks.insert k true
    hand := position + 1 }

/-- Marks `k`, if it is there. -/
def use (r : Ring) (k : Key) : Ring :=
  if r.marks.contains k then { r with marks := r.marks.insert k true } else r

/-- Drops `k`, if it is there. The hand stays at its key. -/
def erase (r : Ring) (k : Key) : Ring :=
  if r.marks.contains k then
    let r := { r with marks := r.marks.erase k }
    match r.keys.idxOf? k with
    | some position =>
      { r with
        keys := r.keys.eraseIdxIfInBounds position
        hand := if position < r.hand then r.hand - 1 else r.hand }
    | none => r
  else r

/-- Lets the hand visit at most `visits` keys, until it takes one. -/
def sweep : Nat → Ring → Option (Key × Ring)
  | 0, _ => none
  | visits + 1, r =>
    let hand := if r.keys.size ≤ r.hand then 0 else r.hand
    match r.keys[hand]? with
    | none => none
    | some k =>
      if r.marks[k]? = some true then
        sweep visits { r with marks := r.marks.insert k false, hand := hand + 1 }
      else
        some (k, { keys := r.keys.eraseIdxIfInBounds hand, marks := r.marks.erase k, hand := hand })

/-- The first key that the hand meets without a mark, and the others. One round clears every mark,
so one more visit is enough. -/
def take? (r : Ring) : Option (Key × Ring) :=
  r.sweep (r.keys.size + 1)

def clear (_ : Ring) : Ring := empty

end Ring

end CacheServer
