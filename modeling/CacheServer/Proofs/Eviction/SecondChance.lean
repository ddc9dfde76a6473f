import CacheServer.Key

/-!
Second chance as a queue. New keys join at the back with a mark. When a key has to go, a key at the front
that has a mark gives it up for a place at the back, until a key without one is at the front: that one goes.
-/

namespace CacheServer

/-- Keys in a queue, each with a mark. -/
abbrev SecondChance : Type := List (Key × Bool)

namespace SecondChance

variable {q rest : SecondChance} {k : Key}

def keys (q : SecondChance) : List Key :=
  q.map Prod.fst

/-- The number of keys that have a mark. -/
def chances (q : SecondChance) : Nat :=
  q.countP Prod.snd

def add (q : SecondChance) (k : Key) : SecondChance :=
  q ++ [(k, true)]

/-- Marks `k`, if it is there. -/
def use (q : SecondChance) (k : Key) : SecondChance :=
  q.map fun e => (e.1, e.2 || e.1 == k)

def erase (q : SecondChance) (k : Key) : SecondChance :=
  q.filter fun e => e.1 != k

/-- The key to go, and the others. Every key that is put back has lost its mark, so the marks run out. -/
def take? : SecondChance → Option (Key × SecondChance)
  | [] => none
  | (k, false) :: rest => some (k, rest)
  | (k, true) :: rest => take? (rest ++ [(k, false)])
termination_by q => q.countP Prod.snd
decreasing_by simp

theorem take?_eq_none_iff : take? q = none ↔ q = [] := by
  fun_induction take? q with
  | case1 => simp
  | case2 k rest => simp
  | case3 k rest ih => simpa using ih

/-- The key that goes is one of the queue, and the others stay. -/
theorem keys_perm_of_take? (htake : take? q = some (k, rest)) : (keys q).Perm (k :: keys rest) := by
  fun_induction take? q with
  | case1 => cases htake
  | case2 front others =>
    cases htake
    exact .refl _
  | case3 front others ih =>
    have hback : (keys ((front, true) :: others)).Perm (keys (others ++ [(front, false)])) := by
      simp only [keys, List.map_cons, List.map_append, List.map_nil]
      exact (List.perm_append_singleton front _).symm
    exact hback.trans (ih htake)

theorem chances_le (q : SecondChance) : chances q ≤ q.length :=
  List.countP_le_length

end SecondChance

end CacheServer
