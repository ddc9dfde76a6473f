import CacheServer.Key

/-!
Keys from which any one can be drawn. They stand without gaps in an array, in no meaningful order,
and a map leads from each key to its position.
-/

namespace CacheServer

/-- Keys in an array, each with its position. -/
structure Pool where
  keys : Array Key
  positions : KeyMap Nat

namespace Pool

def empty : Pool := ⟨#[], ∅⟩

def add (p : Pool) (k : Key) : Pool where
  keys := p.keys.push k
  positions := p.positions.insert k p.keys.size

/-- The key at a position, and the others. The last key takes its place. -/
def takeAt? (p : Pool) (i : Nat) : Option (Key × Pool) :=
  if h : i < p.keys.size then
    let taken := p.keys[i]
    let keys := (p.keys.set i (p.keys.back (by omega)) h).pop
    let positions := p.positions.erase taken
    some (taken, ⟨keys, match keys[i]? with
      | some moved => positions.insert moved i
      | none => positions⟩)
  else none

def erase (p : Pool) (k : Key) : Pool :=
  match p.positions[k]? with
  | some i => ((p.takeAt? i).map Prod.snd).getD p
  | none => p

/-- A key chosen by an arbitrary number, and the others. Numbers from zero up to the number of keys
choose each key once. -/
def draw? (p : Pool) (n : Nat) : Option (Key × Pool) :=
  p.takeAt? (n % p.keys.size)

def clear (_ : Pool) : Pool := empty

end Pool

end CacheServer
