import CacheServer.Key

/-!
An estimate of how often keys have been used, in constant space. A table has four rows of counters;
each row has one counter for a key, which the key may share with others. The estimate is the least
of its four counters, so sharing can only raise it. Now and then all counters are halved, so that
uses long past count for less.
-/

namespace CacheServer

/-- A hash of a key for each row of a table. -/
abbrev RowHash : Type := Nat → Key → Nat

def Sketch.depth : Nat := 4

def Sketch.maxCount : Nat := 255

/-- A table of counters, row after row. -/
structure Sketch where
  hash : RowHash
  width : Nat
  counters : Array Nat
  /-- The uses counted since the counters were last halved, and half of those before. -/
  additions : Nat

namespace Sketch

/-- The width for a store of the given capacity: the next power of two, between `2 ^ 4` and `2 ^
20`. -/
def widthFor (capacity : Nat) : Nat :=
  (max 16 (min capacity 1048576)).nextPowerOfTwo

def ofCapacity (hash : RowHash) (capacity : Nat) : Sketch :=
  let width := widthFor capacity
  ⟨hash, width, Array.replicate (width * depth) 0, 0⟩

/-- The number of uses at which the counters are halved. -/
def sampleSize (s : Sketch) : Nat :=
  10 * s.width

/-- The position of a key's counter in a row. -/
def slot (s : Sketch) (row : Nat) (k : Key) : Nat :=
  row * s.width + s.hash row k % s.width

/-- The value of a key's counter in a row. -/
def count (s : Sketch) (row : Nat) (k : Key) : Nat :=
  s.counters[s.slot row k]?.getD 0

/-- The estimate of a key's uses. -/
def estimate (s : Sketch) (k : Key) : Nat :=
  ((List.range depth).map fun row => s.count row k).min?.getD 0

/-- Raises a key's counter in a row, unless it is at its largest. -/
def bump (k : Key) (s : Sketch) (row : Nat) : Sketch :=
  { s with counters := s.counters.modify (s.slot row k) fun n => min (n + 1) maxCount }

/-- Halves all counters. -/
def halve (s : Sketch) : Sketch :=
  { s with counters := s.counters.map (· / 2), additions := s.additions / 2 }

/-- Counts a use of a key. -/
def add (s : Sketch) (k : Key) : Sketch :=
  let s := (List.range depth).foldl (bump k) s
  let s := { s with additions := s.additions + 1 }
  if s.sampleSize ≤ s.additions then s.halve else s

/-- Forgets all uses. -/
def clear (s : Sketch) : Sketch :=
  { s with counters := s.counters.map fun _ => 0, additions := 0 }

end Sketch

end CacheServer
