import CacheServer.Eviction.Recency
import CacheServer.Eviction.Sketch

/-!
Admission by frequency. A new key waits in a small `window`; one that is pushed out of there by
newer keys goes on to `main`. When a key has to go, the oldest of the window and the oldest of main
compete, and the one that a sketch says has been used more stays.
-/

namespace CacheServer

/-- The keys of the window and of main, and the sketch of all uses. -/
structure Admission where
  windowCapacity : Nat
  window : Recency
  main : Recency
  sketch : Sketch

namespace Admission

/-- No keys, for a store of the given capacity. A hundredth of it is for the window. -/
def ofCapacity (hash : RowHash) (capacity : Nat) : Admission :=
  ⟨max 1 (capacity / 100), .empty, .empty, .ofCapacity hash capacity⟩

/-- Moves the oldest key of the window to main if the window holds too many. -/
def overflow (a : Admission) : Admission :=
  if a.windowCapacity < a.window.size then
    match a.window.takeOldest? with
    | some (k, window) => { a with window := window, main := a.main.touch k }
    | none => a
  else a

/-- Adds a key that is neither in the window nor in main. -/
def add (a : Admission) (k : Key) : Admission :=
  overflow { a with sketch := a.sketch.add k, window := a.window.touch k }

/-- Notes a use of `k`. The sketch counts it even if the key is not there. -/
def use (a : Admission) (k : Key) : Admission :=
  let a := { a with sketch := a.sketch.add k }
  if a.window.contains k then { a with window := a.window.touch k }
  else if a.main.contains k then { a with main := a.main.touch k }
  else a

/-- Drops `k`, if it is there. The sketch keeps its uses. -/
def erase (a : Admission) (k : Key) : Admission :=
  { a with window := a.window.erase k, main := a.main.erase k }

/-- The key to go, and the others. The window's candidate is admitted to main in place of main's
oldest key only if its estimate is strictly higher. -/
def take? (a : Admission) : Option (Key × Admission) :=
  match a.window.oldest?, a.main.oldest? with
  | some candidate, some resident =>
    let a := { a with window := a.window.erase candidate }
    if a.sketch.estimate resident < a.sketch.estimate candidate then
      some (resident, { a with main := (a.main.erase resident).touch candidate })
    else some (candidate, a)
  | some _, none => a.window.takeOldest?.map fun (k, window) => (k, { a with window := window })
  | none, _ => a.main.takeOldest?.map fun (k, main) => (k, { a with main := main })

/-- Drops all keys and forgets their uses. -/
def clear (a : Admission) : Admission :=
  { a with window := a.window.clear, main := a.main.clear, sketch := a.sketch.clear }

end Admission

end CacheServer
