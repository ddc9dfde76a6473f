import CacheServer.Reply
import CacheServer.Store

/-!
What each command does to a store, and what the server answers.
-/

namespace CacheServer

open Text

/-- Whether a key begins with `stem`. -/
def beginsWith (stem k : Key) : Bool :=
  stem.toList.isPrefixOf k.toList

def Reply.ofFound : Option String → Reply
  | some v => .text v
  | none => .nil

/-- The answer to a removal of `count` keys that begin with `stem`. -/
def Reply.ofPurge (stem : Key) (count : Nat) : Reply :=
  if count = 0 then .text ("OK: No keys matched the prefix '" ++ stem ++ "'.")
  else .text ("OK: Purged " ++ Decimal.ofNat count ++ " key(s) matching prefix '" ++ stem ++ "'.")

namespace Store

def run (s : Store) (draw : Nat) : Command → Reply × Store
  | .ping => (.text "PONG", s)
  | .get k =>
    let (found, s) := s.get k
    (.ofFound found, s)
  | .getBy i secondary =>
    let (found, s) := s.getBy i secondary
    (.ofFound found, s)
  | .set k v one two =>
    match s.put draw k v [one, two] with
    | .ok s => (.ok, s)
    | .error e => (.error ("Command failed: " ++ e.message), s)
  | .del k => (.ok, (s.remove k).2)
  | .purge stem =>
    let matching := s.keys.filter (beginsWith stem)
    (.ofPurge stem matching.length, s.removeAll matching)
  | .reset => (.text "OK: Cache has been reset.", s.clear)

/-- Reads a line as a command and carries it out. A line that is no command is answered with its
error and changes nothing. -/
def execute (s : Store) (draw : Nat) (line : String) : Reply × Store :=
  match Command.ofLine line with
  | .ok command => s.run draw command
  | .error e => (.error e.message, s)

end Store

end CacheServer
