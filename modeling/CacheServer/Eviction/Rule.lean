import CacheServer.Text.Case

/-!
The names of the eviction rules.
-/

namespace CacheServer

/-- How a store makes room when it is full. -/
inductive EvictionRule where
  /-- It never is: the store has no bound. -/
  | none
  | random
  | lru
  | mru
  | fifo
  | lfu
  | clock
  | arc
  | twoQueues
  | tinyLfu
deriving DecidableEq, Repr

namespace EvictionRule

def all : List EvictionRule :=
  [none, random, lru, mru, fifo, lfu, clock, arc, twoQueues, tinyLfu]

def name : EvictionRule → String
  | none => "NONE"
  | random => "RANDOM"
  | lru => "LRU"
  | mru => "MRU"
  | fifo => "FIFO"
  | lfu => "LFU"
  | clock => "CLOCK"
  | arc => "ARC"
  | twoQueues => "2QUEUE"
  | tinyLfu => "TINYLFU"

/-- The names under which a rule may be asked for. -/
def names : EvictionRule → List String
  | twoQueues => ["2QUEUE", "TWOQUEUES"]
  | rule => [rule.name]

/-- The rule that a word asks for, in any case. -/
def ofName? (word : String) : Option EvictionRule :=
  all.find? fun rule => rule.names.any (Text.sameWord word)

/-- The wording of the error when a word asks for no rule. -/
def unknownName : String := "Matching variant not found"

end EvictionRule

end CacheServer
