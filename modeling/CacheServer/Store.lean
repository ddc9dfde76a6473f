import CacheServer.Command
import CacheServer.Eviction.Policy
import CacheServer.Text.Decimal

/-!
The store: values under primary keys, and two indexes from secondary keys to primary keys. A bounded
store that is full makes room for a new key by its rule. Whenever a primary key goes, the index
entries that lead to it go as well.
-/

namespace CacheServer

open Text

/-- A value, and how often it has been read. -/
structure Entry where
  value : String
  hits : Nat
deriving DecidableEq, Repr

/-- Why a store cannot be made, or cannot do what is asked. -/
inductive StoreError where
  /-- More secondary keys than there are indexes. -/
  | tooManySecondaryIndexes (count : Nat)
  /-- A rule that bounds the store is to bound it to nothing. -/
  | zeroCapacity (rule : EvictionRule)
deriving DecidableEq, Repr

def maxSecondaryIndexes : Nat := 2

def StoreError.message : StoreError → String
  | .tooManySecondaryIndexes count =>
    "Too many secondary indexes (" ++ Decimal.ofNat count ++ "), maximum " ++
      Decimal.ofNat maxSecondaryIndexes ++ " allowed"
  | .zeroCapacity rule => rule.name ++ " eviction requires a capacity of at least 1"

/-- Entries under primary keys, the two indexes, and the bookkeeping of the eviction rule. -/
structure Store where
  rule : EvictionRule
  /-- The largest number of entries, if there is one. -/
  capacity : Option Nat
  entries : KeyMap Entry
  indexOne : KeyMap Key
  indexTwo : KeyMap Key
  policy : Policy

namespace Store

/-- An empty store. Without a rule the capacity does not matter; with one it must not be zero. The
hash is for the rule that keeps a sketch. -/
def create (hash : RowHash) (rule : EvictionRule) (capacity : Nat) : Except StoreError Store :=
  match rule with
  | .none => .ok ⟨.none, none, ∅, ∅, ∅, .ofRule hash 0 .none⟩
  | rule =>
    if capacity = 0 then .error (.zeroCapacity rule)
    else .ok ⟨rule, some capacity, ∅, ∅, ∅, .ofRule hash capacity rule⟩

def size (s : Store) : Nat :=
  s.entries.size

def isEmpty (s : Store) : Bool :=
  s.entries.isEmpty

def keys (s : Store) : List Key :=
  s.entries.keys

def containsKey (s : Store) (k : Key) : Bool :=
  s.entries.contains k

def containsValue (s : Store) (v : String) : Bool :=
  s.entries.toList.any fun e => e.2.value == v

/-- How often the value of a key has been read since the key came. -/
def hits? (s : Store) (k : Key) : Option Nat :=
  s.entries[k]?.map Entry.hits

def index (s : Store) : Index → KeyMap Key
  | .one => s.indexOne
  | .two => s.indexTwo

/-- Drops the index entries that lead to a key. -/
def unlink (s : Store) (k : Key) : Store :=
  { s with
    indexOne := s.indexOne.filter fun _ target => target != k
    indexTwo := s.indexTwo.filter fun _ target => target != k }

/-- Drops the key that the rule chooses. -/
def evict (s : Store) (draw : Nat) : Store :=
  match s.policy.victim? draw with
  | none => s
  | some (victim, policy) =>
    { s with entries := s.entries.erase victim, policy := policy }.unlink victim

def isFull (s : Store) : Bool :=
  s.capacity.any fun capacity => capacity ≤ s.entries.size

/-- Writes the value of a key. A key that is there keeps its hits. For a new key room is made first.
-/
def write (s : Store) (draw : Nat) (k : Key) (v : String) : Store :=
  match s.entries[k]? with
  | some e =>
    { s with entries := s.entries.insert k { e with value := v }, policy := s.policy.used k }
  | none =>
    let s := if s.isFull then s.evict draw else s
    { s with entries := s.entries.insert k ⟨v, 0⟩, policy := s.policy.inserted k }

/-- Adds an entry to an index, if there is a secondary key, in place of the one it had. -/
def link (index : KeyMap Key) (secondary : Option Key) (k : Key) : KeyMap Key :=
  match secondary with
  | some s => index.insert s k
  | none => index

/-- Stores a value under a key, and leads the given secondary keys, first and second, to it. Index
entries from an earlier value of the key stay. -/
def put (s : Store) (draw : Nat) (k : Key) (v : String) (secondary : List (Option Key)) :
    Except StoreError Store :=
  if maxSecondaryIndexes < secondary.length then
    .error (.tooManySecondaryIndexes secondary.length)
  else
    let s := s.write draw k v
    .ok { s with
      indexOne := link s.indexOne (secondary[0]?.getD none) k
      indexTwo := link s.indexTwo (secondary[1]?.getD none) k }

/-- Reads the value of a key, which counts as a hit and as a use. -/
def get (s : Store) (k : Key) : Option String × Store :=
  match s.entries[k]? with
  | none => (none, s)
  | some e =>
    (some e.value,
      { s with entries := s.entries.insert k { e with hits := e.hits + 1 }
               policy := s.policy.used k })

/-- Reads the value that a secondary key leads to. -/
def getBy (s : Store) (i : Index) (secondary : Key) : Option String × Store :=
  match (s.index i)[secondary]? with
  | none => (none, s)
  | some k => s.get k

/-- Removes a key and the index entries that lead to it. -/
def remove (s : Store) (k : Key) : Option String × Store :=
  match s.entries[k]? with
  | none => (none, s.unlink k)
  | some e =>
    (some e.value, { s with entries := s.entries.erase k, policy := s.policy.removed k }.unlink k)

def removeAll (s : Store) (ks : List Key) : Store :=
  ks.foldl (fun s k => (s.remove k).2) s

def clear (s : Store) : Store :=
  { s with entries := ∅, indexOne := ∅, indexTwo := ∅, policy := s.policy.cleared }

end Store

end CacheServer
