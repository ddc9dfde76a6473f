import CacheServer.Eviction.Sketch

/-!
The hash of the sketch's rows: SipHash with one compression round and three finalization rounds,
under the zero key. The row's seed stands in front of the key's bytes, so the rows hash differently.
-/

namespace CacheServer.SipHash

structure State where
  v0 : UInt64
  v1 : UInt64
  v2 : UInt64
  v3 : UInt64
deriving DecidableEq, Repr

/-- The state before any word, under the key of two zero words. -/
def State.start : State :=
  ⟨0x736f6d6570736575, 0x646f72616e646f6d, 0x6c7967656e657261, 0x7465646279746573⟩

/-- A word turned left by `n` bits, for `n` from 1 to 63. -/
def rotate (x n : UInt64) : UInt64 :=
  (x <<< n) ||| (x >>> (64 - n))

def State.round (s : State) : State :=
  let v0 := s.v0 + s.v1
  let v1 := rotate s.v1 13 ^^^ v0
  let v0 := rotate v0 32
  let v2 := s.v2 + s.v3
  let v3 := rotate s.v3 16 ^^^ v2
  let v0 := v0 + v3
  let v3 := rotate v3 21 ^^^ v0
  let v2 := v2 + v1
  let v1 := rotate v1 17 ^^^ v2
  let v2 := rotate v2 32
  ⟨v0, v1, v2, v3⟩

def State.absorb (s : State) (word : UInt64) : State :=
  let mixed := { s with v3 := s.v3 ^^^ word }.round
  { mixed with v0 := mixed.v0 ^^^ word }

/-- The hash of the words taken in. -/
def State.finish (s : State) : UInt64 :=
  let s := { s with v2 := s.v2 ^^^ 0xff }.round.round.round
  s.v0 ^^^ s.v1 ^^^ s.v2 ^^^ s.v3

/-- The number that bytes hold, the least significant first. Of more than eight bytes the first
eight count. -/
def word (bytes : List UInt8) : UInt64 :=
  bytes.foldr (fun b n => (n <<< 8) ||| b.toUInt64) 0

/-- Takes in bytes eight at a time. The last word holds the bytes left over and, on top, the number
of all bytes modulo 256. -/
def absorbAll (length : Nat) : State → List UInt8 → State
  | s, a :: b :: c :: d :: e :: f :: g :: h :: rest =>
    absorbAll length (s.absorb (word [a, b, c, d, e, f, g, h])) rest
  | s, rest => s.absorb (word rest ||| (length.toUInt64 <<< 56))

def hash (bytes : List UInt8) : UInt64 :=
  (absorbAll bytes.length .start bytes).finish

/-- A word in eight bytes, the least significant first. -/
def wordBytes (x : UInt64) : List UInt8 :=
  [x.toUInt8, (x >>> 8).toUInt8, (x >>> 16).toUInt8, (x >>> 24).toUInt8, (x >>> 32).toUInt8,
    (x >>> 40).toUInt8, (x >>> 48).toUInt8, (x >>> 56).toUInt8]

def seeds : List UInt64 :=
  [0x9e3779b97f4a7c15, 0xc2b2ae3d27d4eb4f, 0x165667b19e3779f9, 0x85ebca77c2b2ae63]

/-- The hash of a key in a row. A byte that no UTF-8 text holds marks the end of the key. -/
def rowHash : RowHash := fun row k =>
  (hash (wordBytes (seeds.getD row 0) ++ k.toUTF8.data.toList ++ [0xFF])).toNat

end CacheServer.SipHash
