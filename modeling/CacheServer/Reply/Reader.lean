import CacheServer.Reply
import CacheServer.Text.Decimal

/-!
Reading a reply from the front of a byte string. The reader takes no more bytes than it has looked
at: the sigil first, then whole lines. What it leaves tells where it stopped, also after an error.
-/

namespace CacheServer.Reply

open Text

/-- Why no reply stands at the front of the bytes. -/
inductive ReadError where
  /-- The bytes end before the reply does. -/
  | incomplete
  /-- A line starts with a byte that is no sigil. -/
  | unknownSigil (b : UInt8)
  /-- A line has the wrong sigil for its place, or its text is not UTF-8. -/
  | malformed
  /-- The text of an integer or of a count is no number in range. -/
  | badNumber
  /-- An array announces more elements than can be addressed. This one is fatal: no reader goes on
  after it. -/
  | countTooLarge
deriving DecidableEq, Repr

def ReadError.message : ReadError → String
  | .incomplete => "not enough data is available to parse an entire frame"
  | .unknownSigil b => "invalid frame data type: " ++ Decimal.ofNat b.toNat
  | .malformed => "protocol error; invalid frame format"
  | .badNumber => "protocol error; invalid integer"
  | .countTooLarge => "capacity overflow"

/-- The outcome of reading something, with the bytes that are left. -/
abbrev Outcome (α : Type) : Type := Except ReadError α × List UInt8

/-- Goes on with what has been read, unless it was an error. -/
def Outcome.next {α β : Type} (o : Outcome α) (f : α → List UInt8 → Outcome β) : Outcome β :=
  match o with
  | (.ok a, rest) => f a rest
  | (.error e, rest) => (.error e, rest)

/-- Cuts at the first CR LF, which belongs to neither part. `line` are the bytes already passed, the
latest first. -/
def cutLine (line : List UInt8) : List UInt8 → Option (List UInt8 × List UInt8)
  | a :: b :: rest =>
    if a == 0x0D && b == 0x0A then some (line.reverse, rest) else cutLine (a :: line) (b :: rest)
  | _ => none

/-- Reads the text of a line, up to and with its CR LF. -/
def readLine (bytes : List UInt8) : Outcome String :=
  match cutLine [] bytes with
  | none => (.error .incomplete, bytes)
  | some (line, rest) =>
    match String.fromUTF8? line.toByteArray with
    | none => (.error .malformed, rest)
    | some s => (.ok s, rest)

def readSigil : List UInt8 → Outcome Sigil
  | [] => (.error .incomplete, [])
  | b :: rest =>
    match Sigil.ofByte? b with
    | none => (.error (.unknownSigil b), rest)
    | some s => (.ok s, rest)

/-- Reads a line that must have the given sigil. -/
def readLineOf (sigil : Sigil) (bytes : List UInt8) : Outcome String :=
  (readSigil bytes).next fun s rest =>
    if s = sigil then readLine rest else (.error .malformed, rest)

/-- The least integer of a reply, of 64 bits with a sign. -/
def minInteger : Int := -9223372036854775808

def maxInteger : Int := 9223372036854775807

def readInteger (bytes : List UInt8) : Outcome Int64 :=
  (readLine bytes).next fun s rest =>
    match Decimal.int? minInteger maxInteger s with
    | none => (.error .badNumber, rest)
    | some i => (.ok (Int64.ofInt i), rest)

/-- The greatest count that is a number at all, of 64 bits. -/
def maxCount : Nat := 18446744073709551615

/-- The bytes that one element takes up in memory before its text is read. -/
def elementSize : Nat := 24

/-- The bytes that can be addressed: one less than half of what 64 bits count. -/
def addressLimit : Nat := 9223372036854775807

/-- Reads the count of an array in a line of its own. -/
def readCount (bytes : List UInt8) : Outcome Nat :=
  (readLine bytes).next fun s rest =>
    match Decimal.nat? maxCount s with
    | none => (.error .badNumber, rest)
    | some n =>
      if elementSize * n ≤ addressLimit then (.ok n, rest) else (.error .countTooLarge, rest)

/-- Reads a number of elements. `elements` are those already read, the latest first. -/
def readElements : Nat → List String → List UInt8 → Outcome (List String)
  | 0, elements, bytes => (.ok elements.reverse, bytes)
  | n + 1, elements, bytes =>
    match readLineOf .element bytes with
    | (.ok s, rest) => readElements n (s :: elements) rest
    | (.error e, rest) => (.error e, rest)

/-- Reads an array after its first sigil. The text of the line that ends it is not looked at. -/
def readArray (bytes : List UInt8) : Outcome Reply :=
  (readCount bytes).next fun n rest =>
    (readElements n [] rest).next fun elements rest =>
      (readLineOf .arrayEnd rest).next fun _ rest => (.ok (.array elements), rest)

def read (bytes : List UInt8) : Outcome Reply :=
  (readSigil bytes).next fun sigil rest =>
    match sigil with
    | .text => (readLine rest).next fun s rest =>
      (.ok (if s = nilText then .nil else .text s), rest)
    | .error => (readLine rest).next fun s rest => (.ok (.error s), rest)
    | .integer => (readInteger rest).next fun i rest => (.ok (.integer i), rest)
    | .arrayStart => readArray rest
    | .element | .arrayEnd => (.error .malformed, rest)

end CacheServer.Reply
