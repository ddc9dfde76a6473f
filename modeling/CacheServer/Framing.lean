import CacheServer.Text.Decimal

/-!
Messages on a byte stream. A message is a header of five bytes and a payload: the length of the
payload as a signed number of four bytes, the most significant first, then the version of the
protocol, then the payload itself. What is read depends on the bytes alone, not on the pieces in
which they arrive.
-/

namespace CacheServer

open Text

/-- Why a stream cannot be read on, or a payload not be written. -/
inductive FramingError where
  /-- The header has another version than the one expected. -/
  | unsupportedVersion (expected actual : UInt8)
  /-- The header announces an empty payload, or one of negative length. -/
  | invalidLength (length : Int)
  /-- The payload is longer than a message may be. -/
  | messageTooLarge (length : Nat)
  /-- The stream ends inside a message. -/
  | truncated
deriving DecidableEq, Repr

def hexDigit (d : Nat) : Char :=
  if d < 10 then Char.ofNat ('0'.toNat + d) else Char.ofNat ('a'.toNat + (d - 10))

/-- A byte as `0x` and two hexadecimal digits. -/
def hexByte (b : UInt8) : String :=
  String.ofList ['0', 'x', hexDigit (b.toNat / 16), hexDigit (b.toNat % 16)]

def FramingError.message : FramingError → String
  | .unsupportedVersion expected actual =>
    "unsupported protocol version " ++ hexByte actual ++ ", expected " ++ hexByte expected
  | .invalidLength length => "invalid message length: " ++ Decimal.ofInt length
  | .messageTooLarge length => "message too large: " ++ Decimal.ofNat length ++ " bytes"
  | .truncated => "connection closed in the middle of a message"

/-- The way two parties frame messages, which is fixed by the version they speak. -/
structure Framing where
  version : UInt8
deriving DecidableEq, Repr

namespace Framing

/-- The version that the server speaks. -/
def standard : Framing := ⟨1⟩

def headerSize : Nat := 5

/-- The bytes of the largest payload, 10 MiB. -/
def maxPayload : Nat := 10 * 1024 * 1024

/-- A number below `2 ^ 32` in four bytes, the most significant first. -/
def lengthBytes (n : Nat) : ByteArray :=
  ⟨#[(n / 16777216).toUInt8, (n / 65536).toUInt8, (n / 256).toUInt8, n.toUInt8]⟩

/-- The signed number that four bytes hold, the most significant first. -/
def lengthOfBytes (a b c d : UInt8) : Int :=
  Int.bmod (((a.toNat * 256 + b.toNat) * 256 + c.toNat) * 256 + d.toNat : Nat) 4294967296

/-- The length and the version in the header at the front of the bytes, if it is there in full. -/
def header? (bytes : ByteArray) : Option (Int × UInt8) :=
  if h : headerSize ≤ bytes.size then
    have h : 5 ≤ bytes.size := h
    some (lengthOfBytes bytes[0] bytes[1] bytes[2] bytes[3], bytes[4])
  else none

def encode (f : Framing) (payload : ByteArray) : Except FramingError ByteArray :=
  if payload.size ≤ maxPayload then
    .ok (lengthBytes payload.size ++ ⟨#[f.version]⟩ ++ payload)
  else .error (.messageTooLarge payload.size)

/-- Takes the payload of the message at the front of the buffer, once the message is there in full.
The second component is the buffer afterwards; it changes only if a payload is taken. A header is
judged as soon as it is complete, its version first. -/
def decode (f : Framing) (buffer : ByteArray) :
    Except FramingError (Option ByteArray) × ByteArray :=
  match header? buffer with
  | none => (.ok none, buffer)
  | some (length, version) =>
    if version ≠ f.version then (.error (.unsupportedVersion f.version version), buffer)
    else if length ≤ 0 then (.error (.invalidLength length), buffer)
    else if maxPayload < length.toNat then (.error (.messageTooLarge length.toNat), buffer)
    else if buffer.size < headerSize + length.toNat then (.ok none, buffer)
    else (.ok (some (buffer.extract headerSize (headerSize + length.toNat))),
      buffer.extract (headerSize + length.toNat) buffer.size)

/-- As `decode`, at the end of the stream. Less than a header is dropped; more than that is a
message cut short. -/
def decodeEnd (f : Framing) (buffer : ByteArray) :
    Except FramingError (Option ByteArray) × ByteArray :=
  match f.decode buffer with
  | (.ok none, rest) =>
    if rest.size < headerSize then (.ok none, ByteArray.empty) else (.error .truncated, rest)
  | other => other

theorem size_lt_of_decode {f : Framing} {buffer rest payload : ByteArray}
    (h : f.decode buffer = (.ok (some payload), rest)) : rest.size < buffer.size := by
  unfold decode at h
  repeat' split at h
  all_goals simp only [Prod.mk.injEq, Except.ok.injEq, reduceCtorEq, false_and] at h
  simp only [← h.2, ByteArray.size_extract, headerSize] at *
  omega

theorem decode_of_decodeEnd {f : Framing} {buffer rest payload : ByteArray}
    (h : f.decodeEnd buffer = (.ok (some payload), rest)) :
    f.decode buffer = (.ok (some payload), rest) := by
  unfold decodeEnd at h
  split at h
  · split at h <;> cases h
  · exact h

/-- What has come of the bytes received so far. -/
structure Intake where
  /-- The payloads, in the order of the stream. -/
  messages : Array ByteArray
  /-- The bytes that belong to no payload yet. -/
  buffer : ByteArray
  /-- The error at which the reading ended, if it has ended. -/
  fault : Option FramingError

def Intake.start : Intake := ⟨#[], ByteArray.empty, none⟩

/-- Takes messages from the buffer until none is left in full, or until an error. -/
def drain (f : Framing) (messages : Array ByteArray) (buffer : ByteArray) : Intake :=
  match _h : f.decode buffer with
  | (.ok (some payload), rest) => f.drain (messages.push payload) rest
  | (.ok none, rest) => ⟨messages, rest, none⟩
  | (.error e, rest) => ⟨messages, rest, some e⟩
termination_by buffer.size
decreasing_by exact size_lt_of_decode _h

/-- As `drain`, at the end of the stream. -/
def drainEnd (f : Framing) (messages : Array ByteArray) (buffer : ByteArray) : Intake :=
  match _h : f.decodeEnd buffer with
  | (.ok (some payload), rest) => f.drainEnd (messages.push payload) rest
  | (.ok none, rest) => ⟨messages, rest, none⟩
  | (.error e, rest) => ⟨messages, rest, some e⟩
termination_by buffer.size
decreasing_by exact size_lt_of_decode (decode_of_decodeEnd _h)

/-- Receives a piece of the stream. After an error nothing more is read. -/
def Intake.receive (f : Framing) (i : Intake) (piece : ByteArray) : Intake :=
  match i.fault with
  | some _ => i
  | none => f.drain i.messages (i.buffer ++ piece)

/-- Meets the end of the stream, which is an error inside a message. -/
def Intake.finish (f : Framing) (i : Intake) : Intake :=
  match i.fault with
  | some _ => i
  | none => f.drainEnd i.messages i.buffer

def readAll (f : Framing) (pieces : List ByteArray) : Intake :=
  (pieces.foldl (Intake.receive f) .start).finish f

end Framing

end CacheServer
