import CacheServer.Text.Decimal

/-!
Reading UTF-8. Bytes that are not the encoding of a text are refused with the place of the first
sequence that is not well formed.
-/

namespace CacheServer.Text.Utf8

/-- Why bytes are not UTF-8. `index` is the number of bytes before the sequence at fault, all of
them well formed. -/
inductive Fault where
  /-- The first `length` bytes of the sequence start no well-formed sequence together. -/
  | malformed (length index : Nat)
  /-- The bytes end inside a sequence that is well formed so far. -/
  | incomplete (index : Nat)
deriving DecidableEq, Repr

/-- A byte that may stand second or later in a sequence. -/
def isContinuation (b : UInt8) : Bool :=
  0x80 ≤ b && b ≤ 0xBF

/-- Whether `b` may follow the first byte `a` of a sequence of three. The bounds keep out overlong
forms and surrogates. -/
def mayFollowOfThree (a b : UInt8) : Bool :=
  if a == 0xE0 then 0xA0 ≤ b && b ≤ 0xBF
  else if a == 0xED then 0x80 ≤ b && b ≤ 0x9F
  else isContinuation b

/-- Whether `b` may follow the first byte `a` of a sequence of four. The bounds keep out overlong
forms and values above the last code point. -/
def mayFollowOfFour (a b : UInt8) : Bool :=
  if a == 0xF0 then 0x90 ≤ b && b ≤ 0xBF
  else if a == 0xF4 then 0x80 ≤ b && b ≤ 0x8F
  else isContinuation b

/-- What stands at the front of bytes that are to be UTF-8. -/
inductive Front where
  /-- Nothing. -/
  | done
  /-- A well-formed sequence of `length` bytes, and what follows it. -/
  | sequence (length : Nat) (rest : List UInt8)
  | malformed (length : Nat)
  | incomplete
deriving DecidableEq, Repr

/-- Reads one sequence. The first byte tells how many follow, and they are judged one by one. -/
def front : List UInt8 → Front
  | [] => .done
  | a :: rest =>
    if a < 0x80 then .sequence 1 rest
    else if 0xC2 ≤ a && a ≤ 0xDF then
      match rest with
      | [] => .incomplete
      | b :: rest => if isContinuation b then .sequence 2 rest else .malformed 1
    else if 0xE0 ≤ a && a ≤ 0xEF then
      match rest with
      | [] => .incomplete
      | b :: rest =>
        if !mayFollowOfThree a b then .malformed 1 else
          match rest with
          | [] => .incomplete
          | c :: rest => if isContinuation c then .sequence 3 rest else .malformed 2
    else if 0xF0 ≤ a && a ≤ 0xF4 then
      match rest with
      | [] => .incomplete
      | b :: rest =>
        if !mayFollowOfFour a b then .malformed 1 else
          match rest with
          | [] => .incomplete
          | c :: rest =>
            if !isContinuation c then .malformed 2 else
              match rest with
              | [] => .incomplete
              | d :: rest => if isContinuation d then .sequence 4 rest else .malformed 3
    else .malformed 1

theorem length_lt_of_front {bytes rest : List UInt8} {n : Nat}
    (h : front bytes = .sequence n rest) : rest.length < bytes.length := by
  unfold front at h
  repeat' split at h
  all_goals simp_all
  all_goals omega

/-- The first fault at or after the front of `bytes`, which start at `index`; none if they are well
formed to the end. -/
def firstFault (index : Nat) (bytes : List UInt8) : Option Fault :=
  match _h : front bytes with
  | .done => none
  | .sequence n rest => firstFault (index + n) rest
  | .malformed n => some (.malformed n index)
  | .incomplete => some (.incomplete index)
termination_by bytes.length
decreasing_by exact length_lt_of_front _h

/-- The text that the bytes encode, or their first fault. -/
def decode (bytes : ByteArray) : Except Fault String :=
  match String.fromUTF8? bytes with
  | some s => .ok s
  | none => .error ((firstFault 0 bytes.data.toList).getD (.incomplete bytes.size))

/-- The wording of a fault. -/
def Fault.message : Fault → String
  | .malformed length index =>
    "invalid utf-8 sequence of " ++ Decimal.ofNat length ++ " bytes from index " ++
      Decimal.ofNat index
  | .incomplete index => "incomplete utf-8 byte sequence from index " ++ Decimal.ofNat index

end CacheServer.Text.Utf8
