/-!
Decimal numbers: written with the fewest digits, read with an optional sign and any number of
leading zeros, and refused outside the range that the reader is given.
-/

namespace CacheServer.Text.Decimal

def digitChar (d : Nat) : Char :=
  Char.ofNat ('0'.toNat + d)

def digits (n : Nat) : List Char :=
  if n < 10 then [digitChar n] else digits (n / 10) ++ [digitChar (n % 10)]
termination_by n

def ofNat (n : Nat) : String :=
  String.ofList (digits n)

/-- The decimal text of an integer, with a minus sign if it is negative. -/
def ofInt : Int → String
  | .ofNat n => ofNat n
  | .negSucc n => String.ofList ('-' :: digits (n + 1))

/-- The value of a non-empty run of ASCII digits. -/
def value? (cs : List Char) : Option Nat :=
  if cs.isEmpty || !cs.all Char.isDigit then none
  else some (cs.foldl (fun n c => 10 * n + (c.toNat - '0'.toNat)) 0)

/-- Reads a natural number no larger than `limit`. A plus sign may stand in front; a minus sign may
not, whatever follows it. -/
def nat? (limit : Nat) (s : String) : Option Nat :=
  let unsigned := match s.toList with
    | '+' :: cs => cs
    | cs => cs
  (value? unsigned).filter (· ≤ limit)

/-- Reads an integer between `low` and `high`. Either sign may stand in front. -/
def int? (low high : Int) (s : String) : Option Int :=
  let read : Option Int := match s.toList with
    | '+' :: cs => (value? cs).map Int.ofNat
    | '-' :: cs => (value? cs).map fun n => -Int.ofNat n
    | cs => (value? cs).map Int.ofNat
  read.filter fun i => low ≤ i && i ≤ high

end CacheServer.Text.Decimal
