import CacheServer.Text.Blank

/-!
A command line as a list of tokens. Blanks separate tokens, except between double quotes; the quotes
themselves are dropped, so that `""` is an empty token and `a"b c"d` is one token.
-/

namespace CacheServer

/-- Why a line is no list of tokens that names a command. -/
inductive LineError where
  /-- There is no token at all. -/
  | empty
  /-- The last double quote opens a quotation that does not end. -/
  | unterminatedQuote
deriving DecidableEq, Repr

def LineError.message : LineError → String
  | .empty => "empty command"
  | .unterminatedQuote => "unterminated quoted argument"

namespace Line

/-- The state of a reading from left to right. -/
structure Scan where
  /-- The tokens that have ended, the latest first. -/
  tokens : List String
  /-- The characters of the token being read, the latest first; none between tokens. -/
  current : Option (List Char)
  /-- Whether an odd number of double quotes has been read. -/
  quoted : Bool
deriving DecidableEq, Repr

namespace Scan

def start : Scan := ⟨[], none, false⟩

/-- Adds a character to the token being read, or starts one with it. -/
def push (s : Scan) (c : Char) : Scan :=
  { s with current := some (c :: s.current.getD []) }

/-- Passes a double quote, which starts a token even if nothing stands between the quotes. -/
def toggle (s : Scan) : Scan :=
  { s with current := some (s.current.getD []), quoted := !s.quoted }

/-- Ends the token being read, if there is one. -/
def close (s : Scan) : Scan :=
  match s.current with
  | none => s
  | some cs => { s with tokens := String.ofList cs.reverse :: s.tokens, current := none }

def step (s : Scan) (c : Char) : Scan :=
  if c = '"' then s.toggle
  else if s.quoted then s.push c
  else if Text.isBlank c then s.close
  else s.push c

/-- The tokens read, in the order of the line. -/
def finish (s : Scan) : Except LineError (List String) :=
  if s.quoted then .error .unterminatedQuote else .ok s.close.tokens.reverse

end Scan

def scan (cs : List Char) : Scan :=
  cs.foldl Scan.step .start

def tokens (line : String) : Except LineError (List String) :=
  (scan line.toList).finish

end Line

end CacheServer
