import CacheServer.Arguments

/-!
The commands, and how a line is read as one. Every verb takes a fixed number of values; only `SET`
has clauses, each with exactly one value.
-/

namespace CacheServer

open Text

inductive Index where
  | one
  | two
deriving DecidableEq, Repr

/-- A request of a client. -/
inductive Command where
  | ping
  | get (key : String)
  /-- Reads the value that a secondary key leads to. -/
  | getBy (index : Index) (key : String)
  /-- Writes a value, and leads the given secondary keys to it. -/
  | set (key value : String) (one two : Option String)
  | del (key : String)
  /-- Removes all keys that begin with `stem`. -/
  | purge (stem : String)
  | reset
deriving DecidableEq, Repr

/-- The first words of commands. -/
inductive Verb where
  | ping
  | get
  | getIdx1
  | getIdx2
  | set
  | del
  | purge
  | reset
deriving DecidableEq, Repr

namespace Verb

def all : List Verb :=
  [ping, get, getIdx1, getIdx2, set, del, purge, reset]

/-- A verb as messages show it. -/
def name : Verb → String
  | ping => "PING"
  | get => "GET"
  | getIdx1 => "GETIDX1"
  | getIdx2 => "GETIDX2"
  | set => "SET"
  | del => "DEL"
  | purge => "PURGE"
  | reset => "RESET"

/-- What a verb wants after it, as messages say it. -/
def usage : Verb → String
  | ping => "no arguments: PING"
  | get => "exactly one argument: GET <key>"
  | getIdx1 => "exactly one argument: GETIDX1 <key1>"
  | getIdx2 => "exactly one argument: GETIDX2 <key2>"
  | set => "a key and a value: SET <key> <value> [IDX1 <key1>] [IDX2 <key2>]"
  | del => "exactly one argument: DEL <key>"
  | purge => "exactly one argument: PURGE <prefix>"
  | reset => "a confirmation: RESET CONFIRM"

/-- The verb that a word spells, in any case. -/
def ofWord? (word : String) : Option Verb :=
  all.find? fun v => sameWord v.name word

/-- The names of the clauses that a verb may carry. -/
def clauseNames : Verb → List String
  | set => ["IDX1", "IDX2"]
  | _ => []

end Verb

/-- Why a line is no command. -/
inductive CommandError where
  /-- The line has no tokens. -/
  | line (e : LineError)
  /-- The first token is no verb, or there is none. -/
  | unknownCommand
  /-- The verb has too few or too many values. -/
  | wrongNumberOfArguments (verb : Verb)
  /-- One argument is not what the verb wants. -/
  | invalidArgument (verb : Verb) (argument : String)
deriving DecidableEq, Repr

def CommandError.message : CommandError → String
  | .line e => e.message
  | .unknownCommand => "Unknown command"
  | .wrongNumberOfArguments verb => verb.name ++ " expects " ++ verb.usage
  | .invalidArgument verb argument => "invalid argument for " ++ verb.name ++ ": " ++ argument

namespace Command

/-- The word that must follow `RESET`. -/
def confirmation : String := "CONFIRM"

/-- The value of a clause, if the clause is there; it must have exactly one. -/
def clauseValue? (verb : Verb) (a : Arguments) (name : String) :
    Except CommandError (Option String) :=
  match a.clause? name with
  | none => .ok none
  | some ⟨_, [value]⟩ => .ok (some value)
  | some _ => .error (.invalidArgument verb (name ++ " expects exactly one value"))

/-- The command that a verb and its grouped arguments make. -/
def ofArguments (verb : Verb) (a : Arguments) : Except CommandError Command :=
  match verb, a.primary.values with
  | .ping, [] => .ok .ping
  | .get, [key] => .ok (.get key)
  | .getIdx1, [key] => .ok (.getBy .one key)
  | .getIdx2, [key] => .ok (.getBy .two key)
  | .set, [key, value] => do
    let one ← clauseValue? .set a "IDX1"
    let two ← clauseValue? .set a "IDX2"
    return .set key value one two
  | .del, [key] => .ok (.del key)
  | .purge, [stem] => .ok (.purge stem)
  | .reset, [word] =>
    if sameWord word confirmation then .ok .reset else .error (.invalidArgument .reset word)
  | verb, _ => .error (.wrongNumberOfArguments verb)

/-- Reads the tokens of a line as a command. -/
def ofTokens (tokens : List String) : Except CommandError Command :=
  match tokens.head?.bind Verb.ofWord? with
  | none => .error .unknownCommand
  | some verb =>
    match Arguments.ofTokens verb.clauseNames tokens with
    | .error e => .error (.line e)
    | .ok a => ofArguments verb a

def ofLine (line : String) : Except CommandError Command :=
  match Line.tokens line with
  | .error e => .error (.line e)
  | .ok tokens => ofTokens tokens

end Command

end CacheServer
