import CacheServer.Line
import CacheServer.Text.Case

/-!
Tokens grouped under names. The first token names the primary group. A later token that is one of
the registered names, up to case, opens a clause of that name, once per line; every other token is a
value of the group opened last.
-/

namespace CacheServer

open Text

/-- A name and the values given under it. -/
structure Clause where
  name : String
  values : List String
deriving DecidableEq, Repr

/-- The tokens of a clause as they stand in the line. -/
def Clause.tokens (c : Clause) : List String :=
  c.name :: c.values

/-- A line in groups: the command's own name and values, then the clauses in their order. -/
structure Arguments where
  primary : Clause
  clauses : List Clause
deriving DecidableEq, Repr

namespace Arguments

/-- Whether a token opens a clause: it is a registered name, and no clause has it yet. -/
def opens (names : List String) (opened : List String) (token : String) : Bool :=
  names.any (sameWord token) && !opened.any (sameWord token)

/-- Groups tokens. `opened` are the names of the clauses so far, `current` is the group opened last,
with its values in reverse, and `closed` are the groups before it, the latest first. -/
def group (names : List String) (opened : List String) (current : Clause) (closed : List Clause) :
    List String → List Clause
  | [] => (({ current with values := current.values.reverse } : Clause) :: closed).reverse
  | token :: rest =>
    if opens names opened token then
      group names (token :: opened) ⟨token, []⟩
        ({ current with values := current.values.reverse } :: closed) rest
    else group names opened { current with values := token :: current.values } closed rest

/-- Groups the tokens of a line under the registered names. -/
def ofTokens (names : List String) : List String → Except LineError Arguments
  | [] => .error .empty
  | name :: rest =>
    match group names [] ⟨name, []⟩ [] rest with
    | [] => .error .empty
    | primary :: clauses => .ok ⟨primary, clauses⟩

def ofLine (names : List String) (line : String) : Except LineError Arguments := do
  ofTokens names (← Line.tokens line)

def groups (a : Arguments) : List Clause :=
  a.primary :: a.clauses

/-- The clause of a name, in any spelling of its case. -/
def clause? (a : Arguments) (name : String) : Option Clause :=
  a.clauses.find? fun c => sameWord c.name name

end Arguments

end CacheServer
