import CacheServer.Eviction.Rule
import CacheServer.Text.Decimal

/-!
The settings of a server. Each may be given as an option, else by a variable of the environment,
else it has a default.
-/

namespace CacheServer

open Text

/-- What a server is started with. -/
structure Settings where
  host : String
  /-- The number of the TCP socket to listen on. -/
  tcpPort : Nat
  rule : EvictionRule
  capacity : Nat
deriving DecidableEq, Repr

/-- The names of the settings. -/
inductive Setting where
  | host
  | tcpPort
  | eviction
  | capacity
deriving DecidableEq, Repr

namespace Setting

/-- All settings. -/
def all : List Setting :=
  [host, tcpPort, eviction, capacity]

/-- The long name of the option, which follows two dashes. -/
def long : Setting → String
  | host => "host"
  | tcpPort => "port"
  | eviction => "eviction"
  | capacity => "capacity"

/-- The letter of the option, which follows one dash. -/
def letter? : Setting → Option Char
  | host => none
  | tcpPort => some 'p'
  | eviction => some 'e'
  | capacity => some 'c'

/-- The variable of the environment. -/
def variableName : Setting → String
  | host => "IDXCACHE_HOST"
  | tcpPort => "IDXCACHE_PORT"
  | eviction => "IDXCACHE_EVICTION"
  | capacity => "IDXCACHE_CAPACITY"

end Setting

/-- The largest number of a TCP socket. -/
def maxTcpPort : Int := 65535

/-- The largest capacity, a number of 64 bits. -/
def maxCapacity : Nat := 18446744073709551615

/-- Settings of which some may not have been given. -/
structure PartialSettings where
  host : Option String
  tcpPort : Option Nat
  rule : Option EvictionRule
  capacity : Option Nat
deriving DecidableEq, Repr

namespace PartialSettings

/-- No setting has been given. -/
def empty : PartialSettings := ⟨none, none, none, none⟩

/-- Whether a setting has been given. -/
def has (p : PartialSettings) : Setting → Bool
  | .host => p.host.isSome
  | .tcpPort => p.tcpPort.isSome
  | .eviction => p.rule.isSome
  | .capacity => p.capacity.isSome

/-- Gives a setting the value that a text stands for; none if it stands for no value. A host may be
any text. Numbers may have a plus sign; the number of a socket may also have a minus sign, which
leaves nothing but zero. -/
def assign? (p : PartialSettings) (setting : Setting) (text : String) : Option PartialSettings :=
  match setting with
  | .host => some { p with host := some text }
  | .tcpPort => (Decimal.int? 0 maxTcpPort text).map fun n => { p with tcpPort := some n.toNat }
  | .eviction => (EvictionRule.ofName? text).map fun rule => { p with rule := some rule }
  | .capacity => (Decimal.nat? maxCapacity text).map fun n => { p with capacity := some n }

/-- The settings, with a default for each one not given. -/
def complete (p : PartialSettings) : Settings where
  host := p.host.getD "127.0.0.1"
  tcpPort := p.tcpPort.getD 6380
  rule := p.rule.getD .none
  capacity := p.capacity.getD 1000000

end PartialSettings

end CacheServer
