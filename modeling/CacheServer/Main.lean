import CacheServer.Eviction.SipHash
import CacheServer.Server
import CacheServer.Settings.Options

/-!
The program. It reads its settings, makes a store, and serves one client, whose messages come on
standard input and whose answers go to standard output. The settings that say where to listen are
read and otherwise left to whoever connects the two.
-/

namespace CacheServer.Main

/-- The choices of the random rule, spread by hashing the number of the message with a seed. -/
def draws (seed message : Nat) : Nat :=
  (SipHash.hash (SipHash.wordBytes seed.toUInt64 ++ SipHash.wordBytes message.toUInt64)).toNat

/-- Sends the answers to the messages taken in, and waits for more, until the stream or the
connection ends. -/
partial def converse (input output : IO.FS.Stream) (server : Server) (intake : Framing.Intake) :
    IO Unit := do
  let sending := server.answerAll intake.messages
  output.write sending.sent
  output.flush
  unless sending.broken || intake.fault.isSome do
    let piece ← input.read 65536
    unless piece.isEmpty do
      let rest := { intake with messages := #[] }
      converse input output sending.server (rest.receive .standard piece)

/-- Starts the server, or says why it does not start. -/
def run (arguments : List String) (environment : String → Option String) (seed : Nat) :
    IO UInt32 := do
  match Options.read environment arguments with
  | .error .help =>
    IO.println OptionsError.help.message
    return 0
  | .error .version =>
    IO.println OptionsError.version.message
    return 0
  | .error e =>
    IO.eprintln e.message
    return 2
  | .ok settings =>
    match Store.create SipHash.rowHash settings.rule settings.capacity with
    | .error e =>
      IO.eprintln e.message
      return 1
    | .ok store =>
      converse (← IO.getStdin) (← IO.getStdout) (.start store (draws seed)) .start
      return 0

end CacheServer.Main

/-- Asks the environment for its variables and the system for a seed. -/
def main (arguments : List String) : IO UInt32 := do
  let values ← CacheServer.Setting.all.mapM fun setting => do
    return (setting.variableName, ← IO.getEnv setting.variableName)
  let environment name := (values.lookup name).join
  let seed ← IO.rand 0 4611686018427387903
  CacheServer.Main.run arguments environment seed
