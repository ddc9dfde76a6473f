import CacheServer.Execution
import CacheServer.Framing
import CacheServer.Reply.Printer
import CacheServer.Text.Utf8

/-!
The server: one store for all connections, which are served message by message. Every message is
answered with one message. A connection ends with its stream, at an error of the framing, or at an
answer that is too long for a message.
-/

namespace CacheServer

open Text

/-- The store, and where the random rule takes its choices from. -/
structure Server where
  store : Store
  /-- The choice to be used at each message. -/
  draws : Nat → Nat
  /-- The number of messages answered so far. -/
  answered : Nat

namespace Server

def start (store : Store) (draws : Nat → Nat) : Server := ⟨store, draws, 0⟩

/-- The answer to the payload of one message. Blanks around the line do not matter. -/
def answer (s : Server) (payload : ByteArray) : Reply × Server :=
  match Utf8.decode payload with
  | .error fault =>
    (.error ("Invalid UTF-8 in request: " ++ fault.message), { s with answered := s.answered + 1 })
  | .ok line =>
    let (reply, store) := s.store.execute (s.draws s.answered) (trim line)
    (reply, { s with store := store, answered := s.answered + 1 })

/-- What has been sent on a connection, and the server afterwards. -/
structure Sending where
  sent : ByteArray
  server : Server
  /-- Whether an answer was too long to be sent, so that the connection has ended. -/
  broken : Bool

/-- Answers one message of a connection, unless the connection has ended. -/
def Sending.add (c : Sending) (payload : ByteArray) : Sending :=
  if c.broken then c
  else
    let (reply, server) := c.server.answer payload
    match Framing.standard.encode reply.toBytes with
    | .ok message => { c with sent := c.sent ++ message, server := server }
    | .error _ => { c with server := server, broken := true }

/-- Answers the messages of a connection in their order. -/
def answerAll (s : Server) (payloads : Array ByteArray) : Sending :=
  payloads.foldl Sending.add ⟨ByteArray.empty, s, false⟩

/-- Serves a connection on which the given bytes arrive: what is sent, and the server afterwards.
Only the messages before the first error of the framing are answered. -/
def serve (s : Server) (received : ByteArray) : ByteArray × Server :=
  let c := s.answerAll (Framing.standard.readAll [received]).messages
  (c.sent, c.server)

def serveAll (s : Server) : List ByteArray → List ByteArray × Server
  | [] => ([], s)
  | received :: rest =>
    let (sent, s) := s.serve received
    let (others, s) := s.serveAll rest
    (sent :: others, s)

end Server

end CacheServer
