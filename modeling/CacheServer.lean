import CacheServer.Main
import CacheServer.Proofs.Eviction.Ranking
import CacheServer.Proofs.Eviction.Recency
import CacheServer.Reply.Sequence
import CacheServer.Proofs.Eviction.Pool
import CacheServer.Proofs.Eviction.Ring
import CacheServer.Proofs.Eviction.Adaptive
import CacheServer.Proofs.Eviction.Admission
import CacheServer.Proofs.Eviction.Sketch
import CacheServer.Proofs.Eviction.Policy
import CacheServer.Proofs.Store.Operation
import CacheServer.Proofs.Store.WellFormed
import CacheServer.Proofs.Store.Capacity
import CacheServer.Proofs.Store.CrossReference
import CacheServer.Proofs.Store.History
import CacheServer.Proofs.Store.Recall
import CacheServer.Proofs.Reply.Line
import CacheServer.Proofs.Command.Errors
import CacheServer.Proofs.Reply.Unit
import CacheServer.Proofs.Framing.Message
import CacheServer.Proofs.Framing.Stream
import CacheServer.Proofs.Reply.Lookup
import CacheServer.Proofs.Text.Size
import CacheServer.Proofs.Command.Tokens
import CacheServer.Proofs.Reply.Size
import CacheServer.Proofs.Server.Answer
import CacheServer.Proofs.Server.Session
import CacheServer.Proofs.Server.Trim
import CacheServer.Proofs.Eviction.Order
import CacheServer.Proofs.Store.Uses
import CacheServer.Proofs.Store.Victim
import CacheServer.Proofs.Eviction.LastUse
import CacheServer.Proofs.Eviction.TouchOrder
import CacheServer.Proofs.Eviction.Contract
import CacheServer.Proofs.Eviction.RandomChoice
import CacheServer.Proofs.Store.Effect
import CacheServer.Proofs.Store.Comparison
import CacheServer.Proofs.Store.LargerCapacity
import CacheServer.Proofs.Eviction.SecondChance
import CacheServer.Proofs.Eviction.Call
import CacheServer.Proofs.Eviction.Ghosts
import CacheServer.Proofs.Store.Readmission
import CacheServer.Proofs.Store.Promotion
import CacheServer.Proofs.Store.TwoQueues
import CacheServer.Proofs.Eviction.Contest
import CacheServer.Proofs.Store.Contest
import CacheServer.Proofs.Text.Decimal
import CacheServer.Proofs.Reply.Grammar
import CacheServer.Proofs.Reply.RoundTrip
import CacheServer.Proofs.Reply.Forward
import CacheServer.Proofs.Reply.Overcount
import CacheServer.Proofs.Eviction.Removal
import CacheServer.Proofs.Eviction.Alike
import CacheServer.Proofs.Eviction.Cleared
import CacheServer.Proofs.Store.Cleared
import CacheServer.Proofs.Line.Quoted
import CacheServer.Proofs.Command.Clauses
import CacheServer.Proofs.Command.Grammar
import CacheServer.Proofs.Store.ReadBack
import CacheServer.Proofs.Store.Purge
import CacheServer.Proofs.Store.Untouched
import CacheServer.Proofs.Line.Runs
import CacheServer.Proofs.Command.Groups
import CacheServer.Proofs.Store.Hits
import CacheServer.Proofs.Eviction.Unused
import CacheServer.Proofs.Store.WithoutReuse
