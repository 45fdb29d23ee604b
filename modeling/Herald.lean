import Herald.Backoff
import Herald.Binary64
import Herald.Call
import Herald.Client
import Herald.Connection
import Herald.Decimal.Layout
import Herald.Decimal.Shortest
import Herald.Digest.Sha256
import Herald.Expression
import Herald.Fault
import Herald.Group
import Herald.Json.Failure
import Herald.Json.Node
import Herald.Json.Numeral
import Herald.Json.Reading
import Herald.Json.Token
import Herald.Json.Writing
import Herald.Key.Credential
import Herald.Key.Hash
import Herald.Key.Selection
import Herald.Key.Table
import Herald.Message
import Herald.Notification
import Herald.Operation
import Herald.Roster
import Herald.Session
import Herald.Settings
import Herald.Switchboard
import Herald.Text.Blank
import Herald.Text.Hex
import Herald.Text.Hidden
import Herald.Text.Integer
import Herald.Text.Quoted
import Herald.Text.Ranges
import Herald.Topic
import Herald.Proofs.Coherence
import Herald.Proofs.Moves
import Herald.Proofs.Settling
import Herald.Proofs.Runs
import Herald.Proofs.Indexing
import Herald.Proofs.KeyChange
import Herald.Proofs.Resolution
import Herald.Proofs.KeyWalk
import Herald.Proofs.InSync
import Herald.Proofs.Lines
import Herald.Proofs.Broker
import Herald.Proofs.Mirror
import Herald.Proofs.Refusal
import Herald.Proofs.Watch
import Herald.Proofs.Discipline
import Herald.Proofs.Requests
import Herald.Proofs.CallerSide
import Herald.Proofs.Ledger
import Herald.Proofs.Agreement
import Herald.Proofs.Rounds
import Herald.Proofs.Resubscription
import Herald.Proofs.Delivery
import Herald.Proofs.Convergence
import Herald.Proofs.Chronicle
import Herald.Proofs.KeyReload
import Herald.Proofs.Neighbours
import Herald.Proofs.OnePerExpression
import Herald.Proofs.Tending
import Herald.Proofs.Links
import Herald.Proofs.Untiring
import Herald.Proofs.Pacing
import Herald.Proofs.Atomicity
import Herald.Proofs.Terminal
import Herald.Proofs.Seats
import Herald.Proofs.Placing
import Herald.Proofs.Reentry
import Herald.Proofs.Counters
import Herald.Proofs.Handover
import Herald.Proofs.Announcements
import Herald.Proofs.Parting
import Herald.Proofs.Farewell
import Herald.Proofs.Loops
import Herald.Proofs.Dormancy
import Herald.Proofs.Modification
import Herald.Proofs.Commuting
import Herald.Proofs.Rings
import Herald.Proofs.SameMenu
import Herald.Proofs.Transit
import Herald.Proofs.DisplayTime
import Herald.Proofs.Threads
import Herald.Proofs.Grammar
import Herald.Proofs.WrittenText
import Herald.Proofs.RoundTrip
