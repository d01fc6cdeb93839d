import EV6.Branch.Tournament
import EV6.Config.Reader
import EV6.Core.Status
import EV6.Execution.Session
import EV6.Fault.Basic
import EV6.Fault.Breach
import EV6.Float.Bounded
import EV6.Float.Class
import EV6.Float.Condition
import EV6.Float.Control
import EV6.Float.Ieee.Conversion
import EV6.Float.Vax
import EV6.Integer.Bounded
import EV6.Integer.Unit
import EV6.Isa.Encoding
import EV6.Isa.Instruction
import EV6.Statistics.Report
import EV6.Storage.Port
import EV6.Translation.Unit
import EV6.Word.Product
import EV6.Proofs.Fault.Ends
import EV6.Proofs.Storage.Memory
import EV6.Proofs.Cache.Lines
import EV6.Proofs.Cache.Newest
import EV6.Proofs.Cache.Traffic
import EV6.Proofs.Cache.Loading
import EV6.Proofs.Cache.Access
import EV6.Proofs.Cache.Calls
import EV6.Proofs.Cache.FlatMemory
import EV6.Proofs.Cache.Refusal
import EV6.Proofs.Execution.Lock
import EV6.Proofs.Execution.Atomicity
import EV6.Proofs.Mbox.Forwarding
import EV6.Proofs.Mbox.Access
import EV6.Proofs.Mbox.Delivery
import EV6.Proofs.Execution.Precision
import EV6.Proofs.Float.Exact
import EV6.Proofs.Float.Arithmetic
import EV6.Proofs.Float.Fields
import EV6.Proofs.Float.Ieee.Operand
import EV6.Proofs.Float.Rounded
import EV6.Proofs.Float.Ieee.Arithmetic
import EV6.Proofs.Float.Vax
import EV6.Proofs.Execution.LockCycle
import EV6.Proofs.Cache.Handover
import EV6.Proofs.Cache.NewestFetch
import EV6.Proofs.Execution.Probing
import EV6.Proofs.Branch.Periodic
import EV6.Proofs.Float.Status
import EV6.Proofs.Core.Apart
import EV6.Proofs.Execution.Operations
import EV6.Proofs.Execution.FloatStatus
import EV6.Proofs.Fault.Upholds
import EV6.Proofs.Cache.Intact
import EV6.Proofs.Mbox.Queues
import EV6.Proofs.Mbox.Intact
import EV6.Proofs.Translation.Physical
import EV6.Proofs.Core.Intact
import EV6.Proofs.Execution.Safety
import EV6.Proofs.Word.Lanes
import EV6.Proofs.Integer.Lanes
import EV6.Proofs.Translation.Quadword
import EV6.Proofs.Execution.Delivery
import EV6.Proofs.Execution.Lanes
import EV6.Proofs.Translation.Shadowing
import EV6.Proofs.Translation.Misses
import EV6.Proofs.Translation.Granted
import EV6.Proofs.Translation.Implemented
import EV6.Proofs.Mbox.Fifo
import EV6.Proofs.Mbox.Supply
import EV6.Proofs.Mbox.Levels
import EV6.Proofs.Core.Stable
import EV6.Proofs.Execution.Stable
import EV6.Proofs.Execution.Executed
import EV6.Proofs.Execution.Conserved
import EV6.Proofs.Execution.PalNesting
import EV6.Proofs.Cache.Places
import EV6.Proofs.Cache.Requests
import EV6.Proofs.Cache.LineMap
import EV6.Proofs.Cache.Recency
import EV6.Proofs.Cache.Exclusive
import EV6.Proofs.Cache.Undisturbed
import EV6.Proofs.Mbox.LoadHistory
import EV6.Proofs.Mbox.Deferred
import EV6.Proofs.Branch.History
import EV6.Proofs.Translation.Fills
import EV6.Proofs.Execution.RegisterMoves
import EV6.Proofs.Cache.OldestFill
import EV6.Proofs.Float.Reals
import EV6.Proofs.Float.Root
import EV6.Proofs.Float.SquareRoot
import EV6.Proofs.Float.Ieee.Images
import EV6.Proofs.Float.Quadword
import EV6.Proofs.Float.Ieee.NaN
import EV6.Proofs.Float.Order
import EV6.Proofs.Execution.Comparison
import EV6.Proofs.Float.MemoryFormat
import EV6.Proofs.Float.Ieee.Lossless
import EV6.Proofs.Float.Ieee.Widening
import EV6.Proofs.Integer.Unaligned
import EV6.Proofs.Word.Product
import EV6.Proofs.Integer.Overflow
import EV6.Proofs.Integer.Multimedia
import EV6.Proofs.Storage.Requests
import EV6.Proofs.Config.Validation
import EV6.Proofs.Float.RoundAt
import EV6.Proofs.Float.RootSearch
import EV6.Proofs.Float.RegisterImages
