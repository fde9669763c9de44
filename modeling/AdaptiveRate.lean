import AdaptiveRate.LockTable
import AdaptiveRate.Main
import AdaptiveRate.Proofs.Allocation
import AdaptiveRate.Proofs.Band
import AdaptiveRate.Proofs.Calls
import AdaptiveRate.Proofs.Config
import AdaptiveRate.Proofs.Config.File
import AdaptiveRate.Proofs.Convergence
import AdaptiveRate.Proofs.Crashes
import AdaptiveRate.Proofs.Decision
import AdaptiveRate.Proofs.Engine.Capacity
import AdaptiveRate.Proofs.Engine.Crash
import AdaptiveRate.Proofs.Engine.Downlink
import AdaptiveRate.Proofs.Engine.Effect
import AdaptiveRate.Proofs.Engine.Emission
import AdaptiveRate.Proofs.Engine.Faults
import AdaptiveRate.Proofs.Engine.Independence
import AdaptiveRate.Proofs.Engine.Medium
import AdaptiveRate.Proofs.Engine.Outcome
import AdaptiveRate.Proofs.Engine.Settlement
import AdaptiveRate.Proofs.Engine.Uplink
import AdaptiveRate.Proofs.History.Store
import AdaptiveRate.Proofs.History.Tally
import AdaptiveRate.Proofs.Improvement
import AdaptiveRate.Proofs.Json.Builder
import AdaptiveRate.Proofs.Json.Lexer
import AdaptiveRate.Proofs.Json.Numeral
import AdaptiveRate.Proofs.Json.Record
import AdaptiveRate.Proofs.Json.Scaling
import AdaptiveRate.Proofs.Json.Single
import AdaptiveRate.Proofs.Ledger
import AdaptiveRate.Proofs.LockTable
import AdaptiveRate.Proofs.LockTable.Fair
import AdaptiveRate.Proofs.LockTable.Leftover
import AdaptiveRate.Proofs.Loss
import AdaptiveRate.Proofs.Mac.ChannelMask
import AdaptiveRate.Proofs.Mac.Wire
import AdaptiveRate.Proofs.Network
import AdaptiveRate.Proofs.Network.Rate
import AdaptiveRate.Proofs.Network.Record
import AdaptiveRate.Proofs.Network.Release
import AdaptiveRate.Proofs.Network.Settlement
import AdaptiveRate.Proofs.Number.Exact
import AdaptiveRate.Proofs.Number.NearMiss
import AdaptiveRate.Proofs.Number.Order
import AdaptiveRate.Proofs.Number.Round
import AdaptiveRate.Proofs.Number.Shortest
import AdaptiveRate.Proofs.Reception
import AdaptiveRate.Proofs.Record
import AdaptiveRate.Proofs.Reserve
import AdaptiveRate.Proofs.Response
import AdaptiveRate.Proofs.Steps
import AdaptiveRate.Proofs.Transmissions
import AdaptiveRate.Service
import AdaptiveRate.Proofs.Mac.Editing
import AdaptiveRate.Proofs.History.Queue
import AdaptiveRate.Proofs.Signal
import AdaptiveRate.Proofs.Simulation
import AdaptiveRate.Proofs.Simulation.Report
