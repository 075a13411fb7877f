import Dynarec.Numerals
import Dynarec.Guest.Usage
import Dynarec.Guest.Interpreter
import Dynarec.Host.Listing
import Dynarec.Host.Executor
import Dynarec.Lower.Builder
import Dynarec.Lower.Integer
import Dynarec.Lower.Block
import Dynarec.Recompiler.Session
import Dynarec.Console
import Dynarec.Recompiler.Snapshot
import Dynarec.Single.Text
import Dynarec.Main
import Dynarec.Proofs.Cache.Index
import Dynarec.Proofs.Cache.Relinking
import Dynarec.Proofs.Cache.Links
import Dynarec.Proofs.Cache.Dropping
import Dynarec.Proofs.Cache.LinkGraph
import Dynarec.Proofs.Cache.Patching
import Dynarec.Proofs.Host.Encoding
import Dynarec.Proofs.Host.Running
import Dynarec.Proofs.Lower.Emission
import Dynarec.Proofs.Lower.Slots
import Dynarec.Proofs.Guest.Core
import Dynarec.Proofs.Host.Registers
import Dynarec.Proofs.Lower.Scalars
import Dynarec.Proofs.Lower.ElementBinding
import Dynarec.Proofs.Lower.CacheCode
import Dynarec.Proofs.Lower.Shadow
import Dynarec.Proofs.Lower.Actions
import Dynarec.Proofs.Guest.Execute
import Dynarec.Proofs.Lower.Plain
import Dynarec.Proofs.Lower.Integer
import Dynarec.Proofs.Lower.Lanes
import Dynarec.Proofs.Lower.VectorUnit
import Dynarec.Proofs.Lower.Growth
import Dynarec.Proofs.Lower.Placement
import Dynarec.Proofs.Lower.Supply
import Dynarec.Proofs.Lower.VectorPaths
import Dynarec.Proofs.Lower.Allocation
import Dynarec.Proofs.Lower.Modifiers
import Dynarec.Proofs.Guest.Retire
import Dynarec.Proofs.Lower.Leads
import Dynarec.Proofs.Lower.Branching
import Dynarec.Proofs.Lower.Ending
import Dynarec.Proofs.Lower.Terminators
import Dynarec.Proofs.Guest.Dependence
import Dynarec.Proofs.Lower.SlotAnalysis
import Dynarec.Proofs.Lower.Compiled
import Dynarec.Proofs.Lower.Debt
import Dynarec.Proofs.Cache.Space
import Dynarec.Proofs.Cache.Roster
import Dynarec.Proofs.Guest.Stores
import Dynarec.Proofs.Lower.Reserve
import Dynarec.Proofs.Recompiler.Space
import Dynarec.Proofs.Guest.Window
import Dynarec.Proofs.Guest.Watch
import Dynarec.Proofs.Host.Cells
import Dynarec.Proofs.Lower.Sketch
import Dynarec.Proofs.Lower.Closing
import Dynarec.Proofs.Lower.Extend
import Dynarec.Proofs.Lower.Shape
import Dynarec.Proofs.Lower.Place
import Dynarec.Proofs.Lower.Aborting
import Dynarec.Proofs.Lower.Geometry
import Dynarec.Proofs.Recompiler.Native
import Dynarec.Proofs.Recompiler.Stock
import Dynarec.Proofs.Recompiler.Sound
import Dynarec.Proofs.Recompiler.Arrangement
import Dynarec.Proofs.Recompiler.Upkeep
import Dynarec.Proofs.Recompiler.Compiling
import Dynarec.Proofs.Recompiler.Turns
import Dynarec.Proofs.Recompiler.History
import Dynarec.Proofs.Recompiler.Safety
import Dynarec.Proofs.Recompiler.Termination
import Dynarec.Proofs.Recompiler.Freshness
import Dynarec.Proofs.Guest.Images
import Dynarec.Proofs.Recompiler.Completion
import Dynarec.Proofs.Emulator.Overshoot
import Dynarec.Proofs.Emulator.Faults
import Dynarec.Proofs.Emulator.Reloading
import Dynarec.Proofs.Recompiler.Visits
import Dynarec.Proofs.Recompiler.Mirror
import Dynarec.Proofs.Recompiler.Lockstep
import Dynarec.Proofs.Recompiler.Transparency
import Dynarec.Proofs.Lower.Correctness
import Dynarec.Proofs.Emulator.Accounting
import Dynarec.Proofs.Json.RoundTrip
import Dynarec.Proofs.Lower.Requests
import Dynarec.Proofs.Recompiler.Snapshots
import Dynarec.Proofs.Past
import Dynarec.Proofs.Host.Decoding
import Dynarec.Proofs.Guest.ChangeQueue
import Dynarec.Proofs.Guest.Stepping
import Dynarec.Proofs.Lower.Fixups
import Dynarec.Proofs.Guest.Assembly
import Dynarec.Proofs.Lower.ScalarRuns
import Dynarec.Proofs.Lower.ElementRuns
import Dynarec.Proofs.Lower.Eviction
import Dynarec.Proofs.Host.Flags
