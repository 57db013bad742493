import TinyQuanta.Machine
import TinyQuanta.BinaryHeap
import TinyQuanta.Ledger
import TinyQuanta.TopoSort
import TinyQuanta.DepthFirst
import TinyQuanta.Relaxation
import TinyQuanta.LoopNest
import TinyQuanta.Progression
import TinyQuanta.Ssa
import TinyQuanta.LoopCopy
import TinyQuanta.CfgRewrite
import TinyQuanta.Stutter
import TinyQuanta.CodeMap
import TinyQuanta.CodeEdits
import TinyQuanta.CText
import TinyQuanta.RequestServer
import TinyQuanta.CallLevels
import TinyQuanta.Params
import TinyQuanta.Packet
import TinyQuanta.Worker
import TinyQuanta.RequestIsolation
import TinyQuanta.ResponseFormat
import TinyQuanta.WorkerSlots
import TinyQuanta.WorkerBuffers
import TinyQuanta.WorkerService
import TinyQuanta.WorkerFlush
import TinyQuanta.WorkerOrder
import TinyQuanta.WorkerFairness
import TinyQuanta.ServicedQuanta
import TinyQuanta.WorkerLoad
import TinyQuanta.WorkerDrain
import TinyQuanta.LasWorker
import TinyQuanta.LasBudget
import TinyQuanta.Dispatcher
import TinyQuanta.DispatcherHeap
import TinyQuanta.StaleKeys
import TinyQuanta.BurstDispatch
import TinyQuanta.DropPull
import TinyQuanta.Interleaving
import TinyQuanta.EndToEnd
import TinyQuanta.LoadEstimate
import TinyQuanta.Counters
import TinyQuanta.VersionOverflow
import TinyQuanta.ReturnRing
import TinyQuanta.ReturnRoom
import TinyQuanta.ReturnBacklog
import TinyQuanta.Planner
import TinyQuanta.PlannerSteps
import TinyQuanta.PlannerBound
import TinyQuanta.LongestDistance
import TinyQuanta.InsertProbes
import TinyQuanta.Instrumented
import TinyQuanta.LoopForm
import TinyQuanta.LoopCosts
import TinyQuanta.LoopCover
import TinyQuanta.FunctionBackedges
import TinyQuanta.ProbeBlocks
import TinyQuanta.ExportedDistance
import TinyQuanta.CostFile
import TinyQuanta.InputLoops
import TinyQuanta.CostRoundTrip
import TinyQuanta.ModulePass
import TinyQuanta.LoopCounters
import TinyQuanta.LoopCredit
import TinyQuanta.CloneCredit
import TinyQuanta.BlockMeter
import TinyQuanta.LoopSteps
import TinyQuanta.ProbeSpacing
import TinyQuanta.NestedCalls
import TinyQuanta.ShortFunctions
import TinyQuanta.ResidualCounters
import TinyQuanta.OuterThreshold
import TinyQuanta.ShortLoopTest
import TinyQuanta.ShortLoopSum
import TinyQuanta.SelfLoopClone
import TinyQuanta.CloneBlocks
import TinyQuanta.ClonePreserves
import TinyQuanta.CloneEdit
import TinyQuanta.ProbeInsertion
import TinyQuanta.InsertionKeeps
import TinyQuanta.InsertionPreserves
import TinyQuanta.PassPreserves
import TinyQuanta.ProbeLayout
import TinyQuanta.ProbeRuns
import TinyQuanta.ProbeSimulation
import TinyQuanta.ProbeGraph
import TinyQuanta.CoroMutex
import TinyQuanta.QuantumClock
import TinyQuanta.CiLib
import TinyQuanta.CiProtocol
import TinyQuanta.CiReentry
