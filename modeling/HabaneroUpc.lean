import HabaneroUpc.Lib.Interleaving
import HabaneroUpc.Lib.Tally
import HabaneroUpc.Lib.Ring
import HabaneroUpc.Lib.Fifo
import HabaneroUpc.ThiefQueue
import HabaneroUpc.State
import HabaneroUpc.CommTask
import HabaneroUpc.DistWs
import HabaneroUpc.Spmd
import HabaneroUpc.Control
import HabaneroUpc.Steps
import HabaneroUpc.Thieves
import HabaneroUpc.FinishScope
import HabaneroUpc.InFlight
import HabaneroUpc.Modes
import HabaneroUpc.Draining
import HabaneroUpc.ReceivedTasks
import HabaneroUpc.Barrier
import HabaneroUpc.Slot
import HabaneroUpc.SlotHistory
import HabaneroUpc.Requests
import HabaneroUpc.StrandedThief
import HabaneroUpc.Contacts
import HabaneroUpc.Lib.Contacts
import HabaneroUpc.Lifeline
import HabaneroUpc.CyclicSteals
import HabaneroUpc.Migration
import HabaneroUpc.Termination
import HabaneroUpc.Advertising
import HabaneroUpc.ThiefFifo
import HabaneroUpc.SemiConcDeque
import HabaneroUpc.DequeFifo
import HabaneroUpc.DequeCapacity
import HabaneroUpc.DequeWrap
import HabaneroUpc.SyncSteal
import HabaneroUpc.Quiescence
import HabaneroUpc.Lib.Siblings
import HabaneroUpc.Topology
import HabaneroUpc.TopologyTree
import HabaneroUpc.Edison
import HabaneroUpc.Lib.SiblingWalk
import HabaneroUpc.Proximity
import HabaneroUpc.Dddf
import HabaneroUpc.DddfRoutes
import HabaneroUpc.DddfTallies
import HabaneroUpc.DddfDelivery
import HabaneroUpc.DddfAgreement
import HabaneroUpc.DddfRace
import HabaneroUpc.Lib.TaskPool
import HabaneroUpc.ForasyncAny
import HabaneroUpc.GuidMap
import HabaneroUpc.Lib.Circulant
import HabaneroUpc.LifelineGraph
import HabaneroUpc.GlbPolicy
import HabaneroUpc.Lib.Loops
import HabaneroUpc.Lib.InfixText
import HabaneroUpc.OmpToHcupc
import HabaneroUpc.OmpCollapse
import HabaneroUpc.VictimSelection
import HabaneroUpc.SearchPhase
import HabaneroUpc.Lib.Rearrange
import HabaneroUpc.VictimSort
import HabaneroUpc.Lib.Dataflow
import HabaneroUpc.Lib.Alignment
import HabaneroUpc.SmithWaterman
import HabaneroUpc.SmithWatermanRuns
import HabaneroUpc.NQueens
import HabaneroUpc.Uts
import HabaneroUpc.Lib.ForkJoin
import HabaneroUpc.HcppSort
import HabaneroUpc.Lib.Buckets
import HabaneroUpc.SampleSort
import HabaneroUpc.OmpReductions
import HabaneroUpc.Assertions
import HabaneroUpc.Regions
import HabaneroUpc.Workload
import HabaneroUpc.LoopRounds
import HabaneroUpc.BusyPlaces
import HabaneroUpc.Completion
import HabaneroUpc.EventList
import HabaneroUpc.DddfProgress
import HabaneroUpc.DddfPrograms
import HabaneroUpc.DddfCompletion
import HabaneroUpc.SmithWatermanDddf
