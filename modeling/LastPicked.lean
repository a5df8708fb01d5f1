import LastPicked.CIntegers
import LastPicked.CMemory
import LastPicked.EndToEnd
import LastPicked.FlatBlocks
import LastPicked.LabelledRuns
import LastPicked.Tallies
import LastPicked.LinkedChain
import LastPicked.GapTiling
import LastPicked.GapRuns
import LastPicked.RotatingCursor
import LastPicked.AllocatorModel
import LastPicked.AllocatorChain
import LastPicked.AllocatorSteps
import LastPicked.AllocatorBlocks
import LastPicked.AllocatorRuns
import LastPicked.AllocatorInit
import LastPicked.AllocatorBlockList
import LastPicked.AllocatorLive
import LastPicked.AllocatorCanonical
import LastPicked.AllocatorLast
import LastPicked.AllocatorStatistics
import LastPicked.AllocatorBytes
import LastPicked.AllocatorFits
import LastPicked.AllocatorNext
import LastPicked.AllocatorNarrowing
import LastPicked.AllocatorHoles
import LastPicked.BufferModel
import LastPicked.BufferItems
import LastPicked.BufferRuns
import LastPicked.BlockSequences
import LastPicked.SchedulerModel
import LastPicked.SchedulerSteps
import LastPicked.SchedulerInvariant
import LastPicked.SchedulerHistory
import LastPicked.SchedulerCursor
import LastPicked.SchedulerRoundRobin
import LastPicked.SchedulerFifo
import LastPicked.SchedulerExclusion
import LastPicked.SchedulerProgress
import LastPicked.ListModel
import LastPicked.ListSequence
import LastPicked.DiskModel
import LastPicked.ShiftModel
import LastPicked.FileSysModel
import LastPicked.FileSysMount
import LastPicked.FileSysSlots
import LastPicked.FileSysSteps
import LastPicked.DiskBytes
import LastPicked.WriteBytes
import LastPicked.ShiftBytes
import LastPicked.ShiftSequence
import LastPicked.FileSysLayout
import LastPicked.FileSysRuns
import LastPicked.FileSysFrame
import LastPicked.FileSysRemount
import LastPicked.FileSysInside
import LastPicked.FileSysWrites
import LastPicked.FileSysDelete
import LastPicked.FileSysTruncate
import LastPicked.FileSysTable
import LastPicked.FileSysDescriptors
import LastPicked.FileSysSessions
import LastPicked.FileSysNames
import LastPicked.FileSysCapacity
import LastPicked.AccessTraces
import LastPicked.FileSysAccess
import LastPicked.FileSysBounds
import LastPicked.FileSysReads
import LastPicked.FileSysRoundTrip
import LastPicked.FileSysRejects
import LastPicked.ShiftRange
import LastPicked.FileSysPositions
import LastPicked.FileSysLookup
import LastPicked.HeapCells
import LastPicked.ShellModel
import LastPicked.ShellBatch
import LastPicked.Tokens
import LastPicked.ShellParser
import LastPicked.ShellCommands
import LastPicked.ShellSplit
import LastPicked.ShellWords
import LastPicked.ShellGrammar
import LastPicked.MyShellModel
import LastPicked.MyShellLines
import LastPicked.NamedFiles
import LastPicked.FileSysStore
import LastPicked.FileSysRefines
import LastPicked.FileSysStoreRuns
import LastPicked.LockstepRuns
import LastPicked.SchedulerMemory
import LastPicked.SchedulerRefines
import LastPicked.ChildProcesses
import LastPicked.ShellMain
import LastPicked.ShellScripts
import LastPicked.LockedSections
import LastPicked.BufferSections
