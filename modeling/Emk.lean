import Emk.ByteMemory
import Emk.MachineWord
import Emk.Transition
import Emk.Tenancy
import Emk.OrderedSpans
import Emk.DirectMap
import Emk.PageAllocator
import Emk.ReferenceAllocator
import Emk.Pmm
import Emk.RunScan
import Emk.PmmBitmap
import Emk.PmmInit
import Emk.PmmOwnership
import Emk.PmmSingle
import Emk.PmmBoot
import Emk.PmmSearch
import Emk.PmmRoundTrip
import Emk.PmmReached
import Emk.PmmFootprint
import Emk.PmmClients
import Emk.RadixForest
import Emk.Paging
import Emk.PagingForest
import Emk.PagingSteps
import Emk.PagingEffect
import Emk.PagingRefinement
import Emk.PagingPermissions
import Emk.LinkedPath
import Emk.CursorScan
import Emk.CursorOrder
import Emk.FirstFitHeap
import Emk.HeapBlocks
import Emk.HeapSteps
import Emk.HeapOperations
import Emk.HeapRuns
import Emk.HeapCanonical
import Emk.HeapGaps
import Emk.HeapFrame
import Emk.Vmm
import Emk.VmmList
import Emk.VmmRuns
import Emk.VmmPlacement
import Emk.VmmLinks
import Emk.PagingRange
import Emk.PagingShare
import Emk.PagingIsolation
import Emk.VmmContext
import Emk.UserCopy
import Emk.Elf
import Emk.ElfSegment
import Emk.ElfFaithful
import Emk.ElfFootprint
import Emk.ElfIsolation
import Emk.Calls
import Emk.LockTrace
import Emk.Sched
import Emk.SchedTraces
import Emk.SchedLocks
import Emk.SchedSpawn
import Emk.SchedPhases
import Emk.SchedTick
import Emk.SchedExit
import Emk.SchedTable
import Emk.SchedRuns
import Emk.SchedIntegrity
import Emk.SchedPids
import Emk.SchedContexts
import Emk.SchedDispatch
import Emk.SchedNext
import Emk.SchedRotation
import Emk.SpawnMapping
import Emk.SpawnRange
import Emk.SpawnPhases
import Emk.SpawnFrame
import Emk.SpawnUser
import Emk.VmmTenants
import Emk.VmmInverse
import Emk.VmmAtomicity
import Emk.VmmAddition
import Emk.VmmWindow
import Emk.VmmDestroy
import Emk.VmmForeign
import Emk.ElfAtomicity
import Emk.Smp
import Emk.SmpRuns
import Emk.LastWrite
import Emk.PagingWrites
import Emk.PagingInit
import Emk.PagingRoom
import Emk.PagingLarge
import Emk.KernelSpace
import Emk.KernelReach
import Emk.ReadLog
import Emk.Acpi
import Emk.Madt
import Emk.MadtParse
import Emk.Ioapic
import Emk.Lapic
import Emk.Kpanic
import Emk.Tokens
import Emk.StringLib
import Emk.CommandLine
import Emk.Idt
import Emk.StackWords
import Emk.IsrStub
import Emk.TrapPath
import Emk.TrapHandlers
import Emk.VirtualCpus
import Emk.SpinLock
import Emk.Kprintf
import Emk.KprintfProgress
import Emk.Gdt
import Emk.CpuSetup
import Emk.TimerBoot
import Emk.AcpiTables
import Emk.InitModule
import Emk.SeenMemory
import Emk.HeapLocality
import Emk.VmmSteady
import Emk.PagedHeap
import Emk.CursorWait
import Emk.SchedProgress
