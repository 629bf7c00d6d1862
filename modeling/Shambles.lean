import Shambles.Lib.AssocList
import Shambles.Lib.CallStacks
import Shambles.Lib.CString
import Shambles.Lib.CircularList
import Shambles.Lib.Layout
import Shambles.Lib.MappedFile
import Shambles.Lib.Paging
import Shambles.Lib.QueueMerge
import Shambles.Lib.RadixTree
import Shambles.Lib.RadixWrites
import Shambles.Lib.RankedList
import Shambles.Lib.Recency
import Shambles.Lib.Relabel
import Shambles.Lib.RingBuffer
import Shambles.Lib.Runs
import Shambles.Lib.Strtol
import Shambles.Structures.Chunks
import Shambles.Structures.Geometry
import Shambles.Structures.RegionTree
import Shambles.Structures.Registrations
import Shambles.Structures.Refcounts
import Shambles.Structures.Slots
import Shambles.Structures.Lookup
import Shambles.Structures.Completeness
import Shambles.Structures.Stores
import Shambles.Structures.History
import Shambles.Structures.ChunkInfo
import Shambles.Structures.PowerOfTwo
import Shambles.Plugins.Lists
import Shambles.Plugins.Migration
import Shambles.Plugins.Nodes
import Shambles.Plugins.Front
import Shambles.Plugins.Config
import Shambles.Lru.Model
import Shambles.Lru.Refinement
import Shambles.Lru.Placement
import Shambles.Lru.Unbind
import Shambles.Lru.Inclusion
import Shambles.Lru.Addresses
import Shambles.Lru.Trace
import Shambles.Lru.Threads
import Shambles.Lru.Memory
import Shambles.Lru.Linearization
import Shambles.Window.Model
import Shambles.Window.Ranking
import Shambles.Window.Frame
import Shambles.Window.Demote
import Shambles.Window.Promote
import Shambles.Window.Allocation
import Shambles.Window.Policy
import Shambles.Window.Moves
import Shambles.Window.Ring
import Shambles.Window.Addresses
import Shambles.Window.Release
import Shambles.Window.Faults
import Shambles.Window.Bounds
import Shambles.Jemalloc.LogAlloc
import Shambles.Jemalloc.InitProtocol
import Shambles.Jemalloc.EntryPoints
import Shambles.Lru.Callback
import Shambles.Plugins.Counters
import Shambles.Lru.Promotions
import Shambles.Lru.Counters
import Shambles.Lru.Reuse
import Shambles.Lru.Schedules
import Shambles.Lru.WorkingSet
import Shambles.Lru.Budget
import Shambles.Jemalloc.TrackedSet
import Shambles.Jemalloc.Imalloc
import Shambles.Jemalloc.Realign
import Shambles.Jemalloc.Reports
import Shambles.Kernel.Handover
import Shambles.Kernel.Poison
import Shambles.Kernel.Sampling
import Shambles.Kernel.Stops
import Shambles.Kernel.HandleLifetime
import Shambles.Plugins.Sampler
import Shambles.Kernel.UnmappedArea
import Shambles.Logger.Model
import Shambles.Logger.Records
import Shambles.Logger.Decode
import Shambles.Logger.Killed
import Shambles.Logger.PrintLog
import Shambles.Logger.Calls
import Shambles.Logger.Pipeline
import Shambles.StaticFractional.Model
import Shambles.StaticFractional.Agreement
import Shambles.StaticFractional.Split
import Shambles.StaticFractional.Samples
import Shambles.Static.Bitmask
import Shambles.Pages.Lru
import Shambles.Pages.Window
import Shambles.Pages.StaticFractional
import Shambles.StaticFractional.Fractions
import Shambles.Pages.Starts
import Shambles.Lru.Accesses
