import Tcf.Base.Process
import Tcf.Base.Circular
import Tcf.Base.Transducer
import Tcf.Base.Terminated
import Tcf.Base.Overlay
import Tcf.Base.Monitor
import Tcf.ChannelOutput
import Tcf.ChannelInputSafety
import Tcf.ChannelInputDelivery
import Tcf.WireRoundTrip
import Tcf.BreakpointsTransparency
import Tcf.BreakpointsFork
import Tcf.Streams
import Tcf.StreamsBuffer
import Tcf.StreamsRead
import Tcf.StreamsWrite
import Tcf.OutputQueue
import Tcf.OutputQueueDelivery
import Tcf.OutStream
import Tcf.JsonString
import Tcf.Base64
import Tcf.JsonBinary
import Tcf.Protocol
import Tcf.ProtocolDispatch
import Tcf.ProtocolReplies
import Tcf.ProtocolWalk
import Tcf.ProtocolExactlyOnce
import Tcf.MemoryMap
import Tcf.MemoryMapUpdate
import Tcf.RunControl
import Tcf.RunControlResume
import Tcf.Cache
import Tcf.Events
import Tcf.CacheWakeups
import Tcf.EventsOrder
import Tcf.Base.ByteNumbers
import Tcf.LineNumbers
import Tcf.LineMachine
import Tcf.LineRows
import Tcf.CodeAreas
import Tcf.CodeAreasWire
import Tcf.MemoryCache
import Tcf.MemoryCacheFresh
import Tcf.ElfAddresses
import Tcf.ElfInverse
import Tcf.Proxy
import Tcf.ProxyTransparency
import Tcf.Locations
import Tcf.JsonCarried
import Tcf.LocationsWire
import Tcf.AsyncReq
import Tcf.AsyncReqOnce
import Tcf.DPrintf
import Tcf.DPrintfOrder
import Tcf.Base.Buckets
import Tcf.ProfilerSst
import Tcf.ProfilerSstConserved
import Tcf.FileSystem
import Tcf.FileSystemServed
import Tcf.HardwareBreakpoints
import Tcf.HardwareBreakpointsConsistent
import Tcf.StackTrace
import Tcf.StackTraceRetries
import Tcf.Base.TokenText
import Tcf.SymbolIds
import Tcf.SymbolIdsRoundTrip
import Tcf.Base.Announcements
import Tcf.Discovery
import Tcf.DiscoverySafe
import Tcf.ChannelInputEnd
import Tcf.JsonUnicode
import Tcf.Base64Strict
import Tcf.Base.Boundary
import Tcf.JsonBoundary
import Tcf.JsonBoundaryBinary
import Tcf.LineIndex
import Tcf.LineLoading
import Tcf.LineLoadingSafe
import Tcf.Base.Bisection
import Tcf.Base.Sorting
import Tcf.LineLookup
import Tcf.LineLookupText
import Tcf.LineLookupExact
import Tcf.LineLookupCode
import Tcf.MemoryFill
import Tcf.MemoryFillPattern
import Tcf.PathMapBoundary
import Tcf.BreakpointAttrs
import Tcf.BreakpointAttrsAtomic
import Tcf.BreakpointAttrsMirror
import Tcf.BreakpointAttrsRuns
import Tcf.ExpressionLexer
import Tcf.ExpressionLiterals
import Tcf.ExpressionLiteralsExact
import Tcf.TypeDeclarators
import Tcf.UnitRanges
import Tcf.UnitRangesSearch
import Tcf.ExpressionTokens
import Tcf.ExpressionTokensRead
import Tcf.ExpressionTokensExact
import Tcf.ExpressionTokensRun
import Tcf.FrameInfo
import Tcf.FrameIndexComplete
import Tcf.FrameTable
import Tcf.FrameTableExact
import Tcf.FrameTableRun
import Tcf.FuncCall
import Tcf.SymbolNames
import Tcf.SymbolNamesHash
import Tcf.ArrayIndex
import Tcf.ArrayIndexInside
import Tcf.ContextMemory
import Tcf.ElfListing
import Tcf.ElfSymbols
import Tcf.ElfSymbolsExact
import Tcf.RunControlStep
import Tcf.RunControlStepCounts
import Tcf.RunControlStepModes
import Tcf.Base.Trapped
import Tcf.LocationVm
import Tcf.LocationVmSafe
import Tcf.ErrorReports
import Tcf.FileCopy
import Tcf.ProxyMemoryMap
import Tcf.Disassembly
import Tcf.RegisterLists
import Tcf.RegisterListsBounds
import Tcf.ProxyRegisters
import Tcf.ProxyRegistersComplete
import Tcf.ProxyFrameRegisters
import Tcf.ProxyFrameRegistersExact
import Tcf.JumpTrace
import Tcf.JumpTraceProcessor
import Tcf.DiscoveryPackets
import Tcf.DiscoveryInfoExact
import Tcf.DiscoverySlavesExact
import Tcf.DiscoveryRoundTrip
import Tcf.StackTraceOrder
import Tcf.RegisterContexts
import Tcf.RegisterViews
import Tcf.RegisterListsRead
import Tcf.RegisterListsWritten
import Tcf.Leb128Exact
import Tcf.RegisterIds
import Tcf.RegisterIdsExact
import Tcf.Base.Qsort
import Tcf.SymbolsSort
import Tcf.DwarfReloc
import Tcf.DwarfRelocExact
import Tcf.CommandDelivery
