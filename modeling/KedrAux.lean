import KedrAux.Coverage.StatPrinter
import KedrAux.Coverage.AddOperation
import KedrAux.Coverage.LineMasks
import KedrAux.Coverage.RoundTrip
import KedrAux.Lib.Loop
import KedrAux.Coverage.TraceSetIterator
import KedrAux.Coverage.TestSetOptimizer
import KedrAux.Coverage.LineGroups
import KedrAux.Lib.RemovalOrder
import KedrAux.Coverage.EssentialTests
import KedrAux.Coverage.TestTurns
import KedrAux.Coverage.OptimizedCoverage
import KedrAux.Lib.WeightedCover
import KedrAux.Lib.CoverSearch
import KedrAux.Coverage.OptimizedWeight
import KedrAux.Lib.Lockstep
import KedrAux.Mist.ParamSet
import KedrAux.Mist.ParamSetSlice
import KedrAux.Mist.TemplateGroup
import KedrAux.Mist.BuiltBlocks
import KedrAux.Mist.JoinIteration
import KedrAux.Mist.Emptiness
import KedrAux.Mist.EmptySubsets
import KedrAux.Lib.Yields
import KedrAux.Mist.Template
import KedrAux.Mist.References
import KedrAux.Mist.CircularReferences
import KedrAux.Mist.BuiltGroups
import KedrAux.Mist.InPlace
import KedrAux.Mist.TemplateInline
import KedrAux.Mist.IterationIndex
import KedrAux.Kedr.ProcessArea
import KedrAux.Kedr.PayloadSessions
import KedrAux.Lib.SortedScan
import KedrAux.Replacer.DataMap
import KedrAux.Replacer.OperationReplacer
import KedrAux.Replacer.ReplacementChain
import KedrAux.Replacer.Registration
import KedrAux.Replacer.BlockedPayloads
import KedrAux.Replacer.ReplacedObjects
import KedrAux.Replacer.AtPlaceOperations
import KedrAux.Replacer.OutsideOperations
import KedrAux.Calculator.ParseData
import KedrAux.Calculator.TokenSequence
import KedrAux.Calculator.Grammar
import KedrAux.Calculator.ParseRuns
import KedrAux.Calculator.ParsedExpressions
import KedrAux.Calculator.Rendering
import KedrAux.Lib.TailInsertion
import KedrAux.TraceBuffer.LastMessages
import KedrAux.TraceBuffer.MessageOrder
import KedrAux.TraceBuffer.ReadRuns
import KedrAux.Lib.Agreement
import KedrAux.MistEngine.History
import KedrAux.MistEngine.Acyclic
import KedrAux.MistEngine.Recursion
import KedrAux.MistEngine.Acceptance
import KedrAux.FaultSimulation.IndicatorRuns
import KedrAux.LeakCheck.LiveBlocks
import KedrAux.Lib.Backtracking
import KedrAux.Lib.ByteOrder
import KedrAux.Lib.Tiling
import KedrAux.MemRw.BlockRules
import KedrAux.MemRw.CallInject
import KedrAux.MemRw.ControlFlow
import KedrAux.TemplateConverter.LoadedTokens
import KedrAux.TraceUdp.EventsSender
import KedrAux.TraceUdp.Sessions
import KedrAux.TraceUdp.TraceEnd
import KedrAux.TraceUdp.Wire
import KedrAux.BinaryInstrument.CodeTemplate
import KedrAux.BinaryInstrument.Instantiation
import KedrAux.BinaryInstrument.InstrumentedModules
import KedrAux.TemplateConverter.ConvertedTexts
import KedrAux.Coverage.BranchCounters
import KedrAux.Coverage.SearchPruning
import KedrAux.Coverage.SourceFilter
import KedrAux.Coverage.SubtractCoverage
import KedrAux.Coverage.VectorCalls
import KedrAux.Kedr.AreaBounds
import KedrAux.Kedr.AreaWalk
import KedrAux.Lib.ObjectHeap
import KedrAux.Mist.MaskAppend
import KedrAux.Mist.MaskRuns
import KedrAux.Mist.ParamSetAssignment
import KedrAux.Mist.QuotedStrings
import KedrAux.Calculator.Evaluation
import KedrAux.Kedr.ControllerInit
import KedrAux.Lib.CharBuffer
import KedrAux.Lib.KeyedOverride
import KedrAux.Lib.Replacement
import KedrAux.Lib.SortProgram
import KedrAux.Lib.While
import KedrAux.MistEngine.ConfigFile
import KedrAux.MistEngine.MultiLine
import KedrAux.MistEngine.Replace
import KedrAux.MistEngine.SingleLine
import KedrAux.MistEngine.StringMap
import KedrAux.MistEngine.StringMapSort
import KedrAux.MistEngine.Tokenize
import KedrAux.MistEngine.Unescape
import KedrAux.TraceBuffer.BlockingRead
import KedrAux.Lib.IntervalCover
import KedrAux.Lib.PathNormalForm
import KedrAux.MemRw.JumpTables
import KedrAux.MistEngine.AbsolutePath
import KedrAux.DataConverter.Attributes
import KedrAux.DataConverter.ConservedData
import KedrAux.FaultSimulation.SetIndicatorMessages
import KedrAux.Lib.Alignment
import KedrAux.Lib.GuardedRuns
import KedrAux.Lib.KeyedList
import KedrAux.Lib.SortedGaps
import KedrAux.MemRw.DetourBuffer
import KedrAux.MemRw.FunctionList
import KedrAux.MemoryPool.GuardedBlocks
import KedrAux.SyscallConnector.Callbacks
import KedrAux.TraceReader.ChildrenLines
import KedrAux.Coverage.GroupingStates
import KedrAux.Coverage.SearchStates
import KedrAux.Replacer.DataMapCreate
import KedrAux.Replacer.DataMapRuns
import KedrAux.TemplateConverter.Joins
import KedrAux.TraceUdp.TraceClient
import KedrAux.Calculator.Meaning
import KedrAux.Replacer.CallbackReplacer
import KedrAux.MistEngine.LoadedFile
