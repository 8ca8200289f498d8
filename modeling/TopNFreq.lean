import TopNFreq.Library.Loop
import TopNFreq.Library.Ordering
import TopNFreq.Library.Coalesce
import TopNFreq.Library.Selection
import TopNFreq.Library.Text
import TopNFreq.Library.InputStream
import TopNFreq.Library.History
import TopNFreq.Library.Draws
import TopNFreq.Library.Interleaving
import TopNFreq.Library.Packing
import TopNFreq.Environment
import TopNFreq.MemPool
import TopNFreq.TrackerLimit
import TopNFreq.SharedPools
import TopNFreq.Allocators
import TopNFreq.MallocFailure
import TopNFreq.FileManager
import TopNFreq.FileMerger
import TopNFreq.Program
import TopNFreq.ComparatorLaws
import TopNFreq.Comparators
import TopNFreq.Ownership
import TopNFreq.Lines
import TopNFreq.Segments
import TopNFreq.RowFormat
import TopNFreq.RowErrors
import TopNFreq.RoundTrip
import TopNFreq.Merge
import TopNFreq.MergeRun
import TopNFreq.UrlStream
import TopNFreq.RunCount
import TopNFreq.SpillStage
import TopNFreq.SpillResults
import TopNFreq.MemoryCap
import TopNFreq.TopHeap
import TopNFreq.BoundedHeap
import TopNFreq.MergeStage
import TopNFreq.MergeResults
import TopNFreq.Termination
import TopNFreq.EndToEnd
import TopNFreq.Overflow
import TopNFreq.FaultSpill
import TopNFreq.FaultMerge
import TopNFreq.Footprint
import TopNFreq.RowExtent
import TopNFreq.FaultRuns
import TopNFreq.GenData
import TopNFreq.GenRuns
import TopNFreq.GenFiles
import TopNFreq.Readings
import TopNFreq.RowJoins
import TopNFreq.StageRefinement
import TopNFreq.RunRefinement
import TopNFreq.FaultContainment
import TopNFreq.RunMemory
import TopNFreq.Reruns
import TopNFreq.SpillSpace
import TopNFreq.AnswerFile
import TopNFreq.Pipeline
import TopNFreq.CommandLine
