import Bbench.Cargs.Again
import Bbench.Cargs.Copies
import Bbench.Cargs.Dispatch
import Bbench.Cargs.Lookup
import Bbench.Cargs.Operands
import Bbench.Cargs.Order
import Bbench.Cargs.Typed
import Bbench.Cargs.Views
import Bbench.Cli.Accepted
import Bbench.Cli.Integer
import Bbench.Cli.Milliseconds
import Bbench.Lib.BoundedText
import Bbench.Lib.Clocks
import Bbench.Lib.Descriptors
import Bbench.Lib.Handles
import Bbench.Lib.LastWrite
import Bbench.Lib.Lines
import Bbench.Lib.MachineMean
import Bbench.Lib.Newton
import Bbench.Lib.Numeral
import Bbench.Lib.Recorder
import Bbench.Lib.RoundedMean
import Bbench.Lib.Sample
import Bbench.Lib.SelectionSort
import Bbench.Lib.Sentinel
import Bbench.Lib.Separated
import Bbench.Lib.ShortWrites
import Bbench.Lib.Tokens
import Bbench.Lib.Transition
import Bbench.Perf.Clock
import Bbench.Perf.EventList
import Bbench.Perf.Group
import Bbench.Perf.Ownership
import Bbench.Perf.Stopwatch
import Bbench.Perf.Topdown
import Bbench.Process.Attach
import Bbench.Process.Balance
import Bbench.Process.Deadline
import Bbench.Process.InProcess
import Bbench.Process.Ledger
import Bbench.Process.Progress
import Bbench.Process.Selection
import Bbench.Process.Spawned
import Bbench.Process.Timeout
import Bbench.Process.WallClock
import Bbench.Process.Window
import Bbench.Report.Blocks
import Bbench.Report.Btime
import Bbench.Report.Collapse
import Bbench.Report.Colour
import Bbench.Report.Columns
import Bbench.Report.Counts
import Bbench.Report.Csv
import Bbench.Report.DynamicExecution
import Bbench.Report.Group
import Bbench.Report.HumanReport
import Bbench.Report.Main
import Bbench.Report.MetricList
import Bbench.Report.Operands
import Bbench.Report.Repeat
import Bbench.Report.Sink
import Bbench.Report.SinkOwnership
import Bbench.Report.Sort
import Bbench.Report.Stats
import Bbench.Report.Table
import Bbench.Report.Topdown
