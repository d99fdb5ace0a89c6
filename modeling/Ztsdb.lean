import Ztsdb.Lib.Outcome
import Ztsdb.Lib.Bytes
import Ztsdb.Lib.Adjacent
import Ztsdb.Arr.Machine
import Ztsdb.Arr.Elements
import Ztsdb.Arr.Vector
import Ztsdb.Arr.VectorOrder
import Ztsdb.Arr.Array
import Ztsdb.Arr.ArrayAppend
import Ztsdb.Arr.Bind
import Ztsdb.Arr.BindCols
import Ztsdb.Arr.BindShape
import Ztsdb.Arr.CowPtr
import Ztsdb.Arr.MakeShape
import Ztsdb.Arr.VectorSet
import Ztsdb.Arr.VectorSetIdx
import Ztsdb.Arr.UnionIdx
import Ztsdb.Arr.Subassign
import Ztsdb.Arr.SubassignOrder
import Ztsdb.Arr.AssignTrace
import Ztsdb.Arr.ArrayAssign
import Ztsdb.Arr.Interval
import Ztsdb.Arr.IntervalDiff
import Ztsdb.Arr.IntervalUnion
import Ztsdb.Arr.TimeIndex
import Ztsdb.Arr.IntervalIndexSpec
import Ztsdb.Arr.GridSubset
import Ztsdb.Arr.ZtsAtomic
import Ztsdb.Arr.ZtsLife
import Ztsdb.Arr.ZtsReach
import Ztsdb.Arr.ZtsVector
import Ztsdb.Tz.ZoneOffset
import Ztsdb.Tz.ReverseSpec
import Ztsdb.Lang.Anf
import Ztsdb.Lang.AnfEval
import Ztsdb.Lang.RunSame
import Ztsdb.Lang.AnfOperand
import Ztsdb.Lang.AnfNormal
import Ztsdb.Lang.Eval
import Ztsdb.Lang.Steady
import Ztsdb.Net.AppendMessage
import Ztsdb.Net.Connections
import Ztsdb.Net.RemoteContext
import Ztsdb.Net.CurrentState
import Ztsdb.Net.Routing
import Ztsdb.Net.Encode
import Ztsdb.Net.ReadLoop
import Ztsdb.Net.Value
import Ztsdb.Net.ReadValue
import Ztsdb.Net.ReadStream
import Ztsdb.Net.ReadItems
import Ztsdb.Net.ReadElts
import Ztsdb.Net.ReadTerminates
import Ztsdb.Net.Code
import Ztsdb.Net.Mappings
import Ztsdb.Net.Signals
import Ztsdb.Arr.GridBindSpec
import Ztsdb.Arr.AlignSpec
import Ztsdb.Arr.FlexSpec
import Ztsdb.Arr.NameMap
import Ztsdb.Csv.ReadTokenSpec
import Ztsdb.Lang.FrameStack
import Ztsdb.Csv.TableTypes
import Ztsdb.Arr.AlignFunc
import Ztsdb.Arr.OpZts
import Ztsdb.Lib.Loop
import Ztsdb.Arr.Columns
import Ztsdb.Arr.Shift
import Ztsdb.Arr.Locf
import Ztsdb.Arr.RollMin
import Ztsdb.Lib.RingBuffer
import Ztsdb.Arr.Window
import Ztsdb.Arr.RunningSum
import Ztsdb.Arr.RollMean
import Ztsdb.Arr.RollCov
import Ztsdb.Arr.RollVar
import Ztsdb.Arr.VectorInsert
import Ztsdb.Arr.AbindThrows
import Ztsdb.Tz.Period
import Ztsdb.Tz.Floor
import Ztsdb.Tz.Lookup
import Ztsdb.Tz.FloorTz
import Ztsdb.Tz.PeriodText
import Ztsdb.Tz.Seq
import Ztsdb.Net.GcStates
import Ztsdb.Arr.Transpose
import Ztsdb.Lang.ArgsMatched
import Ztsdb.Lang.DblAssignAgree
import Ztsdb.Tz.BinarySearch
import Ztsdb.Arr.Median
import Ztsdb.Arr.ZStringBytes
import Ztsdb.Arr.ListDeleteSpec
import Ztsdb.Lib.Portions
import Ztsdb.Net.ReadKept
import Ztsdb.Net.ReadArrays
import Ztsdb.Net.RoundTrip
import Ztsdb.Net.ReadPending
import Ztsdb.Net.ReadShift
import Ztsdb.Net.Response
import Ztsdb.Net.Request
import Ztsdb.Net.Endpoint
import Ztsdb.Net.ResponseRun
import Ztsdb.Net.RequestRun
import Ztsdb.Arr.Load
import Ztsdb.Arr.LoadAppend
import Ztsdb.Csv.Series
