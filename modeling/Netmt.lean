import Netmt.Lib.BinaryHeap
import Netmt.Lib.CMem
import Netmt.Lib.Cut
import Netmt.Lib.Fifo
import Netmt.Lib.Layout
import Netmt.Lib.LineEnd
import Netmt.Lib.Loop
import Netmt.Lib.Overlay
import Netmt.Lib.Ring
import Netmt.Lib.Trim
import Netmt.Lib.Words
import Netmt.Broadcast
import Netmt.StringIni
import Netmt.Receive
import Netmt.Console
import Netmt.Stale
import Netmt.Ini
import Netmt.Logger
import Netmt.Reload
import Netmt.Ping
import Netmt.PingQueue
import Netmt.Forward
import Netmt.Send
import Netmt.SplitMemory
import Netmt.Cat
import Netmt.Options
import Netmt.OptScan
import Netmt.Spellings
import Netmt.Order
import Netmt.SavedArgs
import Netmt.Vim
import Netmt.Ftp
import Netmt.ConfFormat
import Netmt.ConfOpt
import Netmt.AbsPath
import Netmt.Queue
import Netmt.Nio
import Netmt.NioInvariant
import Netmt.NioSteps
import Netmt.Delivery
import Netmt.Heap
import Netmt.HeapOrder
import Netmt.EventLoop
import Netmt.EventLoopInvariant
import Netmt.EventLoopRound
import Netmt.EventLoopRuns
import Netmt.EventLoopTimers
import Netmt.IniDocument
import Netmt.IniSaved
import Netmt.IniEdits
import Netmt.Workers
import Netmt.WorkersInvariant
import Netmt.WorkersRuns
