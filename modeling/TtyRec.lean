import TtyRec.Agreement
import TtyRec.Cheatcodes
import TtyRec.ChildView
import TtyRec.Chronology
import TtyRec.Coalescing
import TtyRec.CommandLine
import TtyRec.Compress
import TtyRec.Deadline
import TtyRec.DescriptorUse
import TtyRec.Descriptors
import TtyRec.EndToEnd
import TtyRec.ExitCode
import TtyRec.ExitStatus
import TtyRec.Exits
import TtyRec.Failures
import TtyRec.Faults
import TtyRec.FileName
import TtyRec.Follow
import TtyRec.Header
import TtyRec.Inheritance
import TtyRec.Lib.Alarm
import TtyRec.Lib.CString
import TtyRec.Lib.Calendar
import TtyRec.Lib.Decimal
import TtyRec.Lib.Descriptors
import TtyRec.Lib.Framing
import TtyRec.Lib.Handlers
import TtyRec.Lib.History
import TtyRec.Lib.Ledger
import TtyRec.Lib.Matcher
import TtyRec.Lib.Mirror
import TtyRec.Lib.Replace
import TtyRec.Lib.Run
import TtyRec.Lib.Settle
import TtyRec.Lib.Sharing
import TtyRec.Lib.SignedExpr
import TtyRec.Lib.StreamCodec
import TtyRec.Lib.Transducer
import TtyRec.LockScreen
import TtyRec.NameBuffer
import TtyRec.Neighbours
import TtyRec.NoTty
import TtyRec.Options
import TtyRec.Overflow
import TtyRec.Parent
import TtyRec.ParentView
import TtyRec.Pipes
import TtyRec.Playback
import TtyRec.Player
import TtyRec.PlayerMain
import TtyRec.RawMode
import TtyRec.RawModeExit
import TtyRec.Record
import TtyRec.Recorder
import TtyRec.Recovery
import TtyRec.Refinement
import TtyRec.Relay
import TtyRec.Reopening
import TtyRec.Retry
import TtyRec.Rotation
import TtyRec.Sessions
import TtyRec.Shutdown
import TtyRec.Sleep
import TtyRec.Stdio
import TtyRec.Storm
import TtyRec.StreamUse
import TtyRec.Streams
import TtyRec.Timeouts
import TtyRec.TtyTime
import TtyRec.Wait
import TtyRec.Warnings
import TtyRec.Watcher
import TtyRec.Watching
import TtyRec.WindowSize
import TtyRec.Zstd.Corrupt
import TtyRec.Zstd.Faults
import TtyRec.Zstd.Flush
import TtyRec.Zstd.FlushTest
import TtyRec.Zstd.Follow
import TtyRec.Zstd.HeaderResult
import TtyRec.Zstd.Raw
import TtyRec.Zstd.Read
import TtyRec.Zstd.Requests
import TtyRec.Zstd.Write
