import Babysit.Lib.Transition
import Babysit.Lib.Mealy
import Babysit.Lib.BigEndian
import Babysit.Lib.AppendLog
import Babysit.Lib.Utf8
import Babysit.Lib.Vt
import Babysit.Lib.Watch
import Babysit.Lib.Labelled
import Babysit.Lib.Notify
import Babysit.Lib.Decimal
import Babysit.Lib.PosixShell
import Babysit.Lib.Utf8Pieces
import Babysit.Lib.Lines
import Babysit.Lib.Segments
import Babysit.Lib.Splits
import Babysit.Lib.Refinement
import Babysit.Lib.LineChannel
import Babysit.Lib.Json
import Babysit.Lib.UnixFs
import Babysit.Lib.FilterProgram
import Babysit.Lib.ServiceQueue
import Babysit.Session
import Babysit.Frame
import Babysit.ExitCode
import Babysit.ControlConn
import Babysit.DetachFilter
import Babysit.AttachClient
import Babysit.RemoteClient
import Babysit.Hub
import Babysit.HubOffsets
import Babysit.AttachHandler
import Babysit.AttachStream
import Babysit.RemoteReconnect
import Babysit.RemoteDelivery
import Babysit.ReadSlice
import Babysit.IncrementalRead
import Babysit.LogPoller
import Babysit.TerminatePane
import Babysit.Worker
import Babysit.WorkerEnding
import Babysit.ReportedExit
import Babysit.TerminalOutput
import Babysit.KillReplies
import Babysit.ProcessGroup
import Babysit.WaitCrash
import Babysit.SessionIds
import Babysit.AttachLoop
import Babysit.DetachRequests
import Babysit.ViewDrain
import Babysit.ExitTail
import Babysit.OutputReader
import Babysit.ScreenSeq
import Babysit.LiveScreen
import Babysit.InputWrites
import Babysit.CaptureRows
import Babysit.AttachReplies
import Babysit.RemoteRuns
import Babysit.ViewReplay
import Babysit.OfflineInput
import Babysit.OfflineDetach
import Babysit.FinishedReplay
import Babysit.Supervision
import Babysit.ExitAgreement
import Babysit.Prune
import Babysit.DetachTokens
import Babysit.DetachEncoding
import Babysit.OffsetFrames
import Babysit.ShellWords
import Babysit.RawRead
import Babysit.LogReads
import Babysit.FollowLog
import Babysit.Expect
import Babysit.StreamOffsets
import Babysit.Durations
import Babysit.HostArgs
import Babysit.LogTail
import Babysit.FrameCuts
import Babysit.CaptureWindows
import Babysit.PaneResize
import Babysit.RetryPacing
import Babysit.LastVisibleLine
import Babysit.StatusFile
import Babysit.SendExpect
import Babysit.LiveBridge
import Babysit.ControlCalls
import Babysit.WorkerLimits
import Babysit.Render
import Babysit.RemoteCreate
import Babysit.PrivateSocket
import Babysit.GracefulEnd
import Babysit.WaitIdle
import Babysit.ViewFilter
import Babysit.ListTable
import Babysit.ConnectRetry
import Babysit.KillDeadline
