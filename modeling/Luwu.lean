import Luwu.ByteArray.Flat
import Luwu.ByteArray.Integers
import Luwu.ByteArray.NullSafety
import Luwu.ByteArray.RoundTrip
import Luwu.Timer.Basic
import Luwu.Timer.Handles
import Luwu.Timer.Expiry
import Luwu.Timer.History
import Luwu.Timer.Wakeup
import Luwu.IOManager.Events
import Luwu.IOManager.Trigger
import Luwu.IOManager.Ledger
import Luwu.IOManager.ContextTable
import Luwu.Scheduler.Basic
import Luwu.Scheduler.Exclusion
import Luwu.Scheduler.Queue
import Luwu.IOManager.Stop
import Luwu.IOManager.Shutdown
import Luwu.Config.Listeners
import Luwu.Hook.FdManager
import Luwu.Hook.Flags
import Luwu.Hook.Timeouts
import Luwu.HttpParser.Cut
import Luwu.Stream.Basic
import Luwu.WebSocket.RoundTrip
import Luwu.WebSocket.Alignment
import Luwu.WebSocket.Limit
import Luwu.WebSocket.Handshake
import Luwu.Http.ResponseTrip
import Luwu.Http.Pipelining
import Luwu.Http.Lending
import Luwu.Stream.Fixed
import Luwu.Http.Receive
import Luwu.Stream.Socket
import Luwu.Lib.Standing
import Luwu.Http.Servlet
import Luwu.Config.Load
import Luwu.Log.FileAppender
import Luwu.Log.Config
import Luwu.Fiber.Current
import Luwu.Http.ConnectionAge
import Luwu.ByteArray.Files
import Luwu.ByteArray.Positional
import Luwu.ByteArray.Strings
import Luwu.Stream.Buffers
import Luwu.WebSocket.Resend
import Luwu.Http.BodyLimit
import Luwu.Http.HeaderLines
import Luwu.Http.Cookies
import Luwu.Ext.StringUtil
import Luwu.Http.Query
import Luwu.Config.Assignment
import Luwu.Log.Rendering
import Luwu.Net.Uri
import Luwu.Net.Lookup
import Luwu.Net.Masks
import Luwu.Util.Hex
import Luwu.Util.Replace
import Luwu.IOManager.IdleTimeout
import Luwu.Hook.Sleep
import Luwu.Net.Ipv6Text
import Luwu.IOManager.Descriptors
import Luwu.ByteArray.Zigzag
import Luwu.Util.QuickHash
import Luwu.Ext.Trim
import Luwu.Util.Split
import Luwu.Log.Indices
import Luwu.Http.Keys
import Luwu.Util.JsonUtil
import Luwu.Ext.Rm
