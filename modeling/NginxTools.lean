import NginxTools.Library.TransitionSystem
import NginxTools.Library.Monitor
import NginxTools.Library.Store
import NginxTools.Library.Fallible
import NginxTools.Library.LazyInit
import NginxTools.Library.Deltas
import NginxTools.Library.FileTree
import NginxTools.Library.PathName
import NginxTools.Library.FileWalk
import NginxTools.Library.TreeWalk
import NginxTools.Library.Strtol
import NginxTools.Library.WaitStatus
import NginxTools.Library.RbTree
import NginxTools.Library.LeakyBucket
import NginxTools.Library.RingBuffer
import NginxTools.Library.Crc
import NginxTools.Core.Rbtree
import NginxTools.Core.KeyedTree
import NginxTools.Core.Crc32
import NginxTools.InterrUsleep.Protocol
import NginxTools.InterrUsleep.Signal
import NginxTools.InterrUsleep.Close
import NginxTools.LimitReq.BurstLevel
import NginxTools.LimitReq.ConfigCycle
import NginxTools.LimitReq.Lookup
import NginxTools.LimitReq.Zone
import NginxTools.LimitReq.Handler
import NginxTools.LimitReq.Billing
import NginxTools.LimitReq.RateBound
import NginxTools.LimitReq.ServerRate
import NginxTools.VhostTrafficStatus.TimeQueue
import NginxTools.VhostTrafficStatus.Node
import NginxTools.VhostTrafficStatus.Key
import NginxTools.VhostTrafficStatus.Shm
import NginxTools.VhostTrafficStatus.Control
import NginxTools.VhostTrafficStatus.Workers
import NginxTools.VhostTrafficStatus.Ledger
import NginxTools.VhostTrafficStatus.Display
import NginxTools.VhostTrafficStatus.Eviction
import NginxTools.VhostTrafficStatus.Escape
import NginxTools.VhostTrafficStatus.Dump
import NginxTools.LibcurlWrap.Receive
import NginxTools.LibcurlWrap.Request
import NginxTools.LibcurlWrap.Contract
import NginxTools.LibcurlWrap.FindHeader
import NginxTools.LibcurlWrap.Framing
import NginxTools.LibcurlWrap.Upload
import NginxTools.LibcurlWrap.SetHeaders
import NginxTools.TestRateLimiting.TraceStats
import NginxTools.TestRateLimiting.Samples
import NginxTools.TestRateLimiting.OwnPolls
import NginxTools.TestRateLimiting.Polling
import NginxTools.TestRateLimiting.App
import NginxTools.TestRateLimiting.Processes
import NginxTools.TestRateLimiting.Threads
import NginxTools.TestRateLimiting.Quiet
import NginxTools.TestRateLimiting.ClientLog
import NginxTools.TestRateLimiting.Sampling
import NginxTools.TestRateLimiting.GlobalInit
import NginxTools.TestRateLimiting.WrapperClose
import NginxTools.TestRateLimiting.PidNumber
import NginxTools.UtilsFiles.Rmpath
import NginxTools.UtilsFiles.WholeTree
import NginxTools.UtilsFiles.Mkpath
import NginxTools.UtilsFiles.FileBuffer
import NginxTools.UtilsFiles.Dump2file
