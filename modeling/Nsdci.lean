import Nsdci.Lib.Memory
import Nsdci.Lib.Word
import Nsdci.Sock
import Nsdci.Server
import Nsdci.Server.Send
import Nsdci.Lib.Session
import Nsdci.Lib.StringTable
import Nsdci.Lib.Search
import Nsdci.Server.Loop
import Nsdci.Server.Sessions
import Nsdci.Lib.Framing
import Nsdci.Lib.CString
import Nsdci.Msg
import Nsdci.Ns
import Nsdci.Receiver
import Nsdci.Lib.Transition
import Nsdci.Lib.RefHeap
import Nsdci.Broadcast
import Nsdci.Broadcast.Invariant
import Nsdci.Broadcast.Clients
import Nsdci.Broadcast.Frames
import Nsdci.Nv
import Nsdci.Lib.Table
import Nsdci.Nv.Update
import Nsdci.Broadcast.Queue
import Nsdci.Nv.InitMsg
import Nsdci.Flush
import Nsdci.Broadcast.Lifetime
import Nsdci.Lib.Decimal
import Nsdci.DString
import Nsdci.Rpc
import Nsdci.Rpc.Http
import Nsdci.Rpc.Recv
import Nsdci.Rpc.Run
import Nsdci.Sob
import Nsdci.TclList
import Nsdci.Nfs
import Nsdci.Nfs.Address
import Nsdci.Store
import Nsdci.Nv.Cmds
import Nsdci.Nv.Sections
import Nsdci.Nv.Relay
import Nsdci.Nv.InitSize
import Nsdci.Nv.Flusher
import Nsdci.Cb
import Nsdci.Lib.BoundedQueue
import Nsdci.Cb.Queue
import Nsdci.Cb.Ids
import Nsdci.TclExport
import Nsdci.Lib.Chain
import Nsdci.Nt
import Nsdci.Nt.Client
import Nsdci.Nt.Conservation
import Nsdci.Nt.Totals
import Nsdci.Lib.Places
import Nsdci.Proxies
import Nsdci.Proxies.Steps
import Nsdci.Nfs.Steps
import Nsdci.Nfs.Boards
import Nsdci.Sob.Cache
import Nsdci.Nfs.History
import Nsdci.Nfs.Coherence
import Nsdci.Proxies.Pairing
import Nsdci.Proxies.Generations
import Nsdci.Lib.WriteBack
import Nsdci.Nrate
import Nsdci.Nrate.Sums
import Nsdci.AvCache
import Nsdci.AvCache.Lifetime
import Nsdci.AvFile
import Nsdci.AvFile.Header
import Nsdci.AvFile.Layout
import Nsdci.AvFile.RoundTrip
import Nsdci.AvFile.Exact
import Nsdci.Flush.Relay
import Nsdci.Base64
import Nsdci.Base64.Codec
import Nsdci.Http.Stats
import Nsdci.Http.Response
import Nsdci.Http.Splitting
import Nsdci.Nfs.Write
import Nsdci.Nfs.Read
import Nsdci.QueFile
import Nsdci.Poll
import Nsdci.Poll.Counts
import Nsdci.Lib.Newline
import Nsdci.Nt.File
import Nsdci.Nt.Backup
import Nsdci.Http.Lifetime
import Nsdci.Http.Ownership
import Nsdci.Lib.Calendar
import Nsdci.Datenum
import Nsdci.Misc.GroupInt
import Nsdci.Misc.WordTrunc
import Nsdci.Cb.Window
import Nsdci.Ascii85
import Nsdci.Ascii85.RoundTrip
import Nsdci.Misc.TagAtts
import Nsdci.Misc.TagPairs
import Nsdci.Brange
import Nsdci.Brange.Search
import Nsdci.Nfs.Copy
import Nsdci.AvCache.Errors
import Nsdci.Week
import Nsdci.QueFile.Files
import Nsdci.QueFile.Insert
import Nsdci.QueFile.Runs
import Nsdci.Unix.Removal
import Nsdci.Unix.WriteFile
import Nsdci.Img.Cache
import Nsdci.File.Runs
import Nsdci.Img.Dimensions
import Nsdci.Csv.Records
import Nsdci.Links.Promo
import Nsdci.Misc.CheckTags
import Nsdci.AvProc.Release
import Nsdci.RpcPool.Accounting
import Nsdci.Rpc.Framing
import Nsdci.Rpc.Incoming
import Nsdci.Rpc.Outgoing
import Nsdci.Rpc.Isolation
import Nsdci.Rps
import Nsdci.Rps.Proc
import Nsdci.Rps.Callback
import Nsdci.Rps.Dispatch
import Nsdci.Lib.Overwrite
import Nsdci.Nv.Logged
import Nsdci.Nv.Replica
import Nsdci.Nv.Serving
import Nsdci.Nv.Replication
import Nsdci.Rpc.Answer
import Nsdci.Rps.Exchange
import Nsdci.Lib.Outcome
import Nsdci.Lib.Medium
import Nsdci.Lib.Sums
import Nsdci.Gdbm
import Nsdci.Gdbm.Owned
import Nsdci.Gdbm.Alloc
import Nsdci.Gdbm.Data
