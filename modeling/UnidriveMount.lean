import UnidriveMount.PathMapRuns
import UnidriveMount.Lib.Pool
import UnidriveMount.Fs.Release
import UnidriveMount.Fs.LocalAttrs
import UnidriveMount.Fs.Spelling
import UnidriveMount.Fs.Listing
import UnidriveMount.Ipc.Gaps
import UnidriveMount.Ipc.Attempts
import UnidriveMount.Fs.Failures
import UnidriveMount.Fs.Scan
import UnidriveMount.Fs.Events
import UnidriveMount.Fs.Subtrees
import UnidriveMount.Fs.CachePaths
import UnidriveMount.Fs.Visible
import UnidriveMount.Fs.Relisting
import UnidriveMount.Fs.Sizes
import UnidriveMount.Fs.Truncation
import UnidriveMount.Fs.OpenSet
import UnidriveMount.Fs.Deleted
import UnidriveMount.Fs.Following
import UnidriveMount.Fs.LateListings
import UnidriveMount.Recovery.Replay
import UnidriveMount.Fs.CodePoints
import UnidriveMount.Ipc.Transcript
import UnidriveMount.Ipc.Token
import UnidriveMount.Ipc.Framing
import UnidriveMount.Ipc.CutReplies
import UnidriveMount.Ipc.Budget
import UnidriveMount.Quota
import UnidriveMount.Fs.Prefixes
import UnidriveMount.Mount.Delivery
import UnidriveMount.Fs.Saved
import UnidriveMount.ViewRefresh
import UnidriveMount.Startup.InOrder
import UnidriveMount.Fs.SyncState
import UnidriveMount.Startup.Recovered
