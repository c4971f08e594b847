import Mobfs.Lib.Runs
import Mobfs.Lib.Ranges
import Mobfs.Lib.Chunks
import Mobfs.Lib.Maps
import Mobfs.Path
import Mobfs.Snapshot
import Mobfs.Daemon.Policy
import Mobfs.Daemon.Stream
import Mobfs.Daemon.Framing
import Mobfs.Vfs.Journal
import Mobfs.Vfs.JournalRuns
import Mobfs.Remote.Pairing
import Mobfs.Lib.Contents
import Mobfs.Vfs.WriteBack
import Mobfs.Vfs.Places
import Mobfs.Vfs.Threads
import Mobfs.Vfs.Flush
import Mobfs.Vfs.Order
import Mobfs.Vfs.LastWrite
import Mobfs.Tree
import Mobfs.Sync.Apply
import Mobfs.Sync.Commands
import Mobfs.Sync.Deletes
import Mobfs.Sync.Converge
import Mobfs.Sync.Jobs
import Mobfs.Sync.Bases
import Mobfs.Sync.Known
import Mobfs.Sync.RemoteEdits
import Mobfs.Lib.Log
import Mobfs.Changes.Feed
import Mobfs.Changes.Polls
import Mobfs.Changes.Blocked
import Mobfs.Vfs.BlockCache
import Mobfs.Vfs.BlockFetch
import Mobfs.Vfs.TreeInvalidation
import Mobfs.Remote.Run
import Mobfs.Daemon.Once
import Mobfs.Daemon.Moves
import Mobfs.Daemon.Calls
import Mobfs.Vfs.Mutate
import Mobfs.Vfs.NameCache
import Mobfs.Vfs.Coherence
import Mobfs.Vfs.Dates
import Mobfs.Vfs.PendingEvents
import Mobfs.Vfs.UploadErrors
import Mobfs.Vfs.Renames
import Mobfs.Vfs.FollowsFile
import Mobfs.Lib.Keyed
import Mobfs.Vfs.UploadQueue
import Mobfs.Vfs.OneHandle
import Mobfs.Vfs.Subtree
import Mobfs.Vfs.InodeMaps
import Mobfs.Vfs.Caches
import Mobfs.Vfs.Exclusive
import Mobfs.Lib.Paging
import Mobfs.Vfs.Readdir
import Mobfs.Vfs.SideData
import Mobfs.Vfs.Failures
import Mobfs.Vfs.Ages
import Mobfs.Daemon.Requests
import Mobfs.Daemon.Announce
import Mobfs.Changes.Outside
import Mobfs.Vfs.BlockWrites
import Mobfs.Lib.BigEndian
import Mobfs.Crypto.Frames
import Mobfs.Crypto.Handshake
import Mobfs.Daemon.Confinement
import Mobfs.Vfs.Remove
import Mobfs.Vfs.EmptyDirs
import Mobfs.Changes.Watch
import Mobfs.Changes.Live
import Mobfs.Sync.OneWay
import Mobfs.Sync.Mirror
import Mobfs.Sync.Folder
import Mobfs.Lib.Disk
import Mobfs.Lib.Resolve
import Mobfs.Daemon.PathCalls
import Mobfs.Daemon.Escape
import Mobfs.Lib.Recency
import Mobfs.Vfs.BlockUse
import Mobfs.Vfs.Reads
import Mobfs.Vfs.FetchAnswers
import Mobfs.Vfs.ReadRuns
import Mobfs.Vfs.SelfRename
import Mobfs.Vfs.Mkdir
import Mobfs.Lib.Redo
import Mobfs.Daemon.SameTree
import Mobfs.Daemon.Again
import Mobfs.Vfs.Replays
import Mobfs.Vfs.LocalSizes
import Mobfs.Vfs.Listed
import Mobfs.Vfs.SoloMount
import Mobfs.Vfs.FlushedSizes
import Mobfs.Vfs.MountSnapshot
import Mobfs.Daemon.StreamRanges
import Mobfs.Daemon.FileReads
import Mobfs.Remote.RangeReads
import Mobfs.Daemon.Uploads
import Mobfs.Lib.Retries
import Mobfs.Remote.UploadFile
import Mobfs.Remote.DownloadFile
import Mobfs.Daemon.Rejected
import Mobfs.Daemon.FileChanges
import Mobfs.Sync.ConflictCopies
import Mobfs.Vfs.Readahead
import Mobfs.Lib.Utf8
import Mobfs.Vfs.FetchRuns
import Mobfs.Lib.Shell
import Mobfs.Sync.ShellWords
import Mobfs.Lib.Splits
import Mobfs.Remote.Target
import Mobfs.Vfs.WriteOffsets
import Mobfs.Vfs.Attributes
import Mobfs.Daemon.Temporaries
import Mobfs.Vfs.FeedThread
import Mobfs.Vfs.FeedPast
import Mobfs.Vfs.MountStart
import Mobfs.Vfs.AtRest
import Mobfs.Crypto.Channel
import Mobfs.Vfs.DirHandles
import Mobfs.Vfs.FetchEnds
import Mobfs.Vfs.UploadEnds
import Mobfs.Remote.RunOutput
import Mobfs.Vfs.OpenVersions
import Mobfs.Vfs.Pools
import Mobfs.Vfs.Restart
import Mobfs.Vfs.RemoteTree
