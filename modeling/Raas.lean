import Raas.Machine
import Raas.Data.Window
import Raas.Data.Tiling
import Raas.Data.Searching
import Raas.Data.Positional
import Raas.Data.Retrying
import Raas.Data.Tracing
import Raas.Data.Agreement
import Raas.Data.Settling
import Raas.Data.Stalling
import Raas.Data.Stitching
import Raas.Data.LittleEndian
import Raas.Data.Pieces
import Raas.Data.Utf8
import Raas.Data.Runs
import Raas.Data.Ranking
import Raas.Data.Channel
import Raas.Data.Upkeep
import Raas.Data.Pool
import Raas.Data.Trimming
import Raas.Data.Blocks
import Raas.Data.Parameters
import Raas.Os.Path
import Raas.Os.Files
import Raas.Os.Memory
import Raas.Os.Tree
import Raas.Os.Walk
import Raas.Os.Mutation
import Raas.Os.Surroundings
import Raas.Os.Straying
import Raas.Os.Arrival
import Raas.Cache.FileHandle
import Raas.Archive.Format
import Raas.Archive.Scanned
import Raas.Archive.Scanner
import Raas.Archive.Entities
import Raas.Archive.Tar.Header
import Raas.Archive.Tar.Index
import Raas.Archive.Tar.Reader
import Raas.Archive.Tar.Reference
import Raas.Archive.Tar.Gnu
import Raas.Archive.Tar.Block
import Raas.Archive.Tar.Decode
import Raas.Archive.Tar.Roundtrip
import Raas.Archive.Tar.Starving
import Raas.Archive.Tar.Cursor
import Raas.Archive.Tar.Lookup
import Raas.Archive.Tar.Naming
import Raas.Archive.Tar.Sources
import Raas.Archive.Tar.Recovery
import Raas.Archive.Zip.Encode
import Raas.Archive.Zip.Index
import Raas.Archive.Zip.Layout
import Raas.Archive.Zip.Checksum
import Raas.Archive.Zip.Reader
import Raas.Archive.Zip.Reference
import Raas.Archive.Zip.Announced
import Raas.Archive.Zip.Segments
import Raas.Archive.Zip.Footprint
import Raas.Archive.Zip.Sharing
import Raas.Archive.Zip.Poisoning
import Raas.Archive.Zip.Decode
import Raas.Archive.Zip.Roundtrip
import Raas.Archive.Zip.Sentinels
import Raas.Archive.Safety
import Raas.Archive.Unpacking
import Raas.Archive.Distinct
import Raas.Archive.Retrying
import Raas.Archive.Narrow
import Raas.Archive.Reading
import Raas.Archive.Dispatch
import Raas.Archive.Ordering
import Raas.Archive.Zip.Sources
import Raas.Cache.ArchiveCache
import Raas.Cache.Coherence
import Raas.Cache.Interleaving
import Raas.Cache.Sequential
import Raas.Cache.Registry
import Raas.Cache.Invalidation
import Raas.Cache.Exactness
import Raas.Cache.Pruning
import Raas.Cache.Completion
import Raas.Watcher.Worker
import Raas.Watcher.Overflow
import Raas.Watcher.Session
import Raas.Watcher.Punctual
import Raas.Watcher.Freshness
import Raas.Watcher.Shutdown
import Raas.Server.Range
import Raas.Server.Numbers
import Raas.Server.Disposition
import Raas.Server.FileName
import Raas.Server.Download
import Raas.Server.Stitching
import Raas.Server.Streaming
import Raas.Server.Refusal
import Raas.Server.Grammar
import Raas.Server.Rebuilding
import Raas.Server.Resolve
import Raas.Server.Requests
import Raas.Server.Site
import Raas.Server.Serving
import Raas.Server.Confinement
import Raas.Server.Contents
import Raas.Server.Resuming
import Raas.Server.Live
