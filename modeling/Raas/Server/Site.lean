import Raas.Archive.Zip.Sources
import Raas.Cache.Coherence
import Raas.Data.Upkeep
import Raas.Server.Requests
import Raas.Server.Streaming
import Raas.Watcher.Overflow

namespace Raas

open Data Server

/-! A server at work: the tree below its data root changes, the system reports that, the
watcher invalidates what is affected, archives are evicted, and requests are answered. -/

/-- What a server is started with. The files and the fuel of `env` are those of the moment. -/
structure Site where
  crate : Tar.HeaderCrate
  env : Environment
  dataRoot : Location
  rootLegal : ∀ name ∈ dataRoot, LegalName name
  /-- The orders in which the system may enumerate what it finds. -/
  Enumerates : Node → Node → Prop
  reorders : ∀ node order, Enumerates node order → node.Reordered order

namespace Site

def root (site : Site) : Path := pathOf [separator] site.dataRoot

structure Query where
  path : String
  format : Option String
  range : Option Bytes
  patience : Nat

def Query.request (query : Query) : Request where
  path := utf8 query.path
  range := query.range
  patience := query.patience

/-- What a request meets while it is answered. -/
structure Moment where
  fs : Node
  /-- What its path leads to, as the directories are enumerated now. -/
  order : Node
  os : Files
  fuel : Nat
  now : Nat

def during (site : Site) (moment : Moment) : Environment := { site.env with os := moment.os, fuel := moment.fuel }

/-- What requests share. A zip archive in the cache keeps its checksums. -/
structure Shared where
  archiveCache : ArchiveCache ArchiveCache.Loaded
  cells : List Component → ArchiveFormat → Zip.CrcCells

def Shared.start (maxCapacity : Nat) : Shared where
  archiveCache := .new maxCapacity
  cells := fun _ _ _ => none

/-- The checksums of an archive that is asked for; a new one has none. -/
def Shared.cellsOf (shared : Shared) (path : Path) (format : ArchiveFormat) : Zip.CrcCells :=
  if (shared.archiveCache.lookup path format).isSome then shared.cells (Path.components path) format else fun _ => none

def Shared.keep (shared : Shared) (archiveCache : ArchiveCache ArchiveCache.Loaded) (path : Path)
    (format : ArchiveFormat) (cells : Zip.CrcCells) : Shared where
  archiveCache
  cells := fun key other => if key = Path.components path ∧ other = format then cells else shared.cells key other

/-- `download_random_access_archive` once it knows what is asked for. -/
def deliver (site : Site) (moment : Moment) (query : Query) (sourcePath : Path) (format : ArchiveFormat)
    (shared : Shared) : Except ArchiveApiError Response × Shared :=
  let cells := shared.cellsOf sourcePath format
  let built := Archive.create site.crate format sourcePath (some moment.order)
  match shared.archiveCache.getOrCreate sourcePath format built with
  | (.error message, archiveCache) =>
      (.error (creationError message), shared.keep archiveCache sourcePath format cells)
  | (.ok archive, archiveCache) =>
      let (answer, world) :=
        downloadRandomAccessArchive (site.during moment) archive query.request { cells, now := moment.now }
      (answer, shared.keep archiveCache sourcePath format world.cells)

/-- `download_random_access_archive` -/
def download (site : Site) (moment : Moment) (query : Query) (shared : Shared) :
    Except ArchiveApiError Response × Shared :=
  if query.path = "" then (.error (.badRequest "路径不能为空"), shared)
  else
    match requestedFormat query.format with
    | .error reason => (.error reason, shared)
    | .ok format =>
        match resolveAndValidatePath moment.fs site.root query.path with
        | .error reason => (.error reason, shared)
        | .ok sourcePath => site.deliver moment query sourcePath format shared

structure State where
  tree : Tree
  /-- What the system has reported and the watcher has not received yet. -/
  queue : List Watcher.Report
  watcher : Watcher.State
  cells : List Component → ArchiveFormat → Zip.CrcCells

def State.start (tree : Tree) (maxCapacity : Nat) : State where
  tree
  queue := []
  watcher := .start (.new maxCapacity)
  cells := fun _ _ _ => none

def State.shared (state : State) : Shared where
  archiveCache := state.watcher.archiveCache
  cells := state.cells

def State.share (state : State) (shared : Shared) : State :=
  { state with watcher := { state.watcher with archiveCache := shared.archiveCache }, cells := shared.cells }

/-- The paths that are reported to have changed and have not been invalidated since. -/
def State.outstanding (state : State) : List Path :=
  state.watcher.pending ++ state.queue.flatMap Watcher.Report.changed

inductive Event where
  | mutate (mutation : Mutation) (sent : List Watcher.Report)
  /-- A report of something else. -/
  | notify (report : Watcher.Report)
  | watch (drained : List Path) (outcome : Watcher.Outcome)
  | evict (path : Path) (format : ArchiveFormat)
  | download (moment : Moment) (query : Query)

/-- The tree is below the data root, and what the request finds there is enumerated in
some order. -/
structure Moment.Shows (site : Site) (tree : Tree) (query : Query) (moment : Moment) : Prop where
  around : Around site.dataRoot tree.top moment.fs
  enumerated : ∀ location node, opens moment.fs (Path.join site.root (utf8 query.path)) = some location →
    moment.fs.lookup location = some node → site.Enumerates node moment.order

/-- What can happen to the server, one thing at a time. A call of `get_or_create` or
`invalidate` is over before anything else happens: calls that overlap are not here. -/
inductive Step (site : Site) : State → Event → State → Prop
  | mutate {state : State} {mutation : Mutation} {sent : List Watcher.Report} {tree : Tree}
      (applied : state.tree.apply mutation = some tree)
      (told : ∀ changed ∈ mutation.reports, ∃ report ∈ sent, Coherence.pathAt site.dataRoot changed ∈ report.changed) :
      Step site state (.mutate mutation sent) { state with tree, queue := state.queue ++ sent }
  | notify (state : State) (report : Watcher.Report) :
      Step site state (.notify report) { state with queue := state.queue ++ [report] }
  | receive {state : State} {report : Watcher.Report} {queue : List Watcher.Report} {drained : List Path}
      {watcher : Watcher.State} (queued : state.queue = report :: queue) (drains : drained.Perm state.watcher.pending)
      (ran : Watcher.runWorker state.watcher drained (.received report) = some watcher) :
      Step site state (.watch drained (.received report)) { state with queue, watcher }
  | watch {state : State} {drained : List Path} {outcome : Watcher.Outcome} {watcher : Watcher.State}
      (nothing : ∀ report, outcome ≠ .received report) (drains : drained.Perm state.watcher.pending)
      (ran : Watcher.runWorker state.watcher drained outcome = some watcher) :
      Step site state (.watch drained outcome) { state with watcher }
  | evict (state : State) (path : Path) (format : ArchiveFormat) :
      Step site state (.evict path format)
        (state.share { state.shared with archiveCache := state.shared.archiveCache.remove path format })
  | download {state : State} {moment : Moment} {query : Query} (shows_ : moment.Shows site state.tree query) :
      Step site state (.download moment query) (state.share (site.download moment query state.shared).2)

/-- While it is answered, a request reads files that stay as they are, and what its path
leads to is not too large for a zip. -/
structure Moment.Steady (site : Site) (query : Query) (moment : Moment) : Prop where
  unchanged : ∃ paths, moment.os.Unchanged paths ∧ Mirrors moment.fs paths
  fuel : (site.during moment).bufferSize < moment.fuel
  fits : ∀ location node scanned, opens moment.fs (Path.join site.root (utf8 query.path)) = some location →
    moment.fs.lookup location = some node → scanSource (pathOf [separator] location) (some node) = .ok scanned →
    Zip.weight scanned < u64Size ∧ ∀ item ∈ scanned, item.size < moment.fuel

/-- When a directory moves, nothing from below it is in the cache unless a report that
affects it is outstanding; and requests read files that stay as they are. -/
def Event.Careful (site : Site) (state : State) : Event → Prop
  | .mutate mutation _ =>
      ∀ old ∈ mutation.moves, ∀ location, old <+: location → location ≠ old → (∀ name ∈ location, LegalName name) →
        ∀ format, (state.shared.archiveCache.lookup (Coherence.pathAt site.dataRoot location) format).isSome →
          ∃ path ∈ state.outstanding, Path.affects path (Coherence.pathAt site.dataRoot location) = true
  | .download moment query => moment.Steady site query
  | _ => True

/-! What is in the cache is good, or a report that concerns it is outstanding. -/

abbrev Key := List Component × ArchiveFormat

abbrev Held := ArchiveCache.Loaded × Zip.CrcCells

def Shared.store (shared : Shared) (key : Key) : Option Held :=
  (shared.archiveCache.cache key.1 key.2).map fun loaded => (loaded, shared.cells key.1 key.2)

/-- What would be built of the location now, in some order, with checksums of the files
that are there now. -/
def GoodAt (site : Site) (tree : Tree) (location : Location) (format : ArchiveFormat) (held : Held) : Prop :=
  ∃ node order, tree.lookup location = some node ∧ site.Enumerates node order ∧
    (Archive.create site.crate format (Coherence.pathAt site.dataRoot location) (some order)).mapError
      ArchiveError.toString = held.1 ∧
    ∀ archive, held.1 = .ok (.zip archive) → ∀ fs paths, Around site.dataRoot tree.top fs → Mirrors fs paths →
      Zip.CellsHold site.env.feature paths archive held.2

def Good (site : Site) (tree : Tree) (key : Key) (held : Held) : Prop :=
  ∃ location, (∀ name ∈ location, LegalName name) ∧ key.1 = componentsOf (site.dataRoot ++ location) ∧
    GoodAt site tree location key.2 held

def Concerns (path : Path) (key : Key) : Prop :=
  ∃ known, Path.components known = key.1 ∧ Path.affects path known = true

structure Sound (site : Site) (state : State) : Prop where
  covered : state.watcher.archiveCache.Covered
  orderly : Watcher.Orderly state.watcher
  upheld : Upheld (Good site) Concerns state.tree state.shared.store state.outstanding

end Site

end Raas
