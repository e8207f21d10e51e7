import Raas.Server.Site

namespace Raas

open Data Server

/-- `get_with` leaves everything else as it was. -/
theorem ArchiveCache.cache_getWith (self : ArchiveCache α) (path : Path) (format : ArchiveFormat) (loaded : α)
    (key : List Component) (other : ArchiveFormat) :
    (self.getWith path format loaded).2.cache key other =
      if key = Path.components path ∧ other = format then some (self.getWith path format loaded).1
      else self.cache key other := by
  rcases getWith_cases self path format loaded with ⟨value, held, answered⟩ | ⟨_, answered⟩
  · rw [answered]
    split
    · rename_i own
      rw [own.1, own.2]
      exact held
    · rfl
  · rw [answered]
    rfl

/-- The buffer that is used is no smaller than the one that is configured. -/
def Server.Environment.widened (env : Environment) : Environment := { env with streamReadBufferSize := env.bufferSize }

theorem Server.widened_fuel {env : Environment} (enough : env.bufferSize < env.fuel) :
    max env.widened.streamReadBufferSize minStreamReadBufferSize < env.widened.fuel := by
  unfold Environment.widened Environment.bufferSize at *
  dsimp only
  rwa [Nat.max_assoc, Nat.max_self]

namespace Site

/-! One answer. -/

section Answers

variable {site : Site} {moment : Moment} {query : Query} {shared : Shared} {path : Path} {format : ArchiveFormat}
  {loaded : ArchiveCache.Loaded} {cells others : Zip.CrcCells} {location : Location} {node order : Node}
  {archive : Zip.ZipArchive} {crate : Tar.HeaderCrate} {paths : Path → Option Bytes}

/-- The answer with what the cache has, and the checksums afterwards. -/
def serve (site : Site) (moment : Moment) (query : Query) (held : Held) : Except ArchiveApiError Response × Zip.CrcCells :=
  match held.1 with
  | .error message => (.error (creationError ("创建随机访问存档失败: " ++ message)), held.2)
  | .ok archive =>
      let (answer, world) :=
        downloadRandomAccessArchive (site.during moment) archive query.request { cells := held.2, now := moment.now }
      (answer, world.cells)

/-- What the cache has for a path, or what is built for it. -/
def Shared.find (shared : Shared) (path : Path) (format : ArchiveFormat) (built : ArchiveCache.Loaded) : Held :=
  (shared.store (Path.components path, format)).getD (built, fun _ => none)

/-- What a path is found to be is built now. -/
def built (site : Site) (moment : Moment) (path : Path) (format : ArchiveFormat) : ArchiveCache.Loaded :=
  (Archive.create site.crate format path (some moment.order)).mapError ArchiveError.toString

theorem deliver_eq (site : Site) (moment : Moment) (query : Query) (path : Path) (format : ArchiveFormat) (shared : Shared) :
    site.deliver moment query path format shared =
      ((site.serve moment query (shared.find path format (site.built moment path format))).1,
        shared.keep ((shared.archiveCache.getWith path format (site.built moment path format)).2.registerKey path) path
          format (site.serve moment query (shared.find path format (site.built moment path format))).2) := by
  unfold deliver ArchiveCache.getOrCreate ArchiveCache.getWith Shared.find Shared.store Shared.cellsOf serve
  dsimp only
  rw [← ArchiveCache.lookup]
  cases shared.archiveCache.lookup path format with
  | none =>
      dsimp only [Option.map_none, Option.getD_none]
      rw [built]
      cases Archive.create site.crate format path (some moment.order) with
      | error reason => rfl
      | ok archive => rfl
  | some loaded =>
      cases loaded with
      | error message => rfl
      | ok archive => rfl

theorem getWith_find (built : ArchiveCache.Loaded) :
    (shared.archiveCache.getWith path format built).1 = (shared.find path format built).1 := by
  unfold ArchiveCache.getWith Shared.find Shared.store
  rw [← ArchiveCache.lookup]
  cases shared.archiveCache.lookup path format <;> rfl

theorem deliver_store (key : Key) :
    (site.deliver moment query path format shared).2.store key =
      if key = (Path.components path, format) then
        some ((shared.find path format (site.built moment path format)).1,
          (site.serve moment query (shared.find path format (site.built moment path format))).2)
      else shared.store key := by
  obtain ⟨name, other⟩ := key
  rw [deliver_eq, ← getWith_find]
  simp only [Shared.store, Shared.keep, ArchiveCache.registerKey, ArchiveCache.cache_getWith, Prod.mk.injEq]
  split
  · rfl
  · rfl

theorem created_from {archive : Archive} (created : Archive.create crate format path (some order) = .ok archive) :
    ∃ scanned, Archive.createFrom crate format path scanned = .ok archive := by
  rw [Archive.create] at created
  cases answered : scanSource path (some order) with
  | error reason => simp [answered] at created
  | ok scanned =>
      rw [answered] at created
      exact ⟨scanned, created⟩

theorem create_zip (created : Archive.create crate format path (some order) = .ok (.zip archive)) :
    format = .zip ∧ ∃ scanned, Archive.createFrom crate .zip path scanned = .ok (.zip archive) := by
  obtain ⟨scanned, made⟩ := created_from created
  cases format with
  | zip => exact ⟨rfl, scanned, made⟩
  | tar =>
      obtain ⟨tar, _, same⟩ := Archive.createFrom_tar made
      cases same

theorem download_widened (env : Environment) (archive : Archive) (request : Request) (world : Zip.World) :
    downloadRandomAccessArchive env.widened archive request world =
      downloadRandomAccessArchive env archive request world := by
  have body : ∀ start stop patience, createStreamBody env.widened archive world start stop patience =
      createStreamBody env archive world start stop patience := by
    intro start stop patience
    unfold createStreamBody Environment.widened Environment.bufferSize
    dsimp only
    rw [Nat.max_assoc, Nat.max_self]
  unfold downloadRandomAccessArchive
  simp only [body]
  rfl

theorem createFrom_zip {scanned : List ScannedEntry}
    (made : Archive.createFrom crate .zip path scanned = .ok (.zip archive)) :
    archive = Zip.ZipArchive.createFrom scanned := by
  cases made
  rfl

/-- What fits in one order of enumeration fits in every one. -/
theorem created_fits (steady : moment.Steady site query)
    (opened : opens moment.fs (Path.join site.root (utf8 query.path)) = some location)
    (there : moment.fs.lookup location = some node) (enumerated : node.Reordered order)
    (created : Archive.create site.crate .zip (pathOf [separator] location) (some order) = .ok (.zip archive)) :
    archive.extent < u64Size ∧ ∀ entry ∈ archive.entries, entry.size < moment.fuel := by
  rw [Archive.create] at created
  cases answered : scanSource (pathOf [separator] location) (some order) with
  | error reason => simp [answered] at created
  | ok scanned =>
      rw [answered] at created
      obtain rfl := createFrom_zip created
      obtain ⟨again, rescanned, perm⟩ := Coherence.scanSource_reordered enumerated (.refl node) answered
      obtain ⟨light, small⟩ := steady.fits location node again opened there rescanned
      refine ⟨Nat.lt_of_le_of_lt (Zip.extent_le_weight scanned) (Zip.weight_perm perm ▸ light), ?_⟩
      intro entry member
      have records := planned_recorded (Zip.ZipArchive.createFrom_planned scanned)
      have recordedHere : entry.record ∈ scanned.map (recorded .zip) := records ▸ List.mem_map_of_mem member
      obtain ⟨item, inside, same⟩ := List.mem_map.mp recordedHere
      have size : item.size = entry.size := congrArg Record.size same
      exact size ▸ small item (perm.mem_iff.mp inside)

/-- A zip archive that is good now can be read as it is meant. -/
theorem zip_sound (wide : site.env.pointerBits = 64) (legal : moment.fs.Legal) (steady : moment.Steady site query)
    (unchanged : moment.os.Unchanged paths) (mirrors : Mirrors moment.fs paths)
    (opened : opens moment.fs (Path.join site.root (utf8 query.path)) = some location)
    (there : moment.fs.lookup location = some node) (enumerated : node.Reordered order)
    (created : Archive.create site.crate .zip (pathOf [separator] location) (some order) = .ok (.zip archive)) :
    archive.extent < u64Size ∧ Server.Sound (site.during moment).widened paths (.zip archive) := by
  obtain ⟨fits, small⟩ := created_fits steady opened there enumerated created
  refine ⟨fits, ?_⟩
  exact {
    pointers := wide
    buffer := Nat.lt_of_lt_of_le (show 0 < minStreamReadBufferSize by decide) (Nat.le_max_right _ _)
    fuel := widened_fuel steady.fuel
    hashable := small
    unchanged
    keeps := Zip.sourced_keepsSizes mirrors there (Zip.created_sourced (legal.lookup there).1 enumerated created) }

theorem serve_holds (wide : site.env.pointerBits = 64) (legal : moment.fs.Legal) (steady : moment.Steady site query)
    (unchanged : moment.os.Unchanged paths) (mirrors : Mirrors moment.fs paths)
    (opened : opens moment.fs (Path.join site.root (utf8 query.path)) = some location)
    (there : moment.fs.lookup location = some node) (enumerated : node.Reordered order)
    (created : Archive.create site.crate .zip (pathOf [separator] location) (some order) = .ok (.zip archive))
    (hold : Zip.CellsHold site.env.feature paths archive cells) :
    Zip.CellsHold site.env.feature paths archive
      (site.serve moment query (.ok (.zip archive), cells)).2 := by
  obtain ⟨fits, sound⟩ := zip_sound wide legal steady unchanged mirrors opened there enumerated created
  obtain ⟨_, scanned, made⟩ := create_zip created
  have here : (Archive.zip archive).Holds site.env.feature paths { cells, now := moment.now } := hold
  have after := (download_honest made fits sound here query.request).1
  rw [download_widened] at after
  exact after

end Answers

/-! What one step does to the cache. -/

section Steps

variable {site : Site} {state after : State} {moment : Moment} {query : Query} {path : Path} {format : ArchiveFormat}
  {location : Location} {tree later : Tree} {held : Held} {key : Key}

theorem mapError_ok {ε δ α : Type} {rewrite : ε → δ} {result : Except ε α} {value : α}
    (mapped : result.mapError rewrite = .ok value) : result = .ok value := by
  cases result with
  | error reason => cases mapped
  | ok other => exact congrArg _ (Except.ok.inj mapped)

theorem around_below {inside fs : Node} {dataRoot : Location} (around : Around dataRoot inside fs) {node : Node}
    (reached : inside.lookup location = some node) : fs.lookup (dataRoot ++ location) = some node := by
  rw [Node.lookup_append, around.lookup]
  exact reached

/-- What is good stays good while nothing changes where it was built. -/
theorem GoodAt.kept (good : GoodAt site tree location format held)
    (stays : ∀ node, tree.lookup location = some node → later.lookup location = some node) :
    GoodAt site later location format held := by
  obtain ⟨node, order, found, enumerated, created, cells⟩ := good
  refine ⟨node, order, stays node found, enumerated, created, ?_⟩
  intro archive zip fs paths around mirrors
  have before := bare_around site.rootLegal tree.legal
  rw [zip] at created
  obtain ⟨rfl, _⟩ := create_zip (mapError_ok created)
  have sourced := Zip.created_sourced (tree.legal.lookup found).1 (site.reorders _ _ enumerated) (mapError_ok created)
  have mirrored := Zip.readFile_mirrors before.legal
  exact (cells archive zip _ _ before mirrored).around mirrored (around_below before found) mirrors
    (around_below around (stays node found)) sourced

theorem GoodAt.serve (wide : site.env.pointerBits = 64) (around : Around site.dataRoot tree.top moment.fs)
    (steady : moment.Steady site query)
    (opened : opens moment.fs (Path.join site.root (utf8 query.path)) = some (site.dataRoot ++ location))
    (good : GoodAt site tree location format held) :
    GoodAt site tree location format (held.1, (site.serve moment query held).2) := by
  obtain ⟨node, order, found, enumerated, created, cells⟩ := good
  refine ⟨node, order, found, enumerated, created, ?_⟩
  intro archive zip fs others aroundFs mirrorsOther
  obtain ⟨paths, unchanged, mirrors⟩ := steady.unchanged
  obtain ⟨loaded, kept⟩ := held
  dsimp only at zip created cells ⊢
  subst zip
  obtain ⟨rfl, _⟩ := create_zip (mapError_ok created)
  have sourced := Zip.created_sourced (tree.legal.lookup found).1 (site.reorders _ _ enumerated) (mapError_ok created)
  have hold := serve_holds wide around.legal steady unchanged mirrors opened (around_below around found)
    (site.reorders _ _ enumerated) (mapError_ok created) (cells archive rfl moment.fs paths around mirrors)
  exact hold.around mirrors (around_below around found) mirrorsOther (around_below aroundFs found) sourced

theorem concerns_of_same {left right : Path} (same : Path.components left = Path.components right)
    (concerns : Concerns left key) : Concerns right key := by
  obtain ⟨known, named, affected⟩ := concerns
  exact ⟨known, named, by rw [← Watcher.affects_changed same]; exact affected⟩

theorem Sound.start (site : Site) (tree : Tree) (maxCapacity : Nat) : Sound site (.start tree maxCapacity) where
  covered := .new maxCapacity
  orderly := .start _
  upheld := fun key held stored => by cases stored

theorem Sound.mutate (sound : Sound site state) {mutation : Mutation} {sent : List Watcher.Report}
    (careful : (Event.mutate mutation sent).Careful site state) (applied : state.tree.apply mutation = some later)
    (told : ∀ changed ∈ mutation.reports, ∃ report ∈ sent, Coherence.pathAt site.dataRoot changed ∈ report.changed) :
    Sound site { state with tree := later, queue := state.queue ++ sent } where
  covered := sound.covered
  orderly := sound.orderly
  upheld := by
    have more : ({ state with tree := later, queue := state.queue ++ sent } : State).outstanding =
        state.outstanding ++ sent.flatMap Watcher.Report.changed := by
      simp only [State.outstanding, List.flatMap_append, List.append_assoc]
    rw [more]
    apply sound.upheld.change
    intro key held stored good
    obtain ⟨location, legal, named, good⟩ := good
    have here : Path.components (Coherence.pathAt site.dataRoot location) = key.1 := by
      rw [named, Coherence.components_pathAt site.rootLegal legal]
    by_cases reported : ∃ changed ∈ mutation.reports, location <+: changed
    · obtain ⟨changed, member, above⟩ := reported
      obtain ⟨report, announced, inside⟩ := told changed member
      have legalChanged := (Mutation.apply_legal state.tree.legal (Tree.apply_some applied)).2 changed member
      refine .inr ⟨_, List.mem_append_right _ (List.mem_flatMap.mpr ⟨report, announced, inside⟩), _, here, ?_⟩
      exact (Path.affects_iff (Coherence.components_pathAt site.rootLegal legalChanged)
        (Coherence.components_pathAt site.rootLegal legal)).mpr ((List.prefix_append_right_inj _).mpr above)
    · have unreported : ∀ changed ∈ mutation.reports, ¬ location <+: changed :=
        fun changed member above => reported ⟨changed, member, above⟩
      by_cases moved : ∃ old ∈ mutation.moves, old <+: location
      · obtain ⟨old, moves, inside⟩ := moved
        have different : location ≠ old := by
          intro same
          subst same
          exact unreported location (Mutation.moves_reported moves) (List.prefix_refl _)
        have present : (state.shared.archiveCache.lookup (Coherence.pathAt site.dataRoot location) key.2).isSome := by
          rw [ArchiveCache.lookup, here]
          obtain ⟨loaded, cached, _⟩ := Option.map_eq_some_iff.mp stored
          rw [cached]
          rfl
        obtain ⟨path, member, affected⟩ := careful old moves location inside different legal key.2 present
        exact .inr ⟨path, List.mem_append_left _ member, _, here, affected⟩
      · refine .inl ⟨location, legal, named, good.kept fun node found => ?_⟩
        exact Mutation.apply_keeps state.tree.legal (Tree.apply_some applied) found unreported
          fun old moves inside => moved ⟨old, moves, inside⟩

theorem Sound.notify (sound : Sound site state) (report : Watcher.Report) :
    Sound site { state with queue := state.queue ++ [report] } where
  covered := sound.covered
  orderly := sound.orderly
  upheld := by
    have more : ({ state with queue := state.queue ++ [report] } : State).outstanding =
        state.outstanding ++ report.changed := by
      simp [State.outstanding, List.flatMap_append]
    rw [more]
    exact sound.upheld.change report.changed fun key held _ good => .inl good

theorem runWorker_receives {watcher collected : Watcher.State} {drained : List Path} {report : Watcher.Report}
    (ran : Watcher.runWorker watcher drained (.received report) = some collected) :
    collected.archiveCache = watcher.archiveCache ∧ collected.pending = Watcher.collectEvent watcher.pending report := by
  cases Watcher.runWorker_worked ran with
  | collect place => exact ⟨rfl, rfl⟩
  | finish place told => rcases told with other | other <;> cases other

/-- Any other step of the watcher leaves all as it is, or flushes. -/
theorem runWorker_flushes {watcher flushed : Watcher.State} {drained : List Path} {outcome : Watcher.Outcome}
    (nothing : ∀ report, outcome ≠ .received report)
    (ran : Watcher.runWorker watcher drained outcome = some flushed) :
    flushed.archiveCache = watcher.archiveCache ∧ flushed.pending = watcher.pending ∨
      ∃ place, flushed = watcher.flush drained place := by
  cases Watcher.runWorker_worked ran with
  | collect place => exact absurd rfl (nothing _)
  | poll place => exact .inl ⟨rfl, rfl⟩
  | goOn place => exact .inl ⟨rfl, rfl⟩
  | merge place => exact .inl ⟨rfl, rfl⟩
  | late place => exact .inr ⟨_, rfl⟩
  | quiet place => exact .inr ⟨_, rfl⟩
  | cut place => exact .inr ⟨_, rfl⟩
  | finish place told => exact .inr ⟨_, rfl⟩

theorem Sound.receive (sound : Sound site state) {report : Watcher.Report} {queue : List Watcher.Report}
    {drained : List Path} {watcher : Watcher.State} (queued : state.queue = report :: queue)
    (drains : drained.Perm state.watcher.pending)
    (ran : Watcher.runWorker state.watcher drained (.received report) = some watcher) :
    Sound site { state with queue, watcher } := by
  obtain ⟨cache, pending⟩ := runWorker_receives ran
  refine ⟨cache ▸ sound.covered, sound.orderly.runWorker drains ran, ?_⟩
  have same : ({ state with queue, watcher } : State).shared = state.shared := by
    rw [State.shared, State.shared, cache]
  rw [same]
  refine sound.upheld.settle (fun key held stored => stored) ?_
  intro key held _ notice member concerns
  have kept : (∃ known ∈ watcher.pending, Path.components known = Path.components notice) ∨
      notice ∈ queue.flatMap Watcher.Report.changed := by
    rw [pending, Watcher.collectEvent_eq, Watcher.insertKeys_found]
    rw [State.outstanding, queued, List.flatMap_cons, List.mem_append, List.mem_append] at member
    rcases member with before | now | later
    · exact .inl (.inl ⟨notice, before, rfl⟩)
    · exact .inl (.inr ⟨notice, now, rfl⟩)
    · exact .inr later
  rcases kept with ⟨known, member, equal⟩ | later
  · exact ⟨known, List.mem_append_left _ member, concerns_of_same equal.symm concerns⟩
  · exact ⟨notice, List.mem_append_right _ later, concerns⟩

theorem Sound.flush (sound : Sound site state) {drained : List Path} (drains : drained.Perm state.watcher.pending)
    (place : Watcher.Place) : Sound site { state with watcher := state.watcher.flush drained place } := by
  refine ⟨Watcher.flush_covered sound.covered drained place, sound.orderly.flush drains place, ?_⟩
  unfold Watcher.State.flush
  split
  · exact sound.upheld
  · have covered := Watcher.covered_drained sound.covered drained
    apply sound.upheld.settle
    · intro key held stored
      obtain ⟨loaded, cached, same⟩ := Option.map_eq_some_iff.mp stored
      obtain ⟨known, _, named⟩ := covered _ _ _ cached
      dsimp only [State.shared] at cached
      rw [← named, ← ArchiveCache.lookup, Watcher.lookup_drained sound.covered] at cached
      split at cached
      · cases cached
      · rw [ArchiveCache.lookup, named] at cached
        exact Option.map_eq_some_iff.mpr ⟨loaded, cached, same⟩
    · intro key held stored notice member concerns
      obtain ⟨loaded, cached, _⟩ := Option.map_eq_some_iff.mp stored
      obtain ⟨known, named, affected⟩ := concerns
      rcases List.mem_append.mp member with pending | queued
      · -- what is drained would have dropped it
        dsimp only [State.shared] at cached
        rw [← named, ← ArchiveCache.lookup, Watcher.lookup_drained sound.covered, if_pos] at cached
        · cases cached
        · exact List.any_eq_true.mpr ⟨notice, drains.mem_iff.mpr pending, affected⟩
      · exact ⟨notice, queued, known, named, affected⟩

theorem Sound.evict (sound : Sound site state) (path : Path) (format : ArchiveFormat) :
    Sound site (state.share { state.shared with archiveCache := state.shared.archiveCache.remove path format }) where
  covered := sound.covered.remove path format
  orderly := ⟨sound.orderly.answered, sound.orderly.covers, sound.orderly.carried, sound.orderly.justified, sound.orderly.settled⟩
  upheld := by
    refine sound.upheld.settle (fun key held stored => ?_) fun key held _ notice member concerns => ⟨notice, member, concerns⟩
    obtain ⟨loaded, cached, same⟩ := Option.map_eq_some_iff.mp stored
    exact Option.map_eq_some_iff.mpr ⟨loaded, (ArchiveCache.cache_remove cached).1, same⟩

/-- A request is refused, or asks for an archive of a path, whatever is in the cache. -/
theorem download_asks (site : Site) (moment : Moment) (query : Query) :
    (∃ reason, ∀ order shared, site.download { moment with order } query shared = (.error reason, shared)) ∨
      ∃ path format, requestedFormat query.format = .ok format ∧
        resolveAndValidatePath moment.fs site.root query.path = .ok path ∧ ∀ order shared,
          site.download { moment with order } query shared = site.deliver { moment with order } query path format shared := by
  unfold download
  by_cases empty : query.path = ""
  · exact .inl ⟨_, fun order shared => if_pos empty⟩
  · simp only [if_neg empty]
    cases requestedFormat query.format with
    | error reason => exact .inl ⟨reason, fun order shared => rfl⟩
    | ok format =>
        cases resolveAndValidatePath moment.fs site.root query.path with
        | error reason => exact .inl ⟨reason, fun order shared => rfl⟩
        | ok path => exact .inr ⟨path, format, rfl, rfl, fun order shared => rfl⟩

theorem Sound.download (wide : site.env.pointerBits = 64) (sound : Sound site state)
    (shown : moment.Shows site state.tree query) (steady : moment.Steady site query) :
    Sound site (state.share (site.download moment query state.shared).2) := by
  rcases download_asks site moment query with ⟨reason, refused⟩ | ⟨path, format, _, resolved, delivers⟩
  · have answered : site.download moment query state.shared = (.error reason, state.shared) :=
      refused moment.order state.shared
    rw [answered]
    exact sound
  · have answered : site.download moment query state.shared = site.deliver moment query path format state.shared :=
      delivers moment.order state.shared
    rw [answered]
    obtain ⟨below, node, opened, located, found, _⟩ := resolve_inside shown.around resolved
    have legal := (state.tree.legal.lookup found).2
    have here : Path.components path = componentsOf (site.dataRoot ++ below) := by
      rw [located]
      exact Coherence.components_pathAt site.rootLegal legal
    refine ⟨?_, ⟨sound.orderly.answered, sound.orderly.covers, sound.orderly.carried, sound.orderly.justified,
      sound.orderly.settled⟩, ?_⟩
    · rw [deliver_eq]
      exact sound.covered.getWith path format _
    · have others : ∀ other, other ≠ (Path.components path, format) →
          (site.deliver moment query path format state.shared).2.store other = state.shared.store other :=
        fun other different => (deliver_store other).trans (if_neg different)
      apply sound.upheld.put others
      intro held stored
      have value := (deliver_store (Path.components path, format)).symm.trans stored
      rw [if_pos rfl, Option.some.injEq] at value
      subst value
      unfold Shared.find
      cases cached : state.shared.store (Path.components path, format) with
      | some held =>
          rcases sound.upheld _ held cached with good | concerned
          · obtain ⟨location, legalLocation, named, good⟩ := good
            obtain rfl : location = below := List.append_cancel_left (componentsOf_injective (named.symm.trans here))
            exact .inl ⟨location, legalLocation, named, good.serve wide shown.around steady opened⟩
          · exact .inr concerned
      | none =>
          have enumerated := shown.enumerated _ node opened (around_below shown.around found)
          have good : GoodAt site state.tree below format (site.built moment path format, fun _ => none) := by
            refine ⟨node, moment.order, found, enumerated, ?_, fun archive _ fs paths _ _ => Zip.cellsHold_fresh⟩
            rw [built, located]
            rfl
          exact .inl ⟨below, legal, here, good.serve wide shown.around steady opened⟩

theorem Sound.step (wide : site.env.pointerBits = 64) (sound : Sound site state) {event : Event}
    (careful : event.Careful site state) (taken : Step site state event after) : Sound site after := by
  cases taken with
  | mutate applied told => exact sound.mutate careful applied told
  | notify report => exact sound.notify report
  | receive queued drains ran => exact sound.receive queued drains ran
  | @watch drained outcome watcher nothing drains ran =>
      rcases runWorker_flushes nothing ran with ⟨cache, pending⟩ | ⟨place, rfl⟩
      · have orderly := sound.orderly.runWorker drains ran
        refine ⟨cache ▸ sound.covered, orderly, ?_⟩
        have shared : ({ state with watcher } : State).shared = state.shared := by
          rw [State.shared, State.shared, cache]
        have outstanding : ({ state with watcher } : State).outstanding = state.outstanding := by
          rw [State.outstanding, State.outstanding, pending]
        rw [shared, outstanding]
        exact sound.upheld
      · exact sound.flush drains place
  | evict path format => exact sound.evict path format
  | download shown => exact sound.download wide shown careful

/-- All reports have been dealt with, or at least none that is outstanding affects a path. -/
def State.Settled (state : State) (source : Path) : Prop :=
  state.queue = [] ∧ state.watcher.place = .waiting ∨ ∀ path ∈ state.outstanding, Path.affects path source = false

theorem State.Settled.unconcerned (orderly : Watcher.Orderly state.watcher) (settled : state.Settled path) :
    ∀ notice ∈ state.outstanding, ¬ Concerns notice (Path.components path, format) := by
  intro notice member concerns
  rcases settled with ⟨empty, waits⟩ | unaffected
  · rw [State.outstanding, empty, orderly.nothing_pending (orderly.settled (.inl waits))] at member
    cases member
  · obtain ⟨known, named, affected⟩ := concerns
    have normalized : Path.normalizeForMatch known = Path.normalizeForMatch path := by
      rw [Path.normalizeForMatch, Path.normalizeForMatch, named]
    have spared := unaffected notice member
    rw [Path.affects, ← normalized, ← Path.affects, affected] at spared
    cases spared

end Steps

def Run (site : Site) (tree : Tree) (maxCapacity : Nat) (state : State) : Prop :=
  Reaches (Step site) (fun state event => event.Careful site state) (.start tree maxCapacity) state

theorem Run.sound {site : Site} (wide : site.env.pointerBits = 64) {tree : Tree} {maxCapacity : Nat} {state : State}
    (reached : Run site tree maxCapacity state) : Sound site state := by
  apply Reaches.invariant reached (.start site tree maxCapacity)
  intro before event after sound careful taken
  exact sound.step wide careful taken

section Served

variable {site : Site} {tree : Tree} {state : State} {moment : Moment} {query : Query} {below : Location}

/-- What a request is answered with: what the location is built to now, in some order. -/
structure Served (site : Site) (state : State) (moment : Moment) (query : Query) (path : Path) (format : ArchiveFormat)
    (node order : Node) (cells : Zip.CrcCells) : Prop where
  enumerated : site.Enumerates node order
  answer : (site.download moment query state.shared).1 =
    (site.serve moment query (site.built { moment with order } path format, cells)).1
  holds : ∀ archive, site.built { moment with order } path format = .ok (.zip archive) → ∀ fs paths,
    Around site.dataRoot state.tree.top fs → Mirrors fs paths →
    Zip.CellsHold site.env.feature paths archive cells

theorem Sound.served (sound : Sound site state) (shown : moment.Shows site state.tree query) {path : Path}
    {format : ArchiveFormat} {node : Node}
    (opened : opens moment.fs (Path.join site.root (utf8 query.path)) = some (site.dataRoot ++ below))
    (located : path = pathOf [separator] (site.dataRoot ++ below)) (found : state.tree.lookup below = some node)
    (delivers : site.download moment query state.shared = site.deliver moment query path format state.shared)
    (settled : state.Settled path) : ∃ order cells, Served site state moment query path format node order cells := by
  have legal := (state.tree.legal.lookup found).2
  rw [deliver_eq] at delivers
  unfold Shared.find at delivers
  cases stored : state.shared.store (Path.components path, format) with
  | none =>
      rw [stored] at delivers
      have enumerated := shown.enumerated _ node opened (around_below shown.around found)
      exact ⟨moment.order, _, enumerated, congrArg Prod.fst delivers, fun archive _ fs paths _ _ => Zip.cellsHold_fresh⟩
  | some held =>
      obtain ⟨location, _, named, node', order, reached, enumerated, created, cells⟩ :=
        sound.upheld.good stored (settled.unconcerned sound.orderly)
      obtain ⟨loaded, kept⟩ := held
      -- the archive in the cache is of the very location that the path leads to
      have here : Path.components path = componentsOf (site.dataRoot ++ below) := by
        rw [located]
        exact Coherence.components_pathAt site.rootLegal legal
      obtain rfl : location = below := List.append_cancel_left (componentsOf_injective (named.symm.trans here))
      obtain rfl : node = node' := Option.some.inj (found.symm.trans reached)
      have again : site.built { moment with order } path format = loaded := by
        rw [built, located]
        exact created
      rw [stored] at delivers
      refine ⟨order, kept, enumerated, ?_, ?_⟩
      · rw [again]
        exact congrArg Prod.fst delivers
      · rw [again]
        exact cells

end Served

def smallSite : Site where
  crate := Tar.blockCrate
  env := smallEnvironment
  dataRoot := [[115]]
  rootLegal := List.forall_mem_singleton.mpr (by decide)
  Enumerates := fun node order => node = order
  reorders := fun node _ same => same ▸ .refl node

def oneFile (content : Bytes) (stat : Stat) : Node := .dir smallStat (.cons [120] (.leaf (.file content stat)) .nil)

def smallTree (content : Bytes) (stat : Stat) : Tree where
  top := oneFile content stat
  legal := ⟨by decide, List.not_mem_nil, trivial⟩

def smallMoment (content : Bytes) (stat : Stat) : Moment where
  fs := .dir smallStat (.cons [115] (oneFile content stat) .nil)
  order := oneFile content stat
  os := Files.memory [([47, 115, 47, 120], content)] 2
  fuel := 100000
  now := 0

def smallQuery : Query where
  path := "."
  format := some " ZIP"
  range := none
  patience := 5

theorem find?_single {name other : Bytes} {node found : Node}
    (there : (Listing.cons name node .nil).find? other = some found) : name = other ∧ node = found := by
  rw [Listing.find?_cons] at there
  split at there
  · exact ⟨by assumption, Option.some.inj there⟩
  · cases there

theorem smallMoment_opens (content : Bytes) (stat : Stat) :
    opens (smallMoment content stat).fs (Path.join smallSite.root (utf8 smallQuery.path)) = some [[115]] := rfl

theorem smallMoment_shows (content : Bytes) (stat : Stat) :
    (smallMoment content stat).Shows smallSite (smallTree content stat) smallQuery where
  around := ⟨⟨by decide, List.not_mem_nil, ⟨by decide, List.not_mem_nil, trivial⟩, trivial⟩, rfl⟩
  enumerated := by
    intro location node opened there
    rw [smallMoment_opens, Option.some.injEq] at opened
    subst opened
    cases there
    exact .refl _

theorem smallMoment_mirrors (content : Bytes) (stat : Stat) :
    Mirrors (smallMoment content stat).fs (Files.contentOf [([47, 115, 47, 120], content)]) := by
  intro location held other top there
  cases location with
  | nil => exact absurd rfl top
  | cons first rest =>
      obtain ⟨child, found, there⟩ := Option.bind_eq_some_iff.mp ((Node.lookup_cons _ _ _ _).symm.trans there)
      obtain ⟨rfl, rfl⟩ := find?_single found
      cases rest with
      | nil => cases there
      | cons second rest =>
          obtain ⟨child, found, there⟩ := Option.bind_eq_some_iff.mp ((Node.lookup_cons _ _ _ _).symm.trans there)
          obtain ⟨rfl, rfl⟩ := find?_single found
          cases rest with
          | nil => cases there; rfl
          | cons third rest => cases there

theorem smallMoment_steady (content : Bytes) (stat : Stat) (short : content.length < 1000) :
    (smallMoment content stat).Steady smallSite smallQuery where
  unchanged := ⟨_, Files.memory_unchanged _ (by decide), smallMoment_mirrors content stat⟩
  fuel := show max 1 (64 * 1024) < 100000 by decide
  fits := by
    intro location node scanned opened there answered
    rw [smallMoment_opens, Option.some.injEq] at opened
    subst opened
    cases there
    cases answered
    have light : content.length + 2 * 1 + 124 + 0 + 98 < u64Size := by
      rw [u64Size]
      omega
    refine ⟨light, List.forall_mem_singleton.mpr ?_⟩
    exact Nat.lt_trans short (show 1000 < 100000 by decide)

def laterStat : Stat where
  mode := 0o600
  mtime := 1700000003

def written : Watcher.Report := .ok { kind := .modify, paths := [[47, 115, 47, 120]], rescan := false }

/-- The whole archive has arrived. -/
def arrived : Except ArchiveApiError Response → Bool
  | .ok response => decide (response.status = .ok ∧ response.body = .ended response.body.bytes)
  | .error _ => false

def smallPart (range : String) : Query := { smallQuery with range := some (ascii range) }

/-- A part of the archive has arrived. -/
def partArrived (range : ContentRange) : Except ArchiveApiError Response → Bool
  | .ok response =>
      decide (response.status = .partialContent ∧ response.contentRange = some range ∧
        response.body = .ended response.body.bytes)
  | .error _ => false

/-- The archive at `/s` is dropped. -/
def State.dropped (state : State) : State :=
  state.share { state.shared with archiveCache := state.shared.archiveCache.remove [47, 115] .zip }

theorem small_run : ∃ state : State, Run smallSite (smallTree [1] smallStat) 8 state ∧
    state.tree = smallTree [1, 2] laterStat ∧ state.queue = [] ∧ state.watcher.place = .waiting ∧
      (state.shared.archiveCache.lookup [47, 115] .zip).isSome = true ∧
      arrived (smallSite.download (smallMoment [1, 2] laterStat) smallQuery state.shared).1 = true ∧
      arrived (smallSite.download (smallMoment [1, 2] laterStat) { smallQuery with format := none }
        state.shared).1 = true ∧
      partArrived (.interval 0 59 102)
        (smallSite.download (smallMoment [1, 2] laterStat) (smallPart "bytes=0-59") state.shared).1 = true ∧
      partArrived (.interval 40 101 102)
        (smallSite.download (smallMoment [1, 2] laterStat) (smallPart "bytes=40-") state.dropped.shared).1 = true := by
  have applied : (smallTree [1] smallStat).apply (.write [[120]] [1, 2] laterStat) =
      some (smallTree [1, 2] laterStat) := rfl
  have asked : Run smallSite (smallTree [1] smallStat) 8 _ :=
    .next .start (by exact smallMoment_steady [1] smallStat (by decide)) (.download (smallMoment_shows [1] smallStat))
  have changed : Run smallSite (smallTree [1] smallStat) 8 _ :=
    .next asked (by nofun)
      (.mutate applied (List.forall_mem_singleton.mpr ⟨written, List.mem_singleton_self _, List.mem_cons_self⟩))
  have received : Run smallSite (smallTree [1] smallStat) 8 _ :=
    .next changed (by trivial) (.receive rfl (.refl _) rfl)
  have flushed : Run smallSite (smallTree [1] smallStat) 8 _ :=
    .next received (by trivial)
      (.watch (by nofun) (.refl _) (show Watcher.runWorker _ _ (.deadline true) = some _ from rfl))
  have again : Run smallSite (smallTree [1] smallStat) 8 _ :=
    .next flushed (by exact smallMoment_steady [1, 2] laterStat (by decide))
      (.download (smallMoment_shows [1, 2] laterStat))
  exact ⟨_, again, rfl, rfl, rfl, by decide +kernel, by decide +kernel, by decide +kernel, by decide +kernel,
    by decide +kernel⟩

end Site

end Raas
