import Raas.Archive.Ordering
import Raas.Cache.ArchiveCache
import Raas.Data.Runs
import Raas.Os.Mutation

namespace Raas.Coherence

open Data

/-! Cached archives of a tree that changes and whose changes are reported. -/

structure State where
  tree : Tree
  archiveCache : ArchiveCache ArchiveCache.Loaded
  /-- What was reported and is still to be passed to `invalidate`. -/
  pending : List Location

inductive Event where
  | mutate (mutation : Mutation)
  | invalidate (changedPath : Path)
  /-- `order` is how the directories are enumerated if the path has to be scanned. -/
  | getOrCreate (location : Location) (format : ArchiveFormat) (order : Node)
  | evict (path : Path) (format : ArchiveFormat)

/-- The canonical path of what is below the data root. -/
def pathAt (dataRoot location : Location) : Path := pathOf [separator] (dataRoot ++ location)

inductive Step (crate : Tar.HeaderCrate) (dataRoot : Location) : State → Event → State → Prop
  | mutate {state : State} {mutation : Mutation} {tree : Tree} (applied : state.tree.apply mutation = some tree) :
      Step crate dataRoot state (.mutate mutation) { state with tree, pending := state.pending ++ mutation.reports }
  | invalidate (state : State) (changedPath : Path) :
      Step crate dataRoot state (.invalidate changedPath)
        { state with
          archiveCache := (state.archiveCache.invalidate changedPath).2
          pending := state.pending.filter fun location => decide (pathAt dataRoot location ≠ changedPath) }
  | getOrCreate {state : State} {location : Location} {node order : Node} (format : ArchiveFormat)
      (found : state.tree.lookup location = some node) (canonical : ∀ target, node ≠ .leaf (.symlink target))
      (enumerated : node.Reordered order) :
      Step crate dataRoot state (.getOrCreate location format order)
        { state with
          archiveCache := (state.archiveCache.getOrCreate (pathAt dataRoot location) format
            (Archive.create crate format (pathAt dataRoot location) (some order))).2 }
  | evict (state : State) (path : Path) (format : ArchiveFormat) :
      Step crate dataRoot state (.evict path format)
        { state with archiveCache := state.archiveCache.remove path format }

def State.start (tree : Tree) (maxCapacity : Nat) : State where
  tree
  archiveCache := .new maxCapacity
  pending := []

/-- Every archive in the cache has the entries that a scan of its path would find now,
in whatever order. -/
def State.Current (dataRoot : Location) (state : State) : Prop :=
  ∀ path format archive, state.archiveCache.lookup path format = some (.ok archive) →
    ∃ location node, Path.components path = Path.components (pathAt dataRoot location) ∧
      state.tree.lookup location = some node ∧
      ∀ order, node.Reordered order → ∃ scanned, scanSource (pathAt dataRoot location) (some order) = .ok scanned ∧
        archive.records.Perm (scanned.map (recorded format))

/-- When a directory moves, no archive from below it is in the cache, unless a pending
invalidation drops it. -/
def Event.Careful (dataRoot : Location) (state : State) : Event → Prop
  | .mutate mutation =>
      ∀ old ∈ mutation.moves, ∀ location, old <+: location → location ≠ old → (∀ name ∈ location, LegalName name) →
        ∀ format archive, state.archiveCache.lookup (pathAt dataRoot location) format = some (.ok archive) →
          ∃ changed ∈ state.pending, location <+: changed
  | _ => True

section Invariant

variable {crate : Tar.HeaderCrate} {dataRoot location changed : Location} {state after : State} {event : Event}
  {format : ArchiveFormat} {archive : Archive}

def Fresh (crate : Tar.HeaderCrate) (dataRoot : Location) (tree : Tree) (location : Location)
    (format : ArchiveFormat) (archive : Archive) : Prop :=
  ∃ node order, tree.lookup location = some node ∧ node.Reordered order ∧
    Archive.create crate format (pathAt dataRoot location) (some order) = .ok archive

/-- An archive of a location is fresh, or its invalidation is still to come. -/
structure Coherent (crate : Tar.HeaderCrate) (dataRoot : Location) (state : State) : Prop where
  covered : state.archiveCache.Covered
  legal : ∀ changed ∈ state.pending, ∀ name ∈ changed, LegalName name
  fresh : ∀ key format archive, state.archiveCache.cache key format = some (.ok archive) →
    ∃ location, (∀ name ∈ location, LegalName name) ∧ key = componentsOf (dataRoot ++ location) ∧
      (Fresh crate dataRoot state.tree location format archive ∨ ∃ changed ∈ state.pending, location <+: changed)

theorem components_pathAt (rootLegal : ∀ name ∈ dataRoot, LegalName name) (legal : ∀ name ∈ location, LegalName name) :
    Path.components (pathAt dataRoot location) = componentsOf (dataRoot ++ location) :=
  components_pathOf fun name member => (List.mem_append.mp member).elim (rootLegal name) (legal name)

theorem Coherent.start (tree : Tree) (maxCapacity : Nat) :
    Coherent crate dataRoot (State.start tree maxCapacity) where
  covered := .new maxCapacity
  legal := nofun
  fresh := nofun

theorem Coherent.mutate {tree : Tree} {mutation : Mutation} (rootLegal : ∀ name ∈ dataRoot, LegalName name)
    (coherent : Coherent crate dataRoot state) (careful : (Event.mutate mutation).Careful dataRoot state)
    (applied : state.tree.apply mutation = some tree) :
    Coherent crate dataRoot { state with tree, pending := state.pending ++ mutation.reports } where
  covered := coherent.covered
  legal := by
    intro changed member
    rcases List.mem_append.mp member with earlier | reported
    · exact coherent.legal changed earlier
    · exact (Mutation.apply_legal state.tree.legal (Tree.apply_some applied)).2 changed reported
  fresh := by
    intro key format archive held
    obtain ⟨location, legal, rfl, fresh | ⟨changed, member, above⟩⟩ := coherent.fresh key format archive held
    · refine ⟨location, legal, rfl, ?_⟩
      by_cases reported : ∃ changed ∈ mutation.reports, location <+: changed
      · obtain ⟨changed, member, above⟩ := reported
        exact .inr ⟨changed, List.mem_append_right _ member, above⟩
      · have unreported : ∀ changed ∈ mutation.reports, ¬ location <+: changed :=
          fun changed member above => reported ⟨changed, member, above⟩
        by_cases moved : ∃ old ∈ mutation.moves, old <+: location
        · obtain ⟨old, moves, inside⟩ := moved
          have different : location ≠ old := by
            intro same
            subst same
            exact unreported location (Mutation.moves_reported moves) (List.prefix_refl _)
          rw [← components_pathAt rootLegal legal] at held
          obtain ⟨changed, member, above⟩ := careful old moves location inside different legal format archive held
          exact .inr ⟨changed, List.mem_append_left _ member, above⟩
        · obtain ⟨node, order, found, enumerated, created⟩ := fresh
          have stays := Mutation.apply_keeps state.tree.legal (Tree.apply_some applied) found unreported
            fun old moves inside => moved ⟨old, moves, inside⟩
          exact .inl ⟨node, order, stays, enumerated, created⟩
    · exact ⟨location, legal, rfl, .inr ⟨changed, List.mem_append_left _ member, above⟩⟩

theorem Coherent.invalidate (rootLegal : ∀ name ∈ dataRoot, LegalName name)
    (coherent : Coherent crate dataRoot state) (changedPath : Path) :
    Coherent crate dataRoot
      { state with
        archiveCache := (state.archiveCache.invalidate changedPath).2
        pending := state.pending.filter fun location => decide (pathAt dataRoot location ≠ changedPath) } where
  covered := coherent.covered.invalidate changedPath
  legal := fun changed member => coherent.legal changed (List.mem_filter.mp member).1
  fresh := by
    intro key format archive held
    obtain ⟨known, _, same, spared⟩ := coherent.covered.spared held
    obtain ⟨location, legal, rfl, fresh | ⟨changed, member, above⟩⟩ :=
      coherent.fresh key format archive (ArchiveCache.cache_invalidate held).1
    · exact ⟨location, legal, rfl, .inl fresh⟩
    · refine ⟨location, legal, rfl, .inr ⟨changed, List.mem_filter.mpr ⟨member, ?_⟩, above⟩⟩
      -- an invalidation of the reported path would not have spared the archive
      rw [decide_eq_true_iff]
      intro same
      subst same
      have affected := (Path.affects_iff (components_pathAt rootLegal (coherent.legal changed member)) same).mpr
        ((List.prefix_append_right_inj dataRoot).mpr above)
      rw [affected] at spared
      cases spared

theorem Coherent.getOrCreate (rootLegal : ∀ name ∈ dataRoot, LegalName name)
    (coherent : Coherent crate dataRoot state) {node order : Node} (format : ArchiveFormat)
    (found : state.tree.lookup location = some node) (enumerated : node.Reordered order) :
    Coherent crate dataRoot
      { state with
        archiveCache := (state.archiveCache.getOrCreate (pathAt dataRoot location) format
          (Archive.create crate format (pathAt dataRoot location) (some order))).2 } where
  covered := coherent.covered.getWith _ format _
  legal := coherent.legal
  fresh := by
    intro key other archive held
    have legal := (state.tree.legal.lookup found).2
    rcases ArchiveCache.getWith_cases state.archiveCache (pathAt dataRoot location) format
        ((Archive.create crate format (pathAt dataRoot location) (some order)).mapError ArchiveError.toString)
      with ⟨value, _, answered⟩ | ⟨_, answered⟩
    · simp only [ArchiveCache.getOrCreate, answered] at held
      exact coherent.fresh key other archive held
    · simp only [ArchiveCache.getOrCreate, answered, ArchiveCache.registerKey, ArchiveCache.insert] at held
      split at held
      · rename_i own
        refine ⟨location, legal, own.1.trans (components_pathAt rootLegal legal), .inl ⟨node, order, found, enumerated, ?_⟩⟩
        rw [own.2]
        cases created : Archive.create crate format (pathAt dataRoot location) (some order) with
        | error reason => simp [created, Except.mapError] at held
        | ok built =>
            simp only [created, Except.mapError, Option.some.injEq, Except.ok.injEq] at held
            rw [held]
      · exact coherent.fresh key other archive held

theorem Coherent.step (rootLegal : ∀ name ∈ dataRoot, LegalName name) (coherent : Coherent crate dataRoot state)
    (careful : event.Careful dataRoot state) (taken : Step crate dataRoot state event after) :
    Coherent crate dataRoot after := by
  cases taken with
  | mutate applied => exact coherent.mutate rootLegal careful applied
  | invalidate changedPath => exact coherent.invalidate rootLegal changedPath
  | getOrCreate format found _ enumerated => exact coherent.getOrCreate rootLegal format found enumerated
  | evict path format =>
      exact {
        covered := coherent.covered.remove path format
        legal := coherent.legal
        fresh := fun key other archive held => coherent.fresh key other archive (ArchiveCache.cache_remove held).1 }

theorem scanSource_reordered {source : Path} {node order order' : Node} (enumerated : node.Reordered order)
    (again : node.Reordered order') {scanned : List ScannedEntry} (answered : scanSource source (some order) = .ok scanned) :
    ∃ scanned', scanSource source (some order') = .ok scanned' ∧ scanned.Perm scanned' := by
  cases enumerated with
  | leaf kind =>
      cases again
      exact ⟨scanned, answered, .refl _⟩
  | dir stat inside =>
      cases again with
      | dir stat inside' =>
          simp only [scanSource, Except.ok.injEq] at answered
          subst answered
          exact ⟨_, rfl, (scanDir_reordered inside).symm.trans (scanDir_reordered inside')⟩

theorem Fresh.records {tree : Tree} (fresh : Fresh crate dataRoot tree location format archive) :
    ∃ node, tree.lookup location = some node ∧ ∀ order, node.Reordered order →
      ∃ scanned, scanSource (pathAt dataRoot location) (some order) = .ok scanned ∧
        archive.records.Perm (scanned.map (recorded format)) := by
  obtain ⟨node, order, found, enumerated, created⟩ := fresh
  refine ⟨node, found, fun order' again => ?_⟩
  cases answered : scanSource (pathAt dataRoot location) (some order) with
  | error reason => simp [Archive.create, answered] at created
  | ok scanned =>
      rw [Archive.create, answered] at created
      obtain ⟨scanned', answered', perm⟩ := scanSource_reordered enumerated again answered
      refine ⟨scanned', answered', ?_⟩
      rw [createFrom_records created]
      exact perm.map _

end Invariant

def Run (crate : Tar.HeaderCrate) (dataRoot : Location) (condition : State → Event → Prop) (tree : Tree)
    (maxCapacity : Nat) (state : State) : Prop :=
  Reaches (Step crate dataRoot) condition (State.start tree maxCapacity) state

/-- Cache coherence. Mutations are reported, and what is reported is passed to
`invalidate` sooner or later; archives are asked for and evicted at any time. While no
directory moves away from under a cached archive, all archives are current whenever
nothing is pending. -/
theorem archives_current {crate : Tar.HeaderCrate} {dataRoot : Location}
    (rootLegal : ∀ name ∈ dataRoot, LegalName name) (tree : Tree) (maxCapacity : Nat) {state : State}
    (reached : Run crate dataRoot (fun state event => event.Careful dataRoot state) tree maxCapacity state)
    (settled : state.pending = []) : state.Current dataRoot := by
  have coherent : Coherent crate dataRoot state := by
    apply reached.invariant (.start tree maxCapacity)
    intro before event after coherent careful taken
    exact coherent.step rootLegal careful taken
  intro path format archive held
  obtain ⟨location, legal, same, fresh | ⟨changed, member, _⟩⟩ := coherent.fresh _ format archive held
  · obtain ⟨node, found, records⟩ := fresh.records
    exact ⟨location, node, same.trans (components_pathAt rootLegal legal).symm, found, records⟩
  · rw [settled] at member
    cases member

def holding (content : Bytes) : Node := .dir smallStat (.cons [120] (.leaf (.file content smallStat)) .nil)

def twoDirectories : Tree where
  top := .dir smallStat (.cons [100] (.dir smallStat (.cons [115] (holding [1]) .nil))
    (.cons [102] (.dir smallStat (.cons [115] (holding [1, 2]) .nil)) .nil))
  legal := by decide

theorem archives_current_sibling : ∃ state : State,
    (state.archiveCache.lookup [47, 114, 47, 100, 47, 115] .tar).isSome ∧ state.Current [[114]] := by
  have asked : Run Tar.blockCrate [[114]] (fun state event => event.Careful [[114]] state) twoDirectories 8 _ :=
    .next .start (by trivial) (.getOrCreate .tar (show twoDirectories.lookup [[100], [115]] = some (holding [1]) from rfl)
      nofun (.dir smallStat (.refl _)))
  have changed : Run Tar.blockCrate [[114]] (fun state event => event.Careful [[114]] state) twoDirectories 8 _ :=
    .next asked (by nofun) (.mutate (show twoDirectories.apply (.chmod [[102]] 0o755) = some _ from rfl))
  have invalidated : Run Tar.blockCrate [[114]] (fun state event => event.Careful [[114]] state) twoDirectories 8 _ :=
    .next changed (by trivial) (.invalidate _ [47, 114, 47, 102])
  exact ⟨_, by decide +kernel, archives_current (by decide) twoDirectories 8 invalidated (by decide +kernel)⟩

/-- `d` is renamed to `e` and `f` to `d`: the archive of `/r/d/s` outlives the
invalidation of all four paths, and the file that it has is half as long as the one
that is there now. -/
theorem moved_directory_leaves_archive : ∃ state : State,
    Run Tar.blockCrate [[114]] (fun _ _ => True) twoDirectories 8 state ∧ state.pending = [] ∧
      ¬ state.Current [[114]] := by
  have asked : Run Tar.blockCrate [[114]] (fun _ _ => True) twoDirectories 8 _ :=
    .next .start (by trivial) (.getOrCreate .tar (show twoDirectories.lookup [[100], [115]] = some (holding [1]) from rfl)
      nofun (.dir smallStat (.refl _)))
  have away : Run Tar.blockCrate [[114]] (fun _ _ => True) twoDirectories 8 _ :=
    .next asked trivial (.mutate (show twoDirectories.apply (.rename [] [100] [] [101] 1700000001) = some _ from rfl))
  have invalidated : Run Tar.blockCrate [[114]] (fun _ _ => True) twoDirectories 8 _ :=
    .next (.next away trivial (.invalidate _ [47, 114, 47, 100])) trivial (.invalidate _ [47, 114, 47, 101])
  have moved : Run Tar.blockCrate [[114]] (fun _ _ => True) twoDirectories 8 _ :=
    .next invalidated trivial (.mutate (show Tree.apply _ (.rename [] [102] [] [100] 1700000002) = some _ from rfl))
  have settled : Run Tar.blockCrate [[114]] (fun _ _ => True) twoDirectories 8 _ :=
    .next (.next moved trivial (.invalidate _ [47, 114, 47, 102])) trivial (.invalidate _ [47, 114, 47, 100])
  refine ⟨_, settled, by decide +kernel, ?_⟩
  intro current
  obtain ⟨location, node, same, found, records⟩ := current [47, 114, 47, 100, 47, 115] .tar _ rfl
  have legal := (Tree.legal _).lookup found
  rw [components_pathAt (by decide) legal.2] at same
  obtain rfl : [[100], [115]] = location := by
    have whole : componentsOf [[114], [100], [115]] = componentsOf ([[114]] ++ location) := same
    simpa using componentsOf_injective whole
  obtain ⟨scanned, answered, perm⟩ := records node (.refl node)
  cases found
  cases answered
  have kept := (perm.map Record.size).subset (show 1 ∈ _ by decide +kernel)
  revert kept
  decide +kernel

end Raas.Coherence
