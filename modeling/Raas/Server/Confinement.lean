import Raas.Cache.Sequential
import Raas.Server.Serving

namespace Raas.Site

open Data Server

/-! Requests stay inside the data root. -/

/-- `PATH_MAX`: the system takes only shorter paths. -/
def pathMax : Nat := 4096

/-- What a path is resolved to is a file or directory in the data root by its own path, no
symbolic link on the way; and every one of them whose path is short enough can be asked
for by spelling out its names, if these are UTF-8. -/
theorem resolves_inside_exactly {fs inside : Node} {dataRoot : Location} (around : Around dataRoot inside fs) :
    (∀ relativePath path, resolveAndValidatePath fs (pathOf [separator] dataRoot) relativePath = .ok path →
      ∃ below node, path = pathOf [separator] (dataRoot ++ below) ∧ inside.lookup below = some node ∧
        ∀ target, node ≠ .leaf (.symlink target)) ∧
    ∀ below node, below ≠ [] → inside.lookup below = some node → (∀ target, node ≠ .leaf (.symlink target)) →
      (pathOf [separator] (dataRoot ++ below)).length < pathMax →
      ∀ relativePath : String, utf8 relativePath = List.intercalate [separator] below →
        resolveAndValidatePath fs (pathOf [separator] dataRoot) relativePath =
          .ok (pathOf [separator] (dataRoot ++ below)) := by
  constructor
  · intro relativePath path resolved
    obtain ⟨below, node, _, located, found, plain⟩ := resolve_inside around resolved
    exact ⟨below, node, located, found, plain⟩
  · intro below node nonempty found plain _ relativePath spelled
    exact resolve_spelled around found plain nonempty spelled

/-- The data root `/s` with a file `a` and a link `l` to it. -/
def linkedListing : Listing := .cons [97] (.leaf (.file [1] smallStat)) (.cons [108] (.leaf (.symlink [97])) .nil)

theorem resolves_inside_exactly_small :
    resolveAndValidatePath (Tar.rootOf linkedListing) (pathOf [separator] [[115]]) "a" =
        .ok (pathOf [separator] ([[115]] ++ [[97]])) ∧
      ∃ below node, resolveAndValidatePath (Tar.rootOf linkedListing) (pathOf [separator] [[115]]) "l" =
          .ok (pathOf [separator] ([[115]] ++ below)) ∧
        (Node.dir smallStat linkedListing).lookup below = some node ∧ below ≠ [[108]] := by
  have around : Around [[115]] (.dir smallStat linkedListing) (Tar.rootOf linkedListing) := ⟨by decide, rfl⟩
  obtain ⟨accepted, spelled⟩ := resolves_inside_exactly around
  have followed : resolveAndValidatePath (Tar.rootOf linkedListing) (pathOf [separator] [[115]]) "l" =
      .ok [47, 115, 47, 97] := by decide
  refine ⟨spelled [[97]] _ (List.cons_ne_nil _ _) rfl nofun (by decide) "a" (by decide), ?_⟩
  obtain ⟨below, node, located, found, plain⟩ := accepted "l" _ followed
  refine ⟨below, node, located ▸ followed, found, ?_⟩
  intro link
  subst link
  cases found
  exact plain _ rfl

/-- The key of a location in the data root. -/
def Confined (site : Site) (key : List Component) : Prop :=
  ∃ location, (∀ name ∈ location, LegalName name) ∧ key = componentsOf (site.dataRoot ++ location)

structure Confines (site : Site) (archiveCache : ArchiveCache α) : Prop where
  cached : ∀ key format value, archiveCache.cache key format = some value → Confined site key
  registered : ∀ known ∈ archiveCache.cachedKeys, Confined site (Path.components known)

section Confining

variable {site : Site} {archiveCache later : ArchiveCache α} {path : Path} {format : ArchiveFormat}

theorem Confines.shrink (confines : Confines site archiveCache)
    (fewer : ∀ key format value, later.cache key format = some value → archiveCache.cache key format = some value)
    (forgets : ∀ known ∈ later.cachedKeys, known ∈ archiveCache.cachedKeys) : Confines site later where
  cached := fun key format value held => confines.cached key format value (fewer key format value held)
  registered := fun known member => confines.registered known (forgets known member)

theorem Confines.invalidate (confines : Confines site archiveCache) (changedPath : Path) :
    Confines site (archiveCache.invalidate changedPath).2 := by
  refine confines.shrink (fun key format value held => (ArchiveCache.cache_invalidate held).1) ?_
  intro known member
  unfold ArchiveCache.invalidate at member
  dsimp only at member
  split at member
  · exact member
  · rw [ArchiveCache.unregister, ArchiveCache.cachedKeys_removeAll] at member
    exact (List.mem_filter.mp member).1

theorem Confines.drained (confines : Confines site archiveCache) (drained : List Path) :
    Confines site (drained.foldl (fun archiveCache path => (archiveCache.invalidate path).2) archiveCache) := by
  induction drained generalizing archiveCache with
  | nil => exact confines
  | cons path drained ih => exact ih (confines.invalidate path)

theorem Confines.getWith (confines : Confines site archiveCache) (confined : Confined site (Path.components path))
    (format : ArchiveFormat) (loaded : α) :
    Confines site ((archiveCache.getWith path format loaded).2.registerKey path) where
  cached := by
    intro key other value held
    have found := (ArchiveCache.cache_getWith archiveCache path format loaded key other).symm.trans held
    split at found
    · rename_i own
      exact own.1 ▸ confined
    · exact confines.cached key other value found
  registered := by
    intro known member
    have same : (archiveCache.getWith path format loaded).2.cachedKeys = archiveCache.cachedKeys := by
      rcases ArchiveCache.getWith_cases archiveCache path format loaded with ⟨value, _, answered⟩ | ⟨_, answered⟩
      · rw [answered]
      · rw [answered]
        rfl
    rcases Watcher.insertKey_member member with before | rfl
    · split at before
      · rw [same] at before
        exact confines.registered known (List.mem_filter.mp before).1
      · rw [same] at before
        exact confines.registered known before
    · exact confined

theorem Confines.step {state after : State} {event : Event} (confines : Confines site state.watcher.archiveCache)
    (taken : Step site state event after) : Confines site after.watcher.archiveCache := by
  cases taken with
  | mutate applied told => exact confines
  | notify report => exact confines
  | receive queued drains ran =>
      rw [(runWorker_receives ran).1]
      exact confines
  | watch nothing drains ran =>
      rcases runWorker_flushes nothing ran with ⟨cache, _⟩ | ⟨place, rfl⟩
      · exact cache ▸ confines
      · unfold Watcher.State.flush
        split
        · exact confines
        · exact confines.drained _
  | evict path format =>
      exact confines.shrink (fun key other value held => (ArchiveCache.cache_remove held).1) fun known member => member
  | @download moment query shown =>
      rcases download_asks site moment query with ⟨reason, refused⟩ | ⟨path, format, _, resolved, delivers⟩
      · have answered : site.download moment query state.shared = (.error reason, state.shared) :=
          refused moment.order state.shared
        rw [answered]
        exact confines
      · have answered : site.download moment query state.shared = site.deliver moment query path format state.shared :=
          delivers moment.order state.shared
        obtain ⟨below, node, _, located, found, _⟩ := resolve_inside shown.around resolved
        have legal := (state.tree.legal.lookup found).2
        have confined : Confined site (Path.components path) := by
          rw [located]
          exact ⟨below, legal, Coherence.components_pathAt site.rootLegal legal⟩
        rw [answered, deliver_eq]
        exact confines.getWith confined format _

end Confining

/-- Whatever changes, whatever is reported and whatever is asked for, the cache and its
registry only ever have locations inside the data root, by their own paths. -/
theorem cache_stays_inside {site : Site} {tree : Tree} {maxCapacity : Nat} {state : State}
    (reached : Reaches (Step site) (fun _ _ => True) (.start tree maxCapacity) state) :
    (∀ key format loaded, state.watcher.archiveCache.cache key format = some loaded → Confined site key) ∧
      ∀ known ∈ state.watcher.archiveCache.cachedKeys, Confined site (Path.components known) := by
  have confines : Confines site state.watcher.archiveCache := by
    apply reached.invariant ⟨nofun, nofun⟩
    intro before event after confines _ taken
    exact confines.step taken
  exact ⟨confines.cached, confines.registered⟩

theorem cache_stays_inside_small : ∃ state : State, state.watcher.archiveCache.isCached [47, 115] = true ∧
    ∀ known ∈ state.watcher.archiveCache.cachedKeys, Confined smallSite (Path.components known) := by
  obtain ⟨state, run, _, _, _, cached, _⟩ := small_run
  have present : state.watcher.archiveCache.isCached [47, 115] = true := by
    rw [ArchiveCache.isCached]
    exact Bool.or_eq_true_iff.mpr (.inr cached)
  exact ⟨state, present, (cache_stays_inside (run.weaken fun _ _ _ => trivial)).2⟩

/-! The cache of the server, in the model in which calls overlap. -/

section Calls

variable {site : Site} {state after : State} {event : Event} {maxCapacity : Nat}

theorem reached_drained {archiveCache : ArchiveCache ArchiveCache.Loaded}
    (reached : ArchiveCache.Reached maxCapacity archiveCache) (drained : List Path) :
    ArchiveCache.Reached maxCapacity
      (drained.foldl (fun archiveCache path => (archiveCache.invalidate path).2) archiveCache) := by
  induction drained generalizing archiveCache with
  | nil => exact reached
  | cons path drained ih => exact ih (reached.apply (.invalidate path))

/-- A step of the server is made of operations on the cache, one after the other. -/
theorem Step.reached (taken : Step site state event after)
    (reached : ArchiveCache.Reached maxCapacity state.watcher.archiveCache) :
    ArchiveCache.Reached maxCapacity after.watcher.archiveCache := by
  cases taken with
  | mutate applied told => exact reached
  | notify report => exact reached
  | receive queued drains ran =>
      rw [(runWorker_receives ran).1]
      exact reached
  | watch nothing drains ran =>
      rcases runWorker_flushes nothing ran with ⟨cache, _⟩ | ⟨place, rfl⟩
      · exact cache ▸ reached
      · unfold Watcher.State.flush
        split
        · exact reached
        · exact reached_drained reached _
  | evict path format => exact reached.apply (.evict path format)
  | @download moment query shown =>
      rcases download_asks site moment query with ⟨reason, refused⟩ | ⟨path, format, _, resolved, delivers⟩
      · have answered : site.download moment query state.shared = (.error reason, state.shared) :=
          refused moment.order state.shared
        rw [answered]
        exact reached
      · have answered : site.download moment query state.shared = site.deliver moment query path format state.shared :=
          delivers moment.order state.shared
        rw [answered, deliver_eq]
        exact reached.apply (.getOrCreate path format (Archive.create site.crate format path (some moment.order)))

end Calls

/-- The server's calls of the cache as the model with overlapping calls has them. What calls
make of the cache that begin only while no other is under way, step by step and in any
order inside a call, is exactly what whole operations make of it, one after the other; and
in every reachable state the server has such a cache. -/
theorem cache_calls_one_at_a_time :
    (∀ (maxCapacity : Nat) (cache : ArchiveCache ArchiveCache.Loaded), ArchiveCache.Reached maxCapacity cache ↔
      ∃ calls : Interleaving.State, Interleaving.Run (fun state event => event.Alone state) maxCapacity calls ∧
        calls.Quiet ∧ calls.archiveCache.map Interleaving.Scan.loaded = cache) ∧
    ∀ (site : Site) (tree : Tree) (maxCapacity : Nat) (state : State),
      Reaches (Step site) (fun _ _ => True) (.start tree maxCapacity) state →
        ArchiveCache.Reached maxCapacity state.watcher.archiveCache := by
  refine ⟨fun maxCapacity cache => Interleaving.reached_iff_alone, ?_⟩
  intro site tree maxCapacity state reached
  apply reached.invariant .start
  intro before event after held _ taken
  exact taken.reached held

theorem cache_calls_one_at_a_time_small : ∃ (state : State) (calls : Interleaving.State),
    (state.shared.archiveCache.lookup [47, 115] .zip).isSome = true ∧
      Interleaving.Run (fun state event => event.Alone state) 8 calls ∧ calls.Quiet ∧
      calls.archiveCache.map Interleaving.Scan.loaded = state.watcher.archiveCache := by
  obtain ⟨state, run, _, _, _, cached, _⟩ := small_run
  obtain ⟨operations, server⟩ := cache_calls_one_at_a_time
  obtain ⟨calls, alone, quiet, same⟩ :=
    (operations 8 _).mp (server smallSite _ 8 state (run.weaken fun _ _ _ => trivial))
  exact ⟨state, calls, cached, alone, quiet, same⟩

end Raas.Site
