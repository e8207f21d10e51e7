import Raas.Cache.Interleaving

namespace Raas.Interleaving

open Data

/-! Whether every write drops the archives that were scanned before it. -/

/-- This key is the changed path or an ancestor of it. -/
def AtOrAbove (key : List Component) (changed : Path) : Prop :=
  ∃ above below : Location, key = componentsOf above ∧ Path.components changed = componentsOf (above ++ below)

/-- The call is still going to remove this entry because of the change, if it finds it. -/
def Call.Drops (changed : Path) (key : List Component) (format : ArchiveFormat) : Call → Prop
  | .matching changedPath => changedPath = changed
  | .removing todo _ => ∃ path, (path, format) ∈ todo ∧ Path.components path = key
  | _ => False

/-- The invalidation for the change has not got past this entry. -/
def State.Drops (state : State) (changed : Path) (key : List Component) (format : ArchiveFormat) : Prop :=
  changed ∈ state.unannounced ∨ ∃ call ∈ state.calls, call.Drops changed key format

/-- A scan is inserted before the invalidations for later writes have passed its key,
and registered before they collect their victims. -/
def Event.Timely (state : State) : Event → Prop
  | .insert path format inserted =>
      ∀ changed ∈ state.writes.drop inserted.started, AtOrAbove (Path.components path) changed →
        state.Drops changed (Path.components path) format
  | .collect changedPath =>
      ∀ key format scan, state.archiveCache.cache key format = some scan →
        changedPath ∈ state.writes.drop scan.started → AtOrAbove key changedPath → state.archiveCache.Registered key
  | _ => True

/-- An entry scanned before a write is going to be dropped. -/
def Dated (state : State) : Prop :=
  ∀ key format scan, state.archiveCache.cache key format = some scan →
    ∀ changed ∈ state.writes.drop scan.started, AtOrAbove key changed → state.Drops changed key format

section Steps

variable {state after : State} {event : Event} {front back : List Call} {call next : Call} {key : List Component}
  {format : ArchiveFormat} {changed changedPath path : Path}

theorem mem_removals {gone : List Path} {victim : Path} (member : victim ∈ gone) (format : ArchiveFormat) :
    (victim, format) ∈ removals gone := by
  refine List.mem_flatMap.mpr ⟨victim, member, ?_⟩
  cases format with
  | tar => exact List.mem_cons_self
  | zip => exact List.mem_cons_of_mem _ List.mem_cons_self

theorem victim_found {archiveCache : ArchiveCache Scan} (registered : archiveCache.Registered key)
    (above : AtOrAbove key changed) : ∃ victim ∈ archiveCache.victims changed, Path.components victim = key := by
  obtain ⟨known, member, same⟩ := registered
  obtain ⟨names, below, rfl, changedAt⟩ := above
  refine ⟨known, List.mem_filter.mpr ⟨member, ?_⟩, same⟩
  exact (Path.affects_iff changedAt same).mpr (List.prefix_append names below)

theorem drops_elsewhere (drops : state.Drops changed key format) (here : state.calls = front ++ call :: back)
    (others : ∀ other ∈ front ++ back, other ∈ after.calls) (unannounced : after.unannounced = state.unannounced) :
    after.Drops changed key format ∨ call.Drops changed key format := by
  rcases drops with waiting | ⟨other, member, drops⟩
  · rw [← unannounced] at waiting
    exact .inl (.inl waiting)
  · rw [here, List.mem_append, List.mem_cons] at member
    rcases member with before | rfl | behind
    · exact .inl (.inr ⟨other, others other (List.mem_append_left _ before), drops⟩)
    · exact .inr drops
    · exact .inl (.inr ⟨other, others other (List.mem_append_right _ behind), drops⟩)

theorem others_replaced (front back : List Call) (next : Call) :
    ∀ other ∈ front ++ back, other ∈ front ++ next :: back :=
  fun _ member => ((List.sublist_cons_self next back).append_left front).subset member

theorem Dated.start (maxCapacity : Nat) : Dated (State.start maxCapacity) := nofun

theorem Dated.shrink (dated : Dated state)
    (fewer : ∀ key format scan, after.archiveCache.cache key format = some scan →
      state.archiveCache.cache key format = some scan)
    (writes : after.writes = state.writes)
    (drops : ∀ changed key format, state.Drops changed key format → after.Drops changed key format) :
    Dated after := by
  intro key format scan held changed member above
  rw [writes] at member
  exact drops changed key format (dated key format scan (fewer key format scan held) changed member above)

theorem Dated.replace (dated : Dated state) (here : state.calls = front ++ call :: back)
    (same : after.archiveCache.cache = state.archiveCache.cache) (writes : after.writes = state.writes)
    (others : ∀ other ∈ front ++ back, other ∈ after.calls) (unannounced : after.unannounced = state.unannounced)
    (idle : ∀ changed key format, ¬ call.Drops changed key format) : Dated after := by
  refine dated.shrink (fun key format scan held => same ▸ held) writes fun changed key format drops => ?_
  exact (drops_elsewhere drops here others unannounced).resolve_right (idle changed key format)

theorem drops_wake (drops : call.Drops changed key format) (path : Path) (other : ArchiveFormat) :
    call.wake path other = call := by
  cases call with
  | waiting path' format' => exact absurd drops id
  | _ => rfl

theorem Dated.insert (dated : Dated state) {scan : Scan} (here : state.calls = front ++ .scanned path format scan :: back)
    (timely : (Event.insert path format scan).Timely state) :
    Dated
      { state with
        archiveCache := state.archiveCache.insert path format scan
        calls := (front ++ .answered path :: back).map (Call.wake path format) } := by
  have kept : ∀ {changed key other}, state.Drops changed key other → State.Drops
      { state with
        archiveCache := state.archiveCache.insert path format scan
        calls := (front ++ .answered path :: back).map (Call.wake path format) } changed key other := by
    intro changed key other drops
    rcases drops with waiting | ⟨call, member, drops⟩
    · exact .inl waiting
    · refine .inr ⟨call, List.mem_map.mpr ⟨call, ?_, drops_wake drops path format⟩, drops⟩
      rw [here, List.mem_append, List.mem_cons] at member
      rcases member with before | rfl | behind
      · exact List.mem_append_left _ before
      · exact absurd drops id
      · exact List.mem_append_right _ (List.mem_cons_of_mem _ behind)
  intro key other value held changed member above
  simp only [ArchiveCache.insert] at held
  split at held
  · rename_i own
    cases held
    rw [own.1] at above ⊢
    rw [own.2]
    exact kept (timely changed member above)
  · exact kept (dated key other value held changed member above)

theorem Dated.collect (dated : Dated state) (here : state.calls = front ++ .matching changedPath :: back)
    (timely : (Event.collect changedPath).Timely state) (same : after.archiveCache = state.archiveCache)
    (writes : after.writes = state.writes) (unannounced : after.unannounced = state.unannounced)
    (others : ∀ other ∈ front ++ back, other ∈ after.calls)
    (victims : ∀ victim ∈ state.archiveCache.victims changedPath, ∀ format,
      after.Drops changedPath (Path.components victim) format) : Dated after := by
  intro key format scan held changed member above
  rw [same] at held
  rw [writes] at member
  have drops := dated key format scan held changed member above
  rcases drops_elsewhere drops here others unannounced with still | own
  · exact still
  · have own : changedPath = changed := own
    subst own
    obtain ⟨victim, found, rfl⟩ := victim_found (timely key format scan held member above) above
    exact victims victim found format

theorem Dated.remove (dated : Dated state) {todo : List (Path × ArchiveFormat)} {gone : List Path}
    (here : state.calls = front ++ .removing ((path, format) :: todo) gone :: back) :
    Dated
      { state with
        archiveCache := state.archiveCache.remove path format
        calls := front ++ .removing todo gone :: back } := by
  intro key other scan held changed member above
  obtain ⟨before, different⟩ := ArchiveCache.cache_remove held
  have drops := dated key other scan before changed member above
  refine (drops_elsewhere drops here ?_ ?_).elim id fun own => ?_
  · exact others_replaced front back _
  · rfl
  · obtain ⟨victim, victimMember, same⟩ := own
    rcases List.mem_cons.mp victimMember with first | later
    · cases first
      exact absurd ⟨same.symm, rfl⟩ different
    · exact .inr ⟨_, List.mem_append_right _ List.mem_cons_self, victim, later, same⟩

theorem Dated.invalidate (dated : Dated state) (changedPath : Path) :
    Dated
      { state with
        calls := state.calls ++ [.matching changedPath]
        unannounced := state.unannounced.filter fun path => decide (path ≠ changedPath) } := by
  refine dated.shrink (fun _ _ _ => id) rfl fun changed key format drops => ?_
  rcases drops with waiting | ⟨call, member, drops⟩
  · by_cases own : changed = changedPath
    · exact .inr ⟨.matching changedPath, by simp, own.symm⟩
    · exact .inl (List.mem_filter.mpr ⟨waiting, decide_eq_true own⟩)
  · exact .inr ⟨call, List.mem_append_left _ member, drops⟩

theorem Dated.write (dated : Dated state) (path : Path) :
    Dated { state with writes := state.writes ++ [path], unannounced := state.unannounced ++ [path] } := by
  intro key format scan held changed member above
  have earlier : changed ∈ state.writes.drop scan.started ∨ changed = path := by
    rw [List.drop_append, List.mem_append] at member
    exact member.imp_right fun new => List.mem_singleton.mp (List.mem_of_mem_drop new)
  rcases earlier with earlier | rfl
  · rcases dated key format scan held changed earlier above with waiting | running
    · exact .inl (List.mem_append_left _ waiting)
    · exact .inr running
  · exact .inl (by simp)

theorem Dated.step (dated : Dated state) (timely : event.Timely state) (taken : Step state event after) :
    Dated after := by
  cases taken with
  | insert front back here => exact dated.insert here timely
  | remove front back here => exact dated.remove here
  | invalidate changedPath => exact dated.invalidate changedPath
  | write path => exact dated.write path
  | spare front back here unlocked none =>
      refine dated.collect here timely rfl rfl rfl (fun _ => id) ?_
      rw [none]
      nofun
  | collect front back here unlocked order some =>
      refine dated.collect here timely rfl rfl rfl (others_replaced front back _) fun victim member format => ?_
      have removed := mem_removals (order.mem_iff.mpr member) format
      exact .inr ⟨_, List.mem_append_right _ List.mem_cons_self, victim, removed, rfl⟩
  | unregister front back here unlocked =>
      refine dated.replace here rfl rfl (fun _ => id) rfl fun changed key format drops => ?_
      obtain ⟨victim, member, _⟩ := drops
      cases member
  | getOrCreate path format =>
      refine dated.shrink (fun _ _ _ => id) rfl fun changed key format drops => ?_
      exact drops.imp_right fun ⟨call, member, drops⟩ => ⟨call, List.mem_append_left _ member, drops⟩
  | hit front back here present =>
      exact dated.replace here rfl rfl (others_replaced front back _) rfl fun _ _ _ => id
  | miss front back here absent free =>
      exact dated.replace here rfl rfl (others_replaced front back _) rfl fun _ _ _ => id
  | wait front back here absent busy =>
      exact dated.replace here rfl rfl (others_replaced front back _) rfl fun _ _ _ => id
  | scan front back here loaded =>
      exact dated.replace here rfl rfl (others_replaced front back _) rfl fun _ _ _ => id
  | lock front back here unlocked order => exact dated.replace here rfl rfl (fun _ => id) rfl fun _ _ _ => id
  | keepTar inside present => exact dated.shrink (fun _ _ _ => id) rfl fun _ _ _ => id
  | missTar inside absent => exact dated.shrink (fun _ _ _ => id) rfl fun _ _ _ => id
  | keepZip inside present => exact dated.shrink (fun _ _ _ => id) rfl fun _ _ _ => id
  | missZip inside absent => exact dated.shrink (fun _ _ _ => id) rfl fun _ _ _ => id
  | register inside => exact dated.shrink (fun _ _ _ => id) rfl fun _ _ _ => id
  | evict path format =>
      exact dated.shrink (fun _ _ _ held => (ArchiveCache.cache_remove held).1) rfl fun _ _ _ => id

end Steps

/-- No lost invalidation. While every loader's scan gets into the cache, and into the
registry, before the invalidations for later writes go by, no entry of a written path
or an ancestor of it is older than the write, once all calls and invalidations are done. -/
theorem no_stale_archives {maxCapacity : Nat} {state : State}
    (reached : Run (fun state event => event.Timely state) maxCapacity state) (quiet : state.Quiet)
    (settled : state.unannounced = []) :
    ∀ path format scan, state.archiveCache.lookup path format = some scan →
      ∀ changed ∈ state.writes.drop scan.started, ¬ AtOrAbove (Path.components path) changed := by
  have dated : Dated state := by
    apply reached.invariant (.start maxCapacity)
    intro before event after dated timely taken
    exact dated.step timely taken
  intro path format scan held changed member above
  rcases dated _ format scan held changed member above with waiting | ⟨call, running, _⟩
  · rw [settled] at waiting
    cases waiting
  · rw [quiet.1] at running
    cases running

theorem above_x : AtOrAbove (Path.components pathD) pathX := ⟨[[100]], [[120]], by decide, by decide⟩

theorem no_stale_archives_rescanned : ∃ (state : State) (scan : Scan),
    state.archiveCache.lookup pathD .tar = some scan ∧ state.writes = [pathX] ∧
      ∀ changed ∈ state.writes.drop scan.started, ¬ AtOrAbove (Path.components pathD) changed := by
  have asked : Run (fun state event => event.Timely state) 8 _ :=
    .next (.next (.next .start (by trivial) (.getOrCreate _ pathD .tar)) (by trivial)
      (.miss [] [] rfl rfl (by simp [State.start, Call.Loads]))) (by trivial) (.scan [] [] rfl smallLoaded)
  have registered : Run (fun state event => event.Timely state) 8 _ :=
    .next (.next (.next asked (by intro _ member; cases member) (.insert [] [] rfl)) (by trivial)
      (.lock [] [] rfl rfl (.refl _))) (by trivial) (.register rfl)
  have announced : Run (fun state event => event.Timely state) 8 _ :=
    .next (.next registered (by trivial) (.write _ pathX)) (by trivial) (.invalidate _ pathX)
  have collected : Run (fun state event => event.Timely state) 8 _ :=
    .next announced (by
      intro key format scan held _ _
      by_cases own : key = Path.components pathD ∧ format = .tar
      · exact ⟨pathD, List.mem_cons_self, own.1.symm⟩
      · have empty : (none : Option Scan) = some scan := (if_neg own).symm.trans held
        cases empty) (.collect [] [] rfl rfl (.refl _) (by decide +kernel))
  have removed : Run (fun state event => event.Timely state) 8 _ :=
    .next (.next (.next collected (by trivial) (.remove [] [] rfl)) (by trivial) (.remove [] [] rfl)) (by trivial)
      (.unregister [] [] rfl rfl)
  have again : Run (fun state event => event.Timely state) 8 _ :=
    .next (.next (.next removed (by trivial) (.getOrCreate _ pathD .tar)) (by trivial)
      (.miss [] [] rfl rfl (by simp [Call.Loads]))) (by trivial) (.scan [] [] rfl smallLoaded)
  have rescanned : Run (fun state event => event.Timely state) 8 _ :=
    .next (.next (.next again (by intro _ member; cases member) (.insert [] [] rfl)) (by trivial)
      (.lock [] [] rfl rfl (.refl _))) (by trivial) (.register rfl)
  exact ⟨_, _, rfl, rfl, no_stale_archives rescanned ⟨rfl, rfl⟩ rfl pathD .tar _ rfl⟩

/-- `/d/x` is written after a loader has scanned `/d` and invalidated before the loader's
archive is in the cache. The archive stays. -/
theorem late_insert_is_stale : ∃ (state : State) (scan : Scan),
    Run (fun _ _ => True) 8 state ∧ state.Quiet ∧ state.unannounced = [] ∧
      state.archiveCache.lookup pathD .tar = some scan ∧
      ∃ changed ∈ state.writes.drop scan.started, AtOrAbove (Path.components pathD) changed := by
  have asked : Run (fun _ _ => True) 8 _ :=
    .next (.next (.next .start trivial (.getOrCreate _ pathD .tar)) trivial
      (.miss [] [] rfl rfl (by simp [State.start, Call.Loads]))) trivial (.scan [] [] rfl smallLoaded)
  have invalidated : Run (fun _ _ => True) 8 _ :=
    .next (.next (.next asked trivial (.write _ pathX)) trivial (.invalidate _ pathX)) trivial
      (.spare [.scanned pathD .tar { started := 0, loaded := smallLoaded }] [] rfl rfl rfl)
  have inserted : Run (fun _ _ => True) 8 _ :=
    .next (.next (.next invalidated trivial (.insert [] [] rfl)) trivial (.lock [] [] rfl rfl (.refl _))) trivial
      (.register rfl)
  exact ⟨_, _, inserted, ⟨rfl, rfl⟩, rfl, rfl, pathX, List.mem_cons_self, above_x⟩

end Raas.Interleaving
