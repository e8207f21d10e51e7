import Raas.Cache.Interleaving

namespace Raas.Interleaving

open Data

/-! Whether the registry finds every entry of the cache. -/

/-- When `invalidate` takes its victims out of the registry, one that has an entry
again is about to be registered again. -/
def Event.Spares (state : State) : Event → Prop
  | .unregister gone =>
      ∀ victim ∈ gone, state.archiveCache.isCached victim → state.InFlight (Path.components victim)
  | _ => True

/-- What is not in the registry is about to be. -/
structure Covering (state : State) : Prop where
  covered : ∀ key format scan, state.archiveCache.cache key format = some scan →
    state.archiveCache.Registered key ∨ state.InFlight key
  /-- A key that is about to be pruned has no tar, or is registered again later. -/
  missed : ∀ path key todo, state.registering = some { path, todo := key :: todo, tarMissed := true } →
    state.archiveCache.lookup key .tar = none ∨ state.InFlight (Path.components key)

section Steps

variable {state after : State} {event : Event} {key : List Component}

theorem Covering.start (maxCapacity : Nat) : Covering (State.start maxCapacity) where
  covered := nofun
  missed := nofun

theorem Covering.shrink (covering : Covering state)
    (fewer : ∀ key format scan, after.archiveCache.cache key format = some scan →
      state.archiveCache.cache key format = some scan)
    (keys : after.archiveCache.cachedKeys = state.archiveCache.cachedKeys)
    (asked : state.asked ⊆ after.asked)
    (missed : ∀ path key todo, after.registering = some { path, todo := key :: todo, tarMissed := true } →
      state.registering = some { path, todo := key :: todo, tarMissed := true } ∨
        after.archiveCache.lookup key .tar = none) : Covering after where
  covered := by
    intro key format scan held
    rcases covering.covered key format scan (fewer key format scan held) with registered | inFlight
    · apply Or.inl
      rw [ArchiveCache.Registered, keys]
      exact registered
    · exact .inr (InFlight.mono inFlight asked)
  missed := by
    intro path key todo pruning
    rcases missed path key todo pruning with before | absent
    · rcases covering.missed path key todo before with absent | inFlight
      · apply Or.inl
        cases held : after.archiveCache.lookup key .tar with
        | none => rfl
        | some scan =>
            have earlier := fewer _ _ _ held
            rw [ArchiveCache.lookup, earlier] at absent
            cases absent
      · exact .inr (InFlight.mono inFlight asked)
    · exact .inl absent

theorem Covering.insert (covering : Covering state) {path : Path} {format : ArchiveFormat} {scan : Scan}
    {front back : List Call} (here : state.calls = front ++ .scanned path format scan :: back) :
    Covering
      { state with
        archiveCache := state.archiveCache.insert path format scan
        calls := (front ++ .answered path :: back).map (Call.wake path format) } := by
  have asked : State.asked
      { state with
        archiveCache := state.archiveCache.insert path format scan
        calls := (front ++ .answered path :: back).map (Call.wake path format) } = state.asked := by
    simp only [State.asked, filterMap_wake, here, List.filterMap_append, List.filterMap_cons, Call.asks]
  have own : path ∈ state.asked := by
    simp [State.asked, here, Call.asks]
  constructor
  · intro key other value held
    simp only [State.InFlight, asked]
    simp only [ArchiveCache.insert] at held
    split at held
    · rename_i same
      exact .inr ⟨path, own, same.1.symm⟩
    · exact covering.covered key other value held
  · intro caller key todo pruning
    simp only [State.InFlight, asked]
    by_cases same : Path.components key = Path.components path ∧ ArchiveFormat.tar = format
    · exact .inr ⟨path, own, same.1.symm⟩
    · have unchanged : (state.archiveCache.insert path format scan).lookup key .tar =
          state.archiveCache.lookup key .tar := if_neg same
      rw [unchanged]
      exact covering.missed caller key todo pruning

theorem Covering.missZip (covering : Covering state) {path pruned : Path} {todo : List Path}
    (inside : state.registering = some { path, todo := pruned :: todo, tarMissed := true })
    (absent : state.archiveCache.lookup pruned .zip = none) :
    Covering
      { state with
        archiveCache := state.archiveCache.unregister [pruned]
        registering := some { path, todo, tarMissed := false } } := by
  have asked : state.asked ⊆
      State.asked
        { state with
          archiveCache := state.archiveCache.unregister [pruned]
          registering := some { path, todo, tarMissed := false } } := asked_pruned inside rfl rfl rfl
  refine ⟨?_, nofun⟩
  intro key format scan held
  rcases covering.covered key format scan held with ⟨known, member, same⟩ | inFlight
  · by_cases gone : Path.components pruned = key
    · apply Or.inr
      subst gone
      cases format with
      | tar =>
          rcases covering.missed path pruned todo inside with none | inFlight
          · have before : state.archiveCache.lookup pruned .tar = some scan := held
            rw [none] at before
            cases before
          · exact InFlight.mono inFlight asked
      | zip =>
          have before : state.archiveCache.lookup pruned .zip = some scan := held
          rw [absent] at before
          cases before
    · refine .inl ⟨known, List.mem_filter.mpr ⟨member, ?_⟩, same⟩
      rw [Bool.not_eq_true', List.any_eq_false]
      intro victim victimMember equal
      rw [List.mem_singleton.mp victimMember, ArchiveCache.same_iff] at equal
      exact gone (equal.symm.trans same)
  · exact .inr (InFlight.mono inFlight asked)

theorem Covering.register (covering : Covering state) {path : Path}
    (inside : state.registering = some { path, todo := [], tarMissed := false }) :
    Covering
      { state with
        archiveCache :=
          { state.archiveCache with cachedKeys := ArchiveCache.insertKey state.archiveCache.cachedKeys path }
        registering := none } := by
  refine ⟨?_, nofun⟩
  intro key format scan held
  rcases covering.covered key format scan held with registered | ⟨other, member, same⟩
  · exact .inl (ArchiveCache.insertKey_found.mpr (.inl registered))
  · rw [State.asked, inside, List.mem_append] at member
    rcases member with own | later
    · rw [List.mem_singleton.mp own] at same
      exact .inl (ArchiveCache.insertKey_found.mpr (.inr same))
    · exact .inr ⟨other, List.mem_append_right _ later, same⟩

theorem Covering.unregister (covering : Covering state) {gone : List Path} {front back : List Call}
    (here : state.calls = front ++ .removing [] gone :: back) (unlocked : state.registering = none)
    (spares : (Event.unregister gone).Spares state) :
    Covering { state with archiveCache := state.archiveCache.unregister gone, calls := front ++ back } := by
  have asked : state.asked ⊆
      State.asked { state with archiveCache := state.archiveCache.unregister gone, calls := front ++ back } :=
    asked_ended here rfl rfl rfl
  constructor
  · intro key format scan held
    rcases covering.covered key format scan held with ⟨known, member, same⟩ | inFlight
    · by_cases victim : ∃ victim ∈ gone, Path.components victim = key
      · obtain ⟨victim, victimMember, rfl⟩ := victim
        have rebuilt := spares victim victimMember (ArchiveCache.isCached_of_present held)
        exact .inr (InFlight.mono rebuilt asked)
      · refine .inl ⟨known, List.mem_filter.mpr ⟨member, ?_⟩, same⟩
        rw [Bool.not_eq_true', List.any_eq_false]
        intro other otherMember equal
        exact victim ⟨other, otherMember, (ArchiveCache.same_iff.mp equal).symm.trans same⟩
    · exact .inr (InFlight.mono inFlight asked)
  · intro path key todo pruning
    have locked : state.registering = some { path, todo := key :: todo, tarMissed := true } := pruning
    rw [unlocked] at locked
    cases locked

theorem Covering.step (covering : Covering state) (spares : event.Spares state) (taken : Step state event after) :
    Covering after := by
  have same : ∀ path key todo, state.registering = some { path, todo := key :: todo, tarMissed := true } →
      state.registering = some { path, todo := key :: todo, tarMissed := true } ∨
        state.archiveCache.lookup key .tar = none := fun _ _ _ => .inl
  cases taken with
  | insert front back here => exact covering.insert here
  | missZip inside absent => exact covering.missZip inside absent
  | register inside => exact covering.register inside
  | unregister front back here unlocked => exact covering.unregister here unlocked spares
  | getOrCreate path format =>
      refine covering.shrink (fun _ _ _ => id) rfl (fun other member => ?_) same
      rw [State.asked, List.filterMap_append, ← List.append_assoc]
      exact List.mem_append_left _ member
  | hit front back here present =>
      exact covering.shrink (fun _ _ _ => id) rfl (asked_replaced here rfl rfl rfl) same
  | miss front back here absent free =>
      exact covering.shrink (fun _ _ _ => id) rfl (asked_replaced here rfl rfl rfl) same
  | wait front back here absent busy =>
      exact covering.shrink (fun _ _ _ => id) rfl (asked_replaced here rfl rfl rfl) same
  | scan front back here loaded =>
      exact covering.shrink (fun _ _ _ => id) rfl (asked_replaced here rfl rfl rfl) same
  | lock front back here unlocked order =>
      refine covering.shrink (fun _ _ _ => id) rfl (asked_locked here rfl rfl unlocked rfl rfl) ?_
      intro path key todo pruning
      simp at pruning
  | keepTar inside present =>
      refine covering.shrink (fun _ _ _ => id) rfl (asked_pruned inside rfl rfl rfl) ?_
      intro path key todo pruning
      cases pruning
  | missTar inside absent =>
      refine covering.shrink (fun _ _ _ => id) rfl (asked_pruned inside rfl rfl rfl) ?_
      intro path key todo pruning
      cases pruning
      exact .inr absent
  | keepZip inside present =>
      refine covering.shrink (fun _ _ _ => id) rfl (asked_pruned inside rfl rfl rfl) ?_
      intro path key todo pruning
      cases pruning
  | invalidate changedPath =>
      refine covering.shrink (fun _ _ _ => id) rfl (fun other member => ?_) same
      rw [State.asked, List.filterMap_append, ← List.append_assoc]
      exact List.mem_append_left _ member
  | spare front back here unlocked none =>
      exact covering.shrink (fun _ _ _ => id) rfl (asked_ended here rfl rfl rfl) same
  | collect front back here unlocked order some =>
      exact covering.shrink (fun _ _ _ => id) rfl (asked_replaced here rfl rfl rfl) same
  | remove front back here =>
      exact covering.shrink (fun _ _ _ held => (ArchiveCache.cache_remove held).1) rfl
        (asked_replaced here rfl rfl rfl) fun _ _ _ => .inl
  | evict path format =>
      exact covering.shrink (fun _ _ _ held => (ArchiveCache.cache_remove held).1) rfl (fun _ => id) fun _ _ _ => .inl
  | write path => exact covering.shrink (fun _ _ _ => id) rfl (fun _ => id) same

end Steps

/-- While no `invalidate` unregisters a path that was rebuilt and registered in the
meantime, every path with an entry is in the registry whenever no call is in flight. -/
theorem registry_covers {maxCapacity : Nat} {state : State}
    (reached : Run (fun state event => event.Spares state) maxCapacity state) (quiet : state.Quiet) :
    ∀ path, state.archiveCache.isCached path → state.archiveCache.Registered (Path.components path) := by
  have covering : Covering state := by
    apply reached.invariant (.start maxCapacity)
    intro before event after covering spares taken
    exact covering.step spares taken
  have idle : ∀ key, ¬ state.InFlight key := by
    intro key asked
    obtain ⟨path, member, _⟩ := asked
    simp [State.asked, quiet.1, quiet.2] at member
  intro path cached
  simp only [ArchiveCache.isCached, Bool.or_eq_true, Option.isSome_iff_exists] at cached
  rcases cached with ⟨scan, held⟩ | ⟨scan, held⟩
  · exact (covering.covered _ _ _ held).resolve_right (idle _)
  · exact (covering.covered _ _ _ held).resolve_right (idle _)

/-- `/d` was asked for and `/d/x` has changed. `invalidate` has dropped the archive, and
another call has built it again. -/
def rebuilt : State where
  archiveCache :=
    (((ArchiveCache.new 8).insert pathD .tar { started := 0, loaded := smallLoaded }).registerKey pathD
      |>.removeBoth pathD).insert pathD .tar { started := 0, loaded := smallLoaded }
  calls := [.removing [] [pathD], .answered pathD]
  registering := none
  writes := []
  unannounced := []

theorem rebuilt_reached : Run (fun state event => event.Spares state) 8 rebuilt := by
  have asked : Run (fun state event => event.Spares state) 8 _ :=
    .next (.next (.next (.next .start (by trivial) (.getOrCreate _ pathD .tar)) (by trivial)
      (.miss [] [] rfl rfl (by simp [State.start, Call.Loads]))) (by trivial)
      (.scan [] [] rfl smallLoaded)) (by trivial) (.insert [] [] rfl)
  have registered : Run (fun state event => event.Spares state) 8 _ :=
    .next (.next asked (by trivial) (.lock [] [] rfl rfl (.refl _))) (by trivial) (.register rfl)
  have removed : Run (fun state event => event.Spares state) 8 _ :=
    .next (.next (.next (.next registered (by trivial) (.invalidate _ pathX)) (by trivial)
      (.collect [] [] rfl rfl (.refl _) (by decide +kernel))) (by trivial) (.remove [] [] rfl)) (by trivial) (.remove [] [] rfl)
  exact .next (.next (.next (.next removed (by trivial) (.getOrCreate _ pathD .tar)) (by trivial)
    (.miss [.removing [] [pathD]] [] rfl rfl (by simp [State.start, Call.Loads]))) (by trivial)
    (.scan [.removing [] [pathD]] [] rfl smallLoaded)) (by trivial) (.insert [.removing [] [pathD]] [] rfl)

theorem registry_covers_rebuilt : ∃ state : State,
    state.archiveCache.isCached pathD ∧ state.archiveCache.Registered (Path.components pathD) := by
  have spares : (Event.unregister [pathD]).Spares rebuilt := by
    intro victim member _
    rw [List.mem_singleton.mp member]
    exact ⟨pathD, by simp [State.asked, rebuilt, Call.asks], rfl⟩
  have unregistered : Run (fun state event => event.Spares state) 8 _ :=
    .next rebuilt_reached spares (.unregister [] [.answered pathD] rfl rfl)
  have registered : Run (fun state event => event.Spares state) 8 _ :=
    .next (.next unregistered (by trivial) (.lock [] [] rfl rfl (.refl _))) (by trivial) (.register rfl)
  refine ⟨_, ?_, registry_covers registered ⟨rfl, rfl⟩ pathD ?_⟩
  · decide +kernel
  · decide +kernel

/-- The archive that was built again is registered, and then `invalidate` takes its path
out of the registry. -/
theorem rebuilt_victim_is_forgotten : ∃ state : State,
    Run (fun _ _ => True) 8 state ∧ state.Quiet ∧ state.archiveCache.isCached pathD ∧
      ¬ state.archiveCache.Registered (Path.components pathD) := by
  have reached : Run (fun _ _ => True) 8 rebuilt := rebuilt_reached.weaken fun _ _ _ => trivial
  have registered : Run (fun _ _ => True) 8 _ :=
    .next (.next reached trivial (.lock [.removing [] [pathD]] [] rfl rfl (.refl _))) trivial (.register rfl)
  have unregistered : Run (fun _ _ => True) 8 _ := .next registered trivial (.unregister [] [] rfl rfl)
  refine ⟨_, unregistered, ⟨rfl, rfl⟩, by decide +kernel, ?_⟩
  intro asked
  obtain ⟨known, member, _⟩ := asked
  revert known
  decide +kernel

end Raas.Interleaving
