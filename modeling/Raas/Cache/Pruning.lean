import Raas.Cache.Exactness
import Raas.Cache.Registry
import Raas.Cache.Sequential

namespace Raas.Interleaving

open Data

/-! How large the registry grows, and what a prune may forget. -/

/-- The registered paths that the prune under way has looked at and kept. -/
def State.found (state : State) : List Path :=
  match state.registering with
  | some registering =>
      state.archiveCache.cachedKeys.filter fun key => !registering.todo.any fun other => Path.same key other
  | none => []

/-- A prune finds no more of the registered paths than the cache may hold entries. -/
def Event.Sparse (state : State) : Event → Prop
  | .prune key =>
      ∀ registering, state.registering = some registering →
        (state.archiveCache.lookup key (if registering.tarMissed then .zip else .tar)).isSome →
          state.found.length < state.archiveCache.maxCapacity
  | _ => True

/-- A step of an `invalidate`. -/
def Event.Invalidates : Event → Prop
  | .invalidate _ | .collect _ | .remove _ _ | .unregister _ => True
  | _ => False

structure Bounded (maxCapacity : Nat) (state : State) : Prop where
  capacity : state.archiveCache.maxCapacity = maxCapacity
  distinct : state.archiveCache.Distinct
  bound : state.archiveCache.cachedKeys.length ≤ state.archiveCache.pruneThreshold + 1
  /-- Whoever is about to register either did not have to prune or keeps few enough paths. -/
  inside : state.registering ≠ none →
    state.archiveCache.cachedKeys.length ≤ state.archiveCache.pruneThreshold ∨ state.found.length ≤ maxCapacity

section Steps

variable {maxCapacity : Nat} {state after : State} {event : Event} {path key : Path} {todo : List Path}

theorem capacity_le_threshold (archiveCache : ArchiveCache Scan) (fits : archiveCache.maxCapacity < u64Size) :
    archiveCache.maxCapacity ≤ archiveCache.pruneThreshold := by
  rw [ArchiveCache.pruneThreshold]
  omega

theorem Bounded.start (maxCapacity : Nat) : Bounded maxCapacity (State.start maxCapacity) where
  capacity := rfl
  distinct := List.nodup_nil
  bound := Nat.zero_le _
  inside := fun locked => absurd rfl locked

theorem Bounded.frame (bounded : Bounded maxCapacity state)
    (keys : after.archiveCache.cachedKeys = state.archiveCache.cachedKeys)
    (capacity : after.archiveCache.maxCapacity = state.archiveCache.maxCapacity)
    (registering : after.registering = state.registering) : Bounded maxCapacity after := by
  have threshold : after.archiveCache.pruneThreshold = state.archiveCache.pruneThreshold := by
    rw [ArchiveCache.pruneThreshold, capacity, ← ArchiveCache.pruneThreshold]
  have found : after.found = state.found := by
    rw [State.found, State.found, registering, keys]
  refine ⟨capacity.trans bounded.capacity, ?_, ?_, ?_⟩
  · rw [ArchiveCache.Distinct, keys]
    exact bounded.distinct
  · rw [keys, threshold]
    exact bounded.bound
  · rw [keys, threshold, registering, found]
    exact bounded.inside

/-- One more path has been looked at, so that at most one more has been found. -/
theorem found_next {keys : List Path} (distinct : (keys.map Path.components).Nodup) (key : Path) (todo : List Path) :
    (keys.filter fun known => !todo.any fun other => Path.same known other).length ≤
      (keys.filter fun known => !(key :: todo).any fun other => Path.same known other).length + 1 := by
  rw [← List.countP_eq_length_filter, ← List.countP_eq_length_filter]
  induction keys with
  | nil => exact Nat.zero_le _
  | cons known keys ih =>
      rw [List.map_cons, List.nodup_cons] at distinct
      rw [List.countP_cons, List.countP_cons]
      by_cases own : Path.same known key = true
      · -- no other path is the one that was looked at
        have others : (keys.countP fun known => !todo.any fun other => Path.same known other) =
            keys.countP fun known => !(key :: todo).any fun other => Path.same known other := by
          apply List.countP_congr
          intro other member
          have different : Path.same other key = false := by
            rw [← Bool.not_eq_true, ArchiveCache.same_iff]
            intro same
            exact distinct.1 (List.mem_map.mpr ⟨other, member, same.trans (ArchiveCache.same_iff.mp own).symm⟩)
          rw [List.any_cons, different, Bool.false_or]
        rw [others]
        split <;> split <;> omega
      · rw [Bool.not_eq_true] at own
        have later := ih distinct.2
        rw [List.any_cons, own, Bool.false_or]
        omega

theorem Bounded.lock (bounded : Bounded maxCapacity state) {calls : List Call}
    (order : todo.Perm
      (if state.archiveCache.pruneThreshold < state.archiveCache.cachedKeys.length then state.archiveCache.cachedKeys
      else [])) :
    Bounded maxCapacity { state with calls, registering := some { path, todo, tarMissed := false } } := by
  refine ⟨bounded.capacity, bounded.distinct, bounded.bound, fun _ => ?_⟩
  by_cases large : state.archiveCache.pruneThreshold < state.archiveCache.cachedKeys.length
  · apply Or.inr
    rw [if_pos large] at order
    simp only [State.found]
    have none : (state.archiveCache.cachedKeys.filter fun key => !todo.any fun other => Path.same key other) = [] := by
      rw [List.filter_eq_nil_iff]
      intro key member
      rw [Bool.not_eq_true, Bool.not_eq_false']
      exact List.any_eq_true.mpr ⟨key, order.mem_iff.mpr member, ArchiveCache.same_iff.mpr rfl⟩
    rw [none]
    exact Nat.zero_le _
  · exact .inl (Nat.le_of_not_lt large)

theorem Bounded.keep (bounded : Bounded maxCapacity state) {tarMissed : Bool}
    (inside : state.registering = some { path, todo := key :: todo, tarMissed })
    (present : (state.archiveCache.lookup key (if tarMissed then .zip else .tar)).isSome)
    (sparse : (Event.prune key).Sparse state) :
    Bounded maxCapacity { state with registering := some { path, todo, tarMissed := false } } := by
  refine ⟨bounded.capacity, bounded.distinct, bounded.bound, fun _ => .inr ?_⟩
  have fewer := sparse _ inside present
  rw [bounded.capacity] at fewer
  have next := found_next bounded.distinct key todo
  simp only [State.found, inside] at fewer ⊢
  omega

theorem Bounded.missTar (bounded : Bounded maxCapacity state)
    (inside : state.registering = some { path, todo := key :: todo, tarMissed := false }) :
    Bounded maxCapacity { state with registering := some { path, todo := key :: todo, tarMissed := true } } := by
  have found : State.found { state with registering := some { path, todo := key :: todo, tarMissed := true } } =
      state.found := by
    simp only [State.found, inside]
  refine ⟨bounded.capacity, bounded.distinct, bounded.bound, fun _ => ?_⟩
  rw [found]
  exact bounded.inside (by simp [inside])

theorem Bounded.missZip (bounded : Bounded maxCapacity state)
    (inside : state.registering = some { path, todo := key :: todo, tarMissed := true }) :
    Bounded maxCapacity
      { state with
        archiveCache := state.archiveCache.unregister [key]
        registering := some { path, todo, tarMissed := false } } := by
  have shorter : (state.archiveCache.unregister [key]).cachedKeys.length ≤ state.archiveCache.cachedKeys.length :=
    List.length_filter_le _ _
  have found : State.found
      { state with
        archiveCache := state.archiveCache.unregister [key]
        registering := some { path, todo, tarMissed := false } } = state.found := by
    simp only [State.found, inside, ArchiveCache.unregister, List.filter_filter, List.any_cons, List.any_nil,
      Bool.or_false, Bool.not_or, Path.same, eq_comm, Bool.and_comm]
  refine ⟨bounded.capacity, ArchiveCache.filter_distinct bounded.distinct _, ?_, fun _ => ?_⟩
  · exact Nat.le_trans shorter bounded.bound
  · rw [found]
    exact (bounded.inside (by simp [inside])).imp_left (Nat.le_trans shorter)

theorem Bounded.register (bounded : Bounded maxCapacity state) (fits : maxCapacity < u64Size)
    (inside : state.registering = some { path, todo := [], tarMissed := false }) :
    Bounded maxCapacity
      { state with
        archiveCache :=
          { state.archiveCache with cachedKeys := ArchiveCache.insertKey state.archiveCache.cachedKeys path }
        registering := none } := by
  refine ⟨bounded.capacity, ArchiveCache.insertKey_distinct bounded.distinct path, ?_, fun locked => absurd rfl locked⟩
  have small : state.archiveCache.cachedKeys.length ≤ state.archiveCache.pruneThreshold := by
    have threshold := capacity_le_threshold state.archiveCache (by rw [bounded.capacity]; exact fits)
    rw [bounded.capacity] at threshold
    rcases bounded.inside (by simp [inside]) with unpruned | kept
    · exact unpruned
    · have all : state.found = state.archiveCache.cachedKeys := by
        simp [State.found, inside]
      rw [all] at kept
      exact Nat.le_trans kept threshold
  have grown : (ArchiveCache.insertKey state.archiveCache.cachedKeys path).length ≤
      state.archiveCache.cachedKeys.length + 1 := by
    unfold ArchiveCache.insertKey
    split
    · exact Nat.le_succ _
    · rw [List.length_append, List.length_singleton]
  exact Nat.le_trans grown (Nat.add_le_add_right small 1)

theorem Bounded.unregister (bounded : Bounded maxCapacity state) (unlocked : state.registering = none)
    {gone : List Path} {calls : List Call} :
    Bounded maxCapacity { state with archiveCache := state.archiveCache.unregister gone, calls } := by
  have shorter : (state.archiveCache.unregister gone).cachedKeys.length ≤ state.archiveCache.cachedKeys.length :=
    List.length_filter_le _ _
  refine ⟨bounded.capacity, ArchiveCache.filter_distinct bounded.distinct _, ?_, fun locked => absurd unlocked locked⟩
  exact Nat.le_trans shorter bounded.bound

theorem Bounded.step (bounded : Bounded maxCapacity state) (fits : maxCapacity < u64Size)
    (sparse : event.Sparse state) (taken : Step state event after) : Bounded maxCapacity after := by
  cases taken with
  | lock front back here unlocked order => exact bounded.lock order
  | keepTar inside present => exact bounded.keep inside present sparse
  | keepZip inside present => exact bounded.keep inside present sparse
  | missTar inside absent => exact bounded.missTar inside
  | missZip inside absent => exact bounded.missZip inside
  | register inside => exact bounded.register fits inside
  | unregister front back here unlocked => exact bounded.unregister unlocked
  | getOrCreate path format => exact bounded.frame rfl rfl rfl
  | hit front back here present => exact bounded.frame rfl rfl rfl
  | miss front back here absent free => exact bounded.frame rfl rfl rfl
  | wait front back here absent busy => exact bounded.frame rfl rfl rfl
  | scan front back here loaded => exact bounded.frame rfl rfl rfl
  | insert front back here => exact bounded.frame rfl rfl rfl
  | invalidate changedPath => exact bounded.frame rfl rfl rfl
  | spare front back here unlocked none => exact bounded.frame rfl rfl rfl
  | collect front back here unlocked order some => exact bounded.frame rfl rfl rfl
  | remove front back here => exact bounded.frame rfl rfl rfl
  | evict path format => exact bounded.frame rfl rfl rfl
  | write path => exact bounded.frame rfl rfl rfl

end Steps

/-- Calls, evictions and prunes in any order: the registry stays within its threshold
and one more path, as long as no prune finds more registered paths than the cache may
hold, and a prune never loses a path that has an entry: without invalidations every
path with an entry is in the registry whenever no `get_or_create` is in flight. -/
theorem pruning_bounds_and_keeps (maxCapacity : UInt64) :
    (∀ state, Run (fun state event => event.Sparse state) maxCapacity.toNat state →
      state.archiveCache.cachedKeys.length ≤ max (min (maxCapacity.toNat * 4) (u64Size - 1)) 8 + 1) ∧
    ∀ state, Run (fun _ event => ¬ event.Invalidates) maxCapacity.toNat state → state.asked = [] →
      ∀ path, state.archiveCache.isCached path → state.archiveCache.Registered (Path.components path) := by
  constructor
  · intro state reached
    have bounded : Bounded maxCapacity.toNat state := by
      apply reached.invariant (.start maxCapacity.toNat)
      intro before event after bounded sparse taken
      exact bounded.step maxCapacity.toNat_lt sparse taken
    have bound := bounded.bound
    rw [ArchiveCache.pruneThreshold, bounded.capacity] at bound
    exact bound
  · intro state reached idle path cached
    have covering : Covering state := by
      apply reached.invariant (.start maxCapacity.toNat)
      intro before event after covering quiet taken
      have spares : event.Spares before := by
        cases event with
        | unregister gone => exact absurd trivial quiet
        | _ => trivial
      exact covering.step spares taken
    have registered : ∀ key, ¬ state.InFlight key := by
      intro key asking
      obtain ⟨asked, member, _⟩ := asking
      rw [idle] at member
      cases member
    simp only [ArchiveCache.isCached, Bool.or_eq_true, Option.isSome_iff_exists] at cached
    rcases cached with ⟨scan, held⟩ | ⟨scan, held⟩
    · exact (covering.covered _ _ _ held).resolve_right (registered _)
    · exact (covering.covered _ _ _ held).resolve_right (registered _)

/-! Nine calls whose archives are dropped but for the last, and a tenth that prunes. -/

/-- Nothing invalidates, and prunes are sparse. -/
def Event.Plain (state : State) (event : Event) : Prop := event.Sparse state ∧ ¬ event.Invalidates

/-- Paths of archives that have all been evicted. -/
def evicted (keys : List Path) : State :=
  { State.start 1 with archiveCache := { ArchiveCache.new 1 with cachedKeys := keys } }

/-- A call of `get_or_create` for a path that is not in the cache, up to the lock. -/
theorem inserted_plain {state : State} (quiet : state.Quiet) {path : Path}
    (absent : state.archiveCache.lookup path .tar = none) :
    Reaches Step (fun state event => event.Plain state) state
      { state with
        archiveCache := state.archiveCache.insert path .tar { started := state.writes.length, loaded := smallLoaded }
        calls := [.answered path] } := by
  obtain ⟨calls, registering⟩ := quiet
  have asked : Reaches Step (fun state event => event.Plain state) state _ :=
    .single (by exact ⟨trivial, id⟩) (.getOrCreate state path .tar)
  have noLoader : ∀ call ∈ state.calls ++ [.looking path .tar], ¬ call.Loads path .tar := by
    intro call member
    rw [calls, List.nil_append, List.mem_singleton] at member
    rw [member]
    exact id
  have missed := asked.next (by exact ⟨trivial, id⟩) (.miss state.calls [] rfl absent noLoader)
  have scanned := missed.next (by exact ⟨trivial, id⟩) (.scan state.calls [] rfl smallLoaded)
  have inserted := scanned.next (by exact ⟨trivial, id⟩) (.insert state.calls [] rfl)
  rw [calls] at inserted
  exact inserted

theorem evicted_next {keys : List Path} (few : keys.length ≤ 8) (path : Path) :
    Reaches Step (fun state event => event.Plain state) (evicted keys) (evicted (ArchiveCache.insertKey keys path)) := by
  have within : ¬ 8 < keys.length := Nat.not_lt.mpr few
  have inserted := inserted_plain (show (evicted keys).Quiet from ⟨rfl, rfl⟩)
    (show (evicted keys).archiveCache.lookup path .tar = none from rfl)
  have locked := inserted.next (by exact ⟨trivial, id⟩)
    (.lock [] [] rfl rfl (show [].Perm (if 8 < keys.length then keys else []) by rw [if_neg within]))
  have registered := locked.next (by exact ⟨trivial, id⟩) (.register rfl)
  have dropped := registered.next (by exact ⟨trivial, id⟩) (.evict _ path .tar)
  have empty : (fun key other => if key = Path.components path ∧ other = ArchiveFormat.tar then none
      else if key = Path.components path ∧ other = .tar then some (⟨0, smallLoaded⟩ : Scan) else none) =
        fun _ _ => none := by
    funext key other
    split_ifs <;> rfl
  have state := congrArg (fun cache =>
    ({ State.start 1 with
      archiveCache := { cache, cachedKeys := ArchiveCache.insertKey keys path, maxCapacity := 1 } } : State)) empty
  exact (congrArg (Reaches Step (fun state event => event.Plain state) (evicted keys)) state).mp dropped

theorem evicted_run (paths : List Path) {keys : List Path} (few : keys.length + paths.length ≤ 9) :
    Reaches Step (fun state event => event.Plain state) (evicted keys)
      (evicted (paths.foldl ArchiveCache.insertKey keys)) := by
  induction paths generalizing keys with
  | nil => exact .start
  | cons path paths ih =>
      rw [List.length_cons] at few
      have longer := ArchiveCache.insertKey_length keys path
      exact (evicted_next (by omega) path).trans (ih (by omega))

/-- `retain` drops the keys that have no archive. -/
theorem dropped_plain {state : State} {path : Path} {todo : List Path}
    (inside : state.registering = some { path, todo, tarMissed := false })
    (gone : ∀ key ∈ todo, state.archiveCache.isCached key = false) :
    Reaches Step (fun state event => event.Plain state) state
      { state with
        archiveCache := pruned state.archiveCache todo
        registering := some { path, todo := [], tarMissed := false } } := by
  induction todo generalizing state with
  | nil =>
      rw [pruned_nil, ← inside]
      exact .start
  | cons key todo ih =>
      have missing := gone key List.mem_cons_self
      have absent := missing
      simp only [ArchiveCache.isCached, Bool.or_eq_false_iff, Option.isSome_eq_false_iff,
        Option.isNone_iff_eq_none] at absent
      have tarSparse : (Event.prune key).Plain state := by
        refine ⟨fun registering here present => ?_, id⟩
        obtain rfl := Option.some.inj (here.symm.trans inside)
        rw [if_neg Bool.false_ne_true, absent.1] at present
        cases present
      have missed : Reaches Step (fun state event => event.Plain state) state _ :=
        .single tarSparse (.missTar inside absent.1)
      have zipSparse : (Event.prune key).Plain
          { state with registering := some { path, todo := key :: todo, tarMissed := true } } := by
        refine ⟨fun registering here present => ?_, id⟩
        obtain rfl := Option.some.inj here.symm
        change (state.archiveCache.lookup key .zip).isSome = true at present
        rw [absent.2] at present
        cases present
      have dropped := missed.next zipSparse (.missZip rfl absent.2)
      rw [pruned_gone missing]
      exact dropped.trans (ih rfl fun other member => gone other (List.mem_cons_of_mem key member))

def crowd : List Path := [[47, 49], [47, 50], [47, 51], [47, 52], [47, 53], [47, 54], [47, 55], [47, 56]]

/-- Nine registered paths of which the last one has an archive. -/
def crowded : State :=
  { State.start 1 with
    archiveCache :=
      { (ArchiveCache.new 1).insert pathX .tar ⟨0, smallLoaded⟩ with cachedKeys := crowd ++ [pathX] } }

theorem crowded_plain : Reaches Step (fun state event => event.Plain state) (State.start 1) crowded := by
  have eight := evicted_run crowd (show ([] : List Path).length + crowd.length ≤ 9 by decide)
  have distinct : crowd.foldl ArchiveCache.insertKey [] = crowd := by decide
  rw [distinct] at eight
  have inserted := eight.trans (inserted_plain (show (evicted crowd).Quiet from ⟨rfl, rfl⟩)
    (show (evicted crowd).archiveCache.lookup pathX .tar = none from rfl))
  have locked := inserted.next (by exact ⟨trivial, id⟩) (.lock [] [] rfl rfl (.refl []))
  have registered := locked.next (by exact ⟨trivial, id⟩) (.register rfl)
  exact registered

/-- The prune comes to the path that has an archive first. -/
theorem pruned_plain :
    ∃ state, Reaches Step (fun state event => event.Plain state) crowded state ∧ state.Quiet ∧
      state.archiveCache.cachedKeys = [pathX, pathD] ∧ state.archiveCache.isCached pathX = true := by
  have inserted := inserted_plain (show crowded.Quiet from ⟨rfl, rfl⟩)
    (show crowded.archiveCache.lookup pathD .tar = none by decide)
  have locked := inserted.next (by exact ⟨trivial, id⟩)
    (.lock [] [] rfl rfl (show (pathX :: crowd).Perm (crowd ++ [pathX]) by decide))
  have kept := locked.next (by exact ⟨fun registering here _ => by obtain rfl := Option.some.inj here; decide, id⟩)
    (.keepTar rfl (by decide))
  have dropped := kept.trans (dropped_plain rfl (by decide))
  have registered := dropped.next (by exact ⟨trivial, id⟩) (.register rfl)
  exact ⟨_, registered, ⟨rfl, rfl⟩, by decide, by decide⟩

/-- The registry grows to its bound and is pruned down to the path that has an archive. -/
theorem pruning_bounds_and_keeps_one :
    ∃ state, Reaches Step (fun state event => event.Plain state) (State.start 1) crowded ∧
      Reaches Step (fun state event => event.Plain state) crowded state ∧
      crowded.archiveCache.cachedKeys.length = 9 ∧ crowded.archiveCache.cachedKeys.length ≤ 9 ∧
      state.archiveCache.cachedKeys.length = 2 ∧ state.archiveCache.Registered (Path.components pathX) := by
  obtain ⟨state, pruned, ⟨calls, registering⟩, keys, cached⟩ := pruned_plain
  have sparse : ∀ before event, Event.Plain before event → event.Sparse before := fun _ _ => And.left
  have bound := (pruning_bounds_and_keeps 1).1 crowded (crowded_plain.weaken sparse)
  have idle : state.asked = [] := by
    rw [State.asked, calls, registering]
    rfl
  have quiet := (crowded_plain.trans pruned).weaken fun _ _ => And.right
  have registered := (pruning_bounds_and_keeps 1).2 state quiet idle pathX cached
  exact ⟨state, crowded_plain, pruned, rfl, bound, by rw [keys]; rfl, registered⟩

end Raas.Interleaving
