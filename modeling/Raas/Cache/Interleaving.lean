import Raas.Cache.ArchiveCache
import Raas.Data.Runs

namespace Raas.Interleaving

open Data

/-! Calls of the archive cache that run at the same time, step by step.

A step is one operation of `moka`, one scan or one lock section. Only
`register_key` uses `moka` while it holds the lock, so that it alone is a section
of several steps. The registry is a `HashSet`: whoever goes through it may meet the
keys in any order. -/

/-- What a loader found, and how many writes there had been when it began to scan. -/
structure Scan where
  started : Nat
  loaded : ArchiveCache.Loaded

/-- A call that is not inside `register_key`, by what it does next. -/
inductive Call where
  | looking (path : Path) (format : ArchiveFormat)
  /-- The loader of `get_or_create` scans the path. -/
  | loading (path : Path) (format : ArchiveFormat)
  /-- `moka` inserts what the loader found. -/
  | scanned (path : Path) (format : ArchiveFormat) (scan : Scan)
  /-- `get_with` waits for the loader of another call. -/
  | waiting (path : Path) (format : ArchiveFormat)
  | answered (path : Path)
  | matching (changedPath : Path)
  /-- `invalidate` removes the entries that are left to do, then its victims. -/
  | removing (todo : List (Path × ArchiveFormat)) (gone : List Path)

/-- The call inside `register_key`: `retain` has these keys still to look at. -/
structure Registering where
  path : Path
  todo : List Path
  tarMissed : Bool

structure State where
  archiveCache : ArchiveCache Scan
  calls : List Call
  /-- Whoever is here holds the write lock. -/
  registering : Option Registering
  writes : List Path
  /-- Written paths for which `invalidate` has yet to be called. -/
  unannounced : List Path

namespace Call

def asks : Call → Option Path
  | .looking path _ | .loading path _ | .scanned path _ _ | .waiting path _ | .answered path => some path
  | .matching _ | .removing _ _ => none

/-- This call is the one that loads the key. -/
def Loads (path : Path) (format : ArchiveFormat) : Call → Prop
  | .loading other otherFormat | .scanned other otherFormat _ =>
      Path.components other = Path.components path ∧ otherFormat = format
  | _ => False

/-- A loader that is done answers all who wait for it. -/
def wake (path : Path) (format : ArchiveFormat) : Call → Call
  | .waiting other otherFormat =>
      if Path.components other = Path.components path ∧ otherFormat = format then .answered other
      else .waiting other otherFormat
  | call => call

end Call

def removals (gone : List Path) : List (Path × ArchiveFormat) :=
  gone.flatMap fun victim => [(victim, .tar), (victim, .zip)]

inductive Event where
  | getOrCreate (path : Path) (format : ArchiveFormat)
  | lookup (path : Path) (format : ArchiveFormat)
  | scan (path : Path) (format : ArchiveFormat)
  | insert (path : Path) (format : ArchiveFormat) (scan : Scan)
  | lock (path : Path)
  | prune (key : Path)
  | register (path : Path)
  | invalidate (changedPath : Path)
  | collect (changedPath : Path)
  | remove (path : Path) (format : ArchiveFormat)
  | unregister (gone : List Path)
  | evict (path : Path) (format : ArchiveFormat)
  | write (path : Path)

inductive Step : State → Event → State → Prop
  | getOrCreate (state : State) (path : Path) (format : ArchiveFormat) :
      Step state (.getOrCreate path format) { state with calls := state.calls ++ [.looking path format] }
  | hit {state : State} {path : Path} {format : ArchiveFormat} (front back : List Call)
      (here : state.calls = front ++ .looking path format :: back)
      (present : (state.archiveCache.lookup path format).isSome) :
      Step state (.lookup path format) { state with calls := front ++ .answered path :: back }
  | miss {state : State} {path : Path} {format : ArchiveFormat} (front back : List Call)
      (here : state.calls = front ++ .looking path format :: back)
      (absent : state.archiveCache.lookup path format = none) (free : ∀ call ∈ state.calls, ¬ call.Loads path format) :
      Step state (.lookup path format) { state with calls := front ++ .loading path format :: back }
  | wait {state : State} {path : Path} {format : ArchiveFormat} (front back : List Call)
      (here : state.calls = front ++ .looking path format :: back)
      (absent : state.archiveCache.lookup path format = none) (busy : ∃ call ∈ state.calls, call.Loads path format) :
      Step state (.lookup path format) { state with calls := front ++ .waiting path format :: back }
  | scan {state : State} {path : Path} {format : ArchiveFormat} (front back : List Call)
      (here : state.calls = front ++ .loading path format :: back) (loaded : ArchiveCache.Loaded) :
      Step state (.scan path format)
        { state with
          calls := front ++ .scanned path format { started := state.writes.length, loaded } :: back }
  | insert {state : State} {path : Path} {format : ArchiveFormat} {scan : Scan} (front back : List Call)
      (here : state.calls = front ++ .scanned path format scan :: back) :
      Step state (.insert path format scan)
        { state with
          archiveCache := state.archiveCache.insert path format scan
          calls := (front ++ .answered path :: back).map (Call.wake path format) }
  | lock {state : State} {path : Path} {todo : List Path} (front back : List Call)
      (here : state.calls = front ++ .answered path :: back) (unlocked : state.registering = none)
      (order : todo.Perm
        (if state.archiveCache.pruneThreshold < state.archiveCache.cachedKeys.length then state.archiveCache.cachedKeys
        else [])) :
      Step state (.lock path)
        { state with calls := front ++ back, registering := some { path, todo, tarMissed := false } }
  | keepTar {state : State} {path key : Path} {todo : List Path}
      (inside : state.registering = some { path, todo := key :: todo, tarMissed := false })
      (present : (state.archiveCache.lookup key .tar).isSome) :
      Step state (.prune key) { state with registering := some { path, todo, tarMissed := false } }
  | missTar {state : State} {path key : Path} {todo : List Path}
      (inside : state.registering = some { path, todo := key :: todo, tarMissed := false })
      (absent : state.archiveCache.lookup key .tar = none) :
      Step state (.prune key) { state with registering := some { path, todo := key :: todo, tarMissed := true } }
  | keepZip {state : State} {path key : Path} {todo : List Path}
      (inside : state.registering = some { path, todo := key :: todo, tarMissed := true })
      (present : (state.archiveCache.lookup key .zip).isSome) :
      Step state (.prune key) { state with registering := some { path, todo, tarMissed := false } }
  | missZip {state : State} {path key : Path} {todo : List Path}
      (inside : state.registering = some { path, todo := key :: todo, tarMissed := true })
      (absent : state.archiveCache.lookup key .zip = none) :
      Step state (.prune key)
        { state with
          archiveCache := state.archiveCache.unregister [key]
          registering := some { path, todo, tarMissed := false } }
  | register {state : State} {path : Path}
      (inside : state.registering = some { path, todo := [], tarMissed := false }) :
      Step state (.register path)
        { state with
          archiveCache :=
            { state.archiveCache with cachedKeys := ArchiveCache.insertKey state.archiveCache.cachedKeys path }
          registering := none }
  | invalidate (state : State) (changedPath : Path) :
      Step state (.invalidate changedPath)
        { state with
          calls := state.calls ++ [.matching changedPath]
          unannounced := state.unannounced.filter fun path => decide (path ≠ changedPath) }
  | spare {state : State} {changedPath : Path} (front back : List Call)
      (here : state.calls = front ++ .matching changedPath :: back) (unlocked : state.registering = none)
      (none : state.archiveCache.victims changedPath = []) :
      Step state (.collect changedPath) { state with calls := front ++ back }
  | collect {state : State} {changedPath : Path} {gone : List Path} (front back : List Call)
      (here : state.calls = front ++ .matching changedPath :: back) (unlocked : state.registering = none)
      (order : gone.Perm (state.archiveCache.victims changedPath)) (some : gone ≠ []) :
      Step state (.collect changedPath) { state with calls := front ++ .removing (removals gone) gone :: back }
  | remove {state : State} {path : Path} {format : ArchiveFormat} {todo : List (Path × ArchiveFormat)}
      {gone : List Path} (front back : List Call)
      (here : state.calls = front ++ .removing ((path, format) :: todo) gone :: back) :
      Step state (.remove path format)
        { state with
          archiveCache := state.archiveCache.remove path format
          calls := front ++ .removing todo gone :: back }
  | unregister {state : State} {gone : List Path} (front back : List Call)
      (here : state.calls = front ++ .removing [] gone :: back) (unlocked : state.registering = none) :
      Step state (.unregister gone)
        { state with archiveCache := state.archiveCache.unregister gone, calls := front ++ back }
  | evict (state : State) (path : Path) (format : ArchiveFormat) :
      Step state (.evict path format) { state with archiveCache := state.archiveCache.remove path format }
  | write (state : State) (path : Path) :
      Step state (.write path)
        { state with writes := state.writes ++ [path], unannounced := state.unannounced ++ [path] }

def State.start (maxCapacity : Nat) : State where
  archiveCache := .new maxCapacity
  calls := []
  registering := none
  writes := []
  unannounced := []

def Run (condition : State → Event → Prop) (maxCapacity : Nat) (state : State) : Prop :=
  Reaches Step condition (State.start maxCapacity) state

def State.Quiet (state : State) : Prop := state.calls = [] ∧ state.registering = none

/-- The paths of the `get_or_create` calls in flight. -/
def State.asked (state : State) : List Path :=
  state.registering.toList.map Registering.path ++ state.calls.filterMap Call.asks

/-- A `get_or_create` of this path is in flight. -/
def State.InFlight (state : State) (key : List Component) : Prop :=
  ∃ path ∈ state.asked, Path.components path = key

def pathD : Path := [47, 100]
def pathX : Path := [47, 100, 47, 120]
def smallLoaded : ArchiveCache.Loaded := .ok (.tar Tar.smallArchive)

section Frames

variable {state after : State} {front back : List Call} {call next : Call} {path : Path}

theorem asks_wake (path : Path) (format : ArchiveFormat) (call : Call) : (call.wake path format).asks = call.asks := by
  cases call with
  | waiting other otherFormat =>
      rw [Call.wake]
      split
      · rfl
      · rfl
  | _ => rfl

theorem filterMap_wake (path : Path) (format : ArchiveFormat) (calls : List Call) :
    (calls.map (Call.wake path format)).filterMap Call.asks = calls.filterMap Call.asks := by
  rw [List.filterMap_map]
  exact List.filterMap_congr fun call _ => asks_wake path format call

theorem asked_replaced (here : state.calls = front ++ call :: back) (there : after.calls = front ++ next :: back)
    (same : next.asks = call.asks) (registering : after.registering = state.registering) :
    state.asked ⊆ after.asked := by
  simp only [State.asked, here, there, registering, List.filterMap_append, List.filterMap_cons, same]
  exact List.Subset.refl _

theorem asked_ended (here : state.calls = front ++ call :: back) (there : after.calls = front ++ back)
    (other : call.asks = none) (registering : after.registering = state.registering) :
    state.asked ⊆ after.asked := by
  simp only [State.asked, here, there, registering, List.filterMap_append, List.filterMap_cons, other]
  exact List.Subset.refl _

theorem asked_locked (here : state.calls = front ++ call :: back) (there : after.calls = front ++ back)
    (asks : call.asks = some path) (unlocked : state.registering = none) {registering : Registering}
    (locked : after.registering = some registering) (own : registering.path = path) :
    state.asked ⊆ after.asked := by
  simp only [State.asked, here, there, unlocked, locked, List.filterMap_append, List.filterMap_cons, asks,
    Option.toList_some, Option.toList_none, List.map_cons, List.map_nil, own, List.nil_append, List.singleton_append]
  exact List.perm_middle.subset

theorem asked_pruned {before later : Registering} (inside : state.registering = some before)
    (inside' : after.registering = some later) (same : later.path = before.path) (calls : after.calls = state.calls) :
    state.asked ⊆ after.asked := by
  simp only [State.asked, inside, inside', same, calls, Option.toList_some, List.map_cons]
  exact List.Subset.refl _

theorem InFlight.mono {key : List Component} (inFlight : state.InFlight key) (asked : state.asked ⊆ after.asked) :
    after.InFlight key := by
  obtain ⟨path, member, same⟩ := inFlight
  exact ⟨path, asked member, same⟩

end Frames

end Raas.Interleaving
