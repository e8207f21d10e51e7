import Raas.Cache.Exactness
import Raas.Cache.Interleaving

namespace Raas

/-! Calls that nothing interrupts do what the whole functions do. -/

namespace ArchiveCache

/-- The same cache with something else made of each entry. -/
def map (f : α → β) (self : ArchiveCache α) : ArchiveCache β where
  cache := fun key format => (self.cache key format).map f
  cachedKeys := self.cachedKeys
  maxCapacity := self.maxCapacity

section Map

variable {f : α → β} {self : ArchiveCache α}

theorem map_insert (path : Path) (format : ArchiveFormat) (value : α) :
    (self.insert path format value).map f = (self.map f).insert path format (f value) := by
  simp only [map, insert, ArchiveCache.mk.injEq, and_true]
  funext key other
  split <;> rfl

theorem map_remove (path : Path) (format : ArchiveFormat) :
    (self.remove path format).map f = (self.map f).remove path format := by
  simp only [map, remove, ArchiveCache.mk.injEq, and_true]
  funext key other
  split <;> rfl

theorem map_getWith (path : Path) (format : ArchiveFormat) (loaded : α) :
    (self.getWith path format loaded).2.map f = ((self.map f).getWith path format (f loaded)).2 := by
  have held : (self.map f).lookup path format = (self.lookup path format).map f := rfl
  rw [getWith, getWith, held]
  cases self.lookup path format with
  | none => exact map_insert path format loaded
  | some value => rfl

theorem map_registerKey (path : Path) : (self.registerKey path).map f = (self.map f).registerKey path := by
  have cached : (self.map f).isCached = self.isCached := by
    funext known
    simp [isCached, lookup, map]
  rw [registerKey, registerKey, cached]
  rfl

theorem map_removeAll (gone : List Path) :
    (gone.foldl removeBoth self).map f = gone.foldl removeBoth (self.map f) := by
  induction gone generalizing self with
  | nil => rfl
  | cons path gone ih => rw [List.foldl_cons, List.foldl_cons, ih, removeBoth, map_remove, map_remove, removeBoth]

theorem map_invalidate (changedPath : Path) :
    (self.invalidate changedPath).2.map f = ((self.map f).invalidate changedPath).2 := by
  have victims : (self.map f).victims changedPath = self.victims changedPath := rfl
  rw [invalidate, invalidate, victims]
  split
  · rfl
  · rw [← map_removeAll]
    rfl

end Map

/-- Entries are removed one at a time. -/
def removeOne (self : ArchiveCache α) (entry : Path × ArchiveFormat) : ArchiveCache α := self.remove entry.1 entry.2

theorem foldl_removals {self : ArchiveCache Interleaving.Scan} (gone : List Path) :
    (Interleaving.removals gone).foldl removeOne self = gone.foldl removeBoth self := by
  induction gone generalizing self with
  | nil => rfl
  | cons path gone ih => exact ih

theorem removeBoth_comm (self : ArchiveCache α) (one other : Path) :
    (self.removeBoth one).removeBoth other = (self.removeBoth other).removeBoth one := by
  simp only [removeBoth, remove, ArchiveCache.mk.injEq, and_true]
  funext key format
  split_ifs <;> rfl

theorem removeAll_perm {self : ArchiveCache α} {gone others : List Path} (order : gone.Perm others) :
    gone.foldl removeBoth self = others.foldl removeBoth self :=
  order.foldl_eq' (fun one _ other _ self => removeBoth_comm self one other) self

theorem unregister_perm {self : ArchiveCache α} {gone others : List Path} (order : gone.Perm others) :
    self.unregister gone = self.unregister others := by
  simp only [unregister, order.any_eq]

end ArchiveCache

namespace Interleaving

open Data

/-- What `retain` leaves of the registry once it has looked at these keys. -/
def pruned (archiveCache : ArchiveCache Scan) (todo : List Path) : ArchiveCache Scan :=
  { archiveCache with
    cachedKeys := archiveCache.cachedKeys.filter fun key =>
      !todo.any fun gone => !archiveCache.isCached gone && Path.same gone key }

section Pruning

variable {archiveCache : ArchiveCache Scan} {key : Path} {todo : List Path}

theorem pruned_nil (archiveCache : ArchiveCache Scan) : pruned archiveCache [] = archiveCache := by
  simp [pruned]

theorem pruned_kept (cached : archiveCache.isCached key = true) :
    pruned archiveCache (key :: todo) = pruned archiveCache todo := by
  simp [pruned, cached]

theorem pruned_gone (missing : archiveCache.isCached key = false) :
    pruned archiveCache (key :: todo) = pruned (archiveCache.unregister [key]) todo := by
  have same : (archiveCache.unregister [key]).isCached = archiveCache.isCached := rfl
  simp only [pruned, same]
  simp only [ArchiveCache.unregister, List.any_cons, missing, Bool.not_false, Bool.true_and, List.filter_filter,
    List.any_nil, Bool.or_false, Bool.not_or]
  simp only [Path.same, eq_comm, Bool.and_comm]

theorem isCached_same {other : Path} (same : Path.components key = Path.components other) :
    archiveCache.isCached key = archiveCache.isCached other := by
  rw [ArchiveCache.isCached, ArchiveCache.isCached, ArchiveCache.lookup, ArchiveCache.lookup, ArchiveCache.lookup,
    ArchiveCache.lookup, same]

theorem pruned_all (archiveCache : ArchiveCache Scan) :
    pruned archiveCache archiveCache.cachedKeys =
      { archiveCache with cachedKeys := archiveCache.cachedKeys.filter archiveCache.isCached } := by
  have kept : ∀ known ∈ archiveCache.cachedKeys,
      (!archiveCache.cachedKeys.any fun gone => !archiveCache.isCached gone && Path.same gone known) =
        archiveCache.isCached known := by
    intro known member
    cases cached : archiveCache.isCached known with
    | false =>
        rw [Bool.not_eq_false', List.any_eq_true]
        exact ⟨known, member, by simp [cached, Path.same]⟩
    | true =>
        rw [Bool.not_eq_true', List.any_eq_false]
        intro gone _ dropped
        rw [Bool.and_eq_true, ArchiveCache.same_iff] at dropped
        rw [isCached_same dropped.2, cached] at dropped
        simp at dropped
  rw [pruned, List.filter_congr kept]

theorem pruned_perm {others : List Path} (order : todo.Perm others) :
    pruned archiveCache todo = pruned archiveCache others := by
  simp only [pruned, order.any_eq]

theorem registerKey_pruned (archiveCache : ArchiveCache Scan) (path : Path) :
    archiveCache.registerKey path =
      let todo := if archiveCache.pruneThreshold < archiveCache.cachedKeys.length then archiveCache.cachedKeys else []
      { archiveCache with cachedKeys := ArchiveCache.insertKey (pruned archiveCache todo).cachedKeys path } := by
  unfold ArchiveCache.registerKey
  dsimp only
  split
  · rw [pruned_all]
  · rw [pruned_nil]

end Pruning

/-- Calls, evictions and writes begin only while no call is under way, and a loader answers
what `create_archive` does. -/
def Event.Alone (state : State) : Event → Prop
  | .getOrCreate _ _ | .invalidate _ | .evict _ _ | .write _ => state.Quiet
  | .insert _ _ found => ∃ built : Except ArchiveError Archive, found.loaded = built.mapError ArchiveError.toString
  | _ => True

def Follows : State → State → Prop := Reaches Step fun state event => event.Alone state

section Alone

variable {state : State} {path : Path}

theorem prune_alone {todo : List Path}
    (inside : state.registering = some { path, todo, tarMissed := false }) :
    Follows state
      { state with
        archiveCache := pruned state.archiveCache todo
        registering := some { path, todo := [], tarMissed := false } } := by
  induction todo generalizing state with
  | nil =>
      rw [pruned_nil, ← inside]
      exact .start
  | cons key todo ih =>
      cases tar : state.archiveCache.lookup key .tar with
      | some scan =>
          have cached : state.archiveCache.isCached key = true := by simp [ArchiveCache.isCached, tar]
          rw [pruned_kept cached]
          have kept : (state.archiveCache.lookup key .tar).isSome := by simp [tar]
          have looked : Follows state _ := .single (by trivial) (.keepTar inside kept)
          exact looked.trans (ih rfl)
      | none =>
          have missed : Follows state _ := .single (by trivial) (.missTar inside tar)
          cases zip : state.archiveCache.lookup key .zip with
          | some scan =>
              have cached : state.archiveCache.isCached key = true := by simp [ArchiveCache.isCached, zip]
              rw [pruned_kept cached]
              have kept : (state.archiveCache.lookup key .zip).isSome := by simp [zip]
              have looked : Follows state _ := missed.next (by trivial) (.keepZip rfl kept)
              exact looked.trans (ih rfl)
          | none =>
              have missing : state.archiveCache.isCached key = false := by simp [ArchiveCache.isCached, tar, zip]
              rw [pruned_gone missing]
              have dropped : Follows state _ := missed.next (by trivial) (.missZip rfl zip)
              exact dropped.trans (ih rfl)

theorem register_alone {calls : List Call} (here : state.calls = calls ++ [.answered path])
    (unlocked : state.registering = none) :
    Follows state
      { state with archiveCache := state.archiveCache.registerKey path, calls, registering := none } := by
  have locked : Follows state _ := .single (by trivial) (.lock calls [] here unlocked (.refl _))
  have looked := locked.trans (prune_alone rfl)
  have registered : Follows state _ := looked.next (by trivial) (.register rfl)
  rw [registerKey_pruned]
  rw [List.append_nil] at registered
  exact registered

theorem getOrCreate_alone (quiet : state.Quiet) (path : Path) (format : ArchiveFormat)
    (built : Except ArchiveError Archive) :
    Follows state
      { state with
        archiveCache :=
          (state.archiveCache.getWith path format
            { started := state.writes.length, loaded := built.mapError ArchiveError.toString }).2.registerKey path
        registering := none } := by
  obtain ⟨none, unlocked⟩ := quiet
  have asked : Follows state _ := .single (by exact ⟨none, unlocked⟩) (.getOrCreate state path format)
  rcases ArchiveCache.getWith_cases state.archiveCache path format
    { started := state.writes.length, loaded := built.mapError ArchiveError.toString }
    with ⟨value, held, answered⟩ | ⟨absent, answered⟩
  · rw [answered]
    have present : (state.archiveCache.lookup path format).isSome := by simp [held]
    have found : Follows state _ := asked.next (by trivial) (.hit state.calls [] rfl present)
    exact found.trans (register_alone rfl unlocked)
  · rw [answered]
    have noLoader : ∀ call ∈ state.calls ++ [.looking path format], ¬ call.Loads path format := by
      intro call member
      rw [none, List.nil_append, List.mem_singleton] at member
      rw [member]
      exact id
    have missed : Follows state _ := asked.next (by trivial) (.miss state.calls [] rfl absent noLoader)
    have scanned : Follows state _ :=
      missed.next (by trivial) (.scan state.calls [] rfl (built.mapError ArchiveError.toString))
    have inserted : Follows state _ := scanned.next (by exact ⟨built, rfl⟩) (.insert state.calls [] rfl)
    refine inserted.trans (register_alone ?_ unlocked)
    rw [none]
    rfl

theorem removeAll_alone {calls : List Call} {todo gone : List Path}
    (here : state.calls = calls ++ [.removing (removals todo) gone]) :
    Follows state
      { state with
        archiveCache := todo.foldl ArchiveCache.removeBoth state.archiveCache
        calls := calls ++ [.removing [] gone] } := by
  induction todo generalizing state with
  | nil =>
      have same : calls ++ [Call.removing [] gone] = state.calls := here.symm
      rw [same]
      exact .start
  | cons victim todo ih =>
      have tar : Follows state _ := .single (by trivial) (.remove calls [] here)
      have zip : Follows state _ := tar.next (by trivial) (.remove calls [] rfl)
      exact zip.trans (ih rfl)

theorem invalidate_alone (quiet : state.Quiet) (changedPath : Path) :
    Follows state
      { state with
        archiveCache := (state.archiveCache.invalidate changedPath).2
        unannounced := state.unannounced.filter fun path => decide (path ≠ changedPath) } := by
  have called : Follows state _ := .single (by exact quiet) (.invalidate state changedPath)
  unfold ArchiveCache.invalidate
  dsimp only
  split
  · rename_i none
    have spared : Follows state _ := called.next (by trivial) (.spare state.calls [] rfl quiet.2 none)
    rw [List.append_nil] at spared
    exact spared
  · rename_i some
    have collected : Follows state _ := called.next (by trivial) (.collect state.calls [] rfl quiet.2 (.refl _) some)
    have removed : Follows state _ := collected.trans (removeAll_alone rfl)
    have unregistered : Follows state _ := removed.next (by trivial) (.unregister state.calls [] rfl quiet.2)
    rw [List.append_nil] at unregistered
    exact unregistered

end Alone

/-- How far a call outside `register_key` has brought a cache that was `base` when it began. -/
def Stage (base now : ArchiveCache Scan) : Call → Prop
  | .looking _ _ | .matching _ => now = base
  | .loading path format | .scanned path format _ => now = base ∧ base.lookup path format = none
  | .waiting _ _ => False
  | .answered path => ∃ (format : ArchiveFormat) (scan : Scan) (built : Except ArchiveError Archive),
      scan.loaded = built.mapError ArchiveError.toString ∧ now = (base.getWith path format scan).2
  | .removing todo gone => ∃ changedPath, gone.Perm (base.victims changedPath) ∧ gone ≠ [] ∧
      todo.foldl ArchiveCache.removeOne now = gone.foldl ArchiveCache.removeBoth base

/-- How far `register_key` has brought it: what `retain` has left to do ends where all of
it does. -/
def Retains (base now : ArchiveCache Scan) (registering : Registering) : Prop :=
  ∃ (format : ArchiveFormat) (scan : Scan) (built : Except ArchiveError Archive),
    scan.loaded = built.mapError ArchiveError.toString ∧
      (registering.tarMissed = true → ∀ key todo, registering.todo = key :: todo → now.lookup key .tar = none) ∧
      let got := (base.getWith registering.path format scan).2
      pruned now registering.todo =
        pruned got (if got.pruneThreshold < got.cachedKeys.length then got.cachedKeys else [])

/-- At most one call is under way; `base` is the cache from before it. -/
inductive Midway (base : ArchiveCache Scan) (state : State) : Prop
  | idle (quiet : state.Quiet) (here : state.archiveCache = base)
  | calling {call : Call} (calls : state.calls = [call]) (unlocked : state.registering = none)
      (stage : Stage base state.archiveCache call)
  | registering {registering : Registering} (calls : state.calls = []) (inside : state.registering = some registering)
      (retains : Retains base state.archiveCache registering)

section Midway

variable {base : ArchiveCache Scan} {state after : State} {event : Event} {front back : List Call} {call : Call}

theorem Midway.at_call (midway : Midway base state) (here : state.calls = front ++ call :: back) :
    front = [] ∧ back = [] ∧ state.registering = none ∧ Stage base state.archiveCache call := by
  cases midway with
  | idle quiet _ =>
      rw [quiet.1] at here
      simp at here
  | registering calls _ _ =>
      rw [calls] at here
      simp at here
  | calling calls unlocked stage =>
      rw [calls] at here
      cases front with
      | nil =>
          obtain ⟨rfl, rfl⟩ := List.cons.inj here
          exact ⟨rfl, rfl, unlocked, stage⟩
      | cons first front =>
          have length := congrArg List.length here
          simp at length

theorem Midway.at_registering (midway : Midway base state) {registering : Registering}
    (inside : state.registering = some registering) :
    state.calls = [] ∧ Retains base state.archiveCache registering := by
  cases midway with
  | idle quiet _ =>
      rw [quiet.2] at inside
      cases inside
  | calling _ unlocked _ =>
      rw [unlocked] at inside
      cases inside
  | registering calls own retains =>
      rw [own] at inside
      cases inside
      exact ⟨calls, retains⟩

theorem Midway.quiet (midway : Midway base state) (quiet : state.Quiet) : state.archiveCache = base := by
  cases midway with
  | idle _ here => exact here
  | calling calls _ _ =>
      rw [quiet.1] at calls
      cases calls
  | registering _ inside _ =>
      rw [quiet.2] at inside
      cases inside

/-- `retain` goes on to the next key. -/
theorem Midway.kept (midway : Midway base state) {path key : Path} {todo : List Path} {tarMissed : Bool}
    (inside : state.registering = some { path, todo := key :: todo, tarMissed })
    (cached : state.archiveCache.isCached key = true) :
    Midway base { state with registering := some { path, todo, tarMissed := false } } := by
  obtain ⟨calls, format, scan, built, loaded, _, rest⟩ := midway.at_registering inside
  exact .registering calls rfl ⟨format, scan, built, loaded, nofun, (pruned_kept cached).symm.trans rest⟩

open ArchiveCache in
/-- One step of the call under way, or the beginning of one, or a whole operation. -/
theorem Midway.step (midway : Midway base state) (alone : event.Alone state) (taken : Step state event after) :
    ∃ later, Midway later after ∧
      (later = base ∨ ∃ operation : Operation, operation.apply (base.map Scan.loaded) = later.map Scan.loaded) := by
  cases taken with
  | getOrCreate path format =>
      have calls : state.calls ++ [.looking path format] = [.looking path format] := by
        rw [alone.1]
        rfl
      exact ⟨base, .calling calls alone.2 (midway.quiet alone), .inl rfl⟩
  | @hit path format front back here present =>
      obtain ⟨rfl, rfl, unlocked, now⟩ := midway.at_call here
      let built : Except ArchiveError Archive := .error (.unexpectedError "")
      refine ⟨base, .calling rfl unlocked ⟨format, ⟨0, built.mapError ArchiveError.toString⟩, built, rfl, ?_⟩, .inl rfl⟩
      obtain ⟨value, held⟩ := Option.isSome_iff_exists.mp present
      rw [now] at held
      rw [getWith, held, now]
  | miss front back here absent free =>
      obtain ⟨rfl, rfl, unlocked, stage⟩ := midway.at_call here
      exact ⟨base, .calling rfl unlocked ⟨stage, stage ▸ absent⟩, .inl rfl⟩
  | @wait path format front back here absent busy =>
      obtain ⟨rfl, rfl, unlocked, stage⟩ := midway.at_call here
      obtain ⟨call, member, loads⟩ := busy
      rw [here, List.nil_append, List.mem_singleton] at member
      rw [member] at loads
      exact loads.elim
  | scan front back here loaded =>
      obtain ⟨rfl, rfl, unlocked, stage⟩ := midway.at_call here
      exact ⟨base, .calling rfl unlocked stage, .inl rfl⟩
  | @insert path format scan front back here =>
      obtain ⟨rfl, rfl, unlocked, now, absent⟩ := midway.at_call here
      obtain ⟨built, loaded⟩ := alone
      refine ⟨base, .calling rfl unlocked ⟨format, scan, built, loaded, ?_⟩, .inl rfl⟩
      rw [getWith, absent, now]
  | @lock path todo front back here unlocked order =>
      obtain ⟨rfl, rfl, _, format, scan, built, loaded, got⟩ := midway.at_call here
      refine ⟨base, .registering rfl rfl ⟨format, scan, built, loaded, nofun, ?_⟩, .inl rfl⟩
      rw [got] at order
      rw [got, pruned_perm order]
  | keepTar inside present => exact ⟨base, midway.kept inside (by simp [isCached, present]), .inl rfl⟩
  | @missTar path key todo inside absent =>
      obtain ⟨calls, format, scan, built, loaded, _, rest⟩ := midway.at_registering inside
      refine ⟨base, .registering calls rfl ⟨format, scan, built, loaded, ?_, rest⟩, .inl rfl⟩
      intro _ other others same
      obtain ⟨rfl, _⟩ := List.cons.inj same
      exact absent
  | keepZip inside present => exact ⟨base, midway.kept inside (by simp [isCached, present]), .inl rfl⟩
  | @missZip path key todo inside absent =>
      obtain ⟨calls, format, scan, built, loaded, missed, rest⟩ := midway.at_registering inside
      have missing : state.archiveCache.isCached key = false := by
        simp [isCached, missed rfl key todo rfl, absent]
      refine ⟨base, .registering calls rfl ⟨format, scan, built, loaded, nofun, ?_⟩, .inl rfl⟩
      exact (pruned_gone missing).symm.trans rest
  | @register path inside =>
      obtain ⟨calls, format, scan, built, loaded, _, rest⟩ := midway.at_registering inside
      refine ⟨(base.getWith path format scan).2.registerKey path, .idle ⟨calls, rfl⟩ ?_,
        .inr ⟨.getOrCreate path format built, ?_⟩⟩
      · rw [pruned_nil] at rest
        rw [registerKey_pruned, rest]
        rfl
      · rw [map_registerKey, map_getWith, loaded]
        rfl
  | invalidate changedPath =>
      have calls : state.calls ++ [.matching changedPath] = [.matching changedPath] := by
        rw [alone.1]
        rfl
      exact ⟨base, .calling calls alone.2 (midway.quiet alone), .inl rfl⟩
  | @spare changedPath front back here unlocked none =>
      obtain ⟨rfl, rfl, _, now⟩ := midway.at_call here
      exact ⟨base, .idle ⟨rfl, unlocked⟩ now, .inl rfl⟩
  | @collect changedPath gone front back here unlocked order some =>
      obtain ⟨rfl, rfl, _, now⟩ := midway.at_call here
      refine ⟨base, .calling rfl unlocked ⟨changedPath, now ▸ order, some, ?_⟩, .inl rfl⟩
      rw [foldl_removals, now]
  | remove front back here =>
      obtain ⟨rfl, rfl, unlocked, changedPath, order, some, rest⟩ := midway.at_call here
      exact ⟨base, .calling rfl unlocked ⟨changedPath, order, some, rest⟩, .inl rfl⟩
  | @unregister gone front back here unlocked =>
      obtain ⟨rfl, rfl, _, changedPath, order, some, rest⟩ := midway.at_call here
      refine ⟨(base.invalidate changedPath).2, .idle ⟨rfl, unlocked⟩ ?_, .inr ⟨.invalidate changedPath, ?_⟩⟩
      · have found : base.victims changedPath ≠ [] := fun none => some (List.perm_nil.mp (none ▸ order))
        have removed : state.archiveCache = gone.foldl removeBoth base := rest
        rw [ArchiveCache.invalidate, if_neg found, removed, removeAll_perm order, unregister_perm order]
      · rw [map_invalidate]
        rfl
  | evict path format =>
      refine ⟨_, .idle alone rfl, .inr ⟨.evict path format, ?_⟩⟩
      rw [Operation.apply, ← map_remove, midway.quiet alone]
  | write path => exact ⟨base, .idle alone (midway.quiet alone), .inl rfl⟩

end Midway

/-- Calls one at a time, taken step by step, make the same caches as whole operations. -/
theorem reached_iff_alone {maxCapacity : Nat} {cache : ArchiveCache ArchiveCache.Loaded} :
    ArchiveCache.Reached maxCapacity cache ↔
      ∃ state, Run (fun state event => event.Alone state) maxCapacity state ∧ state.Quiet ∧
        state.archiveCache.map Scan.loaded = cache := by
  constructor
  · intro reached
    apply Reaches.invariant reached ⟨State.start maxCapacity, .start, ⟨rfl, rfl⟩, rfl⟩
    rintro before operation _ ⟨state, run, quiet, rfl⟩ _ rfl
    cases operation with
    | getOrCreate path format built =>
        refine ⟨_, run.trans (getOrCreate_alone quiet path format built), ⟨quiet.1, rfl⟩, ?_⟩
        rw [ArchiveCache.map_registerKey, ArchiveCache.map_getWith]
        rfl
    | invalidate changedPath =>
        exact ⟨_, run.trans (invalidate_alone quiet changedPath), quiet, ArchiveCache.map_invalidate changedPath⟩
    | evict path format =>
        have evicted : Run (fun state event => event.Alone state) maxCapacity _ :=
          run.next (by exact quiet) (.evict state path format)
        exact ⟨_, evicted, quiet, ArchiveCache.map_remove path format⟩
  · rintro ⟨state, run, quiet, rfl⟩
    have held : ∃ base, ArchiveCache.Reached maxCapacity (base.map Scan.loaded) ∧ Midway base state := by
      apply Reaches.invariant run ⟨.new maxCapacity, .start, .idle ⟨rfl, rfl⟩ rfl⟩
      rintro before event after ⟨base, reached, midway⟩ alone taken
      obtain ⟨later, kept, same | ⟨operation, applied⟩⟩ := midway.step alone taken
      · exact ⟨later, same ▸ reached, kept⟩
      · exact ⟨later, reached.next trivial applied, kept⟩
    obtain ⟨base, reached, midway⟩ := held
    rw [midway.quiet quiet]
    exact reached

end Interleaving

end Raas
