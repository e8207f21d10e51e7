import Raas.Cache.Interleaving
import Raas.Data.Ranking

namespace Raas.Interleaving

open Data

/-! Calls come to an end. -/

/-- A new call. -/
def Event.Calls : Event → Prop
  | .getOrCreate _ _ | .invalidate _ => True
  | _ => False

/-- A step of a call. The others are taken by whoever uses the cache, or by `moka`. -/
def Event.isOwn : Event → Bool
  | .getOrCreate _ _ | .invalidate _ | .evict _ _ | .write _ => false
  | _ => true

/-- How many steps a call can still take if the registry and the calls that are still to
register come to no more than the bound. -/
def Call.effort (bound : Nat) : Call → Nat
  | .looking _ _ => 2 * bound + 5
  | .loading _ _ => 2 * bound + 4
  | .scanned _ _ _ => 2 * bound + 3
  | .waiting _ _ | .answered _ => 2 * bound + 2
  | .matching _ => 2 * bound + 2
  | .removing todo _ => todo.length + 1

/-- `retain` asks `moka` at most twice for a key. -/
def Registering.effort (registering : Registering) : Nat :=
  2 * registering.todo.length + if registering.tarMissed then 0 else 1

def State.effort (bound : Nat) (state : State) : Nat :=
  (state.registering.toList.map Registering.effort).sum + (state.calls.map (Call.effort bound)).sum

/-- The keys in the registry and those that are still to come. -/
def State.size (state : State) : Nat := state.archiveCache.cachedKeys.length + state.asked.length

/-- Whoever waits does so for a loader at work, and a key without a tar is being looked at. -/
structure Awaited (state : State) : Prop where
  loader : ∀ path format, Call.waiting path format ∈ state.calls → ∃ call ∈ state.calls, call.Loads path format
  looking : ∀ registering, state.registering = some registering → registering.todo = [] → registering.tarMissed = false

section Awaiting

variable {state after : State} {event : Event} {front back : List Call} {call next : Call}

theorem Awaited.replace (awaited : Awaited state) (here : state.calls = front ++ call :: back)
    (there : after.calls = front ++ next :: back) (registering : after.registering = state.registering)
    (loads : ∀ path format, call.Loads path format → next.Loads path format)
    (waits : ∀ path format, next = .waiting path format → ∃ call ∈ after.calls, call.Loads path format) :
    Awaited after where
  loader := by
    intro path format member
    rw [there, List.mem_append, List.mem_cons] at member
    have before : Call.waiting path format ∈ front ∨ Call.waiting path format ∈ back →
        ∃ call ∈ after.calls, call.Loads path format := by
      intro inside
      obtain ⟨loader, found, own⟩ := awaited.loader path format (by
        rw [here, List.mem_append, List.mem_cons]
        exact inside.imp_right .inr)
      rw [here, List.mem_append, List.mem_cons] at found
      rw [there]
      rcases found with found | rfl | found
      · exact ⟨loader, List.mem_append_left _ found, own⟩
      · exact ⟨next, List.mem_append_right _ List.mem_cons_self, loads path format own⟩
      · exact ⟨loader, List.mem_append_right _ (List.mem_cons_of_mem _ found), own⟩
    rcases member with inside | own | inside
    · exact before (.inl inside)
    · exact waits path format own.symm
    · exact before (.inr inside)
  looking := by
    rw [registering]
    exact awaited.looking

theorem Awaited.leave (awaited : Awaited state) (here : state.calls = front ++ call :: back)
    (there : after.calls = front ++ back) (idle : ∀ path format, ¬ call.Loads path format)
    (looking : ∀ registering, after.registering = some registering → registering.todo = [] →
      registering.tarMissed = false) : Awaited after where
  loader := by
    intro path format member
    obtain ⟨loader, found, own⟩ := awaited.loader path format (by
      rw [here, List.mem_append, List.mem_cons]
      rw [there, List.mem_append] at member
      exact member.imp_right .inr)
    rw [here, List.mem_append, List.mem_cons] at found
    rw [there]
    rcases found with found | rfl | found
    · exact ⟨loader, List.mem_append_left _ found, own⟩
    · exact absurd own (idle path format)
    · exact ⟨loader, List.mem_append_right _ found, own⟩
  looking

theorem wake_waiting {path other : Path} {format otherFormat : ArchiveFormat}
    (still : call.wake path format = .waiting other otherFormat) :
    call = .waiting other otherFormat ∧ ¬ (Path.components other = Path.components path ∧ otherFormat = format) := by
  cases call with
  | waiting waited waitedFormat =>
      rw [Call.wake] at still
      split at still
      · cases still
      · rename_i apart
        cases still
        exact ⟨rfl, apart⟩
  | looking _ _ => cases still
  | loading _ _ => cases still
  | scanned _ _ _ => cases still
  | answered _ => cases still
  | matching _ => cases still
  | removing _ _ => cases still

theorem wake_loads {path other : Path} {format otherFormat : ArchiveFormat} (loads : call.Loads other otherFormat) :
    call.wake path format = call := by
  cases call with
  | loading _ _ => rfl
  | scanned _ _ _ => rfl
  | looking _ _ => exact loads.elim
  | waiting _ _ => exact loads.elim
  | answered _ => exact loads.elim
  | matching _ => exact loads.elim
  | removing _ _ => exact loads.elim

/-- All who wait for the loader are answered, and nobody else loses theirs. -/
theorem Awaited.insert (awaited : Awaited state) {path : Path} {format : ArchiveFormat} {scan : Scan}
    (here : state.calls = front ++ .scanned path format scan :: back)
    (there : after.calls = (front ++ .answered path :: back).map (Call.wake path format))
    (registering : after.registering = state.registering) : Awaited after where
  loader := by
    intro other otherFormat member
    rw [there] at member
    obtain ⟨call, inside, still⟩ := List.mem_map.mp member
    obtain ⟨rfl, apart⟩ := wake_waiting still
    obtain ⟨loader, found, own⟩ := awaited.loader other otherFormat (by
      rw [here, List.mem_append, List.mem_cons]
      rw [List.mem_append, List.mem_cons] at inside
      rcases inside with inside | same | inside
      · exact .inl inside
      · cases same
      · exact .inr (.inr inside))
    have stays : loader ∈ front ++ .answered path :: back := by
      rw [here, List.mem_append, List.mem_cons] at found
      rw [List.mem_append, List.mem_cons]
      rcases found with found | same | found
      · exact .inl found
      · subst same
        exact absurd ⟨own.1.symm, own.2.symm⟩ apart
      · exact .inr (.inr found)
    refine ⟨loader, ?_, own⟩
    rw [there]
    exact List.mem_map.mpr ⟨loader, stays, wake_loads own⟩
  looking := by
    rw [registering]
    exact awaited.looking

theorem Awaited.start (maxCapacity : Nat) : Awaited (State.start maxCapacity) where
  loader := nofun
  looking := nofun

/-- Only the calls and the lock matter. -/
theorem Awaited.same (awaited : Awaited state) (calls : after.calls = state.calls)
    (looking : ∀ registering, after.registering = some registering → registering.todo = [] →
      registering.tarMissed = false) : Awaited after where
  loader := by
    rw [calls]
    exact awaited.loader
  looking

theorem Awaited.arrive (awaited : Awaited state) (there : after.calls = state.calls ++ [call])
    (registering : after.registering = state.registering) (fresh : ∀ path format, call ≠ .waiting path format) :
    Awaited after where
  loader := by
    intro path format member
    rw [there, List.mem_append, List.mem_singleton] at member
    rcases member with member | same
    · obtain ⟨loader, found, own⟩ := awaited.loader path format member
      exact ⟨loader, there ▸ List.mem_append_left _ found, own⟩
    · exact absurd same.symm (fresh path format)
  looking := by
    rw [registering]
    exact awaited.looking

theorem Awaited.step (awaited : Awaited state) (taken : Step state event after) : Awaited after := by
  cases taken with
  | getOrCreate path format => exact awaited.arrive rfl rfl nofun
  | invalidate changedPath => exact awaited.arrive rfl rfl nofun
  | hit front back here present => exact awaited.replace here rfl rfl (fun _ _ loads => loads.elim) nofun
  | miss front back here absent free => exact awaited.replace here rfl rfl (fun _ _ loads => loads.elim) nofun
  | @wait path format front back here absent busy =>
      refine awaited.replace here rfl rfl (fun _ _ loads => loads.elim) ?_
      intro other otherFormat same
      cases same
      obtain ⟨loader, found, own⟩ := busy
      rw [here, List.mem_append, List.mem_cons] at found
      rcases found with found | rfl | found
      · exact ⟨loader, List.mem_append_left _ found, own⟩
      · exact own.elim
      · exact ⟨loader, List.mem_append_right _ (List.mem_cons_of_mem _ found), own⟩
  | scan front back here loaded => exact awaited.replace here rfl rfl (fun _ _ loads => loads) nofun
  | insert front back here => exact awaited.insert here rfl rfl
  | lock front back here unlocked order =>
      refine awaited.leave here rfl (fun _ _ loads => loads) ?_
      intro registering same _
      cases same
      rfl
  | keepTar inside present => exact awaited.same rfl fun _ same _ => by cases same; rfl
  | missTar inside absent => exact awaited.same rfl fun _ same empty => by cases same; cases empty
  | keepZip inside present => exact awaited.same rfl fun _ same _ => by cases same; rfl
  | missZip inside absent => exact awaited.same rfl fun _ same _ => by cases same; rfl
  | register inside => exact awaited.same rfl nofun
  | spare front back here unlocked none => exact awaited.leave here rfl (fun _ _ loads => loads) awaited.looking
  | collect front back here unlocked order some => exact awaited.replace here rfl rfl (fun _ _ loads => loads.elim) nofun
  | remove front back here => exact awaited.replace here rfl rfl (fun _ _ loads => loads.elim) nofun
  | unregister front back here unlocked => exact awaited.leave here rfl (fun _ _ loads => loads) awaited.looking
  | evict path format => exact awaited.same rfl awaited.looking
  | write path => exact awaited.same rfl awaited.looking

end Awaiting

/-! Each step of a call brings it nearer to its end. -/

section Effort

variable {state after : State} {event : Event} {bound : Nat} {front back : List Call} {call next : Call}

theorem effort_wake (bound : Nat) (path : Path) (format : ArchiveFormat) (calls : List Call) :
    (calls.map (Call.wake path format)).map (Call.effort bound) = calls.map (Call.effort bound) := by
  rw [List.map_map]
  apply List.map_congr_left
  intro call _
  cases call with
  | waiting other otherFormat =>
      rw [Function.comp_apply, Call.wake]
      split <;> rfl
  | _ => rfl

theorem removals_length (gone : List Path) : (removals gone).length = 2 * gone.length := by
  induction gone with
  | nil => rfl
  | cons victim gone ih =>
      rw [removals, List.flatMap_cons, List.length_append, ← removals, ih]
      simp only [List.length_cons, List.length_nil]
      omega

theorem asked_length (state : State) :
    state.asked.length = state.registering.toList.length + (state.calls.filterMap Call.asks).length := by
  rw [State.asked, List.length_append, List.length_map]

theorem asking_replaced (same : next.asks = call.asks) :
    (front ++ next :: back).filterMap Call.asks = (front ++ call :: back).filterMap Call.asks := by
  rw [List.filterMap_append, List.filterMap_append, List.filterMap_cons, List.filterMap_cons, same]

theorem asking_left (idle : call.asks = none) :
    (front ++ call :: back).filterMap Call.asks = (front ++ back).filterMap Call.asks := by
  rw [List.filterMap_append, List.filterMap_append, List.filterMap_cons, idle]

theorem effort_among (bound : Nat) (front back : List Call) (call : Call) :
    ((front ++ call :: back).map (Call.effort bound)).sum =
      ((front ++ back).map (Call.effort bound)).sum + call.effort bound := by
  simp only [List.map_append, List.map_cons, List.sum_append, List.sum_cons]
  omega

theorem effort_inside (path : Path) (todo : List Path) :
    ((some ({ path, todo, tarMissed := false } : Registering)).toList.map Registering.effort).sum =
      2 * todo.length + 1 := by
  simp [Registering.effort]

theorem effort_missed (path : Path) (todo : List Path) :
    ((some ({ path, todo, tarMissed := true } : Registering)).toList.map Registering.effort).sum =
      2 * todo.length := by
  simp [Registering.effort]

theorem unregister_length (archiveCache : ArchiveCache Scan) (gone : List Path) :
    (archiveCache.unregister gone).cachedKeys.length ≤ archiveCache.cachedKeys.length :=
  List.length_filter_le _ _

theorem size_asked (keys : after.archiveCache.cachedKeys.length ≤ state.archiveCache.cachedKeys.length)
    (asking : after.calls.filterMap Call.asks = state.calls.filterMap Call.asks)
    (registering : after.registering.toList.length = state.registering.toList.length) : after.size ≤ state.size := by
  unfold State.size
  rw [asked_length, asked_length, asking, registering]
  exact Nat.add_le_add_right keys _

/-- What is registered was asked for before. -/
theorem Step.size (taken : Step state event after) (going : ¬ event.Calls) : after.size ≤ state.size := by
  cases taken with
  | getOrCreate path format => exact absurd trivial going
  | invalidate changedPath => exact absurd trivial going
  | evict path format => exact Nat.le_refl _
  | write path => exact Nat.le_refl _
  | hit front back here present => exact size_asked (Nat.le_refl _) (here ▸ asking_replaced rfl) rfl
  | miss front back here absent free => exact size_asked (Nat.le_refl _) (here ▸ asking_replaced rfl) rfl
  | wait front back here absent busy => exact size_asked (Nat.le_refl _) (here ▸ asking_replaced rfl) rfl
  | scan front back here loaded => exact size_asked (Nat.le_refl _) (here ▸ asking_replaced rfl) rfl
  | collect front back here unlocked order some => exact size_asked (Nat.le_refl _) (here ▸ asking_replaced rfl) rfl
  | remove front back here => exact size_asked (Nat.le_refl _) (here ▸ asking_replaced rfl) rfl
  | insert front back here =>
      exact size_asked (Nat.le_refl _) ((filterMap_wake _ _ _).trans (here ▸ asking_replaced rfl)) rfl
  | spare front back here unlocked none => exact size_asked (Nat.le_refl _) (here ▸ (asking_left rfl).symm) rfl
  | unregister front back here unlocked =>
      exact size_asked (unregister_length _ _) (here ▸ (asking_left rfl).symm) rfl
  | keepTar inside present => exact size_asked (Nat.le_refl _) rfl (by rw [inside]; rfl)
  | missTar inside absent => exact size_asked (Nat.le_refl _) rfl (by rw [inside]; rfl)
  | keepZip inside present => exact size_asked (Nat.le_refl _) rfl (by rw [inside]; rfl)
  | missZip inside absent => exact size_asked (unregister_length _ _) rfl (by rw [inside]; rfl)
  | lock front back here unlocked order =>
      unfold State.size
      rw [asked_length, asked_length, here, unlocked, List.filterMap_append, List.filterMap_append, List.filterMap_cons]
      simp only [Call.asks, List.length_append, List.length_cons, Option.toList_none, Option.toList_some,
        List.length_nil]
      omega
  | @register path inside =>
      have longer := ArchiveCache.insertKey_length state.archiveCache.cachedKeys path
      unfold State.size
      rw [asked_length, asked_length, inside]
      simp only [Option.toList_none, Option.toList_some, List.length_cons, List.length_nil]
      omega

theorem Step.effort (taken : Step state event after) (going : ¬ event.Calls) (fits : state.size ≤ bound) :
    after.effort bound + (if event.isOwn then 1 else 0) ≤ state.effort bound := by
  have keys : state.archiveCache.cachedKeys.length ≤ bound := Nat.le_trans (Nat.le_add_right _ _) fits
  unfold State.effort
  cases taken with
  | getOrCreate path format => exact absurd trivial going
  | invalidate changedPath => exact absurd trivial going
  | evict path format => exact Nat.le_refl _
  | write path => exact Nat.le_refl _
  | hit front back here present =>
      rw [here, effort_among, effort_among]
      simp only [Call.effort, Event.isOwn, if_true]
      omega
  | miss front back here absent free =>
      rw [here, effort_among, effort_among]
      simp only [Call.effort, Event.isOwn, if_true]
      omega
  | wait front back here absent busy =>
      rw [here, effort_among, effort_among]
      simp only [Call.effort, Event.isOwn, if_true]
      omega
  | scan front back here loaded =>
      rw [here, effort_among, effort_among]
      simp only [Call.effort, Event.isOwn, if_true]
      omega
  | insert front back here =>
      rw [here, effort_wake, effort_among, effort_among]
      simp only [Call.effort, Event.isOwn, if_true]
      omega
  | @collect changedPath gone front back here unlocked order some =>
      have few : gone.length ≤ state.archiveCache.cachedKeys.length := by
        rw [order.length_eq]
        exact List.length_filter_le _ _
      rw [here, effort_among, effort_among]
      simp only [Call.effort, removals_length, Event.isOwn, if_true]
      omega
  | remove front back here =>
      rw [here, effort_among, effort_among]
      simp only [Call.effort, List.length_cons, Event.isOwn, if_true]
      omega
  | spare front back here unlocked none =>
      rw [here, effort_among]
      simp only [Call.effort, Event.isOwn, if_true]
      omega
  | unregister front back here unlocked =>
      rw [here, effort_among]
      simp only [Call.effort, List.length_nil, Event.isOwn, if_true]
      omega
  | @lock path todo front back here unlocked order =>
      rw [here, effort_among, unlocked]
      have few : todo.length ≤ state.archiveCache.cachedKeys.length := by
        rw [order.length_eq]
        split
        · exact Nat.le_refl _
        · exact Nat.zero_le _
      simp only [Call.effort, effort_inside, Option.toList_none, List.map_nil, List.sum_nil, Event.isOwn, if_true]
      omega
  | keepTar inside present =>
      rw [inside]
      simp only [effort_inside, List.length_cons, Event.isOwn, if_true]
      omega
  | missTar inside absent =>
      rw [inside]
      simp only [effort_inside, effort_missed, List.length_cons, Event.isOwn, if_true]
      omega
  | keepZip inside present =>
      rw [inside]
      simp only [effort_inside, effort_missed, List.length_cons, Event.isOwn, if_true]
      omega
  | missZip inside absent =>
      rw [inside]
      simp only [effort_inside, effort_missed, List.length_cons, Event.isOwn, if_true]
      omega
  | register inside =>
      rw [inside]
      simp only [effort_inside, List.length_nil, Option.toList_none, List.map_nil, List.sum_nil, Event.isOwn, if_true]
      omega

/-- A call of whom nobody has to wait can take a step, and whoever waits has one that can. -/
theorem Awaited.progress (awaited : Awaited state) (busy : ¬ state.Quiet) :
    ∃ event after, event.isOwn = true ∧ Step state event after := by
  cases locked : state.registering with
  | some registering =>
      obtain ⟨path, todo, tarMissed⟩ := registering
      cases todo with
      | nil =>
          have ready : tarMissed = false := awaited.looking _ locked rfl
          subst ready
          exact ⟨_, _, rfl, .register locked⟩
      | cons key todo =>
          cases tarMissed with
          | false =>
              cases held : state.archiveCache.lookup key .tar with
              | some scan => exact ⟨_, _, rfl, .keepTar locked (by rw [held]; rfl)⟩
              | none => exact ⟨_, _, rfl, .missTar locked held⟩
          | true =>
              cases held : state.archiveCache.lookup key .zip with
              | some scan => exact ⟨_, _, rfl, .keepZip locked (by rw [held]; rfl)⟩
              | none => exact ⟨_, _, rfl, .missZip locked held⟩
  | none =>
      have loads : ∀ call ∈ state.calls, ∀ path format, call.Loads path format →
          ∃ event after, event.isOwn = true ∧ Step state event after := by
        intro call member path format own
        obtain ⟨front, back, here⟩ := List.append_of_mem member
        cases call with
        | loading other otherFormat => exact ⟨_, _, rfl, .scan front back here (.error "")⟩
        | scanned other otherFormat scan => exact ⟨_, _, rfl, .insert front back here⟩
        | looking _ _ => exact own.elim
        | waiting _ _ => exact own.elim
        | answered _ => exact own.elim
        | matching _ => exact own.elim
        | removing _ _ => exact own.elim
      cases here : state.calls with
      | nil => exact absurd ⟨here, locked⟩ busy
      | cons call back =>
          have first : state.calls = [] ++ call :: back := here
          have member : call ∈ state.calls := by
            rw [here]
            exact List.mem_cons_self
          cases call with
          | looking path format =>
              cases held : state.archiveCache.lookup path format with
              | some scan => exact ⟨_, _, rfl, .hit [] back first (by rw [held]; rfl)⟩
              | none =>
                  by_cases loaded : ∃ call ∈ state.calls, call.Loads path format
                  · exact ⟨_, _, rfl, .wait [] back first held loaded⟩
                  · exact ⟨_, _, rfl, .miss [] back first held fun other inside own => loaded ⟨other, inside, own⟩⟩
          | loading path format => exact loads _ member path format ⟨rfl, rfl⟩
          | scanned path format scan => exact loads _ member path format ⟨rfl, rfl⟩
          | waiting path format =>
              obtain ⟨loader, inside, own⟩ := awaited.loader path format member
              exact loads loader inside path format own
          | answered path => exact ⟨_, _, rfl, .lock [] back first locked (.refl _)⟩
          | matching changedPath =>
              by_cases spared : state.archiveCache.victims changedPath = []
              · exact ⟨_, _, rfl, .spare [] back first locked spared⟩
              · exact ⟨_, _, rfl, .collect [] back first locked (.refl _) spared⟩
          | removing todo gone =>
              cases todo with
              | nil => exact ⟨_, _, rfl, .unregister [] back first locked⟩
              | cons entry todo => exact ⟨_, _, rfl, .remove [] back first⟩

end Effort

/-- Any step but the arrival of a new call. -/
def Finishing (before : State) (event : Event) (after : State) : Prop := ¬ event.Calls ∧ Step before event after

/-- No call is ever stuck, whatever the others do: as long as one is under way, one can go
on. Without new calls all of them take a bounded number of steps, however `moka` evicts
entries and files are written in between. -/
theorem calls_complete {maxCapacity : Nat} {state : State} (reached : Run (fun _ _ => True) maxCapacity state)
    {events : List Event} {after : State} (trail : Trail Finishing state events after) :
    events.countP Event.isOwn ≤ state.effort state.size ∧
      (after.Quiet ∨ ∃ event later, event.isOwn = true ∧ Step after event later) := by
  constructor
  · let Ranks (current : State) (rank : Nat) : Prop := current.size ≤ state.size ∧ current.effort state.size ≤ rank
    have lowers : ∀ before event after rank, Ranks before rank → Finishing before event after →
        ∃ lower, lower + (if event.isOwn then 1 else 0) ≤ rank ∧ Ranks after lower := by
      intro before event after rank ranks taken
      have size := taken.2.size taken.1
      have effort := taken.2.effort taken.1 ranks.1
      exact ⟨after.effort state.size, Nat.le_trans effort ranks.2, Nat.le_trans size ranks.1, Nat.le_refl _⟩
    obtain ⟨left, _, counted⟩ := trail.bounded_own lowers ⟨Nat.le_refl _, Nat.le_refl _⟩
    exact Nat.le_trans (Nat.le_add_right _ _) counted
  · have before : Awaited state := by
      apply reached.invariant (.start maxCapacity)
      exact fun _ _ _ awaited _ taken => awaited.step taken
    have awaited : Awaited after := by
      apply trail.reaches.invariant before
      exact fun _ _ _ awaited _ taken => awaited.step taken.2
    by_cases quiet : after.Quiet
    · exact .inl quiet
    · exact .inr (awaited.progress quiet)

/-- Two ask for the same archive: the first loads it, the second waits. -/
def pairState : State := { State.start 8 with calls := [.loading pathD .tar, .waiting pathD .tar] }

theorem calls_complete_pair : ∃ (events : List Event) (after : State), events.length = 2 ∧
    after.calls = [.answered pathD, .answered pathD] ∧ events.countP Event.isOwn ≤ pairState.effort pairState.size ∧
      (after.Quiet ∨ ∃ event later, event.isOwn = true ∧ Step after event later) := by
  have asked : Run (fun _ _ => True) 8 _ :=
    .next (.next .start trivial (.getOrCreate _ pathD .tar)) trivial (.getOrCreate _ pathD .tar)
  have loading : Run (fun _ _ => True) 8 _ :=
    asked.next trivial (.miss [] [.looking pathD .tar] rfl rfl (by simp [State.start, Call.Loads]))
  have waiting : Run (fun _ _ => True) 8 pairState :=
    loading.next trivial (.wait [.loading pathD .tar] [] rfl rfl ⟨.loading pathD .tar, List.mem_cons_self, rfl, rfl⟩)
  have scanned : Trail Finishing pairState _ _ := .next .start ⟨id, .scan [] [.waiting pathD .tar] rfl smallLoaded⟩
  have inserted := scanned.next ⟨id, .insert [] [.waiting pathD .tar] rfl⟩
  exact ⟨_, _, rfl, rfl, calls_complete waiting inserted⟩

end Raas.Interleaving
