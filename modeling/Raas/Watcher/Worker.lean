import Raas.Cache.Exactness
import Raas.Data.Runs

namespace Raas.Watcher

open Data

/-! The thread of the file system watcher. -/

/-- `notify::EventKind` without the details of each kind. -/
inductive EventKind where
  | any
  | access
  | create
  | modify
  | remove
  | other
deriving DecidableEq, Repr

structure Event where
  kind : EventKind
  paths : List Path
  /-- The flag `Rescan`. -/
  rescan : Bool
deriving DecidableEq, Repr

/-- `notify::Result<Event>` -/
abbrev Report := Except String Event

/-- `collect_event` -/
def collectEvent (pending : List Path) (report : Report) : List Path :=
  match report with
  | .error _ => pending
  | .ok event => if event.kind = .access then pending else event.paths.foldl ArchiveCache.insertKey pending

/-- Where `run_worker` stands. -/
inductive Place where
  /-- in the outer `recv_timeout` -/
  | waiting
  /-- in `try_recv` on the stop channel -/
  | polling
  /-- before the test of the deadline -/
  | measuring
  /-- in the inner `recv_timeout` -/
  | merging
  | returned
deriving DecidableEq, Repr

/-- What an operation on a channel answers, or the test of the deadline. -/
inductive Outcome where
  | received (report : Report)
  | timeout
  | disconnected
  | deadline (passed : Bool)
  | stopEmpty
  | stopped
  | stopDisconnected

/-- What the thread has done so far. -/
inductive Deed where
  | received (report : Report)
  | invalidated (path : Path)

structure State where
  place : Place
  pending : List Path
  archiveCache : ArchiveCache ArchiveCache.Loaded
  deeds : List Deed
  /-- The results that were received after the last `flush`. -/
  burst : List Report

def State.start (archiveCache : ArchiveCache ArchiveCache.Loaded) : State where
  place := .waiting
  pending := []
  archiveCache
  deeds := []
  burst := []

def State.collect (state : State) (report : Report) : State :=
  { state with
    place := .measuring
    pending := collectEvent state.pending report
    deeds := state.deeds ++ [.received report]
    burst := state.burst ++ [report] }

/-- `flush`, with the order in which the set is drained, and where the thread goes from there. -/
def State.flush (state : State) (drained : List Path) (place : Place) : State :=
  if state.pending = [] then { state with place, burst := [] }
  else
    { place
      pending := []
      archiveCache := drained.foldl (fun archiveCache path => (archiveCache.invalidate path).2) state.archiveCache
      deeds := state.deeds ++ drained.map .invalidated
      burst := [] }

/-- One operation of `run_worker` and what follows up to the next one. -/
def runWorker (state : State) (drained : List Path) (outcome : Outcome) : Option State :=
  match state.place, outcome with
  | .waiting, .received report => some (state.collect report)
  | .waiting, .timeout => some { state with place := .polling }
  | .waiting, .disconnected => some (state.flush drained .returned)
  | .polling, .stopped => some (state.flush drained .returned)
  | .polling, .stopDisconnected => some (state.flush drained .returned)
  | .polling, .stopEmpty => some { state with place := .waiting }
  | .measuring, .deadline true => some (state.flush drained .waiting)
  | .measuring, .deadline false => some { state with place := .merging }
  | .merging, .received report => some (state.collect report)
  | .merging, .timeout => some (state.flush drained .waiting)
  | .merging, .disconnected => some (state.flush drained .returned)
  | _, _ => none

/-- A step of the thread, or a call of the cache by another one. -/
inductive Action where
  | watch (drained : List Path) (outcome : Outcome)
  | call (operation : ArchiveCache.Operation)

inductive Step : State → Action → State → Prop
  | watch {state after : State} {drained : List Path} {outcome : Outcome} (drains : drained.Perm state.pending)
      (ran : runWorker state drained outcome = some after) : Step state (.watch drained outcome) after
  | call (state : State) (operation : ArchiveCache.Operation) :
      Step state (.call operation) { state with archiveCache := operation.apply state.archiveCache }

def Run (maxCapacity : Nat) (state : State) : Prop :=
  Reaches Step (fun _ _ => True) (.start (.new maxCapacity)) state

/-- The paths that a result says have changed. -/
def Report.changed : Report → List Path
  | .error _ => []
  | .ok event => if event.kind = .access then [] else event.paths

/-- Every changed path that was received has been invalidated since; a set keeps one of
several equal paths. -/
def Answered : List Deed → Prop
  | [] => True
  | .received report :: later =>
      (∀ path ∈ report.changed, ∃ passed, .invalidated passed ∈ later ∧ Path.same passed path = true) ∧ Answered later
  | .invalidated _ :: later => Answered later

/-- What is pending is what the results since the last flush have changed. -/
structure Orderly (state : State) : Prop where
  answered : ∃ past, state.deeds = past ++ state.burst.map .received ∧ Answered past
  covers : ∀ report ∈ state.burst, ∀ path ∈ report.changed, ∃ kept ∈ state.pending, Path.same kept path = true
  carried : ∀ path ∈ state.pending, ∃ report ∈ state.burst, path ∈ report.changed
  justified : ∀ path, .invalidated path ∈ state.deeds → ∃ report, .received report ∈ state.deeds ∧ path ∈ report.changed
  settled : state.place = .waiting ∨ state.place = .polling ∨ state.place = .returned → state.burst = []

section Steps

variable {state after : State} {report : Report} {drained : List Path} {place : Place}

theorem collectEvent_eq (pending : List Path) (report : Report) :
    collectEvent pending report = report.changed.foldl ArchiveCache.insertKey pending := by
  cases report with
  | error reason => rfl
  | ok event =>
      rw [collectEvent, Report.changed]
      split <;> rfl

theorem insertKey_member {keys : List Path} {path key : Path} (member : key ∈ ArchiveCache.insertKey keys path) :
    key ∈ keys ∨ key = path := by
  unfold ArchiveCache.insertKey at member
  split at member
  · exact .inl member
  · rw [List.mem_append, List.mem_singleton] at member
    exact member

theorem mem_insertKeys {paths keys : List Path} {key : Path} (member : key ∈ paths.foldl ArchiveCache.insertKey keys) :
    key ∈ keys ∨ key ∈ paths := by
  induction paths generalizing keys with
  | nil => exact .inl member
  | cons path paths ih =>
      rcases ih member with inserted | later
      · rcases insertKey_member inserted with before | rfl
        · exact .inl before
        · exact .inr List.mem_cons_self
      · exact .inr (List.mem_cons_of_mem _ later)

theorem insertKeys_found {paths keys : List Path} {key : List Component} :
    (∃ known ∈ paths.foldl ArchiveCache.insertKey keys, Path.components known = key) ↔
      (∃ known ∈ keys, Path.components known = key) ∨ ∃ path ∈ paths, Path.components path = key := by
  induction paths generalizing keys with
  | nil => simp
  | cons path paths ih =>
      rw [List.foldl_cons, ih, ArchiveCache.insertKey_found, List.exists_mem_cons_iff, or_assoc]

theorem answered_append {past later : List Deed} (answered : Answered past) (rest : Answered later) :
    Answered (past ++ later) := by
  induction past with
  | nil => exact rest
  | cons deed past ih =>
      cases deed with
      | received report =>
          refine ⟨?_, ih answered.2⟩
          intro path member
          obtain ⟨passed, done, same⟩ := answered.1 path member
          exact ⟨passed, List.mem_append_left _ done, same⟩
      | invalidated path => exact ih answered

theorem answered_drained (drained : List Path) : Answered (drained.map .invalidated) := by
  induction drained with
  | nil => trivial
  | cons path drained ih => exact ih

/-- A flush answers all results since the last one. -/
theorem answered_burst {burst : List Report}
    (covers : ∀ report ∈ burst, ∀ path ∈ report.changed, ∃ kept ∈ drained, Path.same kept path = true) :
    Answered (burst.map .received ++ drained.map .invalidated) := by
  induction burst with
  | nil => exact answered_drained drained
  | cons report burst ih =>
      refine ⟨?_, ih fun other member => covers other (List.mem_cons_of_mem _ member)⟩
      intro path member
      obtain ⟨kept, done, same⟩ := covers report List.mem_cons_self path member
      exact ⟨kept, List.mem_append_right _ (List.mem_map_of_mem done), same⟩

theorem Orderly.start (archiveCache : ArchiveCache ArchiveCache.Loaded) : Orderly (.start archiveCache) where
  answered := ⟨[], rfl, trivial⟩
  covers := nofun
  carried := nofun
  justified := nofun
  settled := fun _ => rfl

theorem Orderly.collect (orderly : Orderly state) (report : Report) : Orderly (state.collect report) where
  answered := by
    obtain ⟨past, deeds, answered⟩ := orderly.answered
    refine ⟨past, ?_, answered⟩
    rw [State.collect, deeds, List.map_append, List.append_assoc, List.map_singleton]
  covers := by
    intro other member path changed
    have merged : ∃ known ∈ collectEvent state.pending report, Path.components known = Path.components path := by
      rw [collectEvent_eq, insertKeys_found]
      rcases List.mem_append.mp member with before | own
      · obtain ⟨kept, pending, same⟩ := orderly.covers other before path changed
        exact .inl ⟨kept, pending, ArchiveCache.same_iff.mp same⟩
      · rw [List.mem_singleton.mp own] at changed
        exact .inr ⟨path, changed, rfl⟩
    obtain ⟨known, pending, same⟩ := merged
    exact ⟨known, pending, ArchiveCache.same_iff.mpr same⟩
  carried := by
    intro path member
    rw [State.collect, collectEvent_eq] at member
    rcases mem_insertKeys member with before | new
    · obtain ⟨other, known, changed⟩ := orderly.carried path before
      exact ⟨other, List.mem_append_left _ known, changed⟩
    · exact ⟨report, List.mem_append_right _ List.mem_cons_self, new⟩
  justified := by
    intro path member
    rcases List.mem_append.mp member with before | own
    · obtain ⟨other, known, changed⟩ := orderly.justified path before
      exact ⟨other, List.mem_append_left _ known, changed⟩
    · cases List.mem_singleton.mp own
  settled := by
    rintro (place | place | place) <;> cases place

theorem Orderly.flush (orderly : Orderly state) (drains : drained.Perm state.pending) (place : Place) :
    Orderly (state.flush drained place) := by
  obtain ⟨past, deeds, answered⟩ := orderly.answered
  have burst : Answered (state.burst.map .received ++ drained.map .invalidated) := by
    apply answered_burst
    intro report member path changed
    obtain ⟨kept, pending, same⟩ := orderly.covers report member path changed
    exact ⟨kept, drains.mem_iff.mpr pending, same⟩
  unfold State.flush
  split
  · rename_i empty
    rw [empty, List.perm_nil] at drains
    subst drains
    refine ⟨⟨state.deeds, (List.append_nil _).symm, ?_⟩, nofun, ?_, orderly.justified, fun _ => rfl⟩
    · rw [deeds]
      rw [List.map_nil, List.append_nil] at burst
      exact answered_append answered burst
    · rw [empty]
      nofun
  · refine ⟨⟨state.deeds ++ drained.map .invalidated, (List.append_nil _).symm, ?_⟩, nofun, nofun, ?_, fun _ => rfl⟩
    · rw [deeds, List.append_assoc]
      exact answered_append answered burst
    · intro path member
      rcases List.mem_append.mp member with before | now
      · obtain ⟨report, known, changed⟩ := orderly.justified path before
        exact ⟨report, List.mem_append_left _ known, changed⟩
      · obtain ⟨other, pending, same⟩ := List.mem_map.mp now
        cases same
        obtain ⟨report, known, changed⟩ := orderly.carried path (drains.mem_iff.mp pending)
        refine ⟨report, List.mem_append_left _ ?_, changed⟩
        rw [deeds]
        exact List.mem_append_right _ (List.mem_map_of_mem known)

theorem Orderly.move (orderly : Orderly state)
    (settled : place = .waiting ∨ place = .polling ∨ place = .returned → state.burst = []) :
    Orderly { state with place } where
  answered := orderly.answered
  covers := orderly.covers
  carried := orderly.carried
  justified := orderly.justified
  settled := settled

theorem Orderly.runWorker {outcome : Outcome} (orderly : Orderly state) (drains : drained.Perm state.pending)
    (ran : runWorker state drained outcome = some after) : Orderly after := by
  unfold Watcher.runWorker at ran
  split at ran
  case h_1 => exact Option.some.inj ran ▸ orderly.collect _
  case h_2 here => exact Option.some.inj ran ▸ orderly.move fun _ => orderly.settled (.inl here)
  case h_3 => exact Option.some.inj ran ▸ orderly.flush drains _
  case h_4 => exact Option.some.inj ran ▸ orderly.flush drains _
  case h_5 => exact Option.some.inj ran ▸ orderly.flush drains _
  case h_6 here => exact Option.some.inj ran ▸ orderly.move fun _ => orderly.settled (.inr (.inl here))
  case h_7 => exact Option.some.inj ran ▸ orderly.flush drains _
  case h_8 => exact Option.some.inj ran ▸ orderly.move (by rintro (place | place | place) <;> cases place)
  case h_9 => exact Option.some.inj ran ▸ orderly.collect _
  case h_10 => exact Option.some.inj ran ▸ orderly.flush drains _
  case h_11 => exact Option.some.inj ran ▸ orderly.flush drains _
  case h_12 => cases ran

end Steps

theorem Run.orderly {maxCapacity : Nat} {state : State} (reached : Run maxCapacity state) : Orderly state := by
  apply Reaches.invariant reached (.start _)
  intro before action after orderly _ taken
  cases taken with
  | watch drains ran => exact orderly.runWorker drains ran
  | call operation =>
      exact ⟨orderly.answered, orderly.covers, orderly.carried, orderly.justified, orderly.settled⟩

/-! One operation of the thread. -/

/-- What an operation does, by what it answers. -/
inductive Worked (state : State) (drained : List Path) : Outcome → State → Prop
  | collect {report : Report} (place : state.place = .waiting ∨ state.place = .merging) :
      Worked state drained (.received report) (state.collect report)
  | poll (place : state.place = .waiting) : Worked state drained .timeout { state with place := .polling }
  | goOn (place : state.place = .polling) : Worked state drained .stopEmpty { state with place := .waiting }
  | merge (place : state.place = .measuring) : Worked state drained (.deadline false) { state with place := .merging }
  | late (place : state.place = .measuring) : Worked state drained (.deadline true) (state.flush drained .waiting)
  | quiet (place : state.place = .merging) : Worked state drained .timeout (state.flush drained .waiting)
  | cut (place : state.place = .waiting ∨ state.place = .merging) :
      Worked state drained .disconnected (state.flush drained .returned)
  | finish {outcome : Outcome} (place : state.place = .polling)
      (told : outcome = .stopped ∨ outcome = .stopDisconnected) :
      Worked state drained outcome (state.flush drained .returned)

theorem runWorker_worked {state after : State} {drained : List Path} {outcome : Outcome}
    (ran : runWorker state drained outcome = some after) : Worked state drained outcome after := by
  unfold runWorker at ran
  split at ran
  case h_1 place => cases ran; exact .collect (.inl place)
  case h_2 place => cases ran; exact .poll place
  case h_3 place => cases ran; exact .cut (.inl place)
  case h_4 place => cases ran; exact .finish place (.inl rfl)
  case h_5 place => cases ran; exact .finish place (.inr rfl)
  case h_6 place => cases ran; exact .goOn place
  case h_7 place => cases ran; exact .late place
  case h_8 place => cases ran; exact .merge place
  case h_9 place => cases ran; exact .collect (.inr place)
  case h_10 place => cases ran; exact .quiet place
  case h_11 place => cases ran; exact .cut (.inr place)
  case h_12 => cases ran

theorem flush_place (state : State) (drained : List Path) (place : Place) :
    (state.flush drained place).place = place ∧ (state.flush drained place).burst = [] := by
  unfold State.flush
  split <;> exact ⟨rfl, rfl⟩

theorem Orderly.nothing_pending {state : State} (orderly : Orderly state) (settled : state.burst = []) :
    state.pending = [] := by
  rw [List.eq_nil_iff_forall_not_mem]
  intro path member
  obtain ⟨report, known, _⟩ := orderly.carried path member
  rw [settled] at known
  cases known

theorem Orderly.all_answered {state : State} (orderly : Orderly state) (settled : state.burst = []) :
    Answered state.deeds := by
  obtain ⟨past, deeds, answered⟩ := orderly.answered
  rw [deeds, settled, List.map_nil, List.append_nil]
  exact answered

/-- The thread drops no path that it has received: whenever it waits for the next event
and whenever it has returned, nothing is pending and every path of an event that is no
mere access has been passed to `invalidate` since, and `invalidate` is called on no
path that no such event has carried. -/
theorem worker_drops_no_path {maxCapacity : Nat} {state : State} (reached : Run maxCapacity state) :
    (state.place = .waiting ∨ state.place = .returned → state.pending = [] ∧ Answered state.deeds) ∧
      ∀ path, .invalidated path ∈ state.deeds → ∃ report, .received report ∈ state.deeds ∧ path ∈ report.changed := by
  have orderly := reached.orderly
  refine ⟨?_, orderly.justified⟩
  intro place
  have settled : state.burst = [] := orderly.settled (place.imp_right .inr)
  obtain ⟨past, deeds, answered⟩ := orderly.answered
  constructor
  · rw [List.eq_nil_iff_forall_not_mem]
    intro path member
    obtain ⟨report, known, _⟩ := orderly.carried path member
    rw [settled] at known
    cases known
  · rw [deeds, settled, List.map_nil, List.append_nil]
    exact answered

def modified : Report := .ok { kind := .modify, paths := [[47, 100], [47, 100, 47]], rescan := false }

theorem worker_drops_no_path_merged : ∃ state : State,
    state.place = .returned ∧ Answered state.deeds ∧ .received modified ∈ state.deeds := by
  have collected : Run 8 _ :=
    .next (.next .start trivial (.watch (.refl []) (show runWorker _ _ (.received modified) = some _ from rfl))) trivial
      (.watch (.refl _) (show runWorker _ _ (.deadline false) = some _ from rfl))
  have cut : Run 8 _ := collected.next trivial (.watch (.refl _) (show runWorker _ _ (.disconnected) = some _ from rfl))
  exact ⟨_, rfl, ((worker_drops_no_path cut).1 (.inr rfl)).2, List.mem_cons_self⟩

end Raas.Watcher
