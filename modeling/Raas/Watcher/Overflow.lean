import Raas.Watcher.Worker

namespace Raas.Watcher

open Data

/-! Results that say that changes went unreported. -/

/-- An error, or what the inotify backend sends when its queue has overflowed: anything
under the root may have changed. -/
def Report.Overflow : Report → Prop
  | .error _ => True
  | .ok event => event.rescan = true ∧ event.paths = []

/-- A path under the root is the source or lies below it. -/
def Touches (root source : Path) : Prop :=
  ∃ path, Path.affects path root = true ∧ Path.affects path source = true

/-- A change that the result announces may have changed the source. -/
def Report.Announces (root source : Path) (report : Report) : Prop :=
  (∃ path ∈ report.changed, Path.affects path source = true) ∨ report.Overflow ∧ Touches root source

/-- Every overflow since the last flush came with a change by path for each archive that
it may concern. -/
def State.Reported (root : Path) (state : State) : Prop :=
  (∃ report ∈ state.burst, report.Overflow) →
    ∀ source format archive, state.archiveCache.lookup source format = some archive → Touches root source →
      ∃ report ∈ state.burst, ∃ path ∈ report.changed, Path.affects path source = true

section Steps

variable {state after : State} {drained : List Path} {outcome : Outcome}

theorem affects_changed {left right source : Path} (same : Path.components left = Path.components right) :
    Path.affects left source = Path.affects right source := by
  have normalized : Path.normalizeForMatch left = Path.normalizeForMatch right := by
    rw [Path.normalizeForMatch, Path.normalizeForMatch, same]
  rw [Path.affects, Path.affects, normalized]

/-- A flush drops what a drained path affects, and nothing else. -/
theorem lookup_drained {archiveCache : ArchiveCache α} (covered : archiveCache.Covered) (drained : List Path)
    (source : Path) (format : ArchiveFormat) :
    (drained.foldl (fun archiveCache path => (archiveCache.invalidate path).2) archiveCache).lookup source format =
      if drained.any fun path => Path.affects path source then none else archiveCache.lookup source format := by
  induction drained generalizing archiveCache with
  | nil => rfl
  | cons path drained ih =>
      rw [List.foldl_cons, ih (covered.invalidate path), covered.lookup_invalidate, List.any_cons]
      cases Path.affects path source with
      | true => simp
      | false => simp

theorem covered_drained {archiveCache : ArchiveCache α} (covered : archiveCache.Covered) (drained : List Path) :
    (drained.foldl (fun archiveCache path => (archiveCache.invalidate path).2) archiveCache).Covered := by
  induction drained generalizing archiveCache with
  | nil => exact covered
  | cons path drained ih => exact ih (covered.invalidate path)

theorem flush_covered (covered : state.archiveCache.Covered) (drained : List Path) (place : Place) :
    (state.flush drained place).archiveCache.Covered := by
  unfold State.flush
  split
  · exact covered
  · exact covered_drained covered drained

theorem runWorker_covered (covered : state.archiveCache.Covered)
    (ran : runWorker state drained outcome = some after) : after.archiveCache.Covered := by
  unfold runWorker at ran
  split at ran
  case h_12 => cases ran
  all_goals first
    | exact Option.some.inj ran ▸ covered
    | exact Option.some.inj ran ▸ flush_covered covered drained _

theorem Run.covered {maxCapacity : Nat} (reached : Run maxCapacity state) : state.archiveCache.Covered := by
  apply Reaches.invariant reached (.new maxCapacity)
  intro before action after covered _ taken
  cases taken with
  | watch drains ran => exact runWorker_covered covered ran
  | call operation => exact covered.apply operation

/-- What is pending affects what the results since the last flush affect by path. -/
theorem Orderly.affects_pending (orderly : Orderly state) (source : Path) :
    (∃ path ∈ state.pending, Path.affects path source = true) ↔
      ∃ report ∈ state.burst, ∃ path ∈ report.changed, Path.affects path source = true := by
  constructor
  · intro gone
    obtain ⟨path, member, affected⟩ := gone
    obtain ⟨report, known, changed⟩ := orderly.carried path member
    exact ⟨report, known, path, changed, affected⟩
  · intro announced
    obtain ⟨report, known, path, changed, affected⟩ := announced
    obtain ⟨kept, member, same⟩ := orderly.covers report known path changed
    refine ⟨kept, member, ?_⟩
    rw [affects_changed (ArchiveCache.same_iff.mp same)]
    exact affected

/-- The thread waits again or returns: it has flushed, or there was nothing to flush. -/
theorem runWorker_lookup (orderly : Orderly state) (covered : state.archiveCache.Covered)
    (drains : drained.Perm state.pending) (ran : runWorker state drained outcome = some after)
    (done : after.place = .waiting ∨ after.place = .returned) (source : Path) (format : ArchiveFormat) :
    after.archiveCache.lookup source format =
      if ∃ report ∈ state.burst, ∃ path ∈ report.changed, Path.affects path source = true then none
      else state.archiveCache.lookup source format := by
  have flushed : ∀ place, (state.flush drained place).archiveCache.lookup source format =
      if ∃ report ∈ state.burst, ∃ path ∈ report.changed, Path.affects path source = true then none
      else state.archiveCache.lookup source format := by
    intro place
    simp only [← orderly.affects_pending source]
    unfold State.flush
    split
    · rename_i empty
      simp [empty]
    · simp only [lookup_drained covered, List.any_eq_true, drains.mem_iff]
  unfold runWorker at ran
  split at ran
  case h_1 => cases Option.some.inj ran; rcases done with done | done <;> cases done
  case h_2 => cases Option.some.inj ran; rcases done with done | done <;> cases done
  case h_3 => exact Option.some.inj ran ▸ flushed _
  case h_4 => exact Option.some.inj ran ▸ flushed _
  case h_5 => exact Option.some.inj ran ▸ flushed _
  case h_6 here =>
    -- the stop channel was empty, and nothing has come in since the last flush
    have settled : state.burst = [] := orderly.settled (.inr (.inl here))
    cases Option.some.inj ran
    simp [settled]
  case h_7 => exact Option.some.inj ran ▸ flushed _
  case h_8 => cases Option.some.inj ran; rcases done with done | done <;> cases done
  case h_9 => cases Option.some.inj ran; rcases done with done | done <;> cases done
  case h_10 => exact Option.some.inj ran ▸ flushed _
  case h_11 => exact Option.some.inj ran ▸ flushed _
  case h_12 => cases ran

end Steps

/-- In every run, whenever the thread has flushed, no archive is left in the cache that a
result since the flush before may have changed, if and only if every overflow among
these results came with changes by path for all archives that it may concern. -/
theorem overflow_invalidates_iff {maxCapacity : Nat} {state after : State} (reached : Run maxCapacity state)
    {drained : List Path} {outcome : Outcome} (drains : drained.Perm state.pending)
    (ran : runWorker state drained outcome = some after) (done : after.place = .waiting ∨ after.place = .returned)
    (root : Path) :
    (∀ report ∈ state.burst, ∀ source format archive, after.archiveCache.lookup source format = some archive →
        ¬ report.Announces root source) ↔ state.Reported root := by
  have left := runWorker_lookup reached.orderly reached.covered drains ran done
  constructor
  · intro gone reported source format archive held touches
    obtain ⟨report, member, overflow⟩ := reported
    by_contra unreported
    have stays : after.archiveCache.lookup source format = some archive := by
      rw [left, if_neg unreported]
      exact held
    exact gone report member source format archive stays (.inr ⟨overflow, touches⟩)
  · intro reported report member source format archive held announced
    rw [left] at held
    split at held
    · cases held
    · rename_i unreported
      rcases announced with ⟨path, changed, affected⟩ | ⟨overflow, touches⟩
      · exact unreported ⟨report, member, path, changed, affected⟩
      · exact unreported (reported ⟨report, member, overflow⟩ source format archive held touches)

def dataRoot : Path := [47, 114]
def source : Path := [47, 114, 47, 100]

/-- The archive of `/r/d` is in the cache. -/
def watching : State :=
  .start ((ArchiveCache.new 8).getOrCreate source .tar (.ok (.tar Tar.smallArchive))).2

theorem watching_received (report : Report) : Run 8 (watching.collect report) := by
  have cached : Run 8 watching :=
    .next .start trivial (.call _ (.getOrCreate source .tar (.ok (.tar Tar.smallArchive))))
  exact cached.next trivial (.watch (.refl []) (show runWorker _ _ (.received report) = some _ from rfl))

def overflowed : Report := .ok { kind := .other, paths := [], rescan := true }

/-- `/r/d/x` is reported. -/
def reportedX : Report := .ok { kind := .modify, paths := [[47, 114, 47, 100, 47, 120]], rescan := false }

/-- The queue overflows, and `/r/d/x` is reported in the same burst. -/
theorem overflow_invalidates_reported : ∃ state after : State,
    Run 8 state ∧ runWorker state state.pending (.deadline true) = some after ∧
      state.burst = [overflowed, reportedX] ∧ overflowed.Overflow ∧
      ∀ report ∈ state.burst, ∀ source format archive, after.archiveCache.lookup source format = some archive →
        ¬ report.Announces dataRoot source := by
  let state := State.collect { watching.collect overflowed with place := .merging } reportedX
  have merging : Run 8 { watching.collect overflowed with place := .merging } :=
    (watching_received overflowed).next trivial (.watch (.refl _) (show runWorker _ _ (.deadline false) = some _ from rfl))
  have received : Run 8 state :=
    merging.next trivial (.watch (.refl _) (show runWorker _ _ (.received reportedX) = some _ from rfl))
  have ran : runWorker state state.pending (.deadline true) = some (state.flush state.pending .waiting) := rfl
  refine ⟨state, _, received, ran, rfl, ⟨rfl, rfl⟩, ?_⟩
  apply (overflow_invalidates_iff received (.refl _) ran (.inl rfl) dataRoot).mpr
  intro _ key format archive held _
  -- the only archive in the cache is that of `/r/d`
  have same : Path.components key = Path.components source := by
    by_contra other
    have absent : state.archiveCache.lookup key format = none := if_neg fun found => other found.1
    rw [absent] at held
    cases held
  refine ⟨reportedX, List.mem_cons_of_mem _ List.mem_cons_self, _, List.mem_cons_self, ?_⟩
  rw [Path.affects, Path.normalizeForMatch, same]
  decide +kernel

/-- The queue overflows while the archive of `/r/d` is in the cache; the archive stays. -/
theorem overflow_leaves_archive : ∃ state after : State,
    Run 8 state ∧ runWorker state [] (.deadline true) = some after ∧ after.place = .waiting ∧
      ¬ ∀ report ∈ state.burst, ∀ source format archive, after.archiveCache.lookup source format = some archive →
        ¬ report.Announces dataRoot source := by
  refine ⟨_, _, watching_received overflowed, rfl, rfl, ?_⟩
  intro gone
  apply gone _ List.mem_cons_self source .tar _ rfl
  exact .inr ⟨⟨rfl, rfl⟩, source, by decide +kernel, by decide +kernel⟩

end Raas.Watcher
