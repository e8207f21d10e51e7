import Raas.Watcher.Freshness

namespace Raas.Watcher

open Data

/-! The end of a watcher: `drop` waits for the thread. -/

namespace Session

/-- What the results in the channel, a last burst and a last wait take. -/
def backlog (timing : Timing) (session : Session) : Nat :=
  3 * (session.eventRx.length * timing.lag) + timing.window + pollInterval

/-- How long it takes at most from the next operation until the thread has returned, once
it is told to stop and nothing more is sent. -/
def remaining (timing : Timing) (session : Session) : Nat :=
  match session.worker.place with
  | .waiting => if session.eventRx = [] then timing.lag else session.backlog timing + 2 * timing.lag
  | .measuring => session.backlog timing + (if session.deadline = none then 4 else 3) * timing.lag
  | .merging =>
      if session.eventRx = [] then pollInterval + 2 * timing.lag else session.backlog timing + timing.lag
  | .polling | .returned => 0

/-- The same from when the thread has come to its place. -/
def toll (timing : Timing) (session : Session) : Nat :=
  match session.worker.place with
  | .waiting => if session.eventRx = [] then pollInterval + 2 * timing.lag else session.backlog timing + 3 * timing.lag
  | .measuring => session.backlog timing + (if session.deadline = none then 5 else 4) * timing.lag
  | .merging =>
      if session.eventRx = [] then timing.window + pollInterval + 3 * timing.lag
      else session.backlog timing + 2 * timing.lag
  | .polling => timing.lag
  | .returned => 0

/-- The thread can do its next operation, at once or in a while. -/
def GoesOn (timing : Timing) (session : Session) : Prop :=
  ∃ instant event after, session.now ≤ instant ∧ instant ≤ session.due ∧
    (event = .fix ∨ ∃ drained outcome, event = .work drained outcome) ∧
    Step timing { session with now := instant } event after

structure Leaving (timing : Timing) (limit : Nat) (session : Session) : Prop where
  timely : session.Timely timing
  orderly : Orderly session.worker
  told : session.owner.stopTx = false
  goes : session.worker.place ≠ .returned
  soon : session.due + session.remaining timing ≤ limit

section Ending

variable {timing : Timing} {session before after : Session} {event : Event} {limit : Nat}
  {drained : List Path} {outcome : Outcome} {worker : State}

theorem Timely.reserve (timely : session.Timely timing) (goes : session.worker.place ≠ .returned) :
    session.due + session.remaining timing ≤ session.now + session.toll timing := by
  have ready := timely.ready goes
  have blocked := timely.blocked
  unfold remaining toll
  cases timely.scheduled with
  | returned place => exact absurd place goes
  | polling place idle =>
      have free : ¬ session.Blocked := fun waits => by simp [Blocked, place] at waits
      have now := ready free
      rw [place]
      dsimp only
      omega
  | fixing place idle _ _ =>
      have free : ¬ session.Blocked := fun waits => by simp [Blocked, place] at waits
      have now := ready free
      rw [place]
      dsimp only
      rw [if_pos idle, if_pos idle]
      omega
  | measuring place fixed _ _ =>
      have free : ¬ session.Blocked := fun waits => by simp [Blocked, place] at waits
      have now := ready free
      have known : session.deadline ≠ none := by simp [fixed.known]
      rw [place]
      dsimp only
      rw [if_neg known, if_neg known]
      omega
  | waiting place idle soon =>
      rw [place]
      dsimp only
      by_cases waits : session.Blocked
      · have late := (blocked waits).2
        rw [if_pos waits.2.1, if_pos waits.2.1]
        omega
      · have now := ready waits
        split <;> omega
  | merging place fixed _ _ soon _ =>
      rw [place]
      dsimp only
      by_cases waits : session.Blocked
      · have late := (blocked waits).2
        rw [if_pos waits.2.1, if_pos waits.2.1]
        omega
      · have now := ready waits
        split <;> omega

theorem Leaving.within (leaving : session.Leaving timing limit) : session.now ≤ limit := by
  have now := leaving.timely.prompt leaving.goes
  have soon := leaving.soon
  omega

theorem toll_le (timing : Timing) (session : Session) :
    session.toll timing ≤ session.backlog timing + 5 * timing.lag := by
  unfold toll backlog
  cases session.worker.place with
  | waiting => dsimp only; split <;> omega
  | polling => dsimp only; omega
  | measuring => dsimp only; split <;> omega
  | merging => dsimp only; split <;> omega
  | returned => dsimp only; omega

theorem Leaving.resume (leaving : before.Leaving timing limit) {eventRx : List Report}
    (taken : Step timing before event (before.resume timing worker eventRx)) (goes : worker.place ≠ .returned)
    (enough : (before.resume timing worker eventRx).toll timing ≤ before.remaining timing) :
    (before.resume timing worker eventRx).Leaving timing limit := by
  have timely := leaving.timely.step leaving.orderly taken
  have reserve := timely.reserve goes
  have now := leaving.timely.prompt leaving.goes
  have soon := leaving.soon
  have same : (before.resume timing worker eventRx).now = before.now := rfl
  exact ⟨timely, taken.orderly leaving.orderly, leaving.told, goes, by omega⟩

theorem Leaving.collect (leaving : before.Leaving timing limit) {report : Report}
    (answers : before.Answers (.received report))
    (place : before.worker.place = .waiting ∨ before.worker.place = .merging) :
    (before.resume timing (before.worker.collect report) before.eventRx.tail).toll timing ≤ before.remaining timing := by
  obtain ⟨rest, queue⟩ := List.head?_eq_some_iff.mp answers
  have filled : before.eventRx ≠ [] := by simp [queue]
  have shorter : before.backlog timing =
      (before.resume timing (before.worker.collect report) before.eventRx.tail).backlog timing + 3 * timing.lag := by
    have split : (rest.length + 1) * timing.lag = rest.length * timing.lag + timing.lag := Nat.succ_mul _ _
    change 3 * (before.eventRx.length * _) + _ + _ = 3 * (before.eventRx.tail.length * _) + _ + _ + _
    rw [queue, List.length_cons, List.tail_cons, split]
    omega
  have kept : (before.resume timing (before.worker.collect report) before.eventRx.tail).deadline = before.deadline :=
    resume_deadline timing _ (.inl rfl)
  have tolled : (before.resume timing (before.worker.collect report) before.eventRx.tail).toll timing =
      (before.resume timing (before.worker.collect report) before.eventRx.tail).backlog timing +
        (if before.deadline = none then 5 else 4) * timing.lag := by
    rw [← kept]
    rfl
  rw [tolled, remaining]
  rcases place with place | place
  · rw [place]
    dsimp only
    rw [if_neg filled, if_pos (leaving.timely.scheduled.atWaiting place).1]
    omega
  · obtain ⟨_, deadline, fixed, _⟩ := leaving.timely.scheduled.atMerging place
    have known : before.deadline ≠ none := by simp [fixed.known]
    rw [place]
    dsimp only
    rw [if_neg filled, if_neg known]
    omega

/-- The thread waits again, or merges. -/
theorem toll_receiving (place : worker.place = .waiting ∨ worker.place = .merging) :
    (before.resume timing worker before.eventRx).toll timing ≤ before.backlog timing + 3 * timing.lag := by
  have same : (before.resume timing worker before.eventRx).backlog timing = before.backlog timing := rfl
  have here : (before.resume timing worker before.eventRx).worker.place = worker.place := rfl
  have enough : timing.window + pollInterval ≤ before.backlog timing := by
    rw [backlog]
    omega
  unfold toll
  rw [here, same]
  rcases place with place | place
  · rw [place]
    dsimp only
    split <;> omega
  · rw [place]
    dsimp only
    split <;> omega

theorem toll_quiet (place : worker.place = .waiting) (empty : before.eventRx = []) :
    (before.resume timing worker before.eventRx).toll timing = pollInterval + 2 * timing.lag := by
  have here : (before.resume timing worker before.eventRx).worker.place = worker.place := rfl
  unfold toll
  rw [here, place]
  exact if_pos empty

/-- A thread that has returned does no more. -/
theorem Step.returned (taken : Step timing before event after) (gone : before.worker.place = .returned) :
    after.worker.place = .returned := by
  cases taken with
  | work answers drains ran =>
      rw [runWorker.eq_def, gone] at ran
      cases ran
  | wait later room => exact gone
  | send opened receives report => exact gone
  | ignore opened returned report => exact gone
  | fix place unfixed => exact gone
  | stop holding => exact gone
  | release held holding => exact gone
  | disconnect released opened => exact gone
  | join released holding returned => exact gone
  | call operation => exact gone

theorem Leaving.step (leaving : before.Leaving timing limit) (silent : ∀ report, event ≠ .send report)
    (taken : Step timing before event after) : after.Leaving timing limit ∨ after.worker.place = .returned := by
  have timely := leaving.timely.step leaving.orderly taken
  have orderly := taken.orderly leaving.orderly
  have stopped := taken.stopped leaving.told
  have whole := taken
  cases taken with
  | wait later room => exact .inl ⟨timely, orderly, stopped, leaving.goes, leaving.soon⟩
  | send opened receives report => exact absurd rfl (silent report)
  | ignore opened returned report => exact absurd rfl (silent report)
  | stop holding => cases holding.symm.trans leaving.told
  | release held holding => exact .inl ⟨timely, orderly, stopped, leaving.goes, leaving.soon⟩
  | join released holding returned => exact absurd returned leaving.goes
  | call operation => exact .inl ⟨timely, orderly, stopped, leaving.goes, leaving.soon⟩
  | disconnect released opened =>
      have sooner := Nat.min_le_left before.due (before.now + timing.lag)
      exact .inl ⟨timely, orderly, stopped, leaving.goes, Nat.le_trans (Nat.add_le_add_right sooner _) leaving.soon⟩
  | fix place unfixed =>
      have now := leaving.timely.prompt leaving.goes
      have soon := leaving.soon
      rw [remaining, place] at soon
      dsimp only at soon
      rw [if_pos unfixed] at soon
      refine .inl ⟨timely, orderly, stopped, leaving.goes, ?_⟩
      rw [remaining, place]
      dsimp only
      rw [if_neg (Option.some_ne_none _)]
      change before.now + timing.lag + (before.backlog timing + 3 * timing.lag) ≤ limit
      omega
  | @work drained outcome worker answers drains ran =>
      cases runWorker_worked ran with
      | cut place => exact .inr (flush_place _ _ _).1
      | finish place told => exact .inr (flush_place _ _ _).1
      | goOn place => cases leaving.told.symm.trans answers
      | collect place => exact .inl (leaving.resume whole (fun other => by cases other) (leaving.collect answers place))
      | poll place =>
          refine .inl (leaving.resume whole (fun other => by cases other) ?_)
          rw [remaining, place]
          dsimp only
          rw [if_pos answers.1]
          exact Nat.le_refl _
      | merge place =>
          obtain ⟨deadline, known, _⟩ := answers
          refine .inl (leaving.resume whole (fun other => by cases other) ?_)
          rw [remaining, place]
          dsimp only
          rw [if_neg (by simp [known])]
          exact toll_receiving (.inr rfl)
      | late place =>
          obtain ⟨deadline, known, _⟩ := answers
          have waits := (flush_place before.worker drained .waiting).1
          refine .inl (leaving.resume whole (fun other => by cases waits.symm.trans other) ?_)
          rw [remaining, place]
          dsimp only
          rw [if_neg (by simp [known])]
          exact toll_receiving (.inl waits)
      | quiet place =>
          have waits := (flush_place before.worker drained .waiting).1
          refine .inl (leaving.resume whole (fun other => by cases waits.symm.trans other) ?_)
          rw [remaining, place]
          dsimp only
          rw [if_pos answers.1]
          exact Nat.le_of_eq (toll_quiet waits answers.1)

/-- An operation that has its answer at some instant before it is due. -/
theorem goesOn_of (instant : Nat) (later : session.now ≤ instant) (soon : instant ≤ session.due)
    (answers : Answers { session with now := instant } outcome)
    (ran : ∃ worker, runWorker session.worker session.worker.pending outcome = some worker) :
    session.GoesOn timing := by
  obtain ⟨worker, ran⟩ := ran
  exact ⟨instant, _, _, later, soon, .inr ⟨_, _, rfl⟩, .work answers (.refl _) ran⟩

/-- The thread takes what is in the channel, or is told that nothing is, at the latest when it
has waited. -/
theorem Timely.receives (timely : session.Timely timing)
    (place : session.worker.place = .waiting ∨ session.worker.place = .merging) : session.GoesOn timing := by
  have goes : session.worker.place ≠ .returned := by
    intro returned
    rcases place with place | place
    · cases place.symm.trans returned
    · cases place.symm.trans returned
  have now := timely.prompt goes
  by_cases filled : session.eventRx = []
  · cases open_ : session.callback with
    | false =>
        refine goesOn_of session.now (Nat.le_refl _) now (show Answers _ .disconnected from ⟨filled, open_⟩) ?_
        rw [runWorker.eq_def]
        rcases place with place | place
        · rw [place]
          exact ⟨_, rfl⟩
        · rw [place]
          exact ⟨_, rfl⟩
    | true =>
        have room := (timely.blocked ⟨place, filled, open_⟩).1
        refine goesOn_of (max session.now session.timeout) (Nat.le_max_left _ _) (Nat.max_le.mpr ⟨now, room⟩)
          (show Answers _ .timeout from ⟨filled, open_, Nat.le_max_right _ _⟩) ?_
        rw [runWorker.eq_def]
        rcases place with place | place
        · rw [place]
          exact ⟨_, rfl⟩
        · rw [place]
          exact ⟨_, rfl⟩
  · obtain ⟨report, rest, queue⟩ := List.exists_cons_of_ne_nil filled
    have first : session.eventRx.head? = some report := by
      rw [queue]
      rfl
    refine goesOn_of session.now (Nat.le_refl _) now (show Answers _ (.received report) from first) ?_
    rw [runWorker.eq_def]
    rcases place with place | place
    · rw [place]
      exact ⟨_, rfl⟩
    · rw [place]
      exact ⟨_, rfl⟩

/-- The thread is never stuck. -/
theorem Timely.goesOn (timely : session.Timely timing) (goes : session.worker.place ≠ .returned) :
    session.GoesOn timing := by
  have now := timely.prompt goes
  cases timely.scheduled with
  | waiting place _ _ => exact timely.receives (.inl place)
  | merging place _ _ _ _ _ => exact timely.receives (.inr place)
  | fixing place idle _ _ => exact ⟨session.now, _, _, Nat.le_refl _, now, .inl rfl, .fix place idle⟩
  | returned place => exact absurd place goes
  | polling place _ =>
      cases told : session.owner.stopTx with
      | true =>
          refine goesOn_of session.now (Nat.le_refl _) now (show Answers _ .stopEmpty from told) ?_
          rw [runWorker.eq_def, place]
          exact ⟨_, rfl⟩
      | false =>
          refine goesOn_of session.now (Nat.le_refl _) now (show Answers _ .stopped from told) ?_
          rw [runWorker.eq_def, place]
          exact ⟨_, rfl⟩
  | @measuring deadline place fixed _ _ =>
      refine goesOn_of session.now (Nat.le_refl _) now
        (show Answers _ (.deadline (decide (deadline ≤ session.now))) from ⟨deadline, fixed.known, rfl⟩) ?_
      rw [runWorker.eq_def, place]
      cases decide (deadline ≤ session.now) <;> exact ⟨_, rfl⟩

end Ending

/-- Once `drop` has told the thread to stop and nothing more is sent, `join` waits for no
longer than one burst, one interval of polling and the lag of a few operations take, three
for every result that is in the channel. Until then the thread is never stuck, and when it
has returned it has invalidated all that it has received. -/
theorem dropped_watcher_returns {timing : Timing} {maxCapacity origin : Nat} {before session : Session}
    (reached : Run timing maxCapacity origin before) (told : before.owner.stopTx = false)
    (later : Reaches (Step timing) (fun _ event => ∀ report, event ≠ .send report) before session) :
    (session.worker.place ≠ .returned → session.GoesOn timing) ∧
      (before.now + min timing.debounce maxDebounceWindow + pollInterval +
          (3 * before.eventRx.length + 5) * timing.lag < session.now →
        session.worker.place = .returned ∧ Answered session.worker.deeds) := by
  have everywhere : Run timing maxCapacity origin session :=
    reached.trans (later.weaken fun _ _ _ => trivial)
  refine ⟨everywhere.timely.goesOn, ?_⟩
  intro late
  have returned : session.worker.place = .returned := by
    by_cases gone : before.worker.place = .returned
    · apply later.invariant gone
      intro _ _ _ gone _ taken
      exact taken.returned gone
    · have reserve := reached.timely.reserve gone
      have most := toll_le timing before
      have leaving : before.Leaving timing (before.now + (before.backlog timing + 5 * timing.lag)) :=
        ⟨reached.timely, reached.orderly, told, gone, by omega⟩
      have past : before.now + (before.backlog timing + 5 * timing.lag) < session.now := by
        have split : (3 * before.eventRx.length + 5) * timing.lag =
            3 * (before.eventRx.length * timing.lag) + 5 * timing.lag := by ring
        rw [backlog, Timing.window]
        omega
      exact later.over_by leaving (fun _ _ _ leaving silent taken => leaving.step silent taken)
        (fun _ _ _ gone _ taken => taken.returned gone) (fun _ leaving => leaving.within) past
  have orderly := everywhere.orderly
  exact ⟨returned, orderly.all_answered (orderly.settled (.inr (.inr returned)))⟩

/-- The owner stops the thread while a result is on its way. -/
def smallStopped : Session := { smallSent with owner := { smallSent.owner with stopTx := false } }

theorem dropped_watcher_returns_small : ∃ session : Session, smallStopped.eventRx = [modified] ∧
    session.now = seconds 100 ∧ session.worker.place = .returned ∧
      session.worker.deeds = [.received modified, .invalidated [47, 100]] ∧ Answered session.worker.deeds := by
  have reached : Run smallTiming 8 0 smallStopped := .next (.next .start trivial small_sent) trivial (.stop rfl)
  have waited : Reaches (Step smallTiming) (fun _ event => ∀ report, event ≠ .send report) smallStopped _ :=
    waits .start (seconds 10) (by nofun) (by decide) (by decide)
  have received := waited.next (by nofun) (.work (show Answers _ (.received modified) by exact rfl) (.refl _) rfl)
  have waited := waits received (seconds 20) (by nofun) (by decide) (by decide)
  have fixed := waited.next (by nofun) (.fix rfl rfl)
  have waited := waits fixed (seconds 30) (by nofun) (by decide) (by decide)
  have flushed := waited.next (by nofun) (.work (show Answers _ (.deadline true) from ⟨_, rfl, rfl⟩) (.refl _) rfl)
  have waited := waits flushed (seconds 40) (by nofun) (by decide) (by decide)
  have polled := waited.next (by nofun) (.work (show Answers _ .timeout from ⟨rfl, rfl, by decide⟩) (.refl _) rfl)
  have returned := polled.next (by nofun) (.work (show Answers _ .stopped by exact rfl) (.refl _) rfl)
  have later := returned.next (by nofun)
    (show Step smallTiming _ (.wait (seconds 100)) _ from .wait (by decide) (.inl rfl))
  have answered := (dropped_watcher_returns reached rfl later).2 (by decide)
  exact ⟨_, rfl, rfl, answered.1, rfl, answered.2⟩

end Session

end Raas.Watcher
