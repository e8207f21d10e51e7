import Raas.Watcher.Session

namespace Raas.Watcher

open Data

/-! When the thread does what. -/

/-- How long a burst goes on at least. -/
def Timing.window (timing : Timing) : Nat := min timing.debounce maxDebounceWindow

namespace Session

/-- The thread has nothing to do but wait. -/
def Blocked (session : Session) : Prop :=
  (session.worker.place = .waiting ∨ session.worker.place = .merging) ∧ session.eventRx = [] ∧ session.callback = true

structure Bursting (session : Session) : Prop where
  filled : session.worker.burst ≠ []
  begun : session.began ≤ session.now
  after : ∀ instant ∈ session.flushed, instant ≤ session.began

structure Fixed (timing : Timing) (session : Session) (deadline : Nat) : Prop where
  known : session.deadline = some deadline
  lower : session.began + maxDebounceWindow ≤ deadline
  upper : deadline ≤ session.began + maxDebounceWindow + timing.lag
  near : deadline ≤ session.now + maxDebounceWindow

/-- How far the thread has come with a burst. -/
inductive Scheduled (timing : Timing) (session : Session) : Prop
  | waiting (place : session.worker.place = .waiting) (idle : session.deadline = none)
      (soon : session.timeout ≤ session.now + pollInterval)
  | polling (place : session.worker.place = .polling) (idle : session.deadline = none)
  | fixing (place : session.worker.place = .measuring) (idle : session.deadline = none) (bursting : session.Bursting)
      (due : session.due ≤ session.began + timing.lag)
  | measuring {deadline : Nat} (place : session.worker.place = .measuring) (fixed : session.Fixed timing deadline)
      (bursting : session.Bursting) (due : session.due ≤ deadline + 2 * timing.lag)
  | merging {deadline : Nat} (place : session.worker.place = .merging) (fixed : session.Fixed timing deadline)
      (bursting : session.Bursting) (due : session.due ≤ deadline + timing.lag)
      (soon : session.timeout ≤ session.now + timing.window) (late : session.began + timing.window ≤ session.timeout)
  | returned (place : session.worker.place = .returned)

structure Timely (timing : Timing) (session : Session) : Prop where
  /-- The thread goes on by then, and at once if it can. -/
  prompt : session.worker.place ≠ .returned → session.now ≤ session.due
  ready : session.worker.place ≠ .returned → ¬ session.Blocked → session.due ≤ session.now + timing.lag
  blocked : session.Blocked → session.timeout ≤ session.due ∧ session.due ≤ session.timeout + timing.lag
  scheduled : session.Scheduled timing
  past : ∀ instant ∈ session.flushed, instant ≤ session.now
  spaced : session.flushed.Pairwise (· + timing.window ≤ ·)

section Places

variable {timing : Timing} {session : Session}

theorem Scheduled.atWaiting (scheduled : session.Scheduled timing) (here : session.worker.place = .waiting) :
    session.deadline = none ∧ session.timeout ≤ session.now + pollInterval := by
  cases scheduled with
  | waiting _ idle soon => exact ⟨idle, soon⟩
  | polling place => cases here.symm.trans place
  | fixing place => cases here.symm.trans place
  | measuring place => cases here.symm.trans place
  | merging place => cases here.symm.trans place
  | returned place => cases here.symm.trans place

theorem Scheduled.atMeasuring (scheduled : session.Scheduled timing) (here : session.worker.place = .measuring) :
    session.Bursting ∧ (session.deadline = none ∧ session.due ≤ session.began + timing.lag ∨
      ∃ deadline, session.Fixed timing deadline ∧ session.due ≤ deadline + 2 * timing.lag) := by
  cases scheduled with
  | fixing _ idle bursting due => exact ⟨bursting, .inl ⟨idle, due⟩⟩
  | measuring _ fixed bursting due => exact ⟨bursting, .inr ⟨_, fixed, due⟩⟩
  | waiting place => cases here.symm.trans place
  | polling place => cases here.symm.trans place
  | merging place => cases here.symm.trans place
  | returned place => cases here.symm.trans place

theorem Scheduled.atMerging (scheduled : session.Scheduled timing) (here : session.worker.place = .merging) :
    session.Bursting ∧ ∃ deadline, session.Fixed timing deadline ∧ session.due ≤ deadline + timing.lag ∧
      session.timeout ≤ session.now + timing.window ∧ session.began + timing.window ≤ session.timeout := by
  cases scheduled with
  | merging _ fixed bursting due soon late => exact ⟨bursting, _, fixed, due, soon, late⟩
  | waiting place => cases here.symm.trans place
  | polling place => cases here.symm.trans place
  | fixing place => cases here.symm.trans place
  | measuring place => cases here.symm.trans place
  | returned place => cases here.symm.trans place

end Places

section Steps

variable {timing : Timing} {session before after : Session} {worker : State} {eventRx : List Report} {event : Event}

theorem Timely.start (timing : Timing) (archiveCache : ArchiveCache ArchiveCache.Loaded) (origin : Nat) :
    (Session.start timing archiveCache origin).Timely timing where
  prompt := fun _ => Nat.le_trans (Nat.le_add_right _ _) (Nat.le_add_right _ _)
  ready := fun _ free => absurd ⟨.inl rfl, rfl, rfl⟩ free
  blocked := fun _ => ⟨Nat.le_add_right _ _, Nat.le_refl _⟩
  scheduled := .waiting rfl rfl (Nat.le_refl _)
  past := nofun
  spaced := .nil

theorem Timely.wait (timely : session.Timely timing) {instant : Nat} (later : session.now ≤ instant)
    (room : session.worker.place = .returned ∨ instant ≤ session.due) :
    Timely timing { session with now := instant } where
  prompt := fun goes => room.resolve_left goes
  ready := fun goes free => Nat.le_trans (timely.ready goes free) (Nat.add_le_add_right later _)
  blocked := timely.blocked
  scheduled := by
    have bursting : session.Bursting → Bursting { session with now := instant } :=
      fun bursting => ⟨bursting.filled, Nat.le_trans bursting.begun later, bursting.after⟩
    have fixed : ∀ deadline, session.Fixed timing deadline → Fixed timing { session with now := instant } deadline :=
      fun deadline fixed =>
        ⟨fixed.known, fixed.lower, fixed.upper, Nat.le_trans fixed.near (Nat.add_le_add_right later _)⟩
    cases timely.scheduled with
    | waiting place idle soon => exact .waiting place idle (Nat.le_trans soon (Nat.add_le_add_right later _))
    | polling place idle => exact .polling place idle
    | fixing place idle bursts due => exact .fixing place idle (bursting bursts) due
    | measuring place known bursts due => exact .measuring place (fixed _ known) (bursting bursts) due
    | merging place known bursts due soon late =>
        exact .merging place (fixed _ known) (bursting bursts) due (Nat.le_trans soon (Nat.add_le_add_right later _)) late
    | returned place => exact .returned place
  past := fun instant member => Nat.le_trans (timely.past instant member) later
  spaced := timely.spaced

/-- What the thread waits for is there, or cannot come any more. -/
theorem Timely.woken (timely : session.Timely timing) (callback : Bool)
    (free : eventRx ≠ [] ∨ callback = false) :
    Timely timing { session with eventRx, callback, due := min session.due (session.now + timing.lag) } where
  prompt := fun goes => Nat.le_min.mpr ⟨timely.prompt goes, Nat.le_add_right _ _⟩
  ready := fun _ _ => Nat.min_le_right _ _
  blocked := by
    intro blocked
    rcases free with some | gone
    · exact absurd blocked.2.1 some
    · exact absurd (gone.symm.trans blocked.2.2) Bool.false_ne_true
  scheduled := by
    have sooner := Nat.min_le_left session.due (session.now + timing.lag)
    cases timely.scheduled with
    | waiting place idle soon => exact .waiting place idle soon
    | polling place idle => exact .polling place idle
    | fixing place idle bursts due =>
        exact .fixing place idle ⟨bursts.filled, bursts.begun, bursts.after⟩ (Nat.le_trans sooner due)
    | measuring place fixed bursts due =>
        exact .measuring place ⟨fixed.known, fixed.lower, fixed.upper, fixed.near⟩
          ⟨bursts.filled, bursts.begun, bursts.after⟩ (Nat.le_trans sooner due)
    | merging place fixed bursts due soon late =>
        exact .merging place ⟨fixed.known, fixed.lower, fixed.upper, fixed.near⟩
          ⟨bursts.filled, bursts.begun, bursts.after⟩ (Nat.le_trans sooner due) soon late
    | returned place => exact .returned place
  past := timely.past
  spaced := timely.spaced

/-- Neither the owner nor the cache has to do with the clock. -/
theorem Timely.around (timely : session.Timely timing) (owner : FileSystemWatcher)
    (archiveCache : ArchiveCache ArchiveCache.Loaded) :
    Timely timing { session with owner, worker := { session.worker with archiveCache } } where
  prompt := timely.prompt
  ready := timely.ready
  blocked := timely.blocked
  scheduled := by
    cases timely.scheduled with
    | waiting place idle soon => exact .waiting place idle soon
    | polling place idle => exact .polling place idle
    | fixing place idle bursts due => exact .fixing place idle ⟨bursts.filled, bursts.begun, bursts.after⟩ due
    | measuring place fixed bursts due =>
        exact .measuring place ⟨fixed.known, fixed.lower, fixed.upper, fixed.near⟩
          ⟨bursts.filled, bursts.begun, bursts.after⟩ due
    | merging place fixed bursts due soon late =>
        exact .merging place ⟨fixed.known, fixed.lower, fixed.upper, fixed.near⟩
          ⟨bursts.filled, bursts.begun, bursts.after⟩ due soon late
    | returned place => exact .returned place
  past := timely.past
  spaced := timely.spaced

theorem Timely.fix (timely : session.Timely timing) (place : session.worker.place = .measuring)
    (unfixed : session.deadline = none) :
    Timely timing
      { session with deadline := some (session.now + maxDebounceWindow), due := session.now + timing.lag } where
  prompt := fun _ => Nat.le_add_right _ _
  ready := fun _ _ => Nat.le_refl _
  blocked := by
    intro blocked
    rcases blocked.1 with other | other
    · cases place.symm.trans other
    · cases place.symm.trans other
  scheduled := by
    have goes : session.worker.place ≠ .returned := fun other => by cases place.symm.trans other
    have now := timely.prompt goes
    obtain ⟨bursts, ⟨_, due⟩ | ⟨deadline, fixed, _⟩⟩ := timely.scheduled.atMeasuring place
    · have fixed : Fixed timing
          { session with deadline := some (session.now + maxDebounceWindow), due := session.now + timing.lag }
          (session.now + maxDebounceWindow) := by
        refine ⟨rfl, Nat.add_le_add_right bursts.begun _, ?_, Nat.le_refl _⟩
        dsimp only
        omega
      refine .measuring place fixed ⟨bursts.filled, bursts.begun, bursts.after⟩ ?_
      dsimp only
      omega
    · cases unfixed.symm.trans fixed.known
  past := timely.past
  spaced := timely.spaced

theorem resume_paced (session : Session) (timing : Timing) (worker : State) (eventRx : List Report) :
    session.now ≤ (session.resume timing worker eventRx).due ∧
      (session.resume timing worker eventRx).due ≤ (session.resume timing worker eventRx).timeout + timing.lag ∧
      ((session.resume timing worker eventRx).Blocked →
        (session.resume timing worker eventRx).timeout ≤ (session.resume timing worker eventRx).due) ∧
      (worker.place ≠ .returned → ¬ (session.resume timing worker eventRx).Blocked →
        (session.resume timing worker eventRx).due ≤ session.now + timing.lag) := by
  unfold resume Blocked
  dsimp only
  by_cases waits : eventRx = [] ∧ session.callback = true
  · rw [if_pos waits]
    refine ⟨by omega, by omega, fun _ => by omega, ?_⟩
    intro goes free
    have other : session.patience timing worker.place = 0 := by
      cases place : worker.place with
      | waiting => exact absurd ⟨.inl place, waits⟩ free
      | merging => exact absurd ⟨.inr place, waits⟩ free
      | polling => rfl
      | measuring => rfl
      | returned => exact absurd place goes
    omega
  · rw [if_neg waits]
    exact ⟨by omega, by omega, fun blocked => absurd blocked.2 waits, fun _ _ => by omega⟩

/-- The thread goes on, and what it comes to is on schedule. -/
theorem Timely.resume (timely : session.Timely timing) (worker : State) (eventRx : List Report)
    (scheduled : (session.resume timing worker eventRx).Scheduled timing)
    (spaced : worker.place = .waiting → session.worker.pending ≠ [] →
      ∀ instant ∈ session.flushed, instant + timing.window ≤ session.now) :
    (session.resume timing worker eventRx).Timely timing := by
  obtain ⟨later, soon, waits, ready⟩ := resume_paced session timing worker eventRx
  refine ⟨fun _ => later, ready, fun blocked => ⟨waits blocked, soon⟩, scheduled, ?_, ?_⟩
  · intro instant member
    change instant ∈ ite _ _ _ at member
    split at member
    · rcases List.mem_append.mp member with before | now
      · exact timely.past instant before
      · exact Nat.le_of_eq (List.mem_singleton.mp now)
    · exact timely.past instant member
  · change List.Pairwise _ (ite _ _ _)
    split
    · rename_i flushes
      rw [List.pairwise_append]
      refine ⟨timely.spaced, List.pairwise_singleton _ _, ?_⟩
      intro instant member now own
      rw [List.mem_singleton.mp own]
      exact spaced flushes.1 flushes.2 instant member
    · exact timely.spaced

theorem resume_waiting (timing : Timing) (eventRx : List Report) (place : worker.place = .waiting) :
    (session.resume timing worker eventRx).Scheduled timing := by
  apply Scheduled.waiting place
  · apply if_neg
    simp [place]
  · change session.now + session.patience timing worker.place ≤ _
    rw [place]
    exact Nat.le_refl _

theorem resume_deadline (timing : Timing) (eventRx : List Report)
    (place : worker.place = .measuring ∨ worker.place = .merging) :
    (session.resume timing worker eventRx).deadline = session.deadline :=
  if_pos place

/-- A burst that goes on keeps its beginning. -/
theorem resume_bursting (bursting : session.Bursting) (timing : Timing) (eventRx : List Report)
    (filled : worker.burst ≠ []) (place : worker.place = .measuring ∨ worker.place = .merging) :
    (session.resume timing worker eventRx).Bursting ∧
      ∀ deadline, session.Fixed timing deadline → (session.resume timing worker eventRx).Fixed timing deadline := by
  have began : (session.resume timing worker eventRx).began = session.began := if_neg bursting.filled
  have flushed : (session.resume timing worker eventRx).flushed = session.flushed := by
    apply if_neg
    rcases place with place | place <;> simp [place]
  have deadline : (session.resume timing worker eventRx).deadline = session.deadline :=
    resume_deadline timing eventRx place
  refine ⟨⟨filled, ?_, ?_⟩, ?_⟩
  · rw [began]
    exact bursting.begun
  · rw [began, flushed]
    exact bursting.after
  · intro instant fixed
    refine ⟨deadline.trans fixed.known, ?_, ?_, fixed.near⟩
    · rw [began]
      exact fixed.lower
    · rw [began]
      exact fixed.upper

/-- The clock is read within the lag. -/
theorem resume_measuring (session : Session) (timing : Timing) (eventRx : List Report)
    (place : worker.place = .measuring) :
    (session.resume timing worker eventRx).due ≤ session.now + timing.lag := by
  obtain ⟨_, _, _, ready⟩ := resume_paced session timing worker eventRx
  apply ready
  · simp [place]
  · intro blocked
    have other : worker.place = .waiting ∨ worker.place = .merging := blocked.1
    simp [place] at other

/-- The next result is waited for no longer than up to the deadline. -/
theorem Timely.resume_merging (timely : session.Timely timing) (eventRx : List Report)
    (place : session.worker.place = .measuring) {deadline : Nat} (known : session.deadline = some deadline)
    (before : session.now < deadline) (merging : worker.place = .merging) (same : worker.burst = session.worker.burst) :
    (session.resume timing worker eventRx).Scheduled timing := by
  obtain ⟨bursting, ⟨idle, _⟩ | ⟨other, fixed, _⟩⟩ := timely.scheduled.atMeasuring place
  · cases known.symm.trans idle
  · obtain rfl : deadline = other := Option.some.inj (known.symm.trans fixed.known)
    have filled : worker.burst ≠ [] := same ▸ bursting.filled
    obtain ⟨bursts, keeps⟩ := resume_bursting bursting timing eventRx filled (.inr merging)
    have began : (session.resume timing worker eventRx).began = session.began := if_neg bursting.filled
    have timeout : (session.resume timing worker eventRx).timeout =
        session.now + min timing.debounce (deadline - session.now) := by
      change session.now + session.patience timing worker.place = _
      rw [merging, patience, known, Option.getD_some]
    obtain ⟨_, soon, _, _⟩ := resume_paced session timing worker eventRx
    have lower := fixed.lower
    have near := fixed.near
    have begun := bursting.begun
    refine .merging merging (keeps deadline fixed) bursts ?_ ?_ ?_
    · omega
    · rw [timeout, Timing.window]
      change _ ≤ session.now + _
      omega
    · rw [timeout, began, Timing.window]
      omega

theorem Timely.work (timely : session.Timely timing) (orderly : Orderly session.worker) {drained : List Path}
    {outcome : Outcome} (answers : session.Answers outcome) (worked : Worked session.worker drained outcome worker)
    (eventRx : List Report) : (session.resume timing worker eventRx).Timely timing := by
  cases worked with
  | @collect report place =>
      have filled : (session.worker.collect report).burst ≠ [] := List.append_ne_nil_of_right_ne_nil _ (List.cons_ne_nil _ _)
      have due := resume_measuring session timing eventRx (show (session.worker.collect report).place = .measuring from rfl)
      apply timely.resume _ eventRx _ (fun other => by cases other)
      rcases place with place | place
      · -- the first of a burst
        have fresh : session.worker.burst = [] := orderly.settled (.inl place)
        have began : (session.resume timing (session.worker.collect report) eventRx).began = session.now := if_pos fresh
        have bursting : (session.resume timing (session.worker.collect report) eventRx).Bursting := by
          refine ⟨filled, Nat.le_of_eq began, ?_⟩
          rw [began]
          exact timely.past
        exact .fixing rfl (timely.scheduled.atWaiting place).1 bursting (by rw [began]; exact due)
      · obtain ⟨bursting, deadline, fixed, soon, _, _⟩ := timely.scheduled.atMerging place
        obtain ⟨bursts, keeps⟩ := resume_bursting bursting timing eventRx filled (.inl rfl)
        have now := timely.prompt (by simp [place])
        exact .measuring rfl (keeps deadline fixed) bursts (by omega)
  | poll place =>
      exact timely.resume _ eventRx (.polling rfl rfl) (fun other => by cases other)
  | goOn place =>
      apply timely.resume _ eventRx (resume_waiting timing eventRx rfl)
      intro _ pending
      exact absurd (orderly.nothing_pending (orderly.settled (.inr (.inl place)))) pending
  | merge place =>
      obtain ⟨deadline, known, passed⟩ := answers
      have before : session.now < deadline := Nat.lt_of_not_le (of_decide_eq_false passed.symm)
      exact timely.resume _ eventRx (timely.resume_merging eventRx place known before rfl rfl)
        (fun other => by cases other)
  | late place =>
      apply timely.resume _ eventRx (resume_waiting timing eventRx (flush_place _ _ _).1)
      intro _ _ instant member
      obtain ⟨deadline, known, passed⟩ := answers
      have after : deadline ≤ session.now := of_decide_eq_true passed.symm
      obtain ⟨bursting, ⟨idle, _⟩ | ⟨other, fixed, _⟩⟩ := timely.scheduled.atMeasuring place
      · cases known.symm.trans idle
      · obtain rfl : deadline = other := Option.some.inj (known.symm.trans fixed.known)
        have before := bursting.after instant member
        have lower := fixed.lower
        rw [Timing.window]
        omega
  | quiet place =>
      apply timely.resume _ eventRx (resume_waiting timing eventRx (flush_place _ _ _).1)
      intro _ _ instant member
      obtain ⟨bursting, _, _, _, _, late⟩ := timely.scheduled.atMerging place
      have before := bursting.after instant member
      have over_ : session.timeout ≤ session.now := answers.2.2
      omega
  | cut place =>
      have returned := (flush_place session.worker drained .returned).1
      exact timely.resume _ eventRx (.returned returned) (fun other => by cases returned.symm.trans other)
  | finish place told =>
      have returned := (flush_place session.worker drained .returned).1
      exact timely.resume _ eventRx (.returned returned) (fun other => by cases returned.symm.trans other)

theorem Timely.step (timely : before.Timely timing) (orderly : Orderly before.worker)
    (taken : Step timing before event after) : after.Timely timing := by
  cases taken with
  | wait later room => exact timely.wait later room
  | send opened receives report => exact timely.woken _ (.inl (List.append_ne_nil_of_right_ne_nil _ (List.cons_ne_nil _ _)))
  | ignore opened returned report => exact timely
  | fix place unfixed => exact timely.fix place unfixed
  | work answers drains ran => exact timely.work orderly answers (runWorker_worked ran) _
  | stop holding => exact timely.around _ before.worker.archiveCache
  | release stopped holding => exact timely.around _ before.worker.archiveCache
  | disconnect released opened => exact timely.woken _ (.inr rfl)
  | join released holding returned => exact timely.around _ before.worker.archiveCache
  | call operation => exact timely.around before.owner _

end Steps

theorem Run.timely {timing : Timing} {maxCapacity origin : Nat} {session : Session}
    (reached : Run timing maxCapacity origin session) : session.Timely timing := by
  have both : Orderly session.worker ∧ session.Timely timing := by
    apply reached.invariant ⟨.start _, .start timing _ origin⟩
    intro before event after held _ taken
    exact ⟨taken.orderly held.1, held.2.step held.1 taken⟩
  exact both.2

end Session

end Raas.Watcher
