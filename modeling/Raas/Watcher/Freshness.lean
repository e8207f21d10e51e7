import Raas.Watcher.Punctual

namespace Raas.Watcher

open Data

/-! How long a change that is reported can go unnoticed. -/

theorem Worked.deeds {state after : State} {drained : List Path} {outcome : Outcome}
    (worked : Worked state drained outcome after) : ∃ more, after.deeds = state.deeds ++ more := by
  have flushed : ∀ place, ∃ more, (state.flush drained place).deeds = state.deeds ++ more := by
    intro place
    unfold State.flush
    split
    · exact ⟨[], (List.append_nil _).symm⟩
    · exact ⟨_, rfl⟩
  cases worked with
  | collect _ => exact ⟨_, rfl⟩
  | poll _ => exact ⟨[], (List.append_nil _).symm⟩
  | goOn _ => exact ⟨[], (List.append_nil _).symm⟩
  | merge _ => exact ⟨[], (List.append_nil _).symm⟩
  | late _ => exact flushed _
  | quiet _ => exact flushed _
  | cut _ => exact flushed _
  | finish _ _ => exact flushed _

/-- What a result has changed is invalidated by the flush that ends its burst. -/
theorem Orderly.flush_effect {state : State} (orderly : Orderly state) {drained : List Path}
    (drains : drained.Perm state.pending) {report : Report} (collected : report ∈ state.burst) (place : Place) :
    ∃ more, (state.flush drained place).deeds = state.deeds ++ more ∧
      ∀ path ∈ report.changed, ∃ passed, .invalidated passed ∈ more ∧ Path.same passed path = true := by
  have covers := orderly.covers report collected
  unfold State.flush
  split
  · rename_i empty
    refine ⟨[], (List.append_nil _).symm, ?_⟩
    intro path changed
    obtain ⟨kept, pending, _⟩ := covers path changed
    rw [empty] at pending
    cases pending
  · refine ⟨_, rfl, ?_⟩
    intro path changed
    obtain ⟨kept, pending, same⟩ := covers path changed
    exact ⟨kept, List.mem_map_of_mem (drains.mem_iff.mpr pending), same⟩

namespace Session

/-- The callback is there until `drop` comes, and so is the thread. -/
def Attended (session : Session) : Prop :=
  (session.owner.watcher = false → session.owner.stopTx = false) ∧
    (session.callback = false → session.owner.stopTx = false) ∧
    (session.worker.place = .returned → session.owner.stopTx = false)

section Bursts

variable {timing : Timing} {session before after : Session} {event : Event}

theorem Attended.step (attended : before.Attended) (taken : Step timing before event after) : after.Attended := by
  obtain ⟨watcher, callback, returned⟩ := attended
  cases taken with
  | wait later room => exact ⟨watcher, callback, returned⟩
  | send opened receives report => exact ⟨watcher, callback, returned⟩
  | ignore opened back report => exact ⟨watcher, callback, returned⟩
  | fix place unfixed => exact ⟨watcher, callback, returned⟩
  | stop holding => exact ⟨fun _ => rfl, fun _ => rfl, fun _ => rfl⟩
  | release stopped holding => exact ⟨fun _ => stopped, fun _ => stopped, fun _ => stopped⟩
  | disconnect released opened => exact ⟨watcher, fun _ => watcher released, returned⟩
  | join released holding back => exact ⟨watcher, callback, returned⟩
  | call operation => exact ⟨watcher, callback, returned⟩
  | work answers drains ran =>
      refine ⟨watcher, callback, ?_⟩
      intro place
      cases runWorker_worked ran with
      | collect _ => cases place
      | poll _ => cases place
      | goOn _ => cases place
      | merge _ => cases place
      | late _ => cases (flush_place _ _ _).1.symm.trans place
      | quiet _ => cases (flush_place _ _ _).1.symm.trans place
      | cut _ => exact callback answers.2
      | finish _ told =>
          rcases told with rfl | rfl
          · exact answers
          · exact answers.elim

/-- A burst lasts no longer than the window. -/
theorem Timely.burst (timely : session.Timely timing) (orderly : Orderly session.worker)
    (collected : session.worker.burst ≠ []) :
    session.now ≤ session.began + maxDebounceWindow + 3 * timing.lag := by
  have goes : session.worker.place ≠ .returned := fun place => collected (orderly.settled (.inr (.inr place)))
  have now := timely.prompt goes
  cases timely.scheduled with
  | waiting place _ _ => exact absurd (orderly.settled (.inl place)) collected
  | polling place _ => exact absurd (orderly.settled (.inr (.inl place))) collected
  | fixing _ _ _ due => omega
  | measuring _ fixed _ due =>
      have upper := fixed.upper
      omega
  | merging _ fixed _ due _ _ =>
      have upper := fixed.upper
      omega
  | returned place => exact absurd place goes

end Bursts

/-- However results keep coming in, those of one burst are merged for no longer than the
maximum window, and two flushes are never closer than the debounce time. -/
theorem bursts_merged_within_window {timing : Timing} {maxCapacity origin : Nat} {session : Session}
    (reached : Run timing maxCapacity origin session) :
    (session.worker.burst ≠ [] → session.now ≤ session.began + maxDebounceWindow + 3 * timing.lag) ∧
      session.flushed.Pairwise fun earlier later => earlier + min timing.debounce maxDebounceWindow ≤ later := by
  have orderly : Orderly session.worker := reached.orderly
  exact ⟨reached.timely.burst orderly, reached.timely.spaced⟩

/-- A second result is merged for longer than the debounce time before the second flush. -/
theorem bursts_merged_within_window_small : ∃ merging session : Session,
    merging.worker.burst = [modified] ∧ merging.now = seconds 60 ∧
      merging.now ≤ merging.began + maxDebounceWindow + 3 * smallTiming.lag ∧
      session.flushed = [seconds 30, seconds 60] ∧
      session.flushed.Pairwise fun earlier later => earlier + min smallTiming.debounce maxDebounceWindow ≤ later := by
  have flushed : Run smallTiming 8 0 smallFlushed := (Reaches.single trivial small_sent).trans small_flushed
  have sent := flushed.next trivial (.send rfl Place.noConfusion modified)
  have waited := waits sent (seconds 40) trivial (by decide) (by decide)
  have received := waited.next trivial (.work (show Answers _ (.received modified) by exact rfl) (.refl _) rfl)
  have waited := waits received (seconds 50) trivial (by decide) (by decide)
  have fixed := waited.next trivial (.fix rfl rfl)
  have merging := fixed.next trivial (.work (show Answers _ (.deadline false) from ⟨_, rfl, rfl⟩) (.refl _) rfl)
  have waited := waits merging (seconds 60) trivial (by decide) (by decide)
  have again := waited.next trivial (.work (show Answers _ .timeout from ⟨rfl, rfl, by decide⟩) (.refl _) rfl)
  exact ⟨_, _, rfl, rfl, (bursts_merged_within_window waited).1 (List.cons_ne_nil _ _), rfl,
    (bursts_merged_within_window again).2⟩

/-! A result on its way through the channel. -/

/-- How long it takes at most from the next operation until the thread receives what comes
after so many results in the channel. -/
def ahead (timing : Timing) (session : Session) (index : Nat) : Nat :=
  3 * (index * timing.lag) +
    match session.worker.place, session.deadline with
    | .polling, _ => timing.lag
    | .measuring, none => 2 * timing.lag
    | .measuring, some _ => timing.lag
    | _, _ => 0

/-- It is in the channel, only newer ones after it, and will be received in time. -/
def Queued (timing : Timing) (newer : Report → Prop) (report : Report) (limit : Nat) (session : Session) : Prop :=
  ∃ front back, session.eventRx = front ++ report :: back ∧ (∀ other ∈ back, newer other) ∧
    session.worker.place ≠ .returned ∧ session.due + session.ahead timing front.length ≤ limit

/-- It has been received and waits for the flush; only newer ones are in the channel. -/
def Collected (newer : Report → Prop) (report : Report) (limit : Nat) (session : Session) : Prop :=
  report ∈ session.worker.burst ∧ session.began ≤ limit ∧ ∀ other ∈ session.eventRx, newer other

/-- All that is in the channel or waits for the flush is newer. -/
def Renewed (newer : Report → Prop) (session : Session) : Prop :=
  ∀ other ∈ session.worker.burst ++ session.eventRx, newer other

/-- All that it has changed has been invalidated since. -/
def Effective (report : Report) (past : List Deed) (session : Session) : Prop :=
  ∃ suffix, session.worker.deeds = past ++ suffix ∧
    ∀ path ∈ report.changed, ∃ passed, .invalidated passed ∈ suffix ∧ Path.same passed path = true

section Travelling

variable {timing : Timing} {session before after : Session} {event : Event} {newer : Report → Prop} {report : Report}
  {limit : Nat} {drained : List Path} {outcome : Outcome} {worker : State} {front back : List Report}

theorem ahead_le (timing : Timing) (session : Session) (index : Nat) :
    3 * (index * timing.lag) ≤ session.ahead timing index ∧
      session.ahead timing index ≤ 3 * (index * timing.lag) + 2 * timing.lag := by
  unfold ahead
  split <;> omega

theorem ahead_receiving (timing : Timing) (index : Nat)
    (place : session.worker.place = .waiting ∨ session.worker.place = .merging) :
    session.ahead timing index = 3 * (index * timing.lag) := by
  unfold ahead
  rcases place with place | place
  · rw [place]
    rfl
  · rw [place]
    rfl

theorem ahead_polling (timing : Timing) (index : Nat) (place : session.worker.place = .polling) :
    session.ahead timing index = 3 * (index * timing.lag) + timing.lag := by
  unfold ahead
  rw [place]

theorem ahead_fixing (timing : Timing) (index : Nat) (place : session.worker.place = .measuring)
    (unfixed : session.deadline = none) :
    session.ahead timing index = 3 * (index * timing.lag) + 2 * timing.lag := by
  unfold ahead
  rw [place, unfixed]

theorem ahead_measuring (timing : Timing) (index : Nat) (place : session.worker.place = .measuring) {deadline : Nat}
    (known : session.deadline = some deadline) :
    session.ahead timing index = 3 * (index * timing.lag) + timing.lag := by
  unfold ahead
  rw [place, known]

/-- A thread that finds something in the channel does not wait. -/
theorem resume_filled (session : Session) (timing : Timing) (worker : State) {eventRx : List Report}
    (filled : eventRx ≠ []) : (session.resume timing worker eventRx).due = session.now + timing.lag := by
  change session.now + timing.lag + ite _ _ _ = _
  rw [if_neg fun waits => filled waits.1]
  rfl

theorem Queued.collect (timely : before.Timely timing) (orderly : Orderly before.worker) {first : Report}
    (queued : before.Queued timing newer report limit) (answers : before.Answers (.received first))
    (place : before.worker.place = .waiting ∨ before.worker.place = .merging) :
    (before.resume timing (before.worker.collect first) before.eventRx.tail).Queued timing newer report limit ∨
      (before.resume timing (before.worker.collect first) before.eventRx.tail).Collected newer report limit := by
  obtain ⟨front, back, here, behind, goes, soon⟩ := queued
  have now := timely.prompt goes
  have sooner := (ahead_le timing before front.length).1
  obtain ⟨rest, queue⟩ := List.head?_eq_some_iff.mp answers
  cases front with
  | nil =>
      obtain ⟨rfl, rfl⟩ := List.cons.inj (queue.symm.trans here)
      have began : (before.resume timing (before.worker.collect first) before.eventRx.tail).began ≤ before.now := by
        change ite _ _ _ ≤ _
        split
        · exact Nat.le_refl _
        · rename_i filled
          rcases place with place | place
          · exact absurd (orderly.settled (.inl place)) filled
          · exact (timely.scheduled.atMerging place).1.begun
      refine .inr ⟨List.mem_append_right _ (List.mem_singleton_self _), by omega, ?_⟩
      intro other member
      have member : other ∈ before.eventRx.tail := member
      rw [queue] at member
      exact behind other member
  | cons head front =>
      have tail : before.eventRx.tail = front ++ report :: back := by
        rw [here]
        rfl
      refine .inl ⟨front, back, tail, behind, (fun other => by cases other), ?_⟩
      have due := resume_filled before timing (before.worker.collect first) (show before.eventRx.tail ≠ [] by simp [tail])
      have later := (ahead_le timing (before.resume timing (before.worker.collect first) before.eventRx.tail)
        front.length).2
      rw [List.length_cons] at sooner soon
      have split : (front.length + 1) * timing.lag = front.length * timing.lag + timing.lag := Nat.succ_mul _ _
      omega

/-- An operation that receives nothing, although there is something to be received. -/
theorem Queued.goOn (timely : before.Timely timing) (queued : before.Queued timing newer report limit)
    (place : worker.place = .waiting ∨ worker.place = .merging)
    (enough : ∀ index, 3 * (index * timing.lag) + timing.lag ≤ before.ahead timing index) :
    (before.resume timing worker before.eventRx).Queued timing newer report limit := by
  obtain ⟨front, back, here, behind, goes, soon⟩ := queued
  have now := timely.prompt goes
  have due := resume_filled before timing worker (show before.eventRx ≠ [] by simp [here])
  have enough := enough front.length
  have later : (before.resume timing worker before.eventRx).ahead timing front.length =
      3 * (front.length * timing.lag) := ahead_receiving timing front.length place
  refine ⟨front, back, here, behind, ?_, ?_⟩
  · intro returned
    have returned : worker.place = .returned := returned
    rcases place with place | place
    · cases place.symm.trans returned
    · cases place.symm.trans returned
  · omega

theorem Queued.step (timely : before.Timely timing) (orderly : Orderly before.worker)
    (held : before.owner.stopTx = true) (queued : before.Queued timing newer report limit)
    (sends : ∀ other, event = .send other → newer other) (taken : Step timing before event after) :
    after.Queued timing newer report limit ∨ after.Collected newer report limit := by
  have whole := queued
  obtain ⟨front, back, here, behind, goes, soon⟩ := queued
  have filled : before.eventRx ≠ [] := by simp [here]
  cases taken with
  | wait later room => exact .inl ⟨front, back, here, behind, goes, soon⟩
  | ignore opened returned report => exact .inl whole
  | stop holding => exact .inl ⟨front, back, here, behind, goes, soon⟩
  | release stopped holding => exact .inl ⟨front, back, here, behind, goes, soon⟩
  | join released holding returned => exact .inl ⟨front, back, here, behind, goes, soon⟩
  | call operation => exact .inl ⟨front, back, here, behind, goes, soon⟩
  | send opened receives other =>
      refine .inl ⟨front, back ++ [other], ?_, ?_, goes, ?_⟩
      · change before.eventRx ++ [other] = _
        rw [here, List.append_assoc, List.cons_append]
      · exact List.forall_mem_append.mpr ⟨behind, List.forall_mem_singleton.mpr (sends other rfl)⟩
      · exact Nat.le_trans (Nat.add_le_add_right (Nat.min_le_left _ _) _) soon
  | disconnect released opened =>
      exact .inl ⟨front, back, here, behind, goes, Nat.le_trans (Nat.add_le_add_right (Nat.min_le_left _ _) _) soon⟩
  | fix place unfixed =>
      have now := timely.prompt goes
      rw [ahead_fixing timing _ place unfixed] at soon
      have later : ahead timing
          { before with deadline := some (before.now + maxDebounceWindow), due := before.now + timing.lag }
          front.length = 3 * (front.length * timing.lag) + timing.lag := ahead_measuring timing front.length place rfl
      refine .inl ⟨front, back, here, behind, goes, Nat.le_trans (Nat.add_le_add_left (Nat.le_of_eq later) _) ?_⟩
      dsimp only
      omega
  | @work drained outcome worker answers drains ran =>
      cases runWorker_worked ran with
      | collect place => exact whole.collect timely orderly answers place
      | poll place => exact absurd answers.1 filled
      | quiet place => exact absurd answers.1 filled
      | cut place => exact absurd answers.1 filled
      | finish place told =>
          rcases told with rfl | rfl
          · cases held.symm.trans answers
          · exact answers.elim
      | goOn place =>
          refine .inl (whole.goOn timely (.inl rfl) fun index => ?_)
          rw [ahead_polling timing index place]
      | merge place =>
          obtain ⟨deadline, known, _⟩ := answers
          refine .inl (whole.goOn timely (.inr rfl) fun index => ?_)
          rw [ahead_measuring timing index place known]
      | late place =>
          obtain ⟨deadline, known, _⟩ := answers
          refine .inl (whole.goOn timely (.inl (flush_place _ _ _).1) fun index => ?_)
          rw [ahead_measuring timing index place known]

/-- A burst grows until it is flushed. -/
theorem Collected.step (orderly : Orderly before.worker) (collected : before.Collected newer report limit)
    (sends : ∀ other, event = .send other → newer other) (taken : Step timing before event after) :
    after.Collected newer report limit ∨ after.Effective report before.worker.deeds ∧ after.Renewed newer := by
  have whole := collected
  obtain ⟨member, early, behind⟩ := collected
  have filled : before.worker.burst ≠ [] := List.ne_nil_of_mem member
  cases taken with
  | wait later room => exact .inl whole
  | send opened receives other =>
      exact .inl ⟨member, early, List.forall_mem_append.mpr ⟨behind, List.forall_mem_singleton.mpr (sends other rfl)⟩⟩
  | ignore opened returned other => exact .inl whole
  | fix place unfixed => exact .inl whole
  | stop holding => exact .inl whole
  | release stopped holding => exact .inl whole
  | disconnect released opened => exact .inl whole
  | join released holding returned => exact .inl whole
  | call operation => exact .inl whole
  | @work drained outcome worker answers drains ran =>
      have began : ∀ eventRx, (before.resume timing worker eventRx).began = before.began := fun _ => if_neg filled
      have flushed : ∀ place, worker = before.worker.flush drained place →
          (before.resume timing worker before.eventRx).Effective report before.worker.deeds ∧
            (before.resume timing worker before.eventRx).Renewed newer := by
        intro place flushes
        subst flushes
        refine ⟨orderly.flush_effect drains member place, ?_⟩
        intro other waits
        have waits : other ∈ (before.worker.flush drained place).burst ++ before.eventRx := waits
        rw [(flush_place _ _ _).2] at waits
        exact behind other waits
      cases runWorker_worked ran with
      | collect place =>
          exact .inl ⟨List.mem_append_left _ member, Nat.le_trans (Nat.le_of_eq (began _)) early,
            fun other later => behind other (List.mem_of_mem_tail later)⟩
      | merge place => exact .inl ⟨member, Nat.le_trans (Nat.le_of_eq (began _)) early, behind⟩
      | poll place => exact absurd (orderly.settled (.inl place)) filled
      | goOn place => exact absurd (orderly.settled (.inr (.inl place))) filled
      | finish place told => exact absurd (orderly.settled (.inr (.inl place))) filled
      | late place => exact .inr (flushed _ rfl)
      | quiet place => exact .inr (flushed _ rfl)
      | cut place => exact .inr (flushed _ rfl)

theorem Step.deeds (taken : Step timing before event after) :
    ∃ more, after.worker.deeds = before.worker.deeds ++ more := by
  cases taken with
  | work answers drains ran => exact (runWorker_worked ran).deeds
  | wait later room => exact ⟨[], (List.append_nil _).symm⟩
  | send opened receives other => exact ⟨[], (List.append_nil _).symm⟩
  | ignore opened returned other => exact ⟨[], (List.append_nil _).symm⟩
  | fix place unfixed => exact ⟨[], (List.append_nil _).symm⟩
  | stop holding => exact ⟨[], (List.append_nil _).symm⟩
  | release stopped holding => exact ⟨[], (List.append_nil _).symm⟩
  | disconnect released opened => exact ⟨[], (List.append_nil _).symm⟩
  | join released holding returned => exact ⟨[], (List.append_nil _).symm⟩
  | call operation => exact ⟨[], (List.append_nil _).symm⟩

theorem Effective.step {past : List Deed} (effective : before.Effective report past)
    (taken : Step timing before event after) : after.Effective report past := by
  obtain ⟨suffix, deeds, invalidated⟩ := effective
  obtain ⟨more, later⟩ := taken.deeds
  refine ⟨suffix ++ more, by rw [later, deeds, List.append_assoc], ?_⟩
  intro path changed
  obtain ⟨passed, member, same⟩ := invalidated path changed
  exact ⟨passed, List.mem_append_left _ member, same⟩

theorem Renewed.step (renewed : before.Renewed newer) (sends : ∀ other, event = .send other → newer other)
    (taken : Step timing before event after) : after.Renewed newer := by
  cases taken with
  | wait later room => exact renewed
  | ignore opened returned other => exact renewed
  | fix place unfixed => exact renewed
  | stop holding => exact renewed
  | release stopped holding => exact renewed
  | disconnect released opened => exact renewed
  | join released holding returned => exact renewed
  | call operation => exact renewed
  | send opened receives other =>
      have all := List.forall_mem_append.mpr ⟨renewed, List.forall_mem_singleton.mpr (sends other rfl)⟩
      rw [List.append_assoc] at all
      exact all
  | @work drained outcome worker answers drains ran =>
      have flushed : ∀ place, ∀ other ∈ (before.worker.flush drained place).burst ++ before.eventRx, newer other := by
        intro place other member
        rw [(flush_place _ _ _).2] at member
        exact renewed other (List.mem_append_right _ member)
      cases runWorker_worked ran with
      | @collect report place =>
          obtain ⟨rest, queue⟩ := List.head?_eq_some_iff.mp answers
          change ∀ other ∈ (before.worker.burst ++ [report]) ++ before.eventRx.tail, newer other
          rw [queue, List.tail_cons, List.append_assoc, List.singleton_append, ← queue]
          exact renewed
      | poll place => exact renewed
      | goOn place => exact renewed
      | merge place => exact renewed
      | late place => exact flushed _
      | quiet place => exact flushed _
      | cut place => exact flushed _
      | finish place told =>
          rcases told with rfl | rfl
          · exact flushed _
          · exact flushed _

theorem Step.stopped (taken : Step timing before event after) (stopped : before.owner.stopTx = false) :
    after.owner.stopTx = false := by
  cases taken with
  | stop holding => rfl
  | wait later room => exact stopped
  | send opened receives other => exact stopped
  | ignore opened returned other => exact stopped
  | fix place unfixed => exact stopped
  | work answers drains ran => exact stopped
  | release held holding => exact stopped
  | disconnect released opened => exact stopped
  | join released holding returned => exact stopped
  | call operation => exact stopped

theorem held_before {condition : Session → Event → Prop} (later : Reaches (Step timing) condition before session)
    (held : session.owner.stopTx = true) : before.owner.stopTx = true := by
  by_contra gone
  rw [Bool.not_eq_true] at gone
  have stopped : session.owner.stopTx = false :=
    later.invariant gone fun _ _ _ stopped _ taken => taken.stopped stopped
  cases stopped.symm.trans held

/-- Where a result is that has been sent and has not taken effect. -/
structure Underway (timing : Timing) (newer : Report → Prop) (report : Report) (limit : Nat) (past : List Deed)
    (session : Session) : Prop where
  timely : session.Timely timing
  orderly : Orderly session.worker
  held : session.owner.stopTx = true
  grown : ∃ suffix, session.worker.deeds = past ++ suffix
  placed : session.Queued timing newer report limit ∨ session.Collected newer report limit

theorem Underway.step {past : List Deed} (underway : before.Underway timing newer report limit past)
    (sends : ∀ other, event = .send other → newer other) (taken : Step timing before event after) :
    after.Underway timing newer report limit past ∨
      (after.owner.stopTx = false ∨ after.Effective report past ∧ after.Renewed newer) := by
  obtain ⟨timely, orderly, held, ⟨suffix, deeds⟩, place⟩ := underway
  obtain ⟨more, later⟩ := taken.deeds
  have grown : ∃ suffix, after.worker.deeds = past ++ suffix :=
    ⟨suffix ++ more, by rw [later, deeds, List.append_assoc]⟩
  cases kept : after.owner.stopTx with
  | false => exact .inr (.inl rfl)
  | true =>
      have goesOn : after.Queued timing newer report limit ∨ after.Collected newer report limit →
          after.Underway timing newer report limit past :=
        fun place => ⟨timely.step orderly taken, taken.orderly orderly, kept, grown, place⟩
      rcases place with queued | collected
      · exact .inl (goesOn (queued.step timely orderly held sends taken))
      · rcases collected.step orderly sends taken with still | ⟨effective, renewed⟩
        · exact .inl (goesOn (.inr still))
        · obtain ⟨now, added, invalidated⟩ := effective
          refine .inr (.inr ⟨⟨suffix ++ now, by rw [added, deeds, List.append_assoc], ?_⟩, renewed⟩)
          intro path changed
          obtain ⟨passed, member, same⟩ := invalidated path changed
          exact ⟨passed, List.mem_append_right _ member, same⟩

theorem Underway.within {past : List Deed} (underway : session.Underway timing newer report limit past) :
    session.now ≤ limit + maxDebounceWindow + 3 * timing.lag := by
  rcases underway.placed with ⟨front, back, _, _, goes, soon⟩ | ⟨member, early, _⟩
  · have now := underway.timely.prompt goes
    omega
  · have burst := underway.timely.burst underway.orderly (List.ne_nil_of_mem member)
    omega

theorem Underway.ends {past : List Deed} (underway : before.Underway timing newer report limit past)
    (later : Reaches (Step timing) (fun _ event => ∀ other, event = .send other → newer other) before session)
    (held : session.owner.stopTx = true) (late : limit + maxDebounceWindow + 3 * timing.lag < session.now) :
    session.Effective report past ∧ session.Renewed newer := by
  have result : session.owner.stopTx = false ∨ session.Effective report past ∧ session.Renewed newer := by
    refine later.over_by underway (fun _ _ _ underway sends taken => underway.step sends taken) ?_
      (fun _ underway => underway.within) late
    intro _ _ _ either sends taken
    exact either.imp taken.stopped fun reached => ⟨reached.1.step taken, reached.2.step sends taken⟩
  exact result.resolve_left fun stopped => by cases stopped.symm.trans held

end Travelling

section InTime

variable {timing : Timing} {maxCapacity origin : Nat} {before session : Session}

theorem Run.attended (reached : Run timing maxCapacity origin before) : before.Attended := by
  apply reached.invariant ⟨nofun, nofun, nofun⟩
  exact fun _ _ _ attended _ taken => attended.step taken

theorem Run.underway (reached : Run timing maxCapacity origin before) (held : before.owner.stopTx = true)
    {newer : Report → Prop} (older : ¬ before.Renewed newer) :
    ∃ report, before.Underway timing newer report (before.now + 3 * ((before.eventRx.length + 1) * timing.lag))
      before.worker.deeds := by
  have timely := reached.timely
  have goes : before.worker.place ≠ .returned := by
    intro returned
    cases (reached.attended.2.2 returned).symm.trans held
  have placed : ∃ report, before.Queued timing newer report (before.now + 3 * ((before.eventRx.length + 1) * timing.lag)) ∨
      before.Collected newer report (before.now + 3 * ((before.eventRx.length + 1) * timing.lag)) := by
    rcases List.eq_nil_or_concat before.eventRx with empty | ⟨front, last, whole⟩
    · have filled : before.worker.burst ≠ [] := by
        intro settled
        apply older
        intro other member
        rw [settled, empty] at member
        cases member
      obtain ⟨first, rest, burst⟩ := List.exists_cons_of_ne_nil filled
      have begun : before.began ≤ before.now := by
        cases timely.scheduled with
        | waiting place => exact absurd (reached.orderly.settled (.inl place)) filled
        | polling place => exact absurd (reached.orderly.settled (.inr (.inl place))) filled
        | fixing _ _ bursting => exact bursting.begun
        | measuring _ _ bursting => exact bursting.begun
        | merging _ _ bursting => exact bursting.begun
        | returned place => exact absurd place goes
      refine ⟨first, .inr ⟨burst ▸ List.mem_cons_self, Nat.le_trans begun (Nat.le_add_right _ _), ?_⟩⟩
      rw [empty]
      exact List.forall_mem_nil _
    · rw [List.concat_eq_append] at whole
      have free : ¬ before.Blocked := by
        intro blocked
        have empty := whole.symm.trans blocked.2.1
        simp at empty
      have soon := timely.ready goes free
      have bound := (ahead_le timing before front.length).2
      have length : before.eventRx.length = front.length + 1 := by rw [whole, List.length_append, List.length_singleton]
      have split : (before.eventRx.length + 1) * timing.lag = front.length * timing.lag + 2 * timing.lag := by
        rw [length]
        ring
      exact ⟨last, .inl ⟨front, [], whole, List.forall_mem_nil _, goes, by omega⟩⟩
  obtain ⟨report, placed⟩ := placed
  exact ⟨report, timely, reached.orderly, held, ⟨[], (List.append_nil _).symm⟩, placed⟩

end InTime

/-- While the watcher is held, what a result says has changed is out of the cache in time:
as soon as two seconds and the lag of a few operations, three for every result that is in
the channel before it, are over, every such path has been invalidated since it was sent. -/
theorem reports_take_effect_in_time {timing : Timing} {maxCapacity origin : Nat} {before sent session : Session}
    (reached : Run timing maxCapacity origin before) {report : Report} (told : Step timing before (.send report) sent)
    (later : Reaches (Step timing) (fun _ _ => True) sent session) (held : session.owner.stopTx = true)
    (late : before.now + maxDebounceWindow + 3 * (before.eventRx.length + 2) * timing.lag < session.now) :
    session.Effective report before.worker.deeds := by
  have timely := reached.timely
  have kept := held_before later held
  have underway : sent.Underway timing (fun _ => True) report
      (before.now + 3 * ((before.eventRx.length + 1) * timing.lag)) before.worker.deeds := by
    refine ⟨timely.step reached.orderly told, told.orderly reached.orderly, kept, told.deeds.imp fun _ more => more, ?_⟩
    cases told with
    | ignore opened returned => cases (reached.attended.2.2 returned).symm.trans kept
    | send opened receives =>
        refine .inl ⟨before.eventRx, [], rfl, List.forall_mem_nil _, receives, ?_⟩
        have bound := (ahead_le timing { before with
          eventRx := before.eventRx ++ [report]
          due := min before.due (before.now + timing.lag) } before.eventRx.length).2
        have split : (before.eventRx.length + 1) * timing.lag = before.eventRx.length * timing.lag + timing.lag :=
          Nat.succ_mul _ _
        have soon := Nat.min_le_right before.due (before.now + timing.lag)
        dsimp only at bound ⊢
        omega
  have split : 3 * (before.eventRx.length + 2) * timing.lag =
      3 * ((before.eventRx.length + 1) * timing.lag) + 3 * timing.lag := by ring
  exact (underway.ends (later.weaken fun _ _ _ _ _ => trivial) held (by omega)).1

theorem reports_take_effect_in_time_small : ∃ session : Session, session.now = seconds 70 ∧
    session.Effective modified [] := by
  obtain ⟨session, later, held, now, _⟩ := small_session
  have late : smallStart.now + maxDebounceWindow + 3 * (smallStart.eventRx.length + 2) * smallTiming.lag < session.now := by
    rw [now]
    decide
  exact ⟨session, now, reports_take_effect_in_time (.start : Run smallTiming 8 0 smallStart) small_sent later held late⟩

end Session

end Raas.Watcher
