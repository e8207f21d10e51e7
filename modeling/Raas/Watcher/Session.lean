import Raas.Data.Timing
import Raas.Watcher.Worker

namespace Raas.Watcher

open Data

/-! A watcher from its start to its end: the thread with its channels and the clock, and
the value that owns them. Durations and instants are in nanoseconds. -/

/-- `POLL_INTERVAL` -/
def pollInterval : Nat := 100 * 1000000

/-- `MAX_DEBOUNCE_WINDOW` -/
def maxDebounceWindow : Nat := 2 * 1000000000

/-- How long to merge, and how long the thread takes at most from when it can go on until
it has. -/
structure Timing where
  debounce : Nat
  lag : Nat

/-- Which fields of the value still hold something. -/
structure FileSystemWatcher where
  watcher : Bool
  stopTx : Bool
  worker : Bool
deriving DecidableEq, Repr

structure Session where
  owner : FileSystemWatcher
  worker : State
  /-- What is in the channel of the events. -/
  eventRx : List Report
  /-- The callback that sends them is still there. -/
  callback : Bool
  now : Nat
  /-- `deadline`, once it has been computed. -/
  deadline : Option Nat
  /-- When the `recv_timeout` that the thread is in times out. -/
  timeout : Nat
  /-- The thread goes on by then. -/
  due : Nat
  /-- When the first of the results since the last `flush` was received. -/
  began : Nat
  /-- When something was flushed. -/
  flushed : List Nat

namespace Session

inductive Event where
  | wait (instant : Nat)
  | send (report : Report)
  /-- The thread reads the clock for `deadline`. -/
  | fix
  | work (drained : List Path) (outcome : Outcome)
  | stop
  | release
  | disconnect
  | join
  | call (operation : ArchiveCache.Operation)

/-- `FileSystemWatcher::start`, once the system watches the root. -/
def start (timing : Timing) (archiveCache : ArchiveCache ArchiveCache.Loaded) (now : Nat) : Session where
  owner := { watcher := true, stopTx := true, worker := true }
  worker := .start archiveCache
  eventRx := []
  callback := true
  now
  deadline := none
  timeout := now + pollInterval
  due := now + pollInterval + timing.lag
  began := now
  flushed := []

/-- What an operation of the thread can answer now. -/
def Answers (session : Session) : Outcome → Prop
  | .received report => session.eventRx.head? = some report
  | .timeout => session.eventRx = [] ∧ session.callback = true ∧ session.timeout ≤ session.now
  | .disconnected => session.eventRx = [] ∧ session.callback = false
  | .deadline passed => ∃ deadline, session.deadline = some deadline ∧ passed = decide (deadline ≤ session.now)
  | .stopEmpty => session.owner.stopTx = true
  | .stopped => session.owner.stopTx = false
  | .stopDisconnected => False

/-- How long the next `recv_timeout` may take: `debounce.min(remaining)` in a burst. -/
def patience (timing : Timing) (session : Session) : Place → Nat
  | .waiting => pollInterval
  | .merging => min timing.debounce (session.deadline.getD 0 - session.now)
  | _ => 0

/-- The thread has done one operation and comes to the next. -/
def resume (timing : Timing) (session : Session) (worker : State) (eventRx : List Report) : Session :=
  { session with
    worker
    eventRx
    deadline := if worker.place = .measuring ∨ worker.place = .merging then session.deadline else none
    timeout := session.now + session.patience timing worker.place
    due := session.now + timing.lag +
      if eventRx = [] ∧ session.callback = true then session.patience timing worker.place else 0
    began := if session.worker.burst = [] then session.now else session.began
    flushed :=
      if worker.place = .waiting ∧ session.worker.pending ≠ [] then session.flushed ++ [session.now]
      else session.flushed }

inductive Step (timing : Timing) : Session → Event → Session → Prop
  | wait {session : Session} {instant : Nat} (later : session.now ≤ instant)
      (room : session.worker.place = .returned ∨ instant ≤ session.due) :
      Step timing session (.wait instant) { session with now := instant }
  | send {session : Session} (opened : session.callback = true) (receives : session.worker.place ≠ .returned)
      (report : Report) :
      Step timing session (.send report)
        { session with
          eventRx := session.eventRx ++ [report]
          due := min session.due (session.now + timing.lag) }
  /-- The callback ignores that nobody receives any more. -/
  | ignore {session : Session} (opened : session.callback = true) (returned : session.worker.place = .returned)
      (report : Report) : Step timing session (.send report) session
  | fix {session : Session} (place : session.worker.place = .measuring) (unfixed : session.deadline = none) :
      Step timing session .fix
        { session with
          deadline := some (session.now + maxDebounceWindow)
          due := session.now + timing.lag }
  | work {session : Session} {drained : List Path} {outcome : Outcome} {worker : State}
      (answers : session.Answers outcome) (drains : drained.Perm session.worker.pending)
      (ran : runWorker session.worker drained outcome = some worker) :
      Step timing session (.work drained outcome)
        (session.resume timing worker
          (match outcome with
          | .received _ => session.eventRx.tail
          | _ => session.eventRx))
  /-- `drop` takes `stop_tx` and sends through it. -/
  | stop {session : Session} (holding : session.owner.stopTx = true) :
      Step timing session .stop { session with owner := { session.owner with stopTx := false } }
  /-- It takes and drops `watcher`. -/
  | release {session : Session} (stopped : session.owner.stopTx = false) (holding : session.owner.watcher = true) :
      Step timing session .release { session with owner := { session.owner with watcher := false } }
  /-- The callback is released with the watcher, at once or a little later. -/
  | disconnect {session : Session} (released : session.owner.watcher = false) (opened : session.callback = true) :
      Step timing session .disconnect
        { session with callback := false, due := min session.due (session.now + timing.lag) }
  /-- `worker.join()` -/
  | join {session : Session} (released : session.owner.watcher = false) (holding : session.owner.worker = true)
      (returned : session.worker.place = .returned) :
      Step timing session .join { session with owner := { session.owner with worker := false } }
  | call (session : Session) (operation : ArchiveCache.Operation) :
      Step timing session (.call operation)
        { session with worker := { session.worker with archiveCache := operation.apply session.worker.archiveCache } }

def Run (timing : Timing) (maxCapacity origin : Nat) (session : Session) : Prop :=
  Reaches (Step timing) (fun _ _ => True) (.start timing (.new maxCapacity) origin) session

variable {timing : Timing} {before after : Session} {event : Event}

/-- The clock moves on while the thread may still take its time. -/
theorem waits {condition : Session → Event → Prop} {start session : Session}
    (reached : Reaches (Step timing) condition start session) (instant : Nat) (met : condition session (.wait instant))
    (later : session.now ≤ instant) (room : instant ≤ session.due) :
    Reaches (Step timing) condition start { session with now := instant } :=
  reached.next met (.wait later (.inr room))

theorem Step.orderly (taken : Step timing before event after) (orderly : Orderly before.worker) :
    Orderly after.worker := by
  cases taken with
  | work answers drains ran => exact orderly.runWorker drains ran
  | call operation =>
      exact ⟨orderly.answered, orderly.covers, orderly.carried, orderly.justified, orderly.settled⟩
  | wait later room => exact orderly
  | send opened receives report => exact orderly
  | ignore opened returned report => exact orderly
  | fix place unfixed => exact orderly
  | stop holding => exact orderly
  | release stopped holding => exact orderly
  | disconnect released opened => exact orderly
  | join released holding returned => exact orderly

section Runs

variable {timing : Timing} {maxCapacity origin : Nat} {session : Session}

theorem Run.thread (reached : Run timing maxCapacity origin session) : Watcher.Run maxCapacity session.worker := by
  apply reached.invariant .start
  intro before event after thread _ taken
  cases taken with
  | work answers drains ran => exact thread.next trivial (.watch drains ran)
  | call operation => exact thread.next trivial (.call _ operation)
  | wait later room => exact thread
  | send opened receives report => exact thread
  | ignore opened returned report => exact thread
  | fix place unfixed => exact thread
  | stop holding => exact thread
  | release stopped holding => exact thread
  | disconnect released opened => exact thread
  | join released holding returned => exact thread

theorem Run.orderly (reached : Run timing maxCapacity origin session) : Orderly session.worker := reached.thread.orderly

end Runs

def seconds (count : Nat) : Nat := count * 1000000000

def smallTiming : Timing where
  debounce := 50 * 1000000
  lag := seconds 10

def smallStart : Session := .start smallTiming (.new 8) 0

/-- A result has been sent at once. -/
def smallSent : Session :=
  { smallStart with
    eventRx := [modified]
    due := seconds 10 }

theorem small_sent : Step smallTiming smallStart (.send modified) smallSent :=
  .send rfl Place.noConfusion modified

/-- Ten seconds for receiving it, for reading the clock and for flushing. -/
def smallFlushed : Session :=
  { smallStart with
    worker := (smallStart.worker.collect modified).flush [[47, 100]] .waiting
    now := seconds 30
    timeout := seconds 30 + pollInterval
    due := seconds 40 + pollInterval
    began := seconds 10
    flushed := [seconds 30] }

theorem small_flushed : Reaches (Step smallTiming) (fun _ _ => True) smallSent smallFlushed := by
  have waited : Reaches (Step smallTiming) (fun _ _ => True) smallSent _ :=
    waits .start (seconds 10) trivial (by decide) (by decide)
  have received := waited.next trivial (.work (show Answers _ (.received modified) by exact rfl) (.refl _) rfl)
  have waited := waits received (seconds 20) trivial (by decide) (by decide)
  have fixed := waited.next trivial (.fix rfl rfl)
  have waited := waits fixed (seconds 30) trivial (by decide) (by decide)
  exact waited.next trivial (.work (show Answers _ (.deadline true) from ⟨_, rfl, rfl⟩) (.refl _) rfl)

theorem small_session : ∃ session : Session, Reaches (Step smallTiming) (fun _ _ => True) smallSent session ∧
    session.owner.stopTx = true ∧ session.now = seconds 70 ∧ session.eventRx = [] := by
  have waited := waits small_flushed (seconds 40) trivial (by decide) (by decide)
  have polled := waited.next trivial (.work (show Answers _ .timeout from ⟨rfl, rfl, by decide⟩) (.refl _) rfl)
  have waited := waits polled (seconds 50) trivial (by decide) (by decide)
  have again := waited.next trivial (.work (show Answers _ .stopEmpty by exact rfl) (.refl _) rfl)
  have waited := waits again (seconds 60) trivial (by decide) (by decide)
  have polled := waited.next trivial (.work (show Answers _ .timeout from ⟨rfl, rfl, by decide⟩) (.refl _) rfl)
  have waited := waits polled (seconds 70) trivial (by decide) (by decide)
  exact ⟨_, waited, rfl, rfl, rfl⟩

end Session

end Raas.Watcher
