import Raas.Server.Serving
import Raas.Watcher.Freshness

namespace Raas

open Data Server

/-! A server whose watcher is on the clock. -/

namespace Watcher.Session

/-- Results that are sent one after the other. -/
inductive Sends (timing : Timing) : Session → List Report → Session → Prop
  | nil {session : Session} : Sends timing session [] session
  | cons {session next after : Session} {report : Report} {reports : List Report}
      (sent : Step timing session (.send report) next) (rest : Sends timing next reports after) :
      Sends timing session (report :: reports) after

/-- The clock goes on, or the thread does. -/
def Event.Own : Event → Prop
  | .wait _ | .fix | .work _ _ => True
  | _ => False

section Sending

variable {timing : Timing} {session after : Session} {reports : List Report} {newer : Report → Prop}

theorem Sends.steps (sends : Sends timing session reports after) (sent : ∀ report ∈ reports, newer report) :
    Reaches (Step timing) (fun _ event => ∀ report, event = .send report → newer report) session after := by
  induction sends with
  | nil => exact .start
  | cons first _ ih =>
      rw [List.forall_mem_cons] at sent
      refine (Reaches.single ?_ first).trans (ih sent.2)
      intro report same
      cases same
      exact sent.1

/-- They come into the channel as long as somebody receives. -/
theorem Sends.queued (sends : Sends timing session reports after) (goes : session.worker.place ≠ .returned) :
    after.eventRx = session.eventRx ++ reports ∧ after.worker = session.worker := by
  induction sends with
  | nil => exact ⟨(List.append_nil _).symm, rfl⟩
  | cons first _ ih =>
      cases first with
      | ignore opened returned report => exact absurd returned goes
      | send opened receives report =>
          obtain ⟨queued, worker⟩ := ih goes
          refine ⟨queued.trans ?_, worker⟩
          rw [List.append_assoc, List.singleton_append]

theorem Sends.owner (sends : Sends timing session reports after) : after.owner = session.owner := by
  induction sends with
  | nil => rfl
  | cons first _ ih =>
      cases first with
      | ignore opened returned report => exact ih
      | send opened receives report => exact ih

end Sending

end Watcher.Session

namespace Site

structure Live where
  tree : Tree
  session : Watcher.Session
  cells : List Component → ArchiveFormat → Zip.CrcCells

namespace Live

def start (timing : Watcher.Timing) (tree : Tree) (maxCapacity origin : Nat) : Live where
  tree
  session := .start timing (.new maxCapacity) origin
  cells := fun _ _ _ => none

def state (live : Live) : State where
  tree := live.tree
  queue := live.session.eventRx
  watcher := live.session.worker
  cells := live.cells

def share (live : Live) (shared : Shared) : Live :=
  { live with
    session := { live.session with worker := { live.session.worker with archiveCache := shared.archiveCache } }
    cells := shared.cells }

inductive Event where
  | mutate (mutation : Mutation) (sent : List Watcher.Report)
  | notify (report : Watcher.Report)
  | tick (event : Watcher.Session.Event)
  | evict (path : Path) (format : ArchiveFormat)
  | download (moment : Moment) (query : Query)

/-- What the system reports with an event. -/
def Event.sent : Event → List Watcher.Report
  | .mutate _ sent => sent
  | .notify report => [report]
  | _ => []

/-- As `Site.Step`, one call of the cache at a time, with the clock and the channel of the
watcher. -/
inductive Step (site : Site) (timing : Watcher.Timing) : Live → Event → Live → Prop
  | mutate {live : Live} {mutation : Mutation} {sent : List Watcher.Report} {tree : Tree} {session : Watcher.Session}
      (applied : live.tree.apply mutation = some tree)
      (told : ∀ changed ∈ mutation.reports, ∃ report ∈ sent, Coherence.pathAt site.dataRoot changed ∈ report.changed)
      (sends : Watcher.Session.Sends timing live.session sent session) :
      Step site timing live (.mutate mutation sent) { live with tree, session }
  | notify {live : Live} {report : Watcher.Report} {session : Watcher.Session}
      (sends : Watcher.Session.Sends timing live.session [report] session) :
      Step site timing live (.notify report) { live with session }
  | tick {live : Live} {event : Watcher.Session.Event} {session : Watcher.Session} (own : event.Own)
      (taken : Watcher.Session.Step timing live.session event session) :
      Step site timing live (.tick event) { live with session }
  | evict (live : Live) (path : Path) (format : ArchiveFormat) :
      Step site timing live (.evict path format)
        (live.share { live.state.shared with archiveCache := live.state.shared.archiveCache.remove path format })
  | download {live : Live} {moment : Moment} {query : Query} (shows_ : moment.Shows site live.tree query) :
      Step site timing live (.download moment query) (live.share (site.download moment query live.state.shared).2)

/-- As `Site.Event.Careful`. -/
def Event.Careful (site : Site) (live : Live) : Event → Prop
  | .mutate mutation sent => (Site.Event.mutate mutation sent).Careful site live.state
  | .download moment query => moment.Steady site query
  | _ => True

def Run (site : Site) (timing : Watcher.Timing) (tree : Tree) (maxCapacity origin : Nat) (live : Live) : Prop :=
  Reaches (Step site timing) (fun live event => event.Careful site live) (.start timing tree maxCapacity origin) live

section Views

variable {site : Site} {timing : Watcher.Timing} {before after live : Live} {event : Event}

theorem deliver_getOrCreate (moment : Moment) (query : Query) (path : Path) (format : ArchiveFormat) (shared : Shared) :
    (site.deliver moment query path format shared).2.archiveCache =
      (shared.archiveCache.getOrCreate path format (Archive.create site.crate format path (some moment.order))).2 := by
  unfold deliver
  dsimp only
  generalize shared.archiveCache.getOrCreate path format (Archive.create site.crate format path (some moment.order)) =
    answered
  obtain ⟨loaded, archiveCache⟩ := answered
  cases loaded <;> rfl

/-- For the watcher, a request is a call of the cache, or nothing. -/
theorem share_steps {newer : Watcher.Report → Prop} (moment : Moment) (query : Query) :
    Reaches (Watcher.Session.Step timing) (fun _ event => ∀ report, event = .send report → newer report) live.session
      (live.share (site.download moment query live.state.shared).2).session := by
  rcases download_asks site moment query with ⟨reason, refused⟩ | ⟨path, format, _, _, delivers⟩
  · have same : site.download moment query live.state.shared = (.error reason, live.state.shared) :=
      refused moment.order live.state.shared
    rw [same]
    exact .start
  · have same : site.download moment query live.state.shared = site.deliver moment query path format live.state.shared :=
      delivers moment.order live.state.shared
    rw [same, share, deliver_getOrCreate]
    exact .single (fun report other => by cases other)
      (.call live.session (.getOrCreate path format (Archive.create site.crate format path (some moment.order))))

/-- The watcher of a live server is a session. -/
theorem Step.session {newer : Watcher.Report → Prop} (taken : Step site timing before event after)
    (sent : ∀ report ∈ event.sent, newer report) :
    Reaches (Watcher.Session.Step timing) (fun _ event => ∀ report, event = .send report → newer report) before.session
      after.session := by
  cases taken with
  | mutate applied told sends => exact sends.steps sent
  | notify sends => exact sends.steps sent
  | evict path format => exact .single (fun report other => by cases other) (.call before.session (.evict path format))
  | download shown => exact share_steps _ _
  | tick own taken =>
      refine .single ?_ taken
      intro report same
      subst same
      exact own.elim

/-- Nobody drops the watcher. -/
theorem Step.owner (taken : Step site timing before event after) : after.session.owner = before.session.owner := by
  cases taken with
  | mutate applied told sends => exact sends.owner
  | notify sends => exact sends.owner
  | evict path format => rfl
  | download shown => rfl
  | tick own taken =>
      cases taken with
      | wait later room => rfl
      | fix place unfixed => rfl
      | work answers drains ran => rfl
      | send opened receives report => exact own.elim
      | ignore opened returned report => exact own.elim
      | stop holding => exact own.elim
      | release stopped holding => exact own.elim
      | disconnect released opened => exact own.elim
      | join released holding returned => exact own.elim
      | call operation => exact own.elim

variable {tree : Tree} {maxCapacity origin : Nat}

theorem Run.session (reached : Run site timing tree maxCapacity origin live) :
    Watcher.Session.Run timing maxCapacity origin live.session ∧ live.session.owner.stopTx = true := by
  have both : live.session.owner.stopTx = true ∧
      Reaches (Watcher.Session.Step timing) (fun _ event => ∀ report, event = .send report → True)
        (Live.start timing tree maxCapacity origin).session live.session := by
    apply Reaches.simulates Live.session (fun live => live.session.owner.stopTx = true) reached rfl
    intro before event after held _ taken
    exact ⟨by rw [taken.owner]; exact held, taken.session fun _ _ => trivial⟩
  exact ⟨both.2.weaken fun _ _ _ => trivial, both.1⟩

end Views

/-- Nothing that an event reports affects a path. -/
def Event.Spares (source : Path) (event : Event) : Prop :=
  ∀ report ∈ event.sent, ∀ path ∈ report.changed, Path.affects path source = false

end Live

open Watcher.Session (smallTiming seconds Answers)

/-- A while in which nothing is reported. -/
def Passes (before live : Live) : Prop :=
  Reaches (Live.Step smallSite smallTiming) (fun live event => event.Careful smallSite live ∧ event.sent = []) before live

section Passing

variable {before live : Live}

theorem Passes.wait (passes : Passes before live) (count : Nat) (later : live.session.now ≤ seconds count)
    (room : seconds count ≤ live.session.due) :
    Passes before { live with session := { live.session with now := seconds count } } :=
  .next passes ⟨by trivial, rfl⟩ (.tick (by trivial) (.wait later (.inr room)))

theorem Passes.fix (passes : Passes before live) (place : live.session.worker.place = .measuring)
    (unfixed : live.session.deadline = none) :
    Passes before { live with session := { live.session with
      deadline := some (live.session.now + Watcher.maxDebounceWindow)
      due := live.session.now + smallTiming.lag } } :=
  .next passes ⟨by trivial, rfl⟩ (.tick (by trivial) (.fix place unfixed))

theorem Passes.work (passes : Passes before live) {drained : List Path} {outcome : Watcher.Outcome}
    {session : Watcher.Session}
    (taken : Watcher.Session.Step smallTiming live.session (.work drained outcome) session) :
    Passes before { live with session } :=
  .next passes ⟨by trivial, rfl⟩ (.tick (show Watcher.Session.Event.Own (.work drained outcome) from trivial) taken)

end Passing

end Site

end Raas
