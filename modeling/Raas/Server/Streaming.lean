import Mathlib.Algebra.Order.BigOperators.Group.List
import Raas.Archive.Reading
import Raas.Data.Channel
import Raas.Server.Stitching

namespace Raas

open Data

/-- The reader has come to its end, or has failed. -/
def Data.Drained.Settled : Drained (Fault ε) α → Prop
  | .starved _ | .failed _ .exhausted => False
  | .ended _ | .failed _ (.error _) | .failed _ (.panic _) => True

instance : (body : Drained (Fault ε) α) → Decidable body.Settled
  | .starved _ => .isFalse id
  | .failed _ .exhausted => .isFalse id
  | .ended _ => .isTrue trivial
  | .failed _ (.error _) => .isTrue trivial
  | .failed _ (.panic _) => .isTrue trivial

namespace Server

/-! The body of a response. A blocking task reads the archive chunk by chunk and hands the
chunks to the asynchronous stream through a bounded channel. -/

abbrev Chunk := Except IoError Bytes

def streamChannelCapacity : Nat := 2

def Environment.bufferSize (env : Environment) : Nat := max env.streamReadBufferSize minStreamReadBufferSize

/-- One turn of the loop in `create_stream_body`. A panic drops the sender as well. -/
def readChunk (env : Environment) (archive : Archive) (caller : archive.Reader × Zip.World) :
    Production (archive.Reader × Zip.World) Chunk :=
  match archive.read env.pointerBits env.fuel env.feature env.os caller env.bufferSize with
  | (.ok [], _) => .nothing
  | (.ok (first :: bytes), after) => .item (.ok (first :: bytes)) after
  | (.error (.error reason), _) => .last (.error (.other reason.message))
  | (.error (.panic _), _) => .nothing
  | (.error .exhausted, _) => .stuck

def startStreamBody (archive : Archive) (world : Zip.World) (start stop : Nat) :
    Channel (archive.Reader × Zip.World) Chunk :=
  .start (archive.openRange start stop, world)

abbrev StreamStep (env : Environment) (archive : Archive) :
    Channel (archive.Reader × Zip.World) Chunk → Channel.Event → Channel (archive.Reader × Zip.World) Chunk → Prop :=
  Channel.Step (readChunk env archive) streamChannelCapacity

/-- The item by which a client learns of a failure. -/
def signal : Drained (Fault IoError) UInt8 → List Chunk
  | .failed _ (.error reason) => [.error reason]
  | _ => []

/-- These items are what a client sees of a body. -/
def Shows (body : Drained (Fault IoError) UInt8) (items : List Chunk) : Prop :=
  ∃ chunks : List Bytes, chunks.flatten = body.bytes ∧ items = chunks.map .ok ++ signal body

section Refinement

variable {env : Environment} {archive : Archive} {world : Zip.World} {start stop : Nat}
  {channel : Channel (archive.Reader × Zip.World) Chunk}

theorem signal_prepend (body : Drained (Fault IoError) UInt8) (front : Bytes) :
    signal (body.prepend front) = signal body := by
  cases body with
  | ended bytes => rfl
  | starved bytes => rfl
  | failed bytes fault => cases fault <;> rfl

theorem settled_prepend (body : Drained (Fault IoError) UInt8) (front : Bytes) :
    (body.prepend front).Settled ↔ body.Settled := by
  cases body with
  | ended bytes => exact Iff.rfl
  | starved bytes => exact Iff.rfl
  | failed bytes fault => cases fault <;> exact Iff.rfl

theorem Shows.prepend {body : Drained (Fault IoError) UInt8} {items : List Chunk} (shows_ : Shows body items)
    (front : Bytes) : Shows (body.prepend front) (.ok front :: items) := by
  obtain ⟨chunks, joined, rfl⟩ := shows_
  refine ⟨front :: chunks, ?_, ?_⟩
  · rw [List.flatten_cons, joined, Drained.prepend_bytes]
  · rw [signal_prepend, List.map_cons, List.cons_append]

/-- The body that a caller collects with so many buffers. -/
def collected (env : Environment) (archive : Archive) (caller : archive.Reader × Zip.World) (turns : Nat) :
    Drained (Fault IoError) UInt8 :=
  (drain (archive.read env.pointerBits env.fuel env.feature env.os) caller (List.replicate turns env.bufferSize)).1.mapError
    (Fault.mapError fun reason => .other reason.message)

theorem collected_createStreamBody (env : Environment) (archive : Archive) (world : Zip.World)
    (start stop patience : Nat) :
    (createStreamBody env archive world start stop patience).1 =
      collected env archive (archive.openRange start stop, world) patience := by
  unfold createStreamBody collected
  dsimp only
  rw [Archive.streamRange_drain]
  rfl

/-- What the task makes in some turns is what the client sees of a body of as many buffers,
and the task has returned when that body is at its end. -/
theorem makes_shows (env : Environment) (caller : archive.Reader × Zip.World) (turns : Nat) :
    Shows (collected env archive caller turns) (makes (readChunk env archive) turns caller).1 ∧
      ((makes (readChunk env archive) turns caller).2 = none ↔ (collected env archive caller turns).Settled) := by
  induction turns generalizing caller with
  | zero => exact ⟨⟨[], rfl, rfl⟩, iff_of_false (Option.some_ne_none _) id⟩
  | succ turns ih =>
      unfold collected
      rw [List.replicate_succ, drain, makes, readChunk]
      rcases archive.read env.pointerBits env.fuel env.feature env.os caller env.bufferSize with ⟨result, after⟩
      cases result with
      | ok bytes =>
          cases bytes with
          | nil => exact ⟨⟨[], rfl, rfl⟩, iff_of_true rfl trivial⟩
          | cons first bytes =>
              obtain ⟨seen, ended⟩ := ih after
              dsimp only
              rw [Drained.prepend_mapError]
              exact ⟨seen.prepend (first :: bytes), ended.trans (settled_prepend _ _).symm⟩
      | error fault =>
          cases fault with
          | error reason => exact ⟨⟨[], rfl, rfl⟩, iff_of_true rfl trivial⟩
          | panic message => exact ⟨⟨[], rfl, rfl⟩, iff_of_true rfl trivial⟩
          | exhausted => exact ⟨⟨[], rfl, rfl⟩, iff_of_false (Option.some_ne_none _) id⟩

end Refinement

/-- Whatever the order in which the task, the stream and the client go on, the client has
been given what a sequential download of as many chunks gives, and when the stream has
ended it is at the end of the sequential download: nothing is lost, doubled or reordered on
the way, and an error comes last. -/
theorem stream_body_refines {env : Environment} {archive : Archive} {world : Zip.World} {start stop : Nat}
    {channel : Channel (archive.Reader × Zip.World) Chunk}
    (reached : Reaches (StreamStep env archive) (fun _ _ => True) (startStreamBody archive world start stop) channel) :
    Shows (createStreamBody env archive world start stop channel.received.length).1 channel.received ∧
      (channel.Over → ∀ patience, channel.received.length < patience →
        Shows (createStreamBody env archive world start stop patience).1 channel.received ∧
          (createStreamBody env archive world start stop patience).1.Settled) := by
  have flows := Channel.Flows.reached reached
  simp only [collected_createStreamBody]
  constructor
  · have seen := (makes_shows env (archive.openRange start stop, world) channel.received.length).1
    rw [flows.received] at seen
    exact seen
  · intro finished patience enough
    have made := makes_shows env (archive.openRange start stop, world) patience
    rw [flows.complete finished enough] at made
    exact ⟨made.1, made.2.mp rfl⟩

/-! What a download keeps in memory. -/

def chunkSize : Chunk → Nat
  | .ok bytes => bytes.length
  | .error _ => 0

/-- The bytes in the channel, and those of the task: it fills a whole buffer, and keeps
what it has read until the channel takes it. -/
def inMemory (env : Environment) {archive : Archive} (channel : Channel (archive.Reader × Zip.World) Chunk) : Nat :=
  (channel.queue.map chunkSize).sum +
    match channel.producer with
    | .making _ => env.bufferSize
    | .sending item _ => chunkSize item
    | .returned => 0

theorem readChunk_fits (env : Environment) (archive : Archive) (caller : archive.Reader × Zip.World) :
    ∀ item ∈ (readChunk env archive caller).made, chunkSize item ≤ env.bufferSize := by
  unfold readChunk
  rcases called : archive.read env.pointerBits env.fuel env.feature env.os caller env.bufferSize with ⟨result, after⟩
  match result with
  | .ok [] => exact List.forall_mem_nil _
  | .ok (first :: bytes) => exact List.forall_mem_singleton.mpr (Archive.read_length called)
  | .error (.error reason) => exact List.forall_mem_singleton.mpr (Nat.zero_le _)
  | .error (.panic message) => exact List.forall_mem_nil _
  | .error .exhausted => exact List.forall_mem_nil _

/-- At every moment a download keeps at most one buffer more than the channel has places,
whatever the archive, the range and the behaviour of the client. -/
theorem stream_body_memory {env : Environment} {archive : Archive} {world : Zip.World} {start stop : Nat}
    {channel : Channel (archive.Reader × Zip.World) Chunk}
    (reached : Reaches (StreamStep env archive) (fun _ _ => True) (startStreamBody archive world start stop) channel) :
    inMemory env channel ≤ env.bufferSize * (streamChannelCapacity + 1) := by
  have bounded := (Channel.Flows.reached reached).bounded
  have small : ∀ item ∈ channel.queue ++ channel.producer.held, chunkSize item ≤ env.bufferSize := by
    apply reached.invariant (List.forall_mem_nil _)
    intro before event after earlier _ taken
    exact taken.items (readChunk_fits env archive) earlier
  rw [List.forall_mem_append] at small
  have queued : (channel.queue.map chunkSize).sum ≤ channel.queue.length * env.bufferSize := by
    have each := List.sum_le_card_nsmul (channel.queue.map chunkSize) env.bufferSize
      (List.forall_mem_map.mpr small.1)
    rwa [List.length_map] at each
  have kept : (match channel.producer with
      | .making _ => env.bufferSize
      | .sending item _ => chunkSize item
      | .returned => 0) ≤ env.bufferSize := by
    have held := small.2
    cases producing : channel.producer with
    | making state => exact Nat.le_refl _
    | sending item next =>
        rw [producing] at held
        exact held item List.mem_cons_self
    | returned => exact Nat.zero_le _
  calc inMemory env channel
      ≤ channel.queue.length * env.bufferSize + env.bufferSize := Nat.add_le_add queued kept
    _ ≤ streamChannelCapacity * env.bufferSize + env.bufferSize := by gcongr
    _ = env.bufferSize * (streamChannelCapacity + 1) := by rw [Nat.mul_add_one, Nat.mul_comm]

/-! Clients that leave, and downloads that end. -/

/-- Nobody but the client can do anything any more. -/
def Idle (env : Environment) (archive : Archive) (channel : Channel (archive.Reader × Zip.World) Chunk) : Prop :=
  ∀ event after, StreamStep env archive channel event after → event = .close

/-- Once the client has gone the task reads one more chunk at most, has it refused, and
returns, unless that read never does; the client is given nothing more. -/
theorem stream_body_abandoned {env : Environment} {archive : Archive} {world : Zip.World} {start stop : Nat}
    {channel after : Channel (archive.Reader × Zip.World) Chunk} {events : List Channel.Event}
    (reached : Reaches (StreamStep env archive) (fun _ _ => True) (startStreamBody archive world start stop) channel)
    (gone : channel.closed = true) (trail : Trail (StreamStep env archive) channel events after) :
    (events <+: [.make, .refuse] ∨ events <+: [.refuse]) ∧ after.received = channel.received ∧
      (Idle env archive after → after.producer = .returned ∨
        ∃ caller, after.producer = .making caller ∧ readChunk env archive caller = .stuck) := by
  have leaving := (Channel.Flows.reached reached).leaving gone trail
  have shut : after.closed = true ∧ after.received = channel.received := by
    cases leaving <;> exact ⟨gone, rfl⟩
  refine ⟨?_, shut.2, ?_⟩
  · cases leaving with
    | stayed => exact .inl List.nil_prefix
    | made idle => exact .inl ⟨[.refuse], rfl⟩
    | refused => exact .inr (List.prefix_refl _)
    | gaveUp => exact .inl (List.prefix_refl _)
  · intro idle
    by_contra going
    rw [not_or, not_exists] at going
    have unstuck : ∀ caller, after.producer = .making caller → readChunk env archive caller ≠ .stuck :=
      fun caller here stuck => going.2 caller ⟨here, stuck⟩
    obtain ⟨event, later, other, taken⟩ := Channel.progress (show 0 < streamChannelCapacity by decide) unstuck
      ⟨fun finished => Bool.false_ne_true (finished.2.2.symm.trans shut.1), fun left => going.1 left.2⟩
    exact other (idle event later taken)

/-- If the sequential download comes to its end within some chunks, every run of the task,
the stream and the client comes to its end within three steps for each of them: nobody can
wait for ever, and a client that stays has then been told that the body is over. -/
theorem stream_body_ends {env : Environment} {archive : Archive} {world : Zip.World} {start stop turns : Nat}
    (settled : (createStreamBody env archive world start stop turns).1.Settled)
    {channel : Channel (archive.Reader × Zip.World) Chunk} {events : List Channel.Event}
    (trail : Trail (StreamStep env archive) (startStreamBody archive world start stop) events channel) :
    events.length ≤ 3 * turns + 1 ∧
      (Idle env archive channel → channel.Over ∨ channel.closed = true ∧ channel.producer = .returned) := by
  rw [collected_createStreamBody] at settled
  have returns := (makes_shows env (archive.openRange start stop, world) turns).2.mpr settled
  obtain ⟨short, unstuck⟩ := Channel.finite returns trail
  refine ⟨short, ?_⟩
  intro idle
  by_contra going
  rw [not_or] at going
  obtain ⟨event, later, other, taken⟩ := Channel.progress (show 0 < streamChannelCapacity by decide) unstuck going
  exact other (idle event later taken)

/-! Downloads of files that stay as they are. -/

section Unchanged

variable {crate : Tar.HeaderCrate} {format : ArchiveFormat} {sourcePath : Path} {scanned : List ScannedEntry}
  {env : Environment} {archive : Archive} {paths : Path → Option Bytes} {holds : FileId → Option Bytes}
  {world : Zip.World} {start stop position : Nat}

end Unchanged

def smallWorld : Zip.World where
  cells := fun _ => none
  now := 0

theorem small_chunk : ∃ bytes after, readChunk smallEnvironment (.tar Tar.smallArchive)
    (Archive.openRange (.tar Tar.smallArchive) 0 100, smallWorld) = .item (.ok bytes) after ∧
      readChunk smallEnvironment (.tar Tar.smallArchive) after = .nothing := by
  have answered : ((Archive.read smallEnvironment.pointerBits smallEnvironment.fuel smallEnvironment.feature
      smallEnvironment.os (.tar Tar.smallArchive) (Archive.openRange (.tar Tar.smallArchive) 0 100, smallWorld)
      smallEnvironment.bufferSize).1.toOption.map List.length) = some 100 := by decide +kernel
  have ended : ((Archive.read smallEnvironment.pointerBits smallEnvironment.fuel smallEnvironment.feature
      smallEnvironment.os (.tar Tar.smallArchive)
      (Archive.read smallEnvironment.pointerBits smallEnvironment.fuel smallEnvironment.feature smallEnvironment.os
        (.tar Tar.smallArchive) (Archive.openRange (.tar Tar.smallArchive) 0 100, smallWorld)
        smallEnvironment.bufferSize).2
      smallEnvironment.bufferSize).1.toOption.map List.length) = some 0 := by decide +kernel
  unfold readChunk
  revert answered ended
  generalize Archive.read smallEnvironment.pointerBits smallEnvironment.fuel smallEnvironment.feature
    smallEnvironment.os (.tar Tar.smallArchive) (Archive.openRange (.tar Tar.smallArchive) 0 100, smallWorld)
    smallEnvironment.bufferSize = outcome
  intro answered ended
  match outcome with
  | (.ok [], _) => cases answered
  | (.error _, _) => cases answered
  | (.ok (first :: bytes), after) =>
      refine ⟨_, after, rfl, ?_⟩
      revert ended
      generalize Archive.read smallEnvironment.pointerBits smallEnvironment.fuel smallEnvironment.feature
        smallEnvironment.os (.tar Tar.smallArchive) _ smallEnvironment.bufferSize = later
      intro ended
      match later with
      | (.ok [], _) => rfl
      | (.error _, _) => cases ended
      | (.ok (_ :: _), _) => cases ended

theorem small_stream : ∃ channel after, Trail (StreamStep smallEnvironment (.tar Tar.smallArchive))
    (startStreamBody (.tar Tar.smallArchive) smallWorld 0 100) [.make, .send, .receive] channel ∧
      channel.received.length = 1 ∧ channel.queue = [] ∧ channel.closed = false ∧ channel.producer = .making after ∧
      readChunk smallEnvironment (.tar Tar.smallArchive) after = .nothing := by
  obtain ⟨bytes, after, produced, ended⟩ := small_chunk
  have made : Trail (StreamStep smallEnvironment (.tar Tar.smallArchive))
      (startStreamBody (.tar Tar.smallArchive) smallWorld 0 100) [.make] _ := .next .start (.make rfl produced)
  have sent : Trail (StreamStep smallEnvironment (.tar Tar.smallArchive))
      (startStreamBody (.tar Tar.smallArchive) smallWorld 0 100) [.make, .send] _ :=
    .next made (.send rfl rfl Nat.zero_lt_two)
  exact ⟨_, after, .next sent (.receive rfl rfl), rfl, rfl, rfl, rfl, ended⟩

theorem stream_body_refines_small : ∃ channel : Channel (Archive.Reader (.tar Tar.smallArchive) × Zip.World) Chunk,
    channel.received.length = 1 ∧
      Shows (createStreamBody smallEnvironment (.tar Tar.smallArchive) smallWorld 0 100 1).1 channel.received := by
  obtain ⟨channel, _, trail, one, _⟩ := small_stream
  have seen := (stream_body_refines trail.reaches).1
  rw [one] at seen
  exact ⟨channel, one, seen⟩

theorem stream_body_memory_small : ∃ channel : Channel (Archive.Reader (.tar Tar.smallArchive) × Zip.World) Chunk,
    channel.received.length = 1 ∧ inMemory smallEnvironment channel ≤ 196608 := by
  obtain ⟨channel, _, trail, one, _⟩ := small_stream
  exact ⟨channel, one, stream_body_memory trail.reaches⟩

/-- The client leaves before the first chunk has been read. -/
theorem stream_body_abandoned_small :
    ∃ channel after : Channel (Archive.Reader (.tar Tar.smallArchive) × Zip.World) Chunk,
      channel.closed = true ∧
        Trail (StreamStep smallEnvironment (.tar Tar.smallArchive)) channel [.make, .refuse] after ∧
        after.producer = .returned ∧ after.received = channel.received := by
  obtain ⟨bytes, reader, produced, _⟩ := small_chunk
  have left : Trail (StreamStep smallEnvironment (.tar Tar.smallArchive))
      (startStreamBody (.tar Tar.smallArchive) smallWorld 0 100) [.close] _ := .next .start (.close rfl)
  have refused : Trail (StreamStep smallEnvironment (.tar Tar.smallArchive))
      { startStreamBody (.tar Tar.smallArchive) smallWorld 0 100 with queue := [], closed := true } [.make, .refuse] _ :=
    .next (.next .start (.make rfl produced)) (.refuse rfl rfl)
  have stays := (stream_body_abandoned left.reaches rfl refused).2.1
  exact ⟨_, _, rfl, refused, rfl, stays⟩

theorem small_settled :
    ∃ turns, (createStreamBody smallEnvironment (.tar Tar.smallArchive) smallWorld 0 100 turns).1.Settled :=
  ⟨2, by decide +kernel⟩

theorem stream_body_ends_small : ∃ channel : Channel (Archive.Reader (.tar Tar.smallArchive) × Zip.World) Chunk,
    Trail (StreamStep smallEnvironment (.tar Tar.smallArchive)) (startStreamBody (.tar Tar.smallArchive) smallWorld 0 100)
        [.make, .send, .receive, .make] channel ∧
      channel.received.length = 1 ∧ Idle smallEnvironment (.tar Tar.smallArchive) channel ∧ channel.Over := by
  obtain ⟨channel, after, trail, one, empty, opened, making, ended⟩ := small_stream
  have returned : Trail (StreamStep smallEnvironment (.tar Tar.smallArchive))
      (startStreamBody (.tar Tar.smallArchive) smallWorld 0 100) [.make, .send, .receive, .make]
      { channel with producer := .returned } := trail.next (.makeNothing making ended)
  have idle : Idle smallEnvironment (.tar Tar.smallArchive) { channel with producer := .returned } := by
    intro event later taken
    cases taken with
    | make here produced => cases here
    | makeLast here produced => cases here
    | makeNothing here produced => cases here
    | send here opened room => cases here
    | refuse here gone => cases here
    | receive there opened => cases empty.symm.trans there
    | close opened => rfl
  obtain ⟨turns, settled⟩ := small_settled
  rcases (stream_body_ends settled returned).2 idle with finished | ⟨gone, _⟩
  · exact ⟨_, returned, one, idle, finished⟩
  · cases opened.symm.trans gone

end Server

end Raas
