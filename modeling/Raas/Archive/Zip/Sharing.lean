import Raas.Archive.Zip.Footprint
import Raas.Data.Pool

namespace Raas.Zip

open Data

/-! Any number of readers of one archive, turn by turn.

The readers share the archive's checksums and the clock. Who needs a cell while its
checksum is being computed waits for it, and turns meet nowhere else: a turn is one step,
and the calls of the operating system are numbered turn after turn. -/

/-- A call of `read_into_buffer` under way: its `pos` and what it has written. -/
structure Call where
  capacity : Nat
  pos : Nat
  written : Bytes

structure Session where
  reader : ZipRangeReader
  call : Option Call

namespace Sharing

inductive Event where
  | streamRange (start stop : UInt64)
  | read (capacity : Nat)
  | turn (pos : Nat) (outcome : Except (Fault IoError) Bytes)
  /-- A call returns these bytes to a reader of a range up to `stop` that stood at `pos`. -/
  | answer (pos stop capacity : Nat) (bytes : Bytes)

def enters (event : Event) (session : Session) : Prop :=
  ∃ start stop : UInt64, event = .streamRange start stop ∧
    session = { reader := ZipArchive.streamRange start.toNat stop.toNat, call := none }

end Sharing

/-- The condition of the read loop. -/
def Call.Running (archive : ZipArchive) (reader : ZipRangeReader) (call : Call) : Prop :=
  call.written.length < call.capacity ∧ call.pos < reader.endPos ∧ call.pos < archive.totalSize

def ZipRangeReader.keeping (reader : ZipRangeReader) (progress : Progress) : ZipRangeReader :=
  { reader with fileHandleCache := progress.files, scratch := progress.scratch }

/-- The reader after a call whose loop ended so. -/
def ZipRangeReader.ended (reader : ZipRangeReader) (progress : Progress) :
    Except (Fault IoError) (Bytes × Nat) → ZipRangeReader
  | .ok (_, next) => { reader.keeping progress with currentPos := next }
  | .error _ => reader.keeping progress

theorem ZipRangeReader.keeping_ended (reader : ZipRangeReader) (between progress : Progress)
    (outcome : Except (Fault IoError) (Bytes × Nat)) :
    (reader.keeping between).ended progress outcome = reader.ended progress outcome := by
  cases outcome <;> rfl

namespace Sharing

/-- What a reader does by itself. The early return of `read_into_buffer` is an answer
before the first turn. -/
inductive Acts (feature : CrcFeature) (fuel : Nat) (os : Files) (archive : ZipArchive) :
    Session × World → Event → Session × World → Prop
  | read {reader : ZipRangeReader} {world : World} (capacity : Nat) :
      Acts feature fuel os archive ({ reader, call := none }, world) (.read capacity)
        ({ reader, call := some { capacity, pos := reader.currentPos, written := [] } }, world)
  | turn {reader : ZipRangeReader} {world : World} {call : Call} {piece : Bytes} {progress : Progress}
      (running : call.Running archive reader)
      (handed : readStep 64 feature fuel os archive reader.endPos (reader.progress world) call.pos
        (call.capacity - call.written.length) = (.ok piece, progress)) :
      Acts feature fuel os archive ({ reader, call := some call }, world) (.turn call.pos (.ok piece))
        ({ reader := reader.keeping progress
           call := some { call with pos := call.pos + piece.length, written := call.written ++ piece } },
          progress.world)
  | fail {reader : ZipRangeReader} {world : World} {call : Call} {fault : Fault IoError} {progress : Progress}
      (running : call.Running archive reader)
      (failed : readStep 64 feature fuel os archive reader.endPos (reader.progress world) call.pos
        (call.capacity - call.written.length) = (.error fault, progress)) :
      Acts feature fuel os archive ({ reader, call := some call }, world) (.turn call.pos (.error fault))
        ({ reader := reader.keeping progress, call := none }, progress.world)
  | answer {reader : ZipRangeReader} {world : World} {call : Call} (done : ¬ call.Running archive reader) :
      Acts feature fuel os archive ({ reader, call := some call }, world)
        (.answer reader.currentPos reader.endPos call.capacity call.written)
        ({ reader := { reader with currentPos := call.pos }, call := none }, world)

abbrev Step (feature : CrcFeature) (fuel : Nat) (os : Files) (archive : ZipArchive) :
    Pool Session World → Event → Pool Session World → Prop :=
  Pool.Step enters (Acts feature fuel os archive)

/-- No reader yet, and no checksum. -/
def idle (now : Nat) : Pool Session World where
  parties := []
  shared := { cells := fun _ => none, now }

section Alone

variable {feature : CrcFeature} {fuel : Nat} {os : Files} {archive : ZipArchive} {reader : ZipRangeReader}
  {world : World}

theorem fill_acts {loop capacity pos : Nat} {written : Bytes} {outcome : Except (Fault IoError) (Bytes × Nat)}
    {progress : Progress}
    (filled : fill (readStep 64 feature fuel os archive reader.endPos) .exhausted capacity reader.endPos
      archive.totalSize loop (reader.progress world) pos written = (outcome, progress))
    (returns : outcome ≠ .error .exhausted) :
    Reaches (Acts feature fuel os archive) (fun _ _ => True)
      ({ reader, call := some { capacity, pos, written } }, world)
      ({ reader := reader.ended progress outcome, call := none }, progress.world) := by
  induction loop generalizing reader world pos written with
  | zero =>
      obtain ⟨rfl, _⟩ := Prod.mk.inj filled
      exact absurd rfl returns
  | succ loop ih =>
      rw [fill] at filled
      by_cases running : written.length < capacity ∧ pos < reader.endPos ∧ pos < archive.totalSize
      · rw [if_pos running] at filled
        rcases handed : readStep 64 feature fuel os archive reader.endPos (reader.progress world) pos
          (capacity - written.length) with ⟨result, after⟩
        rw [handed] at filled
        cases result with
        | error fault =>
            obtain ⟨rfl, rfl⟩ := Prod.mk.inj filled
            exact .single trivial (.fail running handed)
        | ok piece =>
            have turned : Reaches (Acts feature fuel os archive) (fun _ _ => True)
                ({ reader, call := some { capacity, pos, written } }, world)
                ({ reader := reader.keeping after
                   call := some { capacity, pos := pos + piece.length, written := written ++ piece } }, after.world) :=
              .single trivial (.turn running handed)
            have later : Reaches (Acts feature fuel os archive) (fun _ _ => True)
                ({ reader := reader.keeping after
                   call := some { capacity, pos := pos + piece.length, written := written ++ piece } }, after.world)
                ({ reader := (reader.keeping after).ended progress outcome, call := none }, progress.world) := ih filled
            rw [ZipRangeReader.keeping_ended] at later
            exact turned.trans later
      · rw [if_neg running] at filled
        obtain ⟨rfl, rfl⟩ := Prod.mk.inj filled
        exact .single trivial (.answer running)

/-- A call of `read` that nobody disturbs is a run of these steps. -/
theorem read_acts {capacity : Nat} {result : Except (Fault IoError) Bytes} {after : ZipRangeReader × World}
    (answered : Zip.read 64 feature fuel os archive (reader, world) capacity = (result, after))
    (returns : result ≠ .error .exhausted) :
    Reaches (Acts feature fuel os archive) (fun _ _ => True) ({ reader, call := none }, world)
      ({ reader := after.1, call := none }, after.2) := by
  have begun : Reaches (Acts feature fuel os archive) (fun _ _ => True) ({ reader, call := none }, world)
      ({ reader, call := some { capacity, pos := reader.currentPos, written := [] } }, world) :=
    .single trivial (.read capacity)
  apply begun.trans
  unfold Zip.read readIntoBuffer at answered
  by_cases finished : reader.endPos ≤ reader.currentPos ∨ archive.totalSize ≤ reader.currentPos
  · rw [if_pos finished] at answered
    obtain ⟨rfl, rfl⟩ := Prod.mk.inj answered
    apply Reaches.single trivial
    apply Acts.answer
    intro running
    obtain ⟨_, before, inside⟩ := running
    dsimp only at before inside
    omega
  · rw [if_neg finished] at answered
    rcases filled : fill (readStep 64 feature fuel os archive reader.endPos) .exhausted capacity reader.endPos
      archive.totalSize fuel (reader.progress world) reader.currentPos [] with ⟨outcome, progress⟩
    rw [ZipRangeReader.progress] at filled
    dsimp only at answered
    rw [filled] at answered
    cases outcome with
    | error fault =>
        obtain ⟨rfl, rfl⟩ := Prod.mk.inj answered
        exact fill_acts filled fun exhausted => returns (by cases exhausted; rfl)
    | ok collected =>
        obtain ⟨rfl, rfl⟩ := Prod.mk.inj answered
        exact fill_acts filled fun exhausted => by cases exhausted

end Alone

end Sharing

end Raas.Zip
