import Raas.Archive.Dispatch
import Raas.Archive.Narrow

namespace Raas.Archive

open Data

/-! The readers of both kinds of archive behind the one trait. -/

/-- The `Box<dyn Read>` that `stream_range` answers. -/
def Reader : Archive → Type
  | .tar _ => Tar.RangeStreamWriter
  | .zip _ => Zip.ZipRangeReader

def openRange : (archive : Archive) → Nat → Nat → archive.Reader
  | .tar _, start, stop => Tar.TarArchive.streamRange start stop
  | .zip _, start, stop => Zip.ZipArchive.streamRange start stop

def read (pointerBits fuel : Nat) (feature : Zip.CrcFeature) (os : Files) :
    (archive : Archive) → archive.Reader × Zip.World → Nat → Except (Fault IoError) Bytes × archive.Reader × Zip.World
  | .tar archive, (reader, world), capacity =>
      let (result, reader, now) := Tar.read pointerBits fuel os archive (reader, world.now) capacity
      (result, reader, { world with now })
  | .zip archive, caller, capacity => Zip.read pointerBits feature fuel os archive caller capacity

/-- A reader of a range up to `stop` that has come as far as `position`, with good checksums. -/
def Standing (feature : Zip.CrcFeature) (holds : FileId → Option Bytes) (paths : Path → Option Bytes) (stop : Nat) :
    (archive : Archive) → archive.Reader × Zip.World → Nat → Prop
  | .tar _, (reader, world), position => Tar.Standing stop holds paths (reader, world.now) position
  | .zip archive, caller, position => Zip.Standing feature holds paths archive stop caller position

variable {crate : Tar.HeaderCrate} {format : ArchiveFormat} {sourcePath : Path} {scanned : List ScannedEntry}
  {archive : Archive} {feature : Zip.CrcFeature} {os : Files} {paths : Path → Option Bytes}
  {holds : FileId → Option Bytes} {pointerBits fuel capacity stop position : Nat} {world : Zip.World}

theorem streamRange_drain (pointerBits fuel : Nat) (feature : Zip.CrcFeature) (os : Files) (archive : Archive)
    (world : Zip.World) (start stop : Nat) (capacities : List Nat) :
    (archive.streamRange pointerBits fuel feature os world start stop capacities).1 =
      (drain (archive.read pointerBits fuel feature os) (archive.openRange start stop, world) capacities).1 := by
  cases archive with
  | tar archive =>
      let embed (caller : Tar.RangeStreamWriter × Nat) : Archive.Reader (.tar archive) × Zip.World :=
        (caller.1, { world with now := caller.2 })
      have alike : ∀ caller capacity, Archive.read pointerBits fuel feature os (.tar archive) (embed caller) capacity =
          ((Tar.read pointerBits fuel os archive caller capacity).1,
            embed (Tar.read pointerBits fuel os archive caller capacity).2) := fun _ _ => rfl
      have drained := drain_embed alike (Tar.TarArchive.streamRange start stop, world.now) capacities
      exact (congrArg Prod.fst drained).symm
  | zip archive => rfl

theorem read_length {caller after : archive.Reader × Zip.World} {bytes : Bytes}
    (answered : archive.read pointerBits fuel feature os caller capacity = (.ok bytes, after)) :
    bytes.length ≤ capacity := by
  cases archive with
  | tar archive =>
      obtain ⟨reader, world⟩ := caller
      rcases called : Tar.read pointerBits fuel os archive (reader, world.now) capacity with ⟨result, later⟩
      simp only [read, called] at answered
      obtain ⟨rfl, _⟩ := Prod.mk.inj answered
      exact (Tar.read_looping pointerBits fuel os archive).fits (fun _ _ _ _ _ => Tar.readStep_fits) called
  | zip archive =>
      exact (Zip.read_looping pointerBits feature fuel os archive).fits (fun _ _ _ _ _ => Zip.readStep_fits) answered

theorem read_answers (created : createFrom crate format sourcePath scanned = .ok archive)
    (fits : archive.extent < u64Size) (serves : os.Serves holds paths) (keeps : archive.KeepsSizes os paths)
    (hashable : archive.Hashable fuel) (stopFits : stop < u64Size) (enough : capacity < fuel)
    {caller : archive.Reader × Zip.World} (standing : archive.Standing feature holds paths stop caller position) :
    Answers (archive.Standing feature holds paths stop) (archive.reference feature os paths)
      (min stop archive.totalSize) position capacity (archive.read 64 fuel feature os caller capacity) := by
  cases format with
  | tar =>
      obtain ⟨tar, built, rfl⟩ := createFrom_tar created
      obtain ⟨wellFormed, _⟩ := Tar.TarArchive.createFrom_wellFormed built fits
      obtain ⟨reader, world⟩ := caller
      have answers := wellFormed.read_answers serves (wellFormed.feeds keeps) stopFits enough standing
      unfold Archive.read
      dsimp only
      revert answers
      generalize Tar.read 64 fuel os tar (reader, world.now) capacity = outcome
      match outcome with
      | (.error reason, _) => exact False.elim
      | (.ok bytes, _) => exact id
  | zip =>
      simp only [createFrom, Except.ok.injEq] at created
      subst created
      obtain ⟨wellFormed, _⟩ := Zip.ZipArchive.createFrom_wellFormed fits
      exact wellFormed.read_answers serves keeps hashable stopFits enough standing

end Raas.Archive
