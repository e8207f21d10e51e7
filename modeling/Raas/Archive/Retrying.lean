import Raas.Archive.Tar.Reference
import Raas.Archive.Zip.Reference
import Raas.Data.Retrying

namespace Raas

open Data

/-! Reading while files cannot always be opened or read. -/

/-- What opens, seeks and reads give is right, but any of them may fail. -/
def Files.Unsteady (os : Files) (content : Path → Option Bytes) : Prop :=
  ∃ holds, os.Falters (fun _ => True) holds content

/-- A failure that `read` returns, no panic and no endless loop. -/
def Reported (fault : Fault IoError) : Prop := ∃ reason, fault = .error reason

section Resuming

variable {os : Files} {paths : Path → Option Bytes} {fuel : Nat}

theorem Tar.TarArchive.WellFormed.resumes {archive : Tar.TarArchive} (wellFormed : archive.WellFormed)
    (unsteady : os.Unsteady paths) (keeps : archive.KeepsSizes (os.isFile 0 archive.sourcePath) paths) (start : Nat)
    {stop : Nat} (stopFits : stop < u64Size) (now : Nat) :
    Resumes (Tar.read 64 fuel os archive) (fun reader => reader.1.currentPos) Reported
      (fun capacity => 0 < capacity ∧ capacity < fuel)
      (window (archive.reference (Tar.entryContent archive (os.isFile 0 archive.sourcePath) paths))
        (min start archive.totalSize) (min stop archive.totalSize))
      (Tar.TarArchive.streamRange start stop, now) := by
  obtain ⟨holds, falters⟩ := unsteady
  have length := wellFormed.reference_length (wellFormed.entryContent_length keeps)
  have standing : Tar.Standing stop holds paths (Tar.TarArchive.streamRange start stop, now) start :=
    ⟨rfl, rfl, FileHandleCache.new_valid⟩
  have clipped := window_clip (archive.reference (Tar.entryContent archive (os.isFile 0 archive.sourcePath) paths))
    start (min stop archive.totalSize)
  rw [length, Nat.min_assoc, Nat.min_self] at clipped
  rw [clipped]
  apply Resumes.of_responds (Tar.Standing stop holds paths) (fun _ _ standing => standing.2.1)
    (fun _ usable => usable.1) (by rw [length]; exact Nat.min_le_right _ _) ?_ standing
  intro reader position capacity standing usable
  have responds := wellFormed.read_responds falters (wellFormed.feeds keeps) wellFormed.addressable
    (fun _ _ before => wellFormed.not_stuck wellFormed.bounded stopFits (by omega)) usable.2 standing
  exact responds.imp fun _ surfaces => surfaces.elim fun _ admitted => ⟨_, admitted.2⟩

theorem Zip.ZipArchive.WellFormed.resumes {archive : Zip.ZipArchive} (wellFormed : archive.WellFormed)
    (unsteady : os.Unsteady paths) (keeps : archive.KeepsSizes paths) {feature : Zip.CrcFeature}
    (sums : archive.Sums feature fuel os paths) (start : Nat) {stop : Nat} (stopFits : stop < u64Size) (now : Nat) :
    Resumes (Zip.read 64 feature fuel os archive) (fun reader => reader.1.currentPos) Reported
      (fun capacity => 0 < capacity ∧ capacity < fuel)
      (window (archive.reference (Zip.crcOf feature paths) (Zip.entryContent paths))
        (min start archive.totalSize) (min stop archive.totalSize))
      (Zip.ZipArchive.streamRange start stop, { cells := fun _ => none, now }) := by
  obtain ⟨holds, falters⟩ := unsteady
  have length := wellFormed.reference_length (Zip.crcOf feature paths) (wellFormed.entryContent_length keeps)
  have standing : Zip.Standing feature holds paths archive stop
      (Zip.ZipArchive.streamRange start stop, { cells := fun _ => none, now }) start :=
    ⟨rfl, rfl, FileHandleCache.new_valid, Zip.cellsHold_fresh⟩
  have clipped := window_clip (archive.reference (Zip.crcOf feature paths) (Zip.entryContent paths))
    start (min stop archive.totalSize)
  rw [length, Nat.min_assoc, Nat.min_self] at clipped
  rw [clipped]
  apply Resumes.of_responds (Zip.Standing feature holds paths archive stop) (fun _ _ standing => standing.2.1)
    (fun _ usable => usable.1) (by rw [length]; exact Nat.min_le_right _ _) ?_ standing
  intro reader position capacity standing usable
  have responds := wellFormed.read_responds falters keeps sums wellFormed.addressable
    (fun _ _ before => wellFormed.not_stuck wellFormed.bounded stopFits (by omega)) usable.2 standing
  exact responds.imp fun _ passes => passes.elim fun _ admitted => ⟨_, admitted.2⟩

end Resuming

/-- A failed read consumes nothing. Whichever opens, seeks and reads fail, a call that
fails leaves both readers where they stand, and what the other calls hand over is a
front part of the range, all of it once a call hands over nothing. -/
theorem failed_reads_consume_nothing {os : Files} {paths : Path → Option Bytes} (unsteady : os.Unsteady paths) :
    (∀ (crate : Tar.HeaderCrate) (sourcePath : Path) (scanned : List ScannedEntry) (archive : Tar.TarArchive),
      Tar.TarArchive.createFrom crate sourcePath scanned = .ok archive → archive.extent < u64Size →
      archive.KeepsSizes (os.isFile 0 sourcePath) paths → ∀ (start stop : UInt64) (now fuel : Nat),
        Resumes (Tar.read 64 fuel os archive) (fun reader => reader.1.currentPos) Reported
          (fun capacity => 0 < capacity ∧ capacity < fuel)
          (window (archive.reference (Tar.entryContent archive (os.isFile 0 sourcePath) paths))
            (min start.toNat archive.totalSize) (min stop.toNat archive.totalSize))
          (Tar.TarArchive.streamRange start.toNat stop.toNat, now)) ∧
    ∀ (scanned : List ScannedEntry) (feature : Zip.CrcFeature), feature.enabled = false →
      (Zip.ZipArchive.createFrom scanned).extent < u64Size → (Zip.ZipArchive.createFrom scanned).KeepsSizes paths →
      ∀ (start stop : UInt64) (now fuel : Nat),
        let archive := Zip.ZipArchive.createFrom scanned
        Resumes (Zip.read 64 feature fuel os archive) (fun reader => reader.1.currentPos) Reported
          (fun capacity => 0 < capacity ∧ capacity < fuel)
          (window (archive.reference (Zip.crcOf feature paths) (Zip.entryContent paths))
            (min start.toNat archive.totalSize) (min stop.toNat archive.totalSize))
          (Zip.ZipArchive.streamRange start.toNat stop.toNat, { cells := fun _ => none, now }) := by
  constructor
  · intro crate sourcePath scanned archive created fits keeps start stop now fuel
    obtain ⟨wellFormed, _⟩ := Tar.TarArchive.createFrom_wellFormed created fits
    obtain ⟨source, _⟩ := Tar.TarArchive.createFrom_describes created
    subst source
    exact wellFormed.resumes unsteady keeps start.toNat stop.toNat_lt now
  · intro scanned feature disabled fits keeps start stop now fuel archive
    obtain ⟨wellFormed, _⟩ := Zip.ZipArchive.createFrom_wellFormed fits
    exact wellFormed.resumes unsteady keeps (Zip.sums_disabled disabled) start.toNat stop.toNat_lt now

/-- Some of the first calls of the operating system fail. -/
def flakyFiles : Files := (Files.memory smallFiles 2).exhaustedAt fun now => now < 12 && now % 3 == 2

def plainFeature : Zip.CrcFeature where
  enabled := false
  checksum := fun _ => 0
  plain := Zip.asciiPlain

theorem failed_reads_consume_nothing_small :
    received (attempts (Tar.read 64 8 flakyFiles Tar.smallArchive) (Tar.TarArchive.streamRange 1000 1100, 0)
        (List.replicate 40 7)).1 <+:
      window (Tar.smallArchive.reference (Tar.entryContent Tar.smallArchive (flakyFiles.isFile 0 [47, 115])
        (Files.contentOf smallFiles))) 1000 1100 ∧
    received (attempts (Zip.read 64 plainFeature 8 flakyFiles (Zip.ZipArchive.createFrom smallScan))
        (Zip.ZipArchive.streamRange 60 90, { cells := fun _ => none, now := 0 }) (List.replicate 40 7)).1 <+:
      window ((Zip.ZipArchive.createFrom smallScan).reference (Zip.crcOf plainFeature (Files.contentOf smallFiles))
        (Zip.entryContent (Files.contentOf smallFiles))) 60 90 := by
  obtain ⟨holds, serves⟩ := Files.memory_unchanged smallFiles (show 0 < 2 by decide)
  have unsteady : flakyFiles.Unsteady (Files.contentOf smallFiles) := ⟨holds, serves.exhaustedAt _⟩
  obtain ⟨tar, zip⟩ := failed_reads_consume_nothing unsteady
  have usable : ∀ capacity ∈ List.replicate 40 7, 0 < capacity ∧ capacity < 8 :=
    List.forall_mem_replicate.mpr (.inr (by decide))
  constructor
  · have created : Tar.TarArchive.createFrom Tar.blockCrate [47, 115] smallScan = .ok Tar.smallArchive := rfl
    have reads := (tar _ _ _ _ created (by decide +kernel) (by decide +kernel) 1000 1100 0 8).front _ usable
    have upper : min (1100 : UInt64).toNat Tar.smallArchive.totalSize = 1100 := by decide +kernel
    have lower : min (1000 : UInt64).toNat Tar.smallArchive.totalSize = 1000 := by decide +kernel
    rw [upper, lower] at reads
    exact reads
  · have reads := (zip smallScan plainFeature rfl Zip.smallZip_fits Zip.smallZip_keeps 60 90 0 8).front _ usable
    have upper : min (90 : UInt64).toNat (Zip.ZipArchive.createFrom smallScan).totalSize = 90 := by decide +kernel
    have lower : min (60 : UInt64).toNat (Zip.ZipArchive.createFrom smallScan).totalSize = 60 := by decide +kernel
    rw [upper, lower] at reads
    exact reads

end Raas
