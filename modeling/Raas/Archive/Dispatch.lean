import Raas.Archive.Scanner
import Raas.Archive.Tar.Reference
import Raas.Archive.Zip.Reference

namespace Raas

open Data

/-- The implementors of the trait `Archive`. -/
inductive Archive where
  | tar (archive : Tar.TarArchive)
  | zip (archive : Zip.ZipArchive)

namespace Archive

def format : Archive → ArchiveFormat
  | .tar _ => .tar
  | .zip _ => .zip

def totalSize : Archive → Nat
  | .tar archive => archive.totalSize
  | .zip archive => archive.totalSize

/-- `create_archive` once the scan of `sourcePath` has answered `scanned`. -/
def createFrom (crate : Tar.HeaderCrate) (format : ArchiveFormat) (sourcePath : Path)
    (scanned : List ScannedEntry) : Except ArchiveError Archive :=
  match format with
  | .tar => (Tar.TarArchive.createFrom crate sourcePath scanned).map .tar
  | .zip => .ok (.zip (Zip.ZipArchive.createFrom scanned))

/-- `create_archive` of a path that leads to this node. -/
def create (crate : Tar.HeaderCrate) (format : ArchiveFormat) (source : Path) (node : Option Node) :
    Except ArchiveError Archive :=
  match scanSource source node with
  | .error reason => .error reason
  | .ok scanned => createFrom crate format source scanned

/-- What a caller collects who reads `[start, stop)` with these buffers. -/
def streamRange (pointerBits fuel : Nat) (feature : Zip.CrcFeature) (os : Files) (archive : Archive)
    (world : Zip.World) (start stop : Nat) (capacities : List Nat) :
    Drained (Fault IoError) UInt8 × Zip.World :=
  match archive with
  | .tar archive =>
      let (drained, _, now) :=
        drain (Tar.read pointerBits fuel os archive) (Tar.TarArchive.streamRange start stop, world.now) capacities
      (drained, { world with now })
  | .zip archive =>
      let (drained, _, world) :=
        drain (Zip.read pointerBits feature fuel os archive) (Zip.ZipArchive.streamRange start stop, world)
          capacities
      (drained, world)

def extent : Archive → Nat
  | .tar archive => archive.extent
  | .zip archive => archive.extent

def KeepsSizes (os : Files) (paths : Path → Option Bytes) : Archive → Prop
  | .tar archive => archive.KeepsSizes (os.isFile 0 archive.sourcePath) paths
  | .zip archive => archive.KeepsSizes paths

def reference (feature : Zip.CrcFeature) (os : Files) (paths : Path → Option Bytes) : Archive → Bytes
  | .tar archive => archive.reference (Tar.entryContent archive (os.isFile 0 archive.sourcePath) paths)
  | .zip archive => archive.reference (Zip.crcOf feature paths) (Zip.entryContent paths)

def Hashable (fuel : Nat) : Archive → Prop
  | .tar _ => True
  | .zip archive => ∀ entry ∈ archive.entries, entry.size < fuel

def Holds (feature : Zip.CrcFeature) (paths : Path → Option Bytes) (world : Zip.World) : Archive → Prop
  | .tar _ => True
  | .zip archive => Zip.CellsHold feature paths archive world.cells

theorem holds_fresh (feature : Zip.CrcFeature) (paths : Path → Option Bytes) (archive : Archive) (now : Nat) :
    archive.Holds feature paths { cells := fun _ => none, now } := by
  cases archive with
  | tar archive => trivial
  | zip archive => exact Zip.cellsHold_fresh

variable {crate : Tar.HeaderCrate} {format : ArchiveFormat} {sourcePath : Path} {scanned : List ScannedEntry}
  {archive : Archive} {feature : Zip.CrcFeature} {os : Files} {paths : Path → Option Bytes}
  {holds : FileId → Option Bytes} {fuel stop : Nat} {world : Zip.World} {capacities : List Nat}

theorem createFrom_tar (created : createFrom crate .tar sourcePath scanned = .ok archive) :
    ∃ tar, Tar.TarArchive.createFrom crate sourcePath scanned = .ok tar ∧ archive = .tar tar := by
  rw [createFrom] at created
  cases built : Tar.TarArchive.createFrom crate sourcePath scanned with
  | error reason => simp [built, Except.map] at created
  | ok tar =>
      simp only [built, Except.map, Except.ok.injEq] at created
      exact ⟨tar, rfl, created.symm⟩

theorem reference_length (feature : Zip.CrcFeature) (created : createFrom crate format sourcePath scanned = .ok archive)
    (fits : archive.extent < u64Size) (keeps : archive.KeepsSizes os paths) :
    (archive.reference feature os paths).length = archive.totalSize ∧ archive.totalSize < u64Size := by
  cases format with
  | tar =>
      obtain ⟨tar, built, rfl⟩ := createFrom_tar created
      obtain ⟨wellFormed, _⟩ := Tar.TarArchive.createFrom_wellFormed built fits
      exact ⟨wellFormed.reference_length (wellFormed.entryContent_length keeps), wellFormed.bounded⟩
  | zip =>
      simp only [createFrom, Except.ok.injEq] at created
      subst created
      obtain ⟨wellFormed, _⟩ := Zip.ZipArchive.createFrom_wellFormed fits
      exact ⟨wellFormed.reference_length _ (wellFormed.entryContent_length keeps), wellFormed.bounded⟩

/-- Both kinds of archive are the byte string they stand for, range by range. -/
theorem streamRange_yields (created : createFrom crate format sourcePath scanned = .ok archive)
    (fits : archive.extent < u64Size) (serves : os.Serves holds paths) (keeps : archive.KeepsSizes os paths)
    (hashable : archive.Hashable fuel) (start : Nat) (stopFits : stop < u64Size)
    (hold : archive.Holds feature paths world)
    (usable : ∀ capacity ∈ capacities, 0 < capacity ∧ capacity < fuel) :
    (archive.streamRange 64 fuel feature os world start stop capacities).1.Yields
        (window (archive.reference feature os paths) (min start archive.totalSize) (min stop archive.totalSize))
        capacities.length ∧
      archive.Holds feature paths (archive.streamRange 64 fuel feature os world start stop capacities).2 := by
  cases format with
  | tar =>
      obtain ⟨tar, built, rfl⟩ := createFrom_tar created
      obtain ⟨wellFormed, _⟩ := Tar.TarArchive.createFrom_wellFormed built fits
      exact ⟨wellFormed.streamRange_yields serves (wellFormed.feeds keeps) start stopFits world.now usable, trivial⟩
  | zip =>
      simp only [createFrom, Except.ok.injEq] at created
      subst created
      obtain ⟨wellFormed, _⟩ := Zip.ZipArchive.createFrom_wellFormed fits
      exact wellFormed.streamRange_yields serves keeps hashable start stopFits hold usable

end Archive

end Raas
