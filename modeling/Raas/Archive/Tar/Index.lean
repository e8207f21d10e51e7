import Mathlib.Data.List.Forall2
import Raas.Archive.Tar.Header
import Raas.Data.Tiling

namespace Raas.Tar

open Data

structure TarEntry where
  info : FileInfo
  header : Bytes
deriving DecidableEq

structure TarArchive where
  sourcePath : Path
  entries : List TarEntry
  /-- Archive path to entry number, the latest insertion first. -/
  pathIndex : List (Bytes × Nat)
  totalSize : Nat

namespace TarEntry

def offset (entry : TarEntry) : Nat := entry.info.offset

def span (entry : TarEntry) : Nat :=
  entry.header.length + entry.info.size + calculatePadding entry.info.size

end TarEntry

def FileInfo.ofScanned (item : ScannedEntry) : FileInfo where
  path := item.relativePath
  offset := 0
  size := if item.isDir then 0 else item.size
  isDir := item.isDir
  mode := item.mode
  mtime := item.mtime

theorem FileInfo.ofScanned_size (item : ScannedEntry) : (ofScanned item).size = item.size := by
  unfold ofScanned
  cases directory : item.isDir with
  | false => rfl
  | true => exact (item.dirSize directory).symm

def createLoop (crate : HeaderCrate) : List ScannedEntry → List TarEntry → List (Bytes × Nat) → Nat →
    Except ArchiveError (List TarEntry × List (Bytes × Nat) × Nat)
  | [], entries, pathIndex, currentPos => .ok (entries, pathIndex, currentPos)
  | item :: rest, entries, pathIndex, currentPos =>
      let info := FileInfo.ofScanned item
      match createHeader crate info with
      | .error reason => .error reason
      | .ok header =>
          let info := { info with offset := alignToBoundary currentPos blockSize }
          let paddingSize := calculatePadding info.size
          let currentPos :=
            wrappingAdd (wrappingAdd (wrappingAdd info.offset header.length) info.size) paddingSize
          createLoop crate rest (entries ++ [{ info, header }])
            ((info.path, entries.length) :: pathIndex) currentPos

/-- `TarArchive::create` once the scan of `sourcePath` has answered `scanned`. -/
def TarArchive.createFrom (crate : HeaderCrate) (sourcePath : Path) (scanned : List ScannedEntry) :
    Except ArchiveError TarArchive :=
  match createLoop crate scanned [] [] 0 with
  | .error reason => .error reason
  | .ok (entries, pathIndex, currentPos) =>
      .ok { sourcePath, entries, pathIndex, totalSize := wrappingAdd currentPos (endOfArchiveBlocks * blockSize) }

def Describes (crate : HeaderCrate) (item : ScannedEntry) (entry : TarEntry) : Prop :=
  createHeader crate (FileInfo.ofScanned item) = .ok entry.header ∧
    entry.info = { FileInfo.ofScanned item with offset := entry.info.offset }

theorem Describes.header_length {crate : HeaderCrate} {item : ScannedEntry} {entry : TarEntry}
    (described : Describes crate item entry) :
    0 < entry.header.length ∧ entry.header.length % blockSize = 0 :=
  createHeader_length described.1

theorem Describes.directory_size {crate : HeaderCrate} {item : ScannedEntry} {entry : TarEntry}
    (described : Describes crate item entry) (directory : entry.info.isDir = true) :
    entry.info.size = 0 := by
  rw [described.2] at directory ⊢
  exact if_pos directory

/-- The entries as `create` places them: each starts where the one before it ends, modulo 2^64. -/
inductive Wraps : Nat → List TarEntry → Nat → Prop
  | nil {pos : Nat} : Wraps pos [] pos
  | cons {pos stop : Nat} {entry : TarEntry} {rest : List TarEntry} (starts : entry.offset = pos)
      (header : 0 < entry.header.length ∧ entry.header.length % blockSize = 0)
      (tail : Wraps ((pos + entry.span) % u64Size) rest stop) : Wraps pos (entry :: rest) stop

/-- What `create` makes of the scanned entries, whether or not an offset overflows. -/
theorem createLoop_spec {crate : HeaderCrate} {scanned : List ScannedEntry}
    {entries all : List TarEntry} {pathIndex finalIndex : List (Bytes × Nat)} {currentPos final : Nat}
    (aligned : currentPos % blockSize = 0)
    (built : createLoop crate scanned entries pathIndex currentPos = .ok (all, finalIndex, final)) :
    ∃ added, all = entries ++ added ∧ List.Forall₂ (Describes crate) scanned added ∧ Wraps currentPos added final := by
  induction scanned generalizing entries pathIndex currentPos with
  | nil =>
      simp only [createLoop, Except.ok.injEq, Prod.mk.injEq] at built
      obtain ⟨rfl, rfl, rfl⟩ := built
      exact ⟨[], (List.append_nil _).symm, .nil, .nil⟩
  | cons item rest ih =>
      rw [createLoop] at built
      cases created : createHeader crate (FileInfo.ofScanned item) with
      | error reason => simp [created] at built
      | ok header =>
          simp only [created] at built
          let entry : TarEntry :=
            { info := { FileInfo.ofScanned item with offset := alignToBoundary currentPos blockSize }, header }
          have headerLength := createHeader_length created
          have placed : entry.offset = currentPos := alignToBoundary_of_aligned aligned
          have padded := add_calculatePadding_mod entry.info.size
          have width : entry.span = header.length + entry.info.size + calculatePadding entry.info.size := rfl
          have advanced : wrappingAdd (wrappingAdd (wrappingAdd entry.info.offset header.length)
              entry.info.size) (calculatePadding entry.info.size) = (currentPos + entry.span) % u64Size := by
            have offset : entry.info.offset = currentPos := placed
            simp only [wrappingAdd, offset, Nat.mod_add_mod, width, Nat.add_assoc]
          have next : (currentPos + entry.span) % u64Size % blockSize = 0 := by
            simp only [u64Size, blockSize] at *
            omega
          rw [← advanced] at next
          obtain ⟨added, collected, described, wraps⟩ := ih next built
          refine ⟨entry :: added, by rw [collected, List.append_assoc]; rfl, .cons ⟨created, rfl⟩ described,
            .cons placed headerLength ?_⟩
          rw [← advanced]
          exact wraps

/-- Without overflow the entries lie end to end. -/
theorem Wraps.tiles_of_fits {pos stop : Nat} {entries : List TarEntry} (wraps : Wraps pos entries stop)
    (aligned : pos % blockSize = 0) (fits : pos + (entries.map TarEntry.span).sum < u64Size) :
    Tiles TarEntry.offset TarEntry.span pos entries stop ∧ stop % blockSize = 0 := by
  induction wraps with
  | nil => exact ⟨.nil, aligned⟩
  | @cons pos stop entry rest starts header tail ih =>
      simp only [List.map_cons, List.sum_cons] at fits
      have width : entry.span = entry.header.length + entry.info.size + calculatePadding entry.info.size := rfl
      have padded := add_calculatePadding_mod entry.info.size
      have whole : (pos + entry.span) % u64Size = pos + entry.span := Nat.mod_eq_of_lt (by omega)
      rw [whole] at ih
      obtain ⟨tiles, ends⟩ := ih (by simp only [blockSize] at aligned padded header ⊢; omega) (by omega)
      exact ⟨.cons starts (by omega) tiles, ends⟩

def TarArchive.extent (archive : TarArchive) : Nat :=
  (archive.entries.map TarEntry.span).sum + endOfArchiveBlocks * blockSize

/-- What `create` guarantees as long as no offset overflows: the entries tile the
archive from its start up to the two end blocks. -/
structure TarArchive.WellFormed (archive : TarArchive) : Prop where
  headers : ∀ entry ∈ archive.entries,
    0 < entry.header.length ∧ entry.header.length % blockSize = 0
  directories : ∀ entry ∈ archive.entries, entry.info.isDir = true → entry.info.size = 0
  tiles : Tiles TarEntry.offset TarEntry.span 0 archive.entries
    (archive.totalSize - endOfArchiveBlocks * blockSize)
  contentAligned : (archive.totalSize - endOfArchiveBlocks * blockSize) % blockSize = 0
  ending : endOfArchiveBlocks * blockSize ≤ archive.totalSize
  bounded : archive.totalSize < u64Size

theorem TarArchive.createFrom_describes {crate : HeaderCrate} {sourcePath : Path}
    {scanned : List ScannedEntry} {archive : TarArchive}
    (created : createFrom crate sourcePath scanned = .ok archive) :
    archive.sourcePath = sourcePath ∧ List.Forall₂ (Describes crate) scanned archive.entries := by
  unfold createFrom at created
  cases built : createLoop crate scanned [] [] 0 with
  | error reason => simp [built] at created
  | ok result =>
      obtain ⟨entries, pathIndex, currentPos⟩ := result
      simp only [built, Except.ok.injEq] at created
      subst archive
      obtain ⟨added, collected, described, _⟩ := createLoop_spec rfl built
      exact ⟨rfl, by rw [collected, List.nil_append]; exact described⟩

/-- Every path is indexed under the position of its entry, a later entry before an earlier one. -/
theorem createLoop_pathIndex {crate : HeaderCrate} {scanned : List ScannedEntry} {entries all : List TarEntry}
    {pathIndex finalIndex : List (Bytes × Nat)} {currentPos final : Nat}
    (built : createLoop crate scanned entries pathIndex currentPos = .ok (all, finalIndex, final)) :
    finalIndex = ((scanned.map fun item => item.relativePath).zipIdx entries.length).reverse ++ pathIndex := by
  induction scanned generalizing entries pathIndex currentPos with
  | nil =>
      simp only [createLoop, Except.ok.injEq, Prod.mk.injEq] at built
      exact built.2.1.symm
  | cons item rest ih =>
      rw [createLoop] at built
      dsimp only at built
      split at built
      · cases built
      · rw [ih built, List.map_cons, List.zipIdx_cons, List.reverse_cons, List.append_assoc, List.singleton_append,
          List.length_append, List.length_singleton]
        rfl

theorem TarArchive.createFrom_pathIndex {crate : HeaderCrate} {sourcePath : Path} {scanned : List ScannedEntry}
    {archive : TarArchive} (created : createFrom crate sourcePath scanned = .ok archive) :
    archive.pathIndex = ((scanned.map fun item => item.relativePath).zipIdx 0).reverse := by
  unfold createFrom at created
  cases built : createLoop crate scanned [] [] 0 with
  | error reason => simp [built] at created
  | ok result =>
      obtain ⟨entries, pathIndex, currentPos⟩ := result
      simp only [built, Except.ok.injEq] at created
      subst archive
      exact (createLoop_pathIndex built).trans (List.append_nil _)

theorem TarArchive.createFrom_wellFormed {crate : HeaderCrate} {sourcePath : Path}
    {scanned : List ScannedEntry} {archive : TarArchive}
    (created : createFrom crate sourcePath scanned = .ok archive) (fits : archive.extent < u64Size) :
    archive.WellFormed ∧ archive.totalSize = archive.extent := by
  have described := (createFrom_describes created).2
  unfold createFrom at created
  cases built : createLoop crate scanned [] [] 0 with
  | error reason => simp [built] at created
  | ok result =>
      obtain ⟨entries, pathIndex, currentPos⟩ := result
      simp only [built, Except.ok.injEq] at created
      subst archive
      obtain ⟨added, collected, _, wraps⟩ := createLoop_spec rfl built
      rw [List.nil_append] at collected
      subst collected
      simp only [extent] at fits
      obtain ⟨tiles, aligned⟩ := wraps.tiles_of_fits rfl (by omega)
      have stop := tiles.stop_eq
      have total : wrappingAdd currentPos (endOfArchiveBlocks * blockSize) =
          currentPos + endOfArchiveBlocks * blockSize := wrappingAdd_of_lt (by omega)
      refine ⟨⟨?_, ?_, ?_, ?_, ?_, ?_⟩, ?_⟩
      · intro entry member
        obtain ⟨item, _, described⟩ := forall₂_mem_right described member
        exact described.header_length
      · intro entry member directory
        obtain ⟨item, _, described⟩ := forall₂_mem_right described member
        exact described.directory_size directory
      · simpa only [total, Nat.add_sub_cancel] using tiles
      · simpa only [total, Nat.add_sub_cancel] using aligned
      · simp only [total]
        omega
      · simp only [total]
        omega
      · simp only [total, extent]
        omega

end Raas.Tar
