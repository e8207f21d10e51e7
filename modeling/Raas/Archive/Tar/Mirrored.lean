import Raas.Archive.Entities
import Raas.Archive.Tar.Roundtrip
import Raas.Archive.Tar.Sources
import Raas.Server.Requests

namespace Raas.Tar

open Data

/-! Tar archives of directories whose names are shown as they are. -/

section Paths

variable {names location : Location} {entity : Entity}

theorem clean_plain (nonempty : names ≠ []) (legal : ∀ name ∈ names, LegalName name)
    (clean : ∀ name ∈ names, Clean name) : PlainPath (entity.shownPath names) := by
  refine ⟨names, nonempty, ?_, ?_⟩
  · intro name member
    obtain ⟨filled, unmarked, _, dot, dots⟩ := legal name member
    exact ⟨filled, unmarked, dot, dots⟩
  · cases entity with
    | file content stat => exact .inl (relativeString_clean clean)
    | directory stat => exact .inr (congrArg (· ++ [separator]) (relativeString_clean clean))

/-- The path that is opened for a file is the one that was scanned. -/
theorem opened_clean (legalLocation : ∀ name ∈ location, LegalName name) (nonempty : names ≠ [])
    (legal : ∀ name ∈ names, LegalName name) (clean : ∀ name ∈ names, Clean name)
    (regular : entity.isDir = false) :
    openedPath (pathOf [separator] location) false (entity.scanned (pathOf [separator] location) names) =
      pathOf [separator] (location ++ names) := by
  cases entity with
  | directory stat => cases regular
  | file content stat =>
      have path : (Entity.scanned (pathOf [separator] location) names (.file content stat)).relativePath =
          relativeString names := rfl
      rw [openedPath, if_neg Bool.false_ne_true, path, relativeString_clean clean, trimEndSlashes_names legal]
      exact Server.join_spelled legalLocation legal nonempty

end Paths

/-! A bound on the length of an archive that the order of the entries does not change. -/

/-- No less than a header with a long name, the content and its padding. -/
def entryWeight (item : ScannedEntry) : Nat := item.size + item.relativePath.length + 2047

def weight (scanned : List ScannedEntry) : Nat := (scanned.map entryWeight).sum + 1024

theorem weight_perm {scanned other : List ScannedEntry} (perm : scanned.Perm other) : weight scanned = weight other := by
  rw [weight, weight, (perm.map entryWeight).sum_nat]

theorem createHeader_le {crate : HeaderCrate} {info : FileInfo} {header : Bytes}
    (created : createHeader crate info = .ok header) : header.length ≤ info.path.length + 1536 := by
  have block (header : crate.Header) : alignTo512Bytes (crate.asBytes header) = crate.asBytes header :=
    alignTo512Bytes_of_aligned (by rw [crate.asBytes_length, Nat.mod_self])
  simp only [createHeader] at created
  generalize entryHeader crate info = prepared at created
  unfold setPathWithGnuExtension at created
  cases placed : crate.setPath prepared info.path with
  | mk result header' =>
      cases result with
      | ok _ =>
          simp only [placed, Except.mapError, Except.ok.injEq] at created
          rw [← created, crate.asBytes_length, blockSize]
          omega
      | error reason =>
          simp only [placed] at created
          split at created
          · simp [Except.mapError] at created
          · unfold longPathHeader at created
            dsimp only at created
            split at created
            · simp [Except.mapError] at created
            · simp only [Except.mapError, Except.ok.injEq] at created
              have padding := calculatePadding_lt (info.path.length + 1)
              rw [← created]
              simp only [block, List.length_append, crate.asBytes_length, List.length_replicate,
                List.length_singleton, blockSize] at padding ⊢
              omega

theorem described_weight {crate : HeaderCrate} {item : ScannedEntry} {entry : TarEntry}
    (described : Describes crate item entry) : entry.span ≤ entryWeight item := by
  have header := createHeader_le described.1
  have size : entry.info.size = item.size := by
    rw [described.2]
    exact FileInfo.ofScanned_size item
  have padding := calculatePadding_lt item.size
  have path : (FileInfo.ofScanned item).path = item.relativePath := rfl
  rw [TarEntry.span, entryWeight, size]
  rw [path] at header
  rw [blockSize] at padding
  omega

theorem extent_le_weight {crate : HeaderCrate} {sourcePath : Path} {scanned : List ScannedEntry}
    {archive : TarArchive} (created : TarArchive.createFrom crate sourcePath scanned = .ok archive) :
    archive.extent ≤ weight scanned := by
  have entries : ∀ (items : List ScannedEntry) (entries : List TarEntry),
      List.Forall₂ (Describes crate) items entries →
        (entries.map TarEntry.span).sum ≤ (items.map entryWeight).sum := by
    intro items entries described
    induction described with
    | nil => exact Nat.le_refl _
    | cons here _ ih =>
        have own := described_weight here
        simp only [List.map_cons, List.sum_cons]
        omega
  have total := entries scanned _ (TarArchive.createFrom_describes created).2
  rw [TarArchive.extent, weight, endOfArchiveBlocks, blockSize]
  omega

end Raas.Tar
