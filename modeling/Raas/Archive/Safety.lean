import Raas.Data.Trimming
import Raas.Archive.Entities
import Raas.Archive.Tar.Sources
import Raas.Archive.Zip.Layout

namespace Raas

open Data

/-! Which names make an unpacked archive stay in its directory. -/

def backslash : UInt8 := 92

def Ordinary (component : Bytes) : Prop := component ≠ [] ∧ component ≠ [46] ∧ component ≠ [46, 46]

instance (component : Bytes) : Decidable (Ordinary component) := inferInstanceAs (Decidable (_ ∧ _))

/-- A name without the slash that ends a directory's. -/
def unslashed (isDir : Bool) (name : Bytes) : Bytes := if isDir then name.dropLast else name

structure Unpackable (isDir : Bool) (name : Bytes) : Prop where
  closed : isDir = true → name.getLast? = some separator
  relative : (unslashed isDir name).head? ≠ some separator
  components : ∀ component ∈ (unslashed isDir name).splitOn separator, Ordinary component

namespace Tar

/-- The name in the GNU extension in front of an entry's header, if there is one. -/
def gnuLongName (header : Bytes) : Option Bytes :=
  if header.length ≤ blockSize then none else some ((header.drop blockSize).takeWhile (· != 0))

end Tar

/-- The names that a scan answers, and those that the archives made of it carry. -/
structure NamesUnpackable (source : Path) (scanned : List ScannedEntry) : Prop where
  scan : ∀ item ∈ scanned, Unpackable item.isDir item.relativePath
  zip : ∀ entry ∈ (Zip.ZipArchive.createFrom scanned).entries, Unpackable entry.isDir entry.nameBytes
  tar : ∀ crate archive, Tar.TarArchive.createFrom crate source scanned = .ok archive →
    ∀ entry ∈ archive.entries, ∀ name, Tar.gnuLongName entry.header = some name → Unpackable entry.info.isDir name

section Shown

variable {name : Bytes} {names : Location} {entity : Entity}

theorem slashed_eq_separator {byte : UInt8} (legal : byte ≠ separator) : slashed byte = separator ↔ byte = backslash := by
  unfold slashed
  by_cases marked : byte = 92
  · rw [if_pos marked]
    exact iff_of_true rfl marked
  · rw [if_neg marked]
    exact iff_of_false legal marked

theorem splitOn_slashed (legal : separator ∉ name) :
    (name.map slashed).splitOn separator = name.splitOn backslash := by
  have pieces : ∀ piece ∈ name.splitOn backslash, piece.map slashed = piece :=
    fun piece member => Tar.map_slashed (not_mem_piece piece member)
  rw [splitOn_map fun byte member => slashed_eq_separator fun same => legal (same ▸ member), List.map_congr_left pieces,
    List.map_id']

/-- The components of a name in the archive are the pieces between the backslashes of
the names on the way, decoded. -/
theorem relativeString_components (nonempty : names ≠ []) (legal : ∀ name ∈ names, LegalName name) :
    (relativeString names).splitOn separator =
      (names.flatMap fun name => name.splitOn backslash).map Utf8.lossy := by
  have marks : separator < 0x80 := by decide
  have joined : (List.intercalate [separator] names).map slashed =
      List.intercalate [separator] (names.map (List.map slashed)) := map_intercalate slashed separator names
  rw [relativeString, ← Tar.slashed_replaces.lossy, joined, Utf8.splitOn_lossy marks,
    splitOn_intercalate_flatMap (by simpa using nonempty), List.flatMap_map]
  congr 1
  exact List.flatMap_congr fun name member => splitOn_slashed (legal name member).2.1

theorem lossy_eq_dot {piece : Bytes} : Utf8.lossy piece = [46] ↔ piece = [46] :=
  Utf8.lossy_eq_ascii (List.forall_mem_singleton.mpr (by decide)) (by decide)

theorem lossy_eq_dots {piece : Bytes} : Utf8.lossy piece = [46, 46] ↔ piece = [46, 46] := by
  have low : (46 : UInt8) < 0x80 := by decide
  exact Utf8.lossy_eq_ascii (List.forall_mem_cons.mpr ⟨low, List.forall_mem_singleton.mpr low⟩) (by decide)

theorem ordinary_lossy {piece : Bytes} : Ordinary (Utf8.lossy piece) ↔ Ordinary piece := by
  rw [Ordinary, Ordinary, ne_eq, ne_eq, ne_eq, Utf8.lossy_eq_nil, lossy_eq_dot, lossy_eq_dots]

theorem unslashed_shownPath : unslashed entity.isDir (entity.shownPath names) = relativeString names := by
  cases entity with
  | file content stat => rfl
  | directory stat => exact List.dropLast_concat

/-- A shown name is safe exactly if the pieces of the names on the way are ordinary. -/
theorem unpackable_iff (nonempty : names ≠ []) (legal : ∀ name ∈ names, LegalName name) :
    Unpackable entity.isDir (entity.shownPath names) ↔
      ∀ name ∈ names, ∀ piece ∈ name.splitOn backslash, Ordinary piece := by
  have components := relativeString_components nonempty legal
  have shown : unslashed entity.isDir (entity.shownPath names) = relativeString names := unslashed_shownPath
  have pieces : (∀ component ∈ (relativeString names).splitOn separator, Ordinary component) ↔
      ∀ name ∈ names, ∀ piece ∈ name.splitOn backslash, Ordinary piece := by
    rw [components]
    simp only [List.forall_mem_map, List.forall_mem_flatMap, ordinary_lossy]
  constructor
  · intro unpackable
    have ordinary := unpackable.components
    rw [shown] at ordinary
    exact pieces.mp ordinary
  · intro ordinary
    have proper := pieces.mpr ordinary
    refine ⟨?_, ?_, by rw [shown]; exact proper⟩
    · intro directory
      cases entity with
      | file content stat => cases directory
      | directory stat => exact List.getLast?_concat
    · rw [shown]
      intro absolute
      obtain ⟨rest, path⟩ := List.head?_eq_some_iff.mp absolute
      have empty : [] ∈ (relativeString names).splitOn separator := by
        rw [path, List.splitOn_cons_eq_if_modifyHead, if_pos (by decide)]
        exact List.mem_cons_self
      exact (proper [] empty).1 rfl

theorem nul_not_mem (legal : ∀ name ∈ names, LegalName name) : 0 ∉ entity.shownPath names := by
  have relative : 0 ∉ relativeString names := by
    intro member
    obtain ⟨byte, shown, same⟩ := List.mem_map.mp member
    have nul : byte = 0 := by
      unfold slashed at same
      split at same
      · exact absurd same (by decide)
      · exact same
    subst nul
    rcases Utf8.mem_lossy shown with inside | replaced
    · rcases mem_intercalate inside with mark | ⟨name, here, found⟩
      · exact absurd mark (by decide)
      · exact (legal name here).2.2.1 found
    · exact absurd replaced (by decide)
  cases entity with
  | file content stat => exact relative
  | directory stat =>
      rw [Entity.shownPath, List.mem_append, List.mem_singleton, not_or]
      exact ⟨relative, by decide⟩

end Shown

namespace Tar

/-- The extension holds the whole path. -/
theorem gnuLongName_createHeader {crate : HeaderCrate} {info : FileInfo} {header name : Bytes}
    (created : createHeader crate info = .ok header) (clean : 0 ∉ info.path)
    (long : gnuLongName header = some name) : name = info.path := by
  have block (header : crate.Header) : alignTo512Bytes (crate.asBytes header) = crate.asBytes header :=
    alignTo512Bytes_of_aligned (by rw [crate.asBytes_length, Nat.mod_self])
  have single (header : crate.Header) : gnuLongName (crate.asBytes header) = none :=
    if_pos (Nat.le_of_eq (crate.asBytes_length header))
  rw [createHeader, setPathWithGnuExtension] at created
  cases placed : crate.setPath (entryHeader crate info) info.path with
  | mk result refused =>
      cases result with
      | ok _ =>
          simp only [placed, Except.mapError, Except.ok.injEq] at created
          rw [← created, single] at long
          cases long
      | error reason =>
          simp only [placed] at created
          split at created
          · cases created
          · unfold longPathHeader at created
            dsimp only at created
            split at created
            · cases created
            · simp only [Except.mapError, Except.ok.injEq, block] at created
              have length := crate.asBytes_length (prepareHeader crate info.path.length longNameType)
              have whole : ∀ byte ∈ info.path, (byte != 0) = true :=
                fun byte inside => bne_iff_ne.mpr fun zero => clean (zero ▸ inside)
              have after (back : Bytes) : (info.path ++ (0 :: back)).takeWhile (· != 0) = info.path :=
                takeWhile_before whole rfl
              unfold gnuLongName at long
              split at long
              · cases long
              · rw [← created, List.append_assoc, List.drop_left' length, List.append_assoc, List.append_assoc,
                  List.singleton_append, after] at long
                exact (Option.some.inj long).symm

end Tar

/-- On Unix the names of the archive are safe to unpack exactly if no name below the
source has an empty piece, a dot or two dots between its backslashes. -/
theorem archive_names_unpackable_iff (source : Path) (stat : Stat) {listing : Listing} (legal : listing.Legal) :
    ∃ scanned, scanSource source (some (.dir stat listing)) = .ok scanned ∧
      (NamesUnpackable source scanned ↔
        ∀ found ∈ placed listing, ∀ name ∈ found.1, ∀ piece ∈ name.splitOn backslash, Ordinary piece) := by
  refine ⟨_, scanSource_directory source stat listing, ?_⟩
  have shown : ∀ found ∈ placed listing,
      (Unpackable (found.2.scanned source found.1).isDir (found.2.scanned source found.1).relativePath ↔
        ∀ name ∈ found.1, ∀ piece ∈ name.splitOn backslash, Ordinary piece) := by
    intro found member
    obtain ⟨nonempty, names⟩ := placed_names legal found member
    obtain ⟨path, directory⟩ := scanned_relativePath source found.1 found.2
    rw [path, directory]
    exact unpackable_iff nonempty names
  constructor
  · intro safe found member
    exact (shown found member).mp (safe.scan _ (List.mem_map_of_mem member))
  · intro ordinary
    have scan : ∀ item ∈ (placed listing).map (fun found => found.2.scanned source found.1),
        Unpackable item.isDir item.relativePath ∧ 0 ∉ item.relativePath := by
      rw [List.forall_mem_map]
      intro found member
      refine ⟨(shown found member).mpr (ordinary found member), ?_⟩
      rw [(scanned_relativePath source found.1 found.2).1]
      exact nul_not_mem (placed_names legal found member).2
    refine ⟨fun item member => (scan item member).1, ?_, ?_⟩
    · intro entry member
      obtain ⟨item, inside, planned⟩ := forall₂_mem_right (Zip.ZipArchive.createFrom_planned _) member
      rw [planned.nameBytes, planned.isDir]
      exact (scan item inside).1
    · intro crate archive created entry member name long
      obtain ⟨item, inside, described⟩ := forall₂_mem_right (Tar.TarArchive.createFrom_describes created).2 member
      have whole : name = item.relativePath := Tar.gnuLongName_createHeader described.1 (scan item inside).2 long
      rw [whole, described.2]
      exact (scan item inside).1

/-- The file `a\b` in a directory `d`. -/
def markedListing : Listing :=
  .cons [100] (.dir smallStat (.cons [97, 92, 98] (.leaf (.file [1] smallStat)) .nil)) .nil

theorem archive_names_unpackable_marked : ∃ scanned,
    scanSource [47, 115] (some (.dir smallStat markedListing)) = .ok scanned ∧ NamesUnpackable [47, 115] scanned := by
  have legal : markedListing.Legal := by decide
  obtain ⟨scanned, answered, safe⟩ := archive_names_unpackable_iff [47, 115] smallStat legal
  exact ⟨scanned, answered, safe.mpr (by decide)⟩

/-- The file `..\x`. -/
def climbingListing : Listing := .cons [46, 46, 92, 120] (.leaf (.file [1] smallStat)) .nil

theorem marked_name_climbs_out : climbingListing.Legal ∧ ∃ scanned,
    scanSource [47, 115] (some (.dir smallStat climbingListing)) = .ok scanned ∧
      scanned.map (fun item => item.relativePath) = [[46, 46, 47, 120]] ∧
      (Zip.ZipArchive.createFrom scanned).entries.map (fun entry => entry.nameBytes) = [[46, 46, 47, 120]] ∧
      ¬ NamesUnpackable [47, 115] scanned := by
  refine ⟨by decide, _, rfl, by decide, by decide, ?_⟩
  intro safe
  have unpackable := safe.scan _ List.mem_cons_self
  exact absurd (unpackable.components [46, 46] (by decide)).2.2 (by decide)

end Raas
