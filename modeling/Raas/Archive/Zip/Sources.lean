import Raas.Archive.Ordering
import Raas.Archive.Unpacking
import Raas.Os.Arrival

namespace Raas.Zip

open Data

/-! Which files a zip archive of a location reads, and what they hold. -/

/-- A regular entry is read from a file at or below the location, a directory from nowhere. -/
def ZipEntry.Sourced (location : Location) (node : Node) (entry : ZipEntry) : Prop :=
  if entry.isDir then entry.sourcePath = none
  else ∃ names content stat, entry.sourcePath = some (pathOf [separator] (location ++ names)) ∧
    location ++ names ≠ [] ∧ node.lookup names = some (.leaf (.file content stat)) ∧ content.length = entry.size

section Sources

variable {crate : Tar.HeaderCrate} {location : Location} {node order root other : Node} {archive : ZipArchive}
  {entry : ZipEntry} {paths others : Path → Option Bytes}

theorem entityAt_file {names : Location} {content : Bytes} {stat : Stat}
    (there : node.entityAt names = some (.file content stat)) :
    names ≠ [] ∧ node.lookup names = some (.leaf (.file content stat)) := by
  rw [Node.entityAt] at there
  split at there
  · cases there
  · rename_i nonempty
    obtain ⟨found, reached, shown⟩ := Option.bind_eq_some_iff.mp there
    refine ⟨nonempty, ?_⟩
    rw [reached]
    cases found with
    | dir stat children => cases shown
    | leaf kind =>
        cases kind with
        | file content stat => cases shown; rfl
        | symlink target => cases shown
        | special => cases shown

theorem scanned_sources (legal : node.Legal) (enumerated : node.Reordered order) {scanned : List ScannedEntry}
    (answered : scanSource (pathOf [separator] location) (some order) = .ok scanned) {item : ScannedEntry}
    (member : item ∈ scanned) (regular : item.isDir = false) :
    ∃ names content stat, item.sourcePath = pathOf [separator] (location ++ names) ∧ location ++ names ≠ [] ∧
      node.lookup names = some (.leaf (.file content stat)) ∧ content.length = item.size := by
  cases enumerated with
  | leaf kind =>
      cases kind with
      | symlink target => cases answered
      | special => cases answered
      | file content stat =>
          rw [scanSource] at answered
          cases named : Path.fileName (pathOf [separator] location) with
          | none =>
              rw [named] at answered
              cases answered
          | some name =>
              have above : location ≠ [] := by
                intro top
                subst top
                cases named
              rw [named] at answered
              cases answered
              rw [List.mem_singleton.mp member]
              exact ⟨[], content, stat, by rw [List.append_nil]; rfl, by rwa [List.append_nil], rfl, rfl⟩
  | dir stat inside =>
      cases answered
      have again := (scanDir_reordered inside).mem_iff.mpr member
      rw [scanDir_eq_map] at again
      obtain ⟨found, placed, same⟩ := List.mem_map.mp again
      obtain ⟨names, entity⟩ := found
      have there := (mem_placed_iff legal stat).mp placed
      cases entity with
      | directory below =>
          subst same
          cases regular
      | file content below =>
          obtain ⟨nonempty, reached⟩ := entityAt_file there
          subst same
          refine ⟨names, content, below, ?_, List.append_ne_nil_of_right_ne_nil _ nonempty, reached, rfl⟩
          have path : pathOf (pathOf [separator] location) names = pathOf [separator] (location ++ names) := by
            rw [pathOf, pathOf, pathOf, List.foldl_append]
          exact path

/-- What an archive of a location, in whatever order it was enumerated, reads. -/
theorem created_sourced (legal : node.Legal) (enumerated : node.Reordered order)
    (created : Archive.create crate .zip (pathOf [separator] location) (some order) = .ok (.zip archive)) :
    ∀ entry ∈ archive.entries, entry.Sourced location node := by
  intro entry member
  rw [Archive.create] at created
  cases answered : scanSource (pathOf [separator] location) (some order) with
  | error reason => simp [answered] at created
  | ok scanned =>
      rw [answered] at created
      have records := createFrom_records created
      have recordedHere : entry.record ∈ scanned.map (recorded .zip) := records ▸ List.mem_map_of_mem member
      obtain ⟨item, inside, same⟩ := List.mem_map.mp recordedHere
      have isDir : item.isDir = entry.isDir := congrArg Raas.Record.isDir same
      have size : item.size = entry.size := congrArg Raas.Record.size same
      have source : (if item.isDir then none else some item.sourcePath) = entry.sourcePath := congrArg Raas.Record.source same
      rw [ZipEntry.Sourced, ← isDir, ← size, ← source]
      cases directory : item.isDir with
      | true => exact rfl
      | false =>
          obtain ⟨names, content, stat, path, top, reached, length⟩ :=
            scanned_sources legal enumerated answered inside directory
          exact ⟨names, content, stat, congrArg some path, top, reached, length⟩

theorem readFile_mirrors (legal : root.Legal) : Mirrors root (readFile root) := by
  intro location content stat top there
  rw [readFile, opens_pathOf legal top there (file_plain content stat), Option.bind_some, there]

theorem sourced_keepsSizes (mirrors : Mirrors root paths) (here : root.lookup location = some node)
    (sourced : ∀ entry ∈ archive.entries, entry.Sourced location node) : archive.KeepsSizes paths := by
  intro entry member regular source known
  have place := sourced entry member
  rw [ZipEntry.Sourced, regular] at place
  obtain ⟨names, content, stat, path, top, reached, length⟩ := place
  rw [known, Option.some.injEq] at path
  subst path
  exact ⟨content, mirrors.reads here top reached, length⟩

/-- The contents of the entries are those of the files below the location, whatever is around it. -/
theorem sourced_content (mirrors : Mirrors root paths) (here : root.lookup location = some node)
    (mirrorsOther : Mirrors other others) (there : other.lookup location = some node)
    (sourced : entry.Sourced location node) : entryContent paths entry = entryContent others entry := by
  unfold entryContent
  rw [ZipEntry.Sourced] at sourced
  split at sourced
  · rw [sourced]
  · obtain ⟨names, content, stat, path, top, reached, _⟩ := sourced
    rw [path]
    dsimp only
    rw [mirrors.reads here top reached, mirrorsOther.reads there top reached]

theorem CellsHold.around {feature : CrcFeature} {cells : CrcCells} (hold : CellsHold feature paths archive cells)
    (mirrors : Mirrors root paths) (here : root.lookup location = some node) (mirrorsOther : Mirrors other others)
    (there : other.lookup location = some node) (sourced : ∀ entry ∈ archive.entries, entry.Sourced location node) :
    CellsHold feature others archive cells := by
  intro index entry found
  have same : crcOf feature others entry = crcOf feature paths entry := by
    rw [crcOf, crcOf, sourced_content mirrors here mirrorsOther there (sourced entry (List.mem_of_getElem? found))]
  rw [same]
  exact hold index entry found

end Sources

/-! A bound on the length of an archive that the order of the entries does not change. -/

/-- No less than an entry takes in both places. -/
def entryWeight (item : ScannedEntry) : Nat := item.size + 2 * item.relativePath.length + 124

def weight (scanned : List ScannedEntry) : Nat := (scanned.map entryWeight).sum + 98

theorem weight_perm {scanned other : List ScannedEntry} (perm : scanned.Perm other) : weight scanned = weight other := by
  rw [weight, weight, (perm.map entryWeight).sum_nat]

theorem planned_weight {item : ScannedEntry} {entry : ZipEntry} (planned : Planned item entry) :
    entry.localLength + entry.size + entry.centralLength ≤ entryWeight item := by
  have localExtra : localExtraLen entry ≤ 20 := by
    unfold localExtraLen
    split <;> decide
  have centralExtra : centralExtraLen entry ≤ 28 := by
    unfold centralExtraLen
    cases entry.centralSizeZip64 <;> cases entry.centralOffsetZip64 <;> decide
  rw [ZipEntry.localLength, ZipEntry.centralLength, entryWeight, planned.nameBytes, planned.size, localHeaderFixed,
    centralEntryFixed]
  omega

theorem extent_le_weight (scanned : List ScannedEntry) : (ZipArchive.createFrom scanned).extent ≤ weight scanned := by
  have entries : ∀ (items : List ScannedEntry) (entries : List ZipEntry), List.Forall₂ Planned items entries →
      (entries.map fun entry => entry.localLength + entry.size).sum + (entries.map ZipEntry.centralLength).sum ≤
        (items.map entryWeight).sum := by
    intro items entries planned
    induction planned with
    | nil => exact Nat.le_refl _
    | cons here _ ih =>
        have own := planned_weight here
        simp only [List.map_cons, List.sum_cons]
        omega
  have total := entries scanned _ (ZipArchive.createFrom_planned scanned)
  have zip64 : (ZipArchive.createFrom scanned).zip64Length ≤ 76 := by
    unfold ZipArchive.zip64Length
    split <;> decide
  rw [ZipArchive.extent, weight, eocdFixed]
  omega

end Raas.Zip
