import Mathlib.Data.Bool.AllAny
import Raas.Archive.Tar.Recovery

namespace Raas.Tar

open Data

/-! Entries by name. -/

/-- The inner `none` is the panic of an index that is out of bounds. -/
def TarArchive.fileInfo (archive : TarArchive) (path : Bytes) : Option (Option FileInfo) :=
  (archive.pathIndex.lookup path).map fun index => (archive.entries[index]?).map TarEntry.info

/-- The latest of the insertions under a key is found. -/
theorem lookup_latest [BEq α] [LawfulBEq α] {keys : List α} {key : α} {index : Nat}
    (found : (keys.zipIdx 0).reverse.lookup key = some index) :
    ∃ front rest, keys = front ++ key :: rest ∧ key ∉ rest ∧ index = front.length := by
  obtain ⟨later, earlier, order, others⟩ := List.lookup_eq_some_iff.mp found
  have split : keys.zipIdx 0 = earlier.reverse ++ (key, index) :: later.reverse := by
    rw [← List.reverse_reverse (keys.zipIdx 0), order, List.reverse_append, List.reverse_cons, List.append_assoc,
      List.singleton_append]
  refine ⟨earlier.reverse.map Prod.fst, later.reverse.map Prod.fst, ?_, ?_, ?_⟩
  · rw [← List.zipIdx_map_fst 0 keys, split, List.map_append, List.map_cons]
  · intro again
    obtain ⟨insertion, member, same⟩ := List.mem_map.mp again
    have other := others insertion (List.mem_reverse.mp member)
    rw [same, bne_self_eq_false] at other
    cases other
  · have here : (keys.zipIdx 0)[earlier.reverse.length]? = some (key, index) := by
      rw [split, List.getElem?_append_right (Nat.le_refl _), Nat.sub_self]
      rfl
    rw [List.getElem?_zipIdx] at here
    obtain ⟨_, _, same⟩ := Option.map_eq_some_iff.mp here
    rw [List.length_map]
    exact ((Prod.mk.inj same).2.symm).trans (Nat.zero_add _)

section Lookup

variable {crate : HeaderCrate} {sourcePath : Path} {scanned : List ScannedEntry} {archive : TarArchive}

theorem fileInfo_none_iff (created : TarArchive.createFrom crate sourcePath scanned = .ok archive) (path : Bytes) :
    archive.fileInfo path = none ↔ ∀ item ∈ scanned, item.relativePath ≠ path := by
  rw [TarArchive.fileInfo, Option.map_eq_none_iff, TarArchive.createFrom_pathIndex created, List.lookup_eq_none_iff]
  constructor
  · intro nowhere item member same
    obtain ⟨index, here⟩ := List.mem_iff_getElem?.mp (List.mem_map_of_mem member)
    have inserted := List.mem_reverse.mpr (List.mk_mem_zipIdx_iff_getElem?.mpr here)
    have other := nowhere _ inserted
    rw [same, bne_self_eq_false] at other
    cases other
  · intro nowhere insertion member
    have key : insertion.1 ∈ scanned.map fun item => item.relativePath := by
      rw [← List.zipIdx_map_fst 0 (scanned.map fun item => item.relativePath)]
      exact List.mem_map_of_mem (List.mem_reverse.mp member)
    obtain ⟨item, inside, same⟩ := List.mem_map.mp key
    rw [bne_iff_ne, ← same]
    exact (nowhere item inside).symm

/-- The index of a name is that of the last entry that was scanned under it. -/
theorem fileInfo_latest (created : TarArchive.createFrom crate sourcePath scanned = .ok archive) {path : Bytes}
    {found : Option FileInfo} (known : archive.fileInfo path = some found) :
    ∃ front item rest entry, scanned = front ++ item :: rest ∧ item.relativePath = path ∧
      (∀ later ∈ rest, later.relativePath ≠ path) ∧ archive.entries[front.length]? = some entry ∧
      Describes crate item entry ∧ found = some entry.info := by
  rw [TarArchive.fileInfo, TarArchive.createFrom_pathIndex created] at known
  obtain ⟨index, latest, taken⟩ := Option.map_eq_some_iff.mp known
  obtain ⟨names, others, split, only, place⟩ := lookup_latest latest
  obtain ⟨front, tail, rfl, frontNames, tailNames⟩ := List.map_eq_append_iff.mp split
  obtain ⟨item, rest, rfl, name, restNames⟩ := List.map_eq_cons_iff.mp tailNames
  have described := List.forall₂_drop front.length (TarArchive.createFrom_describes created).2
  rw [List.drop_left] at described
  obtain ⟨entry, entries, here, _, there⟩ := List.forall₂_cons_left_iff.mp described
  have position : archive.entries[front.length]? = some entry := by
    rw [← Nat.add_zero front.length, ← List.getElem?_drop, there]
    rfl
  refine ⟨front, item, rest, entry, rfl, name, ?_, position, here, ?_⟩
  · intro later member same
    exact only (restNames ▸ same ▸ List.mem_map_of_mem member)
  · rw [place, ← frontNames, List.length_map, position] at taken
    exact taken.symm

variable {os : Files} {holds : FileId → Option Bytes} {paths : Path → Option Bytes} {content : TarEntry → Bytes}
  {entry : TarEntry} {index : Nat}

/-- Header and content of an entry, read from where it begins. -/
theorem TarArchive.WellFormed.entry_reads (wellFormed : archive.WellFormed) (serves : os.Serves holds paths)
    (feeds : archive.Feeds (os.isFile 0 archive.sourcePath) paths content) (here : archive.entries[index]? = some entry)
    (now : Nat) {fuel : Nat} {capacities : List Nat} (usable : ∀ capacity ∈ capacities, 0 < capacity ∧ capacity < fuel) :
    (drain (read 64 fuel os archive) (TarArchive.streamRange entry.info.offset
        (entry.info.offset + entry.header.length + entry.info.size), now) capacities).1.Yields
      (entry.header ++ content entry) capacities.length := by
  have bound := wellFormed.entry_bound here
  have small := wellFormed.bounded
  have offset : entry.offset = entry.info.offset := rfl
  have span : entry.span = entry.header.length + entry.info.size + calculatePadding entry.info.size := rfl
  have size := feeds.sizes entry (List.mem_of_getElem? here)
  have yields := wellFormed.streamRange_yields serves feeds entry.info.offset
    (show entry.info.offset + entry.header.length + entry.info.size < u64Size by omega) now usable
  rw [Nat.min_eq_left (by omega), Nat.min_eq_left (by omega)] at yields
  have image := wellFormed.reference_entry feeds.sizes here 0 (entry.header.length + entry.info.size) (by omega)
  have length : (entry.header ++ content entry).length = entry.header.length + entry.info.size := by
    rw [List.length_append, size]
  have front := window_middle [] (entry.header ++ content entry)
    (List.replicate (calculatePadding entry.info.size) 0) 0 (entry.header.length + entry.info.size)
    (Nat.le_of_eq length.symm)
  have whole := window_all (entry.header ++ content entry)
  rw [length] at whole
  simp only [List.nil_append, List.length_nil, Nat.zero_add] at front
  rw [TarEntry.image, front, whole, Nat.add_zero, ← Nat.add_assoc, offset] at image
  rw [← image]
  exact yields

end Lookup

/-- Entries by name. A name is in the index exactly if something was scanned under it; the
answer is the record of the last such entry, an index never panics, and a reader that is
started at its offset gives its header and the content of the scanned file. -/
theorem file_info_locates {crate : HeaderCrate} {sourcePath : Path} {scanned : List ScannedEntry} {archive : TarArchive}
    (created : TarArchive.createFrom crate sourcePath scanned = .ok archive) (fits : archive.extent < u64Size) {os : Files}
    {paths : Path → Option Bytes} (unchanged : os.Unchanged paths) (stays : SizesStay paths scanned)
    (alike : ∀ item ∈ scanned, 0 < item.size → ReadsAlike paths sourcePath (os.isFile 0 sourcePath) item) (path : Bytes) :
    (archive.fileInfo path = none ↔ ∀ item ∈ scanned, item.relativePath ≠ path) ∧
    ∀ found, archive.fileInfo path = some found → ∃ front item rest info header,
      scanned = front ++ item :: rest ∧ item.relativePath = path ∧ (∀ later ∈ rest, later.relativePath ≠ path) ∧
      found = some info ∧ info = { FileInfo.ofScanned item with offset := info.offset } ∧
      createHeader crate (FileInfo.ofScanned item) = .ok header ∧
      ∃ content : Bytes, content.length = info.size ∧
        (item.isDir = false → paths item.sourcePath = some content) ∧
        ∀ now fuel capacities, (∀ capacity ∈ capacities, 0 < capacity ∧ capacity < fuel) →
          (drain (read 64 fuel os archive) (TarArchive.streamRange info.offset
            (info.offset + header.length + info.size), now) capacities).1.Yields (header ++ content) capacities.length := by
  refine ⟨fileInfo_none_iff created path, ?_⟩
  intro found known
  obtain ⟨front, item, rest, entry, split, name, latest, here, described, answer⟩ := fileInfo_latest created known
  obtain ⟨wellFormed, _⟩ := TarArchive.createFrom_wellFormed created fits
  obtain ⟨source, all⟩ := TarArchive.createFrom_describes created
  obtain ⟨holds, serves⟩ := unchanged
  subst source
  have scannedHere : item ∈ scanned := by
    rw [split]
    exact List.mem_append_right front List.mem_cons_self
  have feeds := feeds_of_alike all stays alike
  refine ⟨front, item, rest, entry.info, entry.header, split, name, latest, answer, described.2, described.1,
    openedContent archive (os.isFile 0 archive.sourcePath) paths entry,
    feeds.sizes entry (List.mem_of_getElem? here),
    openedContent_scanned described (stays item scannedHere) (alike item scannedHere), ?_⟩
  intro now fuel capacities usable
  exact wellFormed.entry_reads serves feeds here now usable

theorem file_info_locates_small : smallArchive.fileInfo [110] = none ∧
    ∃ info header, smallArchive.fileInfo [100, 47, 102] = some (some info) ∧
      (drain (read 64 8 (Files.memory smallFiles 2) smallArchive) (TarArchive.streamRange info.offset
        (info.offset + List.length header + info.size), 0) (List.replicate 101 7)).1.Yields
          (header ++ [97, 98, 99]) 101 := by
  have created : TarArchive.createFrom blockCrate [47, 115] smallScan = .ok smallArchive := rfl
  have unchanged : (Files.memory smallFiles 2).Unchanged (Files.contentOf smallFiles) :=
    Files.memory_unchanged smallFiles (by decide)
  have usable : ∀ capacity ∈ List.replicate 101 7, 0 < capacity ∧ capacity < 8 :=
    List.forall_mem_replicate.mpr (.inr (by decide))
  have fits : smallArchive.extent < u64Size := by decide +kernel
  have locates := file_info_locates created fits unchanged smallScan_stays smallScan_alike
  refine ⟨(locates [110]).1.mpr (List.all_iff_forall_prop.mp (by decide)), ?_⟩
  cases known : smallArchive.fileInfo [100, 47, 102] with
  | none => exact absurd known (by decide +kernel)
  | some found =>
      obtain ⟨front, item, rest, info, header, split, name, _, rfl, _, _, content, _, scanned, reads⟩ :=
        (locates [100, 47, 102]).2 found known
      have member : item ∈ smallScan := by
        rw [split]
        exact List.mem_append_right front List.mem_cons_self
      have own : content = [97, 98, 99] := by
        simp only [smallScan, List.mem_cons, List.not_mem_nil, or_false] at member
        rcases member with rfl | rfl
        · exact absurd name (by decide)
        · exact Option.some.inj ((scanned rfl).symm.trans (by decide))
      have yields := reads 0 8 (List.replicate 101 7) usable
      rw [List.length_replicate, own] at yields
      exact ⟨info, header, rfl, yields⟩

end Raas.Tar
