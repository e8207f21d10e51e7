import Raas.Archive.Zip.Layout
import Raas.Archive.Zip.Reader
import Raas.Os.Memory

namespace Raas.Zip

open Data

def ZipEntry.image (entry : ZipEntry) (crc : Nat) (content : Bytes) : Bytes :=
  writeLocalHeader entry crc [] ++ content

def ZipArchive.endRecords (archive : ZipArchive) : Bytes :=
  (if archive.needsZip64 then writeZip64Eocd archive [] ++ writeZip64Locator archive [] else []) ++
    writeEocd archive []

/-- The byte string that the archive stands for: local headers with their contents,
the central directory, and the end records. -/
def ZipArchive.reference (archive : ZipArchive) (crc : ZipEntry → Nat) (content : ZipEntry → Bytes) : Bytes :=
  archive.entries.flatMap (fun entry => entry.image (crc entry) (content entry)) ++
    archive.entries.flatMap (fun entry => writeCentralEntry entry (crc entry) []) ++ archive.endRecords

/-! The segment table is the reference cut into pieces. -/

def ZipArchive.segmentBytes (archive : ZipArchive) (crc : ZipEntry → Nat) (content : ZipEntry → Bytes) :
    SegmentKind → Bytes
  | .localHeader index => (archive.entries[index]?).elim [] fun entry => writeLocalHeader entry (crc entry) []
  | .data index => (archive.entries[index]?).elim [] content
  | .centralEntry index => (archive.entries[index]?).elim [] fun entry => writeCentralEntry entry (crc entry) []
  | .zip64Eocd => writeZip64Eocd archive []
  | .zip64Locator => writeZip64Locator archive []
  | .eocd => writeEocd archive []

def Segment.Backed (archive : ZipArchive) (segment : Segment) : Prop :=
  match segment.kind with
  | .localHeader index => ∃ entry, archive.entries[index]? = some entry ∧ segment.len = entry.localHeaderLen
  | .data index => ∃ entry, archive.entries[index]? = some entry ∧ segment.len = entry.size ∧ 0 < entry.size
  | .centralEntry index => ∃ entry, archive.entries[index]? = some entry ∧ segment.len = entry.centralLen
  | .zip64Eocd => segment.len = zip64EocdLen
  | .zip64Locator => segment.len = zip64LocatorLen
  | .eocd => segment.len = eocdFixed

section Segments

variable {archive : ZipArchive} {crc : ZipEntry → Nat} {content : ZipEntry → Bytes}

theorem getElem?_length_append (front rest : List α) (item : α) :
    (front ++ item :: rest)[front.length]? = some item := by
  rw [List.getElem?_append_right (Nat.le_refl _), Nat.sub_self, List.getElem?_cons_zero]

theorem localSegments_tiles {entries : List ZipEntry} (index : Nat) {pos stop : Nat}
    (tiles : Tiles ZipEntry.localOffset ZipEntry.localSpan pos entries stop) (small : stop < u64Size)
    (headers : ∀ entry ∈ entries, 0 < entry.localHeaderLen) :
    Tiles Segment.start Segment.len pos (localSegments index entries) stop := by
  induction tiles generalizing index with
  | nil => exact .nil
  | @cons pos stop entry rest starts nonempty tail ih =>
      have later := ih (index + 1) small fun other member => headers other (by simp [member])
      have header := headers entry (by simp)
      have ends := tail.base_le
      have width : entry.localSpan = entry.localHeaderLen + entry.size := rfl
      rw [localSegments]
      refine .cons starts header ?_
      by_cases filled : 0 < entry.size
      · rw [if_pos filled]
        refine .cons ?_ filled ?_
        · dsimp only
          rw [starts, wrappingAdd_of_lt (by omega)]
        · dsimp only
          rw [Nat.add_assoc, ← width]
          exact later
      · rw [if_neg filled]
        have empty : entry.size = 0 := by omega
        rw [width, empty, Nat.add_zero] at later
        exact later

theorem centralSegments_tiles {entries : List ZipEntry} (index : Nat) {pos stop : Nat}
    (tiles : Tiles ZipEntry.centralOffset ZipEntry.centralLen pos entries stop) :
    Tiles Segment.start Segment.len pos (centralSegments index entries) stop := by
  induction tiles generalizing index with
  | nil => exact .nil
  | cons starts nonempty _ ih => exact .cons starts nonempty (ih (index + 1))

theorem localSegments_bytes (crc : ZipEntry → Nat) (front entries : List ZipEntry)
    (all : archive.entries = front ++ entries)
    (sizes : ∀ entry ∈ entries, (content entry).length = entry.size) :
    (localSegments front.length entries).flatMap (fun segment => archive.segmentBytes crc content segment.kind) =
      entries.flatMap fun entry => entry.image (crc entry) (content entry) := by
  induction entries generalizing front with
  | nil => rfl
  | cons entry rest ih =>
      have found : archive.entries[front.length]? = some entry := by rw [all, getElem?_length_append]
      have later := ih (front ++ [entry]) (by rw [all, List.append_assoc]; rfl)
        fun other member => sizes other (by simp [member])
      rw [List.length_append, List.length_singleton] at later
      have size := sizes entry (by simp)
      rw [localSegments, List.flatMap_cons, List.flatMap_append, later, List.flatMap_cons, ZipEntry.image]
      by_cases filled : 0 < entry.size
      · simp only [if_pos filled, List.flatMap_cons, List.flatMap_nil, ZipArchive.segmentBytes, found,
          Option.elim_some, List.append_nil, List.append_assoc]
      · have empty : content entry = [] := List.eq_nil_of_length_eq_zero (by omega)
        simp only [if_neg filled, List.flatMap_nil, ZipArchive.segmentBytes, found, Option.elim_some,
          List.nil_append, empty, List.append_nil]

theorem centralSegments_bytes (crc : ZipEntry → Nat) (content : ZipEntry → Bytes) (front entries : List ZipEntry)
    (all : archive.entries = front ++ entries) :
    (centralSegments front.length entries).flatMap (fun segment => archive.segmentBytes crc content segment.kind) =
      entries.flatMap fun entry => writeCentralEntry entry (crc entry) [] := by
  induction entries generalizing front with
  | nil => rfl
  | cons entry rest ih =>
      have found : archive.entries[front.length]? = some entry := by rw [all, getElem?_length_append]
      have later := ih (front ++ [entry]) (by rw [all, List.append_assoc]; rfl)
      rw [List.length_append, List.length_singleton] at later
      rw [centralSegments, List.flatMap_cons, later, List.flatMap_cons]
      simp only [ZipArchive.segmentBytes, found, Option.elim_some]

theorem localSegments_backed (front entries : List ZipEntry) (all : archive.entries = front ++ entries) :
    ∀ segment ∈ localSegments front.length entries, segment.Backed archive := by
  induction entries generalizing front with
  | nil => simp [localSegments]
  | cons entry rest ih =>
      have found : archive.entries[front.length]? = some entry := by rw [all, getElem?_length_append]
      have later := ih (front ++ [entry]) (by rw [all, List.append_assoc]; rfl)
      rw [List.length_append, List.length_singleton] at later
      intro segment member
      rw [localSegments, List.mem_cons, List.mem_append] at member
      rcases member with rfl | member | member
      · exact ⟨entry, found, rfl⟩
      · split at member
        · rename_i filled
          rw [List.mem_singleton] at member
          subst member
          exact ⟨entry, found, rfl, filled⟩
        · simp at member
      · exact later segment member

theorem centralSegments_backed (front entries : List ZipEntry) (all : archive.entries = front ++ entries) :
    ∀ segment ∈ centralSegments front.length entries, segment.Backed archive := by
  induction entries generalizing front with
  | nil => simp [centralSegments]
  | cons entry rest ih =>
      have found : archive.entries[front.length]? = some entry := by rw [all, getElem?_length_append]
      have later := ih (front ++ [entry]) (by rw [all, List.append_assoc]; rfl)
      rw [List.length_append, List.length_singleton] at later
      intro segment member
      rw [centralSegments, List.mem_cons] at member
      rcases member with rfl | member
      · exact ⟨entry, found, rfl⟩
      · exact later segment member

theorem ZipArchive.endSegments_backed : ∀ segment ∈ archive.endSegments, segment.Backed archive := by
  intro segment member
  rw [endSegments, List.mem_append] at member
  rcases member with zip64 | last
  · split at zip64
    · simp only [List.mem_cons, List.not_mem_nil, or_false] at zip64
      rcases zip64 with rfl | rfl <;> rfl
    · simp at zip64
  · rw [List.mem_singleton] at last
    subst last
    rfl

theorem ZipArchive.WellFormed.segments_tile (wellFormed : archive.WellFormed) :
    Tiles Segment.start Segment.len 0 archive.segments archive.totalSize := by
  have ending := wellFormed.ending
  have small := wellFormed.bounded
  have ordered := wellFormed.directorySize
  have headers : ∀ entry ∈ archive.entries, 0 < entry.localHeaderLen := by
    intro entry member
    rw [wellFormed.localLengths entry member]
    simp only [ZipEntry.localLength, localHeaderFixed]
    omega
  have front := localSegments_tiles 0 wellFormed.locals (by omega) headers
  have middle := centralSegments_tiles 0 wellFormed.centrals
  have back : Tiles Segment.start Segment.len archive.zip64EocdOffset archive.endSegments archive.totalSize := by
    rw [endSegments]
    by_cases zip64 : archive.needsZip64 = true
    · simp only [zip64Length, if_pos zip64, eocdFixed, zip64EocdLen, zip64LocatorLen] at ending ⊢
      refine .cons rfl (Nat.succ_pos _) (.cons ?_ (Nat.succ_pos _) ?_)
      · exact wrappingAdd_of_lt (by omega)
      · dsimp only
        rw [← ending, wrappingSub_of_le (by omega) (by omega)]
        exact .cons (by dsimp only; omega) (Nat.succ_pos _) .nil
    · simp only [zip64Length, if_neg zip64, eocdFixed] at ending ⊢
      rw [← ending, wrappingSub_of_le (by omega) (by omega)]
      exact .cons (by dsimp only; omega) (Nat.succ_pos _) .nil
  rw [wellFormed.table]
  exact front.append (middle.append back)

theorem ZipArchive.WellFormed.segments_bytes (wellFormed : archive.WellFormed) (crc : ZipEntry → Nat)
    (sizes : ∀ entry ∈ archive.entries, (content entry).length = entry.size) :
    archive.segments.flatMap (fun segment => archive.segmentBytes crc content segment.kind) =
      archive.reference crc content := by
  have front := localSegments_bytes crc [] archive.entries rfl sizes
  have middle := centralSegments_bytes crc content [] archive.entries rfl
  have back : archive.endSegments.flatMap (fun segment => archive.segmentBytes crc content segment.kind) =
      archive.endRecords := by
    rw [endSegments, endRecords, List.flatMap_append]
    split <;> simp only [List.flatMap_cons, List.flatMap_nil, segmentBytes, List.append_nil]
  rw [List.length_nil] at front middle
  rw [wellFormed.table, List.flatMap_append, List.flatMap_append, front, middle, back, reference,
    List.append_assoc]

theorem ZipArchive.table_backed (table : archive.segments =
      localSegments 0 archive.entries ++ (centralSegments 0 archive.entries ++ archive.endSegments)) :
    ∀ segment ∈ archive.segments, segment.Backed archive := by
  intro segment member
  rw [table, List.mem_append, List.mem_append] at member
  rcases member with front | middle | back
  · exact localSegments_backed [] archive.entries rfl segment front
  · exact centralSegments_backed [] archive.entries rfl segment middle
  · exact endSegments_backed segment back

theorem ZipArchive.WellFormed.segments_backed (wellFormed : archive.WellFormed) :
    ∀ segment ∈ archive.segments, segment.Backed archive :=
  table_backed wellFormed.table

/-- The content of a data segment comes from a regular file. -/
theorem Segment.Backed.sourced {segment : Segment} {entryIndex : Nat} (backed : segment.Backed archive)
    (data : segment.kind = .data entryIndex) (directories : ∀ entry ∈ archive.entries, entry.isDir = true → entry.size = 0)
    (sources : ∀ entry ∈ archive.entries, entry.isDir = false → ∃ source, entry.sourcePath = some source) :
    ∃ entry source, archive.entries[entryIndex]? = some entry ∧ segment.len = entry.size ∧ entry.isDir = false ∧
      entry.sourcePath = some source := by
  rw [Segment.Backed, data] at backed
  obtain ⟨entry, found, length, filled⟩ := backed
  have member := List.mem_of_getElem? found
  have regular : entry.isDir = false := by
    cases directory : entry.isDir with
    | false => rfl
    | true =>
        have empty := directories entry member directory
        omega
  obtain ⟨source, sourcePath⟩ := sources entry member regular
  exact ⟨entry, source, found, length, regular, sourcePath⟩

theorem ZipArchive.WellFormed.segmentBytes_length (wellFormed : archive.WellFormed) (crc : ZipEntry → Nat)
    (sizes : ∀ entry ∈ archive.entries, (content entry).length = entry.size) :
    ∀ segment ∈ archive.segments, (archive.segmentBytes crc content segment.kind).length = segment.len := by
  intro segment member
  have backed := wellFormed.segments_backed segment member
  obtain ⟨start, len, kind⟩ := segment
  cases kind with
  | localHeader index =>
      obtain ⟨entry, found, length⟩ := backed
      simp only [segmentBytes, found, Option.elim_some, writeLocalHeader_length, List.length_nil, Nat.zero_add]
      exact (wellFormed.localLengths entry (List.mem_of_getElem? found)).symm.trans length.symm
  | data index =>
      obtain ⟨entry, found, length, _⟩ := backed
      simp only [segmentBytes, found, Option.elim_some]
      exact (sizes entry (List.mem_of_getElem? found)).trans length.symm
  | centralEntry index =>
      obtain ⟨entry, found, length⟩ := backed
      simp only [segmentBytes, found, Option.elim_some, writeCentralEntry_length, List.length_nil, Nat.zero_add]
      exact (wellFormed.centralLengths entry (List.mem_of_getElem? found)).symm.trans length.symm
  | zip64Eocd => exact (writeZip64Eocd_length archive []).trans (by rw [List.length_nil, Nat.zero_add]; exact backed.symm)
  | zip64Locator =>
      exact (writeZip64Locator_length archive []).trans (by rw [List.length_nil, Nat.zero_add]; exact backed.symm)
  | eocd => exact (writeEocd_length archive []).trans (by rw [List.length_nil, Nat.zero_add]; exact backed.symm)

theorem ZipArchive.WellFormed.reference_length (wellFormed : archive.WellFormed) (crc : ZipEntry → Nat)
    (sizes : ∀ entry ∈ archive.entries, (content entry).length = entry.size) :
    (archive.reference crc content).length = archive.totalSize := by
  have length := wellFormed.segments_tile.length_flatMap
    (fun segment => archive.segmentBytes crc content segment.kind) (wellFormed.segmentBytes_length crc sizes)
  rw [Nat.zero_add, wellFormed.segments_bytes crc sizes] at length
  exact length

theorem ZipArchive.WellFormed.reference_segment (wellFormed : archive.WellFormed) (crc : ZipEntry → Nat)
    (sizes : ∀ entry ∈ archive.entries, (content entry).length = entry.size) {index : Nat} {segment : Segment}
    (found : archive.segments[index]? = some segment) (first last : Nat) (inside : last ≤ segment.len) :
    window (archive.reference crc content) (segment.start + first) (segment.start + last) =
      window (archive.segmentBytes crc content segment.kind) first last := by
  have widths : ∀ segment ∈ archive.segments,
      (archive.segmentBytes crc content segment.kind).length = segment.len :=
    wellFormed.segmentBytes_length crc sizes
  have placed := wellFormed.segments_tile.window_item widths found first last inside
  rw [Nat.sub_zero, wellFormed.segments_bytes crc sizes] at placed
  exact placed

theorem ZipArchive.WellFormed.findSegment_finds (wellFormed : archive.WellFormed) {pos : Nat}
    (inside : pos < archive.totalSize) :
    ∃ index segment, findSegment archive pos = some index ∧ archive.segments[index]? = some segment ∧
      segment.start ≤ pos ∧ pos < segment.start + segment.len := by
  obtain ⟨index, segment, found, point, lower, upper⟩ :=
    wellFormed.segments_tile.locate (Nat.zero_le _) inside
  have bounds := wellFormed.segments_tile.base_le_start segment (List.mem_of_getElem? found)
  have small := wellFormed.bounded
  have ends : wrappingAdd segment.start segment.len = segment.start + segment.len :=
    wrappingAdd_of_lt (by omega)
  refine ⟨index, segment, ?_, found, lower, upper⟩
  simp only [findSegment, point, Nat.add_sub_cancel, found, Nat.succ_ne_zero, if_false, ends, if_pos upper]

end Segments

section Read

variable {archive : ZipArchive} {feature : CrcFeature} {os : Files} {Fails : IoError → Prop}
  {holds : FileId → Option Bytes} {paths : Path → Option Bytes} {pointerBits endPos pos room fuel : Nat}

theorem ZipArchive.WellFormed.entryContent_length (wellFormed : archive.WellFormed)
    (keeps : archive.KeepsSizes paths) :
    ∀ entry ∈ archive.entries, (entryContent paths entry).length = entry.size := by
  intro entry member
  unfold entryContent
  cases directory : entry.isDir with
  | true => simp [wellFormed.folders entry member directory, wellFormed.directories entry member directory]
  | false =>
      obtain ⟨source, sourcePath⟩ := wellFormed.sources entry member directory
      obtain ⟨bytes, leads, size⟩ := keeps entry member directory source sourcePath
      simp [sourcePath, leads, size]

/-- Every checksum that is asked for is the entry's own, as long as the cells are. -/
def ZipArchive.Sums (archive : ZipArchive) (feature : CrcFeature) (fuel : Nat) (os : Files)
    (paths : Path → Option Bytes) : Prop :=
  ∀ cells now index entry, CellsHold feature paths archive cells → archive.entries[index]? = some entry →
    ∃ after later, entryCrc feature fuel os cells now index entry = (.ok (crcOf feature paths entry), after, later) ∧
      CellsHold feature paths archive after

theorem ZipArchive.WellFormed.size_lt (wellFormed : archive.WellFormed) {entry : ZipEntry}
    (member : entry ∈ archive.entries) : entry.size < u64Size := by
  have bounds := wellFormed.locals.base_le_start entry member
  have ending := wellFormed.ending
  have ordered := wellFormed.directorySize
  have bounded := wellFormed.bounded
  simp only [ZipEntry.localSpan] at bounds
  omega

theorem ZipArchive.WellFormed.sums (wellFormed : archive.WellFormed) (serves : os.Serves holds paths)
    (keeps : archive.KeepsSizes paths) (enough : ∀ entry ∈ archive.entries, entry.size < fuel) :
    archive.Sums feature fuel os paths := by
  intro cells now index entry hold found
  have inside := List.mem_of_getElem? found
  apply entryCrc_falters (serves.falters fun _ => False) keeps hold found (wellFormed.sources entry inside) ?_
    (wellFormed.size_lt inside) (enough entry inside)
  intro _ regular _ source sourced
  obtain ⟨bytes, leads, _⟩ := keeps entry inside regular source sourced
  exact Interrupted.never serves leads

theorem sums_disabled (disabled : feature.enabled = false) : archive.Sums feature fuel os paths := by
  intro cells now index entry hold _
  refine ⟨cells, now, ?_, hold⟩
  simp only [entryCrc, crcOf, disabled, Bool.not_false, Bool.or_true, Bool.false_eq_true, if_false, if_true, ite_self]

/-- Encoding such a segment now gives what the reference has there, and good checksums. -/
def Encodes (feature : CrcFeature) (fuel : Nat) (os : Files) (paths : Path → Option Bytes) (archive : ZipArchive)
    (kind : SegmentKind) (world : World) : Prop :=
  ∃ after later, writeSegmentInto feature fuel os archive kind world.cells world.now =
      (.ok (archive.segmentBytes (crcOf feature paths) (entryContent paths) kind), after, later) ∧
    CellsHold feature paths archive after

theorem ZipArchive.WellFormed.encodes (wellFormed : archive.WellFormed) {world : World}
    (hold : CellsHold feature paths archive world.cells) {segment : Segment} (member : segment ∈ archive.segments)
    (regular : ∀ index, segment.kind ≠ .data index)
    (sums : ∀ index entry, segment.kind = .localHeader index ∨ segment.kind = .centralEntry index →
      archive.entries[index]? = some entry →
      ∃ after later, entryCrc feature fuel os world.cells world.now index entry =
          (.ok (crcOf feature paths entry), after, later) ∧ CellsHold feature paths archive after) :
    Encodes feature fuel os paths archive segment.kind world := by
  have backed := wellFormed.segments_backed segment member
  obtain ⟨start, len, kind⟩ := segment
  cases kind with
  | localHeader index =>
      obtain ⟨entry, found, _⟩ := backed
      obtain ⟨after, later, known, kept⟩ := sums index entry (.inl rfl) found
      exact ⟨after, later, by simp only [writeSegmentInto, segmentBytes, found, known, Except.map, Option.elim_some], kept⟩
  | centralEntry index =>
      obtain ⟨entry, found, _⟩ := backed
      obtain ⟨after, later, known, kept⟩ := sums index entry (.inr rfl) found
      exact ⟨after, later, by simp only [writeSegmentInto, segmentBytes, found, known, Except.map, Option.elim_some], kept⟩
  | data index => exact absurd rfl (regular index)
  | zip64Eocd => exact ⟨world.cells, world.now, rfl, hold⟩
  | zip64Locator => exact ⟨world.cells, world.now, rfl, hold⟩
  | eocd => exact ⟨world.cells, world.now, rfl, hold⟩

theorem ZipArchive.Sums.encodes (sums : archive.Sums feature fuel os paths) (wellFormed : archive.WellFormed)
    {world : World} (hold : CellsHold feature paths archive world.cells) {segment : Segment}
    (member : segment ∈ archive.segments) (regular : ∀ index, segment.kind ≠ .data index) :
    Encodes feature fuel os paths archive segment.kind world :=
  wellFormed.encodes hold member regular fun index entry _ found => sums _ _ index entry hold found

/-- What the reader keeps between turns: a handle that leads to its path's content
and checksums that are the entries' own. -/
def Progress.Kept (feature : CrcFeature) (holds : FileId → Option Bytes) (paths : Path → Option Bytes)
    (archive : ZipArchive) (progress : Progress) : Prop :=
  progress.files.Valid holds paths ∧ CellsHold feature paths archive progress.world.cells

/-- The target's `usize` can count what is encoded into the scratch buffer. -/
def ZipArchive.Addressable (pointerBits : Nat) (archive : ZipArchive) : Prop :=
  ∀ segment ∈ archive.segments, (∀ index, segment.kind ≠ .data index) → segment.len < 2 ^ pointerBits

/-- A cast to `usize` makes nothing of a count that is to be read at `pos`. -/
def Stuck (pointerBits : Nat) (archive : ZipArchive) (endPos pos : Nat) : Prop :=
  asUsize pointerBits (endPos - pos) = 0 ∨
    ∃ segment ∈ archive.segments, segment.start ≤ pos ∧ pos < segment.start + segment.len ∧
      asUsize pointerBits (segment.len - (pos - segment.start)) = 0

theorem ZipArchive.WellFormed.addressable (wellFormed : archive.WellFormed) : archive.Addressable 64 := by
  intro segment member _
  have bounds := wellFormed.segments_tile.base_le_start segment member
  have small := wellFormed.bounded
  have size : u64Size = 2 ^ 64 := rfl
  omega

/-- Nothing is cut off if the archive and the range are small enough. -/
theorem ZipArchive.WellFormed.not_stuck (wellFormed : archive.WellFormed) (fits : archive.totalSize < 2 ^ pointerBits)
    (endFits : endPos < 2 ^ pointerBits) (before : pos < endPos) : ¬ Stuck pointerBits archive endPos pos := by
  intro stuck
  rcases stuck with nothing | ⟨segment, member, lower, upper, nothing⟩
  · rw [asUsize, Nat.mod_eq_of_lt (by omega)] at nothing
    omega
  · have bounds := wellFormed.segments_tile.base_le_start segment member
    rw [asUsize, Nat.mod_eq_of_lt (by omega)] at nothing
    omega

/-- The failures of a turn, if the files fail as `Fails` admits. -/
def Passes (Fails : IoError → Prop) (fault : Fault IoError) : Prop := ∃ reason, Fails reason ∧ fault = .error reason

theorem ZipArchive.WellFormed.readEncoded_delivers (wellFormed : archive.WellFormed)
    (keeps : archive.KeepsSizes paths) (addressable : archive.Addressable pointerBits) {progress : Progress}
    (valid : progress.files.Valid holds paths) {segment : Segment} (member : segment ∈ archive.segments)
    (regular : ∀ index, segment.kind ≠ .data index)
    (encodes : Encodes feature fuel os paths archive segment.kind progress.world) {offset want : Nat}
    (inside : offset + want ≤ segment.len) (positive : 0 < want) :
    Delivers (Progress.Kept feature holds paths archive) (Passes Fails)
      (archive.segmentBytes (crcOf feature paths) (entryContent paths) segment.kind) segment.len offset want
      (readEncoded pointerBits feature fuel os archive progress segment.kind offset want) := by
  have sizes := wellFormed.entryContent_length keeps
  obtain ⟨cells, now, answered, keptCells⟩ := encodes
  have length : (archive.segmentBytes (crcOf feature paths) (entryContent paths) segment.kind).length =
    segment.len := wellFormed.segmentBytes_length _ sizes segment member
  have whole : asUsize pointerBits offset = offset :=
    Nat.mod_eq_of_lt (Nat.lt_of_le_of_lt (by omega) (addressable segment member regular))
  simp only [readEncoded, answered, whole]
  rw [slice_ok (by omega)]
  exact Delivers.of_slice ⟨valid, keptCells⟩ positive inside (Nat.le_of_eq length.symm)

theorem ZipArchive.WellFormed.readData_delivers (wellFormed : archive.WellFormed)
    (falters : os.Falters Fails holds paths) (keeps : archive.KeepsSizes paths) {progress : Progress}
    (kept : progress.Kept feature holds paths archive) {segment : Segment}
    (member : segment ∈ archive.segments) {entryIndex : Nat} (data : segment.kind = .data entryIndex)
    {offset want : Nat} (inside : offset + want ≤ segment.len) (positive : 0 < want) :
    Delivers (Progress.Kept feature holds paths archive) (Passes Fails)
      (archive.segmentBytes (crcOf feature paths) (entryContent paths) segment.kind) segment.len offset want
      (readData os archive progress entryIndex offset want) := by
  obtain ⟨valid, hold⟩ := kept
  obtain ⟨entry, source, found, length, regular, sourcePath⟩ :=
    (wellFormed.segments_backed segment member).sourced data wellFormed.directories wellFormed.sources
  obtain ⟨bytes, leads, size⟩ := keeps entry (List.mem_of_getElem? found) regular source sourcePath
  have content : entryContent paths entry = bytes := by simp only [entryContent, sourcePath, leads, Option.getD_some]
  have delivered := FileHandleCache.readAt_delivers falters valid leads progress.world.now offset want (by omega) positive
  simp only [readData, found, sourcePath, data, segmentBytes, Option.elim_some, content]
  generalize progress.files.readAt os progress.world.now source offset want = answer at delivered ⊢
  obtain ⟨result, files, now⟩ := answer
  cases result with
  | error reason => exact ⟨⟨reason, delivered.1, rfl⟩, delivered.2, hold⟩
  | ok piece =>
      obtain ⟨keptFiles, counted, fits, bounded, window⟩ := delivered
      simp only [if_neg (Nat.ne_of_gt counted)]
      exact ⟨⟨keptFiles, hold⟩, counted, fits, by omega, window⟩

/-- A turn goes ahead unless a cast makes nothing of what is left, or a file fails. -/
theorem ZipArchive.WellFormed.readStep_delivers (wellFormed : archive.WellFormed)
    (falters : os.Falters Fails holds paths) (keeps : archive.KeepsSizes paths)
    (addressable : archive.Addressable pointerBits) (moving : ¬ Stuck pointerBits archive endPos pos)
    {progress : Progress} (kept : progress.Kept feature holds paths archive)
    (encodes : ∀ segment ∈ archive.segments, segment.start ≤ pos → pos < segment.start + segment.len →
      (∀ index, segment.kind ≠ .data index) → Encodes feature fuel os paths archive segment.kind progress.world)
    (before : pos < min endPos archive.totalSize)
    (positive : 0 < room) :
    Delivers (Progress.Kept feature holds paths archive) (Passes Fails)
      (archive.reference (crcOf feature paths) (entryContent paths)) (min endPos archive.totalSize) pos room
      (readStep pointerBits feature fuel os archive endPos progress pos room) := by
  have sizes := wellFormed.entryContent_length keeps
  obtain ⟨index, segment, located, found, lower, upper⟩ :=
    wellFormed.findSegment_finds (show pos < archive.totalSize by omega)
  have member := List.mem_of_getElem? found
  have bounds := wellFormed.segments_tile.base_le_start segment member
  -- the piece of a segment is the piece of the reference at the segment's place
  have placed : ∀ count, pos - segment.start + count ≤ segment.len →
      window (archive.segmentBytes (crcOf feature paths) (entryContent paths) segment.kind)
        (pos - segment.start) (pos - segment.start + count) =
      window (archive.reference (crcOf feature paths) (entryContent paths)) pos (pos + count) := by
    intro count inside
    rw [← wellFormed.reference_segment _ sizes found _ _ inside,
      show segment.start + (pos - segment.start) = pos by omega,
      show segment.start + (pos - segment.start + count) = pos + count by omega]
  have wanted : asUsize pointerBits (endPos - pos) ≠ 0 := fun nothing => moving (.inl nothing)
  have remains : asUsize pointerBits (segment.len - (pos - segment.start)) ≠ 0 :=
    fun nothing => moving (.inr ⟨segment, member, lower, upper, nothing⟩)
  have rest : asUsize pointerBits (endPos - pos) ≤ endPos - pos := Nat.mod_le _ _
  have shorter : asUsize pointerBits (segment.len - (pos - segment.start)) ≤ segment.len - (pos - segment.start) :=
    Nat.mod_le _ _
  unfold readStep
  simp only [located, found]
  generalize counted : min (min room (asUsize pointerBits (segment.len - (pos - segment.start))))
    (asUsize pointerBits (endPos - pos)) = want
  split
  · rename_i entryIndex data
    exact (wellFormed.readData_delivers falters keeps kept member data (by omega) (by omega)).of_part placed
      (by omega) (by omega)
  · rename_i other
    exact (wellFormed.readEncoded_delivers keeps addressable kept.1 member other
      (encodes segment member lower upper other) (by omega) (by omega)).of_part placed (by omega) (by omega)

/-- A reader of a range up to `endPos` that has come as far as `position`. -/
def Standing (feature : CrcFeature) (holds : FileId → Option Bytes) (paths : Path → Option Bytes)
    (archive : ZipArchive) (endPos : Nat) (reader : ZipRangeReader × World) (position : Nat) : Prop :=
  reader.1.endPos = endPos ∧ reader.1.currentPos = position ∧
    reader.1.fileHandleCache.Valid holds paths ∧ CellsHold feature paths archive reader.2.cells

theorem ZipArchive.WellFormed.read_responds (wellFormed : archive.WellFormed)
    (falters : os.Falters Fails holds paths) (keeps : archive.KeepsSizes paths)
    (sums : archive.Sums feature fuel os paths) (addressable : archive.Addressable pointerBits)
    (moving : ∀ place, pos ≤ place → place < min endPos archive.totalSize → ¬ Stuck pointerBits archive endPos place)
    {capacity : Nat} (enough : capacity < fuel) {reader : ZipRangeReader × World}
    (standing : Standing feature holds paths archive endPos reader pos) :
    Responds (Standing feature holds paths archive endPos) (Passes Fails)
      (archive.reference (crcOf feature paths) (entryContent paths)) (min endPos archive.totalSize) pos capacity
      (read pointerBits feature fuel os archive reader capacity) := by
  obtain ⟨reader, world⟩ := reader
  obtain ⟨ends, stands, valid, hold⟩ := standing
  dsimp only at ends stands valid hold
  subst ends stands
  unfold read readIntoBuffer
  by_cases finished : reader.endPos ≤ reader.currentPos ∨ archive.totalSize ≤ reader.currentPos
  · simp only [if_pos finished]
    exact ⟨(window_of_le (by omega)).symm, rfl, rfl, valid, hold⟩
  · have filled : Fills (Progress.Kept feature holds paths archive) (Passes Fails)
        (archive.reference (crcOf feature paths) (entryContent paths)) (min reader.endPos archive.totalSize)
        capacity reader.currentPos []
        (fill (readStep pointerBits feature fuel os archive reader.endPos) .exhausted capacity reader.endPos
          archive.totalSize fuel { files := reader.fileHandleCache, scratch := reader.scratch, world }
          reader.currentPos []) :=
      fill_fills (fun progress pos room kept ahead before positive =>
        wellFormed.readStep_delivers falters keeps addressable (moving pos ahead before) kept
          (fun segment member _ _ regular => sums.encodes wellFormed kept.2 member regular) before positive)
        ⟨valid, hold⟩ (Nat.le_refl _) (by omega) (by simpa using enough)
    simp only [if_neg finished]
    revert filled
    generalize fill (readStep pointerBits feature fuel os archive reader.endPos) .exhausted capacity reader.endPos
      archive.totalSize fuel { files := reader.fileHandleCache, scratch := reader.scratch, world }
      reader.currentPos [] = outcome
    match outcome with
    | (.error reason, progress) => exact fun failed => ⟨failed.1, rfl, rfl, failed.2⟩
    | (.ok (bytes, next), progress) =>
        intro filled
        obtain ⟨⟨keptFiles, keptCells⟩, reached, collected⟩ := filled
        simp only [List.length_nil, Nat.sub_zero] at reached
        rw [List.nil_append] at collected
        have inside : next ≤ (archive.reference (crcOf feature paths) (entryContent paths)).length := by
          rw [wellFormed.reference_length _ (wellFormed.entryContent_length keeps)]
          omega
        have length := window_length_of_le reader.currentPos inside
        refine ⟨by rw [← reached]; exact collected, rfl, ?_, keptFiles, keptCells⟩
        rw [collected, length]
        dsimp only
        omega

theorem ZipArchive.WellFormed.read_answers (wellFormed : archive.WellFormed)
    (serves : os.Serves holds paths) (keeps : archive.KeepsSizes paths)
    (hashable : ∀ entry ∈ archive.entries, entry.size < fuel) (endFits : endPos < u64Size)
    {capacity : Nat} (enough : capacity < fuel) {reader : ZipRangeReader × World}
    (standing : Standing feature holds paths archive endPos reader pos) :
    Answers (Standing feature holds paths archive endPos)
      (archive.reference (crcOf feature paths) (entryContent paths)) (min endPos archive.totalSize) pos capacity
      (read 64 feature fuel os archive reader capacity) :=
  (wellFormed.read_responds (serves.falters fun _ => False) keeps (wellFormed.sums serves keeps hashable)
    wellFormed.addressable (fun _ _ before => wellFormed.not_stuck wellFormed.bounded endFits (by omega)) enough
    standing).answers fun _ passes => passes.elim fun _ admitted => admitted.1

/-- Draining a range yields that part of the reference and leaves the checksums good. -/
theorem ZipArchive.WellFormed.streamRange_yields (wellFormed : archive.WellFormed)
    (serves : os.Serves holds paths) (keeps : archive.KeepsSizes paths)
    (hashable : ∀ entry ∈ archive.entries, entry.size < fuel) (start : Nat) {stop : Nat} (stopFits : stop < u64Size)
    {world : World} (hold : CellsHold feature paths archive world.cells) {capacities : List Nat}
    (usable : ∀ capacity ∈ capacities, 0 < capacity ∧ capacity < fuel) :
    let drained := drain (read 64 feature fuel os archive) (ZipArchive.streamRange start stop, world) capacities
    drained.1.Yields (window (archive.reference (crcOf feature paths) (entryContent paths))
        (min start archive.totalSize) (min stop archive.totalSize)) capacities.length ∧
      CellsHold feature paths archive drained.2.2.cells := by
  intro drained
  have length : (archive.reference (crcOf feature paths) (entryContent paths)).length = archive.totalSize :=
    wellFormed.reference_length _ (wellFormed.entryContent_length keeps)
  have standing : Standing feature holds paths archive stop (ZipArchive.streamRange start stop, world) start :=
    ⟨rfl, rfl, FileHandleCache.new_valid, hold⟩
  obtain ⟨yields, final, stands⟩ := drain_yields (Standing feature holds paths archive stop)
    (fun capacity => 0 < capacity ∧ capacity < fuel) (fun capacity usable => usable.1)
    (show min stop archive.totalSize ≤ _ by rw [length]; exact Nat.min_le_right _ _)
    (fun reader position capacity standing usable =>
      wellFormed.read_answers serves keeps hashable stopFits usable.2 standing)
    usable standing
  refine ⟨?_, stands.2.2.2⟩
  rw [← window_clip, length, Nat.min_assoc, Nat.min_self] at yields
  exact yields

theorem ZipArchive.WellFormed.stream_complete (wellFormed : archive.WellFormed)
    (serves : os.Serves holds paths) (keeps : archive.KeepsSizes paths)
    (hashable : ∀ entry ∈ archive.entries, entry.size < fuel) {world : World}
    (hold : CellsHold feature paths archive world.cells) {capacities : List Nat}
    (usable : ∀ capacity ∈ capacities, 0 < capacity ∧ capacity < fuel)
    (enough : archive.totalSize < capacities.length) :
    (drain (read 64 feature fuel os archive) (ZipArchive.streamRange 0 archive.totalSize, world) capacities).1 =
      .ended (archive.reference (crcOf feature paths) (entryContent paths)) := by
  have yields := (wellFormed.streamRange_yields serves keeps hashable 0 wellFormed.bounded hold usable).1
  have total := wellFormed.reference_length (crcOf feature paths) (wellFormed.entryContent_length keeps)
  have whole := window_all (archive.reference (crcOf feature paths) (entryContent paths))
  rw [total] at whole
  rw [Nat.zero_min, Nat.min_self, whole] at yields
  exact yields.ended (by rw [total]; exact enough)

end Read

/-- A range of a zip archive reads as that range of the reference, for every
sequence of buffers and every pattern of short reads, with checksums compiled in
or not: no call fails, no slice leaves its buffer, and no source path is missing. -/
theorem zip_range_reads_reference {scanned : List ScannedEntry}
    (fits : (ZipArchive.createFrom scanned).extent < u64Size) {feature : CrcFeature} {os : Files}
    {paths : Path → Option Bytes} (unchanged : os.Unchanged paths)
    (keeps : (ZipArchive.createFrom scanned).KeepsSizes paths) :
    let archive := ZipArchive.createFrom scanned
    let reference := archive.reference (crcOf feature paths) (entryContent paths)
    reference.length = archive.totalSize ∧
    ∀ (start stop : UInt64) (world : World) (fuel : Nat) (capacities : List Nat),
      CellsHold feature paths archive world.cells →
      (∀ entry ∈ archive.entries, entry.size < fuel) →
      (∀ capacity ∈ capacities, 0 < capacity ∧ capacity < fuel) →
      let range := window reference (min start.toNat archive.totalSize) (min stop.toNat archive.totalSize)
      let drained := (drain (read 64 feature fuel os archive)
        (ZipArchive.streamRange start.toNat stop.toNat, world) capacities).1
      drained.Yields range capacities.length ∧
        (range.length < capacities.length → drained = .ended range) := by
  intro archive reference
  obtain ⟨wellFormed, _⟩ := ZipArchive.createFrom_wellFormed fits
  obtain ⟨holds, serves⟩ := unchanged
  refine ⟨wellFormed.reference_length _ (wellFormed.entryContent_length keeps), ?_⟩
  intro start stop world fuel capacities hold hashable usable range drained
  have yields := (wellFormed.streamRange_yields serves keeps hashable start.toNat stop.toNat_lt hold usable).1
  exact ⟨yields, yields.ended⟩

/-- What `{:?}` does not escape in ASCII. -/
def asciiPlain (char : Char) : Bool :=
  decide (32 ≤ char.toNat ∧ char.toNat < 127 ∧ char.toNat ≠ 34 ∧ char.toNat ≠ 92)

/-- CRC-32 as the one small file has it. -/
def smallFeature : CrcFeature where
  enabled := true
  checksum := fun _ => 0x352441C2
  plain := asciiPlain

theorem smallZip_fits : (ZipArchive.createFrom smallScan).extent < u64Size := by decide +kernel

theorem smallZip_keeps : (ZipArchive.createFrom smallScan).KeepsSizes (Files.contentOf smallFiles) := by decide +kernel

theorem smallZip_hashable : ∀ entry ∈ (ZipArchive.createFrom smallScan).entries, entry.size < 8 := by decide +kernel

theorem zip_range_reads_reference_small :
    (drain (read 64 smallFeature 8 (Files.memory smallFiles 2) (ZipArchive.createFrom smallScan))
        (ZipArchive.streamRange 60 90, { cells := fun _ => none, now := 0 }) (List.replicate 31 7)).1 =
      .ended (window ((ZipArchive.createFrom smallScan).reference
        (crcOf smallFeature (Files.contentOf smallFiles)) (entryContent (Files.contentOf smallFiles))) 60 90) := by
  have unchanged : (Files.memory smallFiles 2).Unchanged (Files.contentOf smallFiles) :=
    Files.memory_unchanged smallFiles (by decide)
  have usable : ∀ capacity ∈ List.replicate 31 7, 0 < capacity ∧ capacity < 8 :=
    List.forall_mem_replicate.mpr (.inr (by decide))
  have hold : CellsHold smallFeature (Files.contentOf smallFiles) (ZipArchive.createFrom smallScan) fun _ => none :=
    cellsHold_fresh
  have reads := (zip_range_reads_reference smallZip_fits unchanged smallZip_keeps).2 60 90
    { cells := fun _ => none, now := 0 } 8 (List.replicate 31 7) hold smallZip_hashable usable
  have upper : min (90 : UInt64).toNat (ZipArchive.createFrom smallScan).totalSize = 90 := by decide +kernel
  have lower : min (60 : UInt64).toNat (ZipArchive.createFrom smallScan).totalSize = 60 := by decide +kernel
  rw [upper, lower] at reads
  apply reads.2
  rw [window_length, List.length_replicate]
  omega

end Raas.Zip
