import Raas.Archive.Zip.Announced
import Raas.Data.Searching

namespace Raas.Zip

open Data

/-! The segment table, its binary search, and the buffer that the writers fill. -/

/-- What a `write_*` function leaves: its answer and the buffer, the checksum cells and the clock. -/
abbrev Filled := Except (Fault IoError) Unit × Bytes × CrcCells × Nat

/-- A writer that asks for the checksum first: without one it leaves the buffer alone. -/
def writeSummed (write : ZipEntry → Nat → Bytes → Bytes) (feature : CrcFeature) (fuel : Nat) (os : Files)
    (cells : CrcCells) (now index : Nat) (entry : ZipEntry) (buf : Bytes) : Filled :=
  match entryCrc feature fuel os cells now index entry with
  | (.error reason, after) => (.error reason, buf, after)
  | (.ok crc, after) => (.ok (), write entry crc buf, after)

/-- `write_local_header`, checksum and all. -/
def writeLocalHeaderTo := writeSummed writeLocalHeader

/-- `write_central_entry`, checksum and all. -/
def writeCentralEntryTo := writeSummed writeCentralEntry

/-- `write_segment_into` with the buffer that it is handed. -/
def writeSegmentTo (feature : CrcFeature) (fuel : Nat) (os : Files) (archive : ZipArchive) (kind : SegmentKind)
    (cells : CrcCells) (now : Nat) (buf : Bytes) : Filled :=
  -- `buf.clear()`
  let buf := buf.take 0
  match kind with
  | .localHeader index =>
      match archive.entries[index]? with
      | none => (.error (.panic "index out of bounds"), buf, cells, now)
      | some entry => writeLocalHeaderTo feature fuel os cells now index entry buf
  | .centralEntry index =>
      match archive.entries[index]? with
      | none => (.error (.panic "index out of bounds"), buf, cells, now)
      | some entry => writeCentralEntryTo feature fuel os cells now index entry buf
  | .zip64Eocd => (.ok (), writeZip64Eocd archive buf, cells, now)
  | .zip64Locator => (.ok (), writeZip64Locator archive buf, cells, now)
  | .eocd => (.ok (), writeEocd archive buf, cells, now)
  | .data _ => (.error (.error { kind := .invalidInput, message := "数据区间应按流式方式读取" }), buf, cells, now)

/-- `find_segment` over the partition-point search that it calls. -/
def findSegmentBy (search : (Segment → Bool) → List Segment → Nat) (archive : ZipArchive) (pos : Nat) : Option Nat :=
  let index := search (fun segment => decide (segment.start ≤ pos)) archive.segments
  if index = 0 then none
  else
    match archive.segments[index - 1]? with
    | some segment => if pos < wrappingAdd segment.start segment.len then some (index - 1) else none
    | none => none

theorem findSegmentBy_partitionPoint : findSegmentBy partitionPoint = findSegment := rfl

section Buffer

variable {feature : CrcFeature} {fuel : Nat} {os : Files} {archive : ZipArchive} {cells after : CrcCells}
  {now later : Nat}

/-- The answer of `write_segment_into` and what is then in the buffer. -/
def filledBy : Except (Fault IoError) Bytes × CrcCells × Nat → Filled
  | (.error reason, after) => (.error reason, [], after)
  | (.ok image, after) => (.ok (), image, after)

theorem writeSummed_filled (write : ZipEntry → Nat → Bytes → Bytes) (index : Nat) (entry : ZipEntry) :
    writeSummed write feature fuel os cells now index entry [] =
      filledBy ((entryCrc feature fuel os cells now index entry).1.map fun crc => write entry crc [],
        (entryCrc feature fuel os cells now index entry).2) := by
  unfold writeSummed
  rcases entryCrc feature fuel os cells now index entry with ⟨result, after⟩
  cases result <;> rfl

/-- Whatever the buffer held, it ends up with the image of the segment, or empty after an error. -/
theorem writeSegmentTo_filled (kind : SegmentKind) (buf : Bytes) :
    writeSegmentTo feature fuel os archive kind cells now buf =
      filledBy (writeSegmentInto feature fuel os archive kind cells now) := by
  unfold writeSegmentTo writeSegmentInto
  rw [List.take_zero]
  cases kind with
  | localHeader index =>
      cases found : archive.entries[index]? with
      | none => simp only [found, filledBy]
      | some entry =>
          simp only [found]
          exact writeSummed_filled writeLocalHeader index entry
  | centralEntry index =>
      cases found : archive.entries[index]? with
      | none => simp only [found, filledBy]
      | some entry =>
          simp only [found]
          exact writeSummed_filled writeCentralEntry index entry
  | zip64Eocd => rfl
  | zip64Locator => rfl
  | eocd => rfl
  | data index => rfl

theorem WritesHeader.image {kind : SegmentKind} {index : Nat} {entry : ZipEntry} {write : Nat → Bytes} {image : Bytes}
    (writes : WritesHeader feature archive kind index entry write)
    (written : writeSegmentInto feature fuel os archive kind cells now = (.ok image, after, later)) :
    ∃ crc, image = write crc := by
  rw [writes, Prod.mk.injEq] at written
  cases result : (entryCrc feature fuel os cells now index entry).1 with
  | error fault => simp [result, Except.map] at written
  | ok crc =>
      rw [result] at written
      exact ⟨crc, (Except.ok.inj written.1).symm⟩

/-- What `write_segment_into` encodes has the length that the table gives for the segment, so
that the debug assertions of the two header writers never fire. -/
theorem ZipArchive.WellFormed.writeSegmentInto_length (wellFormed : archive.WellFormed) {segment : Segment}
    (member : segment ∈ archive.segments) {image : Bytes}
    (written : writeSegmentInto feature fuel os archive segment.kind cells now = (.ok image, after, later)) :
    image.length = segment.len := by
  have backed := wellFormed.segments_backed segment member
  obtain ⟨start, len, kind⟩ := segment
  cases kind with
  | localHeader index =>
      obtain ⟨entry, found, length⟩ := backed
      obtain ⟨crc, rfl⟩ := (writesHeader_local found).image written
      rw [writeLocalHeader_length, List.length_nil, Nat.zero_add]
      exact (wellFormed.localLengths entry (List.mem_of_getElem? found)).symm.trans length.symm
  | centralEntry index =>
      obtain ⟨entry, found, length⟩ := backed
      obtain ⟨crc, rfl⟩ := (writesHeader_central found).image written
      rw [writeCentralEntry_length, List.length_nil, Nat.zero_add]
      exact (wellFormed.centralLengths entry (List.mem_of_getElem? found)).symm.trans length.symm
  | zip64Eocd =>
      obtain rfl : writeZip64Eocd archive [] = image := Except.ok.inj (Prod.mk.inj written).1
      rw [writeZip64Eocd_length, List.length_nil, Nat.zero_add]
      exact backed.symm
  | zip64Locator =>
      obtain rfl : writeZip64Locator archive [] = image := Except.ok.inj (Prod.mk.inj written).1
      rw [writeZip64Locator_length, List.length_nil, Nat.zero_add]
      exact backed.symm
  | eocd =>
      obtain rfl : writeEocd archive [] = image := Except.ok.inj (Prod.mk.inj written).1
      rw [writeEocd_length, List.length_nil, Nat.zero_add]
      exact backed.symm
  | data index => cases written

theorem ZipArchive.WellFormed.writeSegmentTo_length (wellFormed : archive.WellFormed) {segment : Segment}
    (member : segment ∈ archive.segments) {buf left : Bytes}
    (written : writeSegmentTo feature fuel os archive segment.kind cells now buf = (.ok (), left, after, later)) :
    left.length = segment.len := by
  rw [writeSegmentTo_filled] at written
  rcases answer : writeSegmentInto feature fuel os archive segment.kind cells now with ⟨result, rest⟩
  rw [answer] at written
  cases result with
  | error reason => cases written
  | ok image =>
      cases written
      exact wellFormed.writeSegmentInto_length member answer

end Buffer

section Table

variable {archive : ZipArchive}

theorem ZipArchive.WellFormed.findSegmentBy_eq (wellFormed : archive.WellFormed)
    {search : (Segment → Bool) → List Segment → Nat} (searches : PartitionSearch search) (pos : Nat) :
    findSegmentBy search archive pos = findSegment archive pos := by
  rw [← findSegmentBy_partitionPoint]
  unfold findSegmentBy
  rw [wellFormed.segments_tile.search_eq searches]

theorem ZipArchive.WellFormed.segments_first (wellFormed : archive.WellFormed) :
    (archive.segments.head?).map Segment.start = some 0 := by
  have tiles := wellFormed.segments_tile
  have ending := wellFormed.ending
  simp only [eocdFixed] at ending
  generalize archive.totalSize = total at tiles ending
  generalize archive.segments = segments at tiles ⊢
  cases tiles with
  | nil => omega
  | cons starts _ _ => exact congrArg some starts

theorem ZipArchive.WellFormed.findSegment_beyond (wellFormed : archive.WellFormed) {pos : Nat}
    (past : archive.totalSize ≤ pos) : findSegment archive pos = none := by
  cases located : findSegment archive pos with
  | none => rfl
  | some index =>
      obtain ⟨segment, found, _, upper⟩ := findSegment_covers located
      have bounds := wellFormed.segments_tile.base_le_start segment (List.mem_of_getElem? found)
      omega

end Table

/-- A table of segments that leaves no gap between the first byte of the archive and the
last, writers that fill each segment to its end, and a search that finds the one segment
at a position. -/
structure ZipArchive.LaidOut (archive : ZipArchive) : Prop where
  nonempty : ∀ segment ∈ archive.segments, 0 < segment.len
  first : (archive.segments.head?).map Segment.start = some 0
  next : ∀ (index : Nat) (segment : Segment), archive.segments[index]? = some segment →
    segment.start + segment.len = (archive.segments[index + 1]?).elim archive.totalSize Segment.start
  filled : ∀ segment ∈ archive.segments, (∀ index, segment.kind ≠ .data index) →
    ∀ (feature : CrcFeature) (fuel : Nat) (os : Files) (cells after : CrcCells) (now later : Nat) (buf left : Bytes),
      writeSegmentTo feature fuel os archive segment.kind cells now buf = (.ok (), left, after, later) →
      left.length = segment.len
  found : ∀ pos : UInt64, pos.toNat < archive.totalSize → ∃ index segment,
    findSegment archive pos.toNat = some index ∧ archive.segments[index]? = some segment ∧
      segment.Covers pos.toNat ∧ ∀ (other : Nat) (place : Segment), archive.segments[other]? = some place →
        place.Covers pos.toNat → other = index
  beyond : ∀ pos : UInt64, archive.totalSize ≤ pos.toNat → findSegment archive pos.toNat = none
  searched : ∀ (search : (Segment → Bool) → List Segment → Nat), PartitionSearch search →
    ∀ pos : UInt64, findSegmentBy search archive pos.toNat = findSegment archive pos.toNat

/-- The segments that `create` lists tile the archive, whatever names and sizes the scan
found, as long as the archive has fewer than 2^64 bytes. -/
theorem segments_tile_archive {scanned : List ScannedEntry}
    (fits : (ZipArchive.createFrom scanned).extent < u64Size) : (ZipArchive.createFrom scanned).LaidOut := by
  obtain ⟨wellFormed, _⟩ := ZipArchive.createFrom_wellFormed fits
  have tiles := wellFormed.segments_tile
  refine ⟨?_, wellFormed.segments_first, ?_, ?_, ?_, ?_, ?_⟩
  · exact tiles.nonempty
  · intro index segment found
    exact tiles.next found
  · intro segment member _ feature fuel os cells after now later buf left written
    exact wellFormed.writeSegmentTo_length member written
  · intro pos inside
    obtain ⟨index, segment, located, found, lower, upper⟩ := wellFormed.findSegment_finds inside
    refine ⟨index, segment, located, found, ⟨lower, upper⟩, ?_⟩
    intro other place placed covers
    exact tiles.unique placed found covers.1 covers.2 lower upper
  · intro pos past
    exact wellFormed.findSegment_beyond past
  · intro search searches pos
    exact wellFormed.findSegmentBy_eq searches pos.toNat

theorem segments_tile_archive_small : (ZipArchive.createFrom smallScan).LaidOut :=
  segments_tile_archive smallZip_fits

end Raas.Zip
