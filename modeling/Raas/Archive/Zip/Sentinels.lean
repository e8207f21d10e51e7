import Mathlib.Algebra.Order.BigOperators.Group.List
import Raas.Archive.Zip.Roundtrip

namespace Raas.Zip

open Data

/-! The narrow fields of the emitted archive and the Zip64 values that stand in
for them. -/

/-- A narrow field holds the exact value, which is not all ones, or it is all ones
and the exact value is in the wide field. -/
def Narrowed (width exact narrow : Nat) (wide : Option Nat) : Prop :=
  (narrow = exact ∧ exact ≠ 256 ^ width - 1) ∨ (narrow = 256 ^ width - 1 ∧ wide = some exact)

/-- The four-byte fields of a header, each with its exact value, beside the data of
its Zip64 extra field: the fields that are all ones have their exact values in it, in
order, and it holds nothing else. -/
def Extended : List (Nat × Nat) → Bytes → Prop
  | [], data => data = []
  | (narrow, exact) :: fields, data =>
      (narrow = exact ∧ exact ≠ u32Max ∧ Extended fields data) ∨
        (narrow = u32Max ∧ ∃ rest, takeLe 8 data = some (exact, rest) ∧ Extended fields rest)

/-- The extra field is there exactly if one of the fields is all ones. -/
def HeaderSentinels (fields : List (Nat × Nat)) (extra : Option Bytes) : Prop :=
  Extended fields (extra.getD []) ∧ (extra.isSome = true ↔ ∃ field ∈ fields, field.1 = u32Max)

/-- The Zip64 extra field of a header with a fixed part of `fixed` bytes, by the
lengths of its name and its extra fields, which stand at `lengths`. -/
def zip64Extra (bytes : Bytes) (fixed lengths : Nat) : Option Bytes :=
  let extra := (bytes.drop (fixed + fieldAt bytes lengths 2)).take (fieldAt bytes (lengths + 2) 2)
  findExtra 0x0001 extra.length extra

def LocalSentinels (bytes : Bytes) (size : Nat) : Prop :=
  fieldAt bytes 0 4 = signatureLocal ∧
    HeaderSentinels [(fieldAt bytes 22 4, size), (fieldAt bytes 18 4, size)] (zip64Extra bytes localHeaderFixed 26)

def CentralSentinels (bytes : Bytes) (size localOffset : Nat) : Prop :=
  fieldAt bytes 0 4 = signatureCentral ∧
    HeaderSentinels [(fieldAt bytes 24 4, size), (fieldAt bytes 20 4, size), (fieldAt bytes 42 4, localOffset)]
      (zip64Extra bytes centralEntryFixed 28)

/-- Where the segment table places the Zip64 end record, if it has one. -/
def ZipArchive.zip64End (archive : ZipArchive) : Option Nat :=
  (archive.segments.find? fun segment => decide (segment.kind = .zip64Eocd)).map Segment.start

/-- The end record at `eocd` and the Zip64 end record, if there is one, for `count`
entries and a directory of `size` bytes at `offset`. -/
structure EndSentinels (bytes : Bytes) (eocd : Nat) (zip64End : Option Nat) (count size offset : Nat) : Prop where
  signature : fieldAt bytes eocd 4 = signatureEocd
  entriesHere : Narrowed 2 count (fieldAt bytes (eocd + 8) 2) (zip64End.map fun start => fieldAt bytes (start + 24) 8)
  entries : Narrowed 2 count (fieldAt bytes (eocd + 10) 2) (zip64End.map fun start => fieldAt bytes (start + 32) 8)
  directorySize : Narrowed 4 size (fieldAt bytes (eocd + 12) 4) (zip64End.map fun start => fieldAt bytes (start + 40) 8)
  directoryOffset :
    Narrowed 4 offset (fieldAt bytes (eocd + 16) 4) (zip64End.map fun start => fieldAt bytes (start + 48) 8)
  present : zip64End.isSome = true ↔
    fieldAt bytes (eocd + 8) 2 = u16Max ∨ fieldAt bytes (eocd + 10) 2 = u16Max ∨
      fieldAt bytes (eocd + 12) 4 = u32Max ∨ fieldAt bytes (eocd + 16) 4 = u32Max
  record : ∀ start, zip64End = some start → fieldAt bytes start 4 = signatureZip64Eocd ∧
    fieldAt bytes (eocd - 20) 4 = signatureZip64Locator ∧ fieldAt bytes (eocd - 12) 8 = start
  adjacent : zip64End = none → eocd = offset + size

/-- The whole discipline, for the byte string that an archive is streamed as. -/
structure ZipArchive.Sentinels (archive : ZipArchive) (bytes : Bytes) : Prop where
  locals : ∀ entry ∈ archive.entries, LocalSentinels (bytes.drop entry.localOffset) entry.size
  centrals : ∀ entry ∈ archive.entries,
    CentralSentinels (bytes.drop entry.centralOffset) entry.size entry.localOffset
  ends : EndSentinels bytes (bytes.length - eocdFixed) archive.zip64End archive.entries.length
    (archive.entries.map ZipEntry.centralLen).sum (archive.entries.map ZipEntry.localSpan).sum

section Headers

def narrowed (value : Nat) : Nat := if u32Max ≤ value then u32Max else value

def wides (values : List Nat) : Bytes :=
  values.flatMap fun value => if u32Max ≤ value then leBytes 8 value else []

theorem narrowed_fits (value : Nat) : narrowed value < 256 ^ 4 := by
  unfold narrowed u32Max
  split <;> omega

theorem narrowed_saturated (value : Nat) : narrowed value = u32Max ↔ u32Max ≤ value := by
  unfold narrowed
  split <;> omega

theorem extended_wides {values : List Nat} (fit : ∀ value ∈ values, value < u64Size) :
    Extended (values.map fun value => (narrowed value, value)) (wides values) := by
  induction values with
  | nil => rfl
  | cons value values ih =>
      have later := ih fun other member => fit other (List.mem_cons_of_mem _ member)
      rw [wides] at later ⊢
      rw [List.map_cons, List.flatMap_cons, narrowed]
      by_cases wide : u32Max ≤ value
      · rw [if_pos wide, if_pos wide]
        exact .inr ⟨rfl, _, takeLe_leBytes (fit value List.mem_cons_self) _, later⟩
      · rw [if_neg wide, if_neg wide, List.nil_append]
        exact .inl ⟨rfl, by omega, later⟩

theorem wides_eq_nil (values : List Nat) : wides values = [] ↔ ∀ value ∈ values, value < u32Max := by
  unfold wides
  rw [List.flatMap_eq_nil_iff]
  refine forall_congr' fun value => imp_congr_right fun _ => ?_
  by_cases wide : u32Max ≤ value
  · rw [if_pos wide]
    simp only [leBytes, List.cons_ne_nil, false_iff, Nat.not_lt]
    exact wide
  · rw [if_neg wide]
    simp only [true_iff]
    omega

theorem wides_length_le (values : List Nat) : (wides values).length ≤ 8 * values.length := by
  induction values with
  | nil => exact Nat.le_refl _
  | cons value values ih =>
      rw [wides] at ih ⊢
      rw [List.flatMap_cons, List.length_append, List.length_cons]
      split
      · rw [leBytes_length]
        omega
      · rw [List.length_nil]
        omega

/-- The Zip64 extra field with these data, none if there are no data. -/
def extraOf (data : Bytes) : Bytes :=
  if data.isEmpty then [] else leBytes 2 0x0001 ++ leBytes 2 data.length ++ data

theorem findExtra_extraOf {data : Bytes} (fits : data.length < 65536) :
    findExtra 0x0001 (extraOf data).length (extraOf data) = if data.isEmpty then none else some data := by
  cases data with
  | nil => rfl
  | cons first rest =>
      have found := findExtra_first (show 0x0001 < 65536 by decide) (first :: rest) [] fits
        (show 0 < (extraOf (first :: rest)).length by
          simp only [extraOf, List.isEmpty_cons, Bool.false_eq_true, if_false, List.length_append, leBytes_length]
          omega)
      rw [List.append_nil] at found
      exact found

theorem headerSentinels_narrowed {values : List Nat} (fit : ∀ value ∈ values, value < u64Size)
    (few : 8 * values.length < 65536) :
    HeaderSentinels (values.map fun value => (narrowed value, value))
      (findExtra 0x0001 (extraOf (wides values)).length (extraOf (wides values))) := by
  have extended := extended_wides fit
  rw [findExtra_extraOf (Nat.lt_of_le_of_lt (wides_length_le values) few)]
  constructor
  · cases data : wides values with
    | nil =>
        rw [data] at extended
        exact extended
    | cons first rest =>
        rw [data] at extended
        exact extended
  · simp only [List.mem_map, exists_exists_and_eq_and, narrowed_saturated]
    cases data : wides values with
    | nil =>
        have small := (wides_eq_nil values).mp data
        simp only [List.isEmpty_nil, if_true, Option.isSome_none, Bool.false_eq_true, false_iff]
        intro widened
        obtain ⟨value, member, wide⟩ := widened
        have bound := small value member
        omega
    | cons first rest =>
        simp only [List.isEmpty_cons, Bool.false_eq_true, if_false, Option.isSome_some, true_iff]
        by_contra none
        have empty : wides values = [] := (wides_eq_nil values).mpr fun value member => by
          by_contra large
          exact none ⟨value, member, by omega⟩
        rw [data] at empty
        cases empty

variable {entry : ZipEntry}

theorem ZipEntry.Encodable.large_eq (encodable : entry.Encodable) :
    entry.large = decide (u32Max ≤ entry.size) := by
  cases directory : entry.isDir with
  | true =>
      rw [ZipEntry.large, directory, encodable.directory directory]
      rfl
  | false => rw [ZipEntry.large, directory, Bool.not_false, Bool.true_and]

theorem ZipEntry.Encodable.sizeField_eq (encodable : entry.Encodable) :
    sizeField entry.large entry.size = narrowed entry.size := by
  rw [sizeField, encodable.large_eq, narrowed]
  simp only [decide_eq_true_eq]

theorem ZipEntry.Encodable.wideSizes_eq (encodable : entry.Encodable) :
    wideSizes entry = wides [entry.size, entry.size] := by
  rw [wideSizes, encodable.large_eq, wides]
  by_cases wide : u32Max ≤ entry.size
  · simp only [wide, decide_true, if_true, List.flatMap_cons, List.flatMap_nil, List.append_nil]
  · simp only [wide, decide_false, Bool.false_eq_true, if_false, List.flatMap_cons, List.flatMap_nil,
      List.append_nil]

theorem ZipEntry.Encodable.localExtra_eq (encodable : entry.Encodable) :
    localExtra entry = extraOf (wides [entry.size, entry.size]) := by
  rw [← encodable.wideSizes_eq, localExtra, wideSizes, encodable.localZip64]
  cases entry.large with
  | false => rfl
  | true =>
      simp only [if_true, extraOf, leBytes, List.cons_append, List.isEmpty_cons, Bool.false_eq_true, if_false,
        List.length_cons, List.length_append, List.length_nil]
      rfl

theorem ZipEntry.Encodable.centralExtra_eq (encodable : entry.Encodable) :
    centralExtra entry = extraOf (wides [entry.size, entry.size, entry.localOffset]) := by
  have data : centralExtraData entry = wides [entry.size, entry.size, entry.localOffset] := by
    have sizes := encodable.wideSizes_eq
    rw [wideSizes] at sizes
    rw [centralExtraData, encodable.centralSizeZip64, sizes, encodable.centralOffsetZip64]
    simp only [wides, decide_eq_true_eq, List.flatMap_cons, List.flatMap_nil, List.append_nil, List.append_assoc]
  rw [centralExtra, extraOf, data]

theorem zip64Extra_eq {bytes front name extra rest : Bytes} {fixed lengths : Nat}
    (image : bytes = front ++ (name ++ (extra ++ rest))) (length : front.length = fixed)
    (nameLength : fieldAt bytes lengths 2 = name.length) (extraLength : fieldAt bytes (lengths + 2) 2 = extra.length) :
    zip64Extra bytes fixed lengths = findExtra 0x0001 extra.length extra := by
  have placed : bytes.drop (fixed + name.length) = extra ++ rest := by
    rw [image, ← List.drop_drop, List.drop_left' length, List.drop_left]
  rw [zip64Extra, nameLength, extraLength, placed, List.take_left]

theorem ZipEntry.Encodable.localSentinels (encodable : entry.Encodable) (crc : Nat) (rest : Bytes) :
    LocalSentinels (writeLocalHeader entry crc [] ++ rest) entry.size := by
  have image : writeLocalHeader entry crc [] ++ rest =
      leFields (localFields entry crc) ++ (entry.nameBytes ++ (localExtra entry ++ rest)) := by
    rw [writeLocalHeader_eq, List.append_assoc, List.append_assoc]
  have size : sizeField entry.localZip64 entry.size = narrowed entry.size := by
    rw [encodable.localZip64, encodable.sizeField_eq]
  have placed : ∀ {position width value : Nat} (index : Nat), (localWidths.take index).sum = position →
      (localFields entry crc)[index]? = some (width, value) → value < 256 ^ width →
      fieldAt (writeLocalHeader entry crc [] ++ rest) position width = value := by
    intro position width value index stands found fits
    rw [image]
    exact fieldAt_leFields stands found fits _
  have fits : sizeField entry.localZip64 entry.size < 256 ^ 4 := by
    rw [size]
    exact narrowed_fits _
  have signature : fieldAt (writeLocalHeader entry crc [] ++ rest) 0 4 = signatureLocal := placed 0 (by decide) rfl (by decide)
  have compressed : fieldAt (writeLocalHeader entry crc [] ++ rest) 18 4 = _ := placed 7 (by decide) rfl fits
  have uncompressed : fieldAt (writeLocalHeader entry crc [] ++ rest) 22 4 = _ := placed 8 (by decide) rfl fits
  have name : fieldAt (writeLocalHeader entry crc [] ++ rest) 26 2 = _ := placed 9 (by decide) rfl encodable.name
  have extra : fieldAt (writeLocalHeader entry crc [] ++ rest) (26 + 2) 2 = localExtraLen entry :=
    placed 10 (by decide) rfl (localExtraLen_fits entry)
  have values : ∀ value ∈ [entry.size, entry.size], value < u64Size := by
    intro value member
    simp only [List.mem_cons, List.not_mem_nil, or_false, or_self] at member
    subst member
    exact encodable.size
  have length : (leFields (localFields entry crc)).length = localHeaderFixed := rfl
  have field := zip64Extra_eq image length name (extra.trans (localExtra_length entry).symm)
  have law := headerSentinels_narrowed values (show 8 * 2 < 65536 by decide)
  rw [← encodable.localExtra_eq] at law
  refine ⟨signature, ?_⟩
  rw [compressed, uncompressed, size, field]
  exact law

theorem ZipEntry.Encodable.centralSentinels (encodable : entry.Encodable) (crc : Nat) (rest : Bytes) :
    CentralSentinels (writeCentralEntry entry crc [] ++ rest) entry.size entry.localOffset := by
  have image : writeCentralEntry entry crc [] ++ rest =
      leFields (centralFields entry crc) ++ (entry.nameBytes ++ (centralExtra entry ++ rest)) := by
    rw [writeCentralEntry_eq, List.append_assoc, List.append_assoc]
  have size : sizeField entry.centralSizeZip64 entry.size = narrowed entry.size := by
    rw [encodable.centralSizeZip64, encodable.sizeField_eq]
  have offset : centralOffsetField entry = narrowed entry.localOffset := by
    rw [centralOffsetField, encodable.centralOffsetZip64, narrowed]
    simp only [decide_eq_true_eq]
  have placed : ∀ {position width value : Nat} (index : Nat), (centralWidths.take index).sum = position →
      (centralFields entry crc)[index]? = some (width, value) → value < 256 ^ width →
      fieldAt (writeCentralEntry entry crc [] ++ rest) position width = value := by
    intro position width value index stands found fits
    rw [image]
    exact fieldAt_leFields stands found fits _
  have sizeFits : sizeField entry.centralSizeZip64 entry.size < 256 ^ 4 := by
    rw [size]
    exact narrowed_fits _
  have offsetFits : centralOffsetField entry < 256 ^ 4 := by
    rw [offset]
    exact narrowed_fits _
  have extraFits : centralExtraField entry < 256 ^ 2 := by
    rw [centralExtraField_eq]
    exact centralExtraLen_fits entry
  have signature : fieldAt (writeCentralEntry entry crc [] ++ rest) 0 4 = signatureCentral :=
    placed 0 (by decide) rfl (by decide)
  have compressed : fieldAt (writeCentralEntry entry crc [] ++ rest) 20 4 = _ := placed 8 (by decide) rfl sizeFits
  have uncompressed : fieldAt (writeCentralEntry entry crc [] ++ rest) 24 4 = _ := placed 9 (by decide) rfl sizeFits
  have name : fieldAt (writeCentralEntry entry crc [] ++ rest) 28 2 = _ := placed 10 (by decide) rfl encodable.name
  have extra : fieldAt (writeCentralEntry entry crc [] ++ rest) (28 + 2) 2 = _ := placed 11 (by decide) rfl extraFits
  have position : fieldAt (writeCentralEntry entry crc [] ++ rest) 42 4 = _ := placed 16 (by decide) rfl offsetFits
  have values : ∀ value ∈ [entry.size, entry.size, entry.localOffset], value < u64Size := by
    intro value member
    simp only [List.mem_cons, List.not_mem_nil, or_false] at member
    rcases member with rfl | rfl | rfl
    · exact encodable.size
    · exact encodable.size
    · exact encodable.offset
  rw [centralExtraField_eq, ← centralExtra_length] at extra
  have length : (leFields (centralFields entry crc)).length = centralEntryFixed := rfl
  have field := zip64Extra_eq image length name extra
  have law := headerSentinels_narrowed values (show 8 * 3 < 65536 by decide)
  rw [← encodable.centralExtra_eq] at law
  refine ⟨signature, ?_⟩
  rw [compressed, uncompressed, position, size, offset, field]
  exact law

end Headers

section Ends

variable {archive : ZipArchive} {crc : ZipEntry → Nat} {content : ZipEntry → Bytes}

theorem localSegments_kinds {entries : List ZipEntry} {index : Nat} :
    ∀ segment ∈ localSegments index entries, segment.kind ≠ .zip64Eocd := by
  induction entries generalizing index with
  | nil => simp [localSegments]
  | cons entry rest ih =>
      intro segment member
      rw [localSegments, List.mem_cons, List.mem_append] at member
      rcases member with rfl | member | member
      · intro same
        cases same
      · split at member
        · rw [List.mem_singleton] at member
          subst member
          intro same
          cases same
        · simp at member
      · exact ih segment member

theorem centralSegments_kinds {entries : List ZipEntry} {index : Nat} :
    ∀ segment ∈ centralSegments index entries, segment.kind ≠ .zip64Eocd := by
  induction entries generalizing index with
  | nil => simp [centralSegments]
  | cons entry rest ih =>
      intro segment member
      rw [centralSegments, List.mem_cons] at member
      rcases member with rfl | member
      · intro same
        cases same
      · exact ih segment member

theorem ZipArchive.WellFormed.zip64End_eq (wellFormed : archive.WellFormed) :
    archive.zip64End = if archive.needsZip64 then some archive.zip64EocdOffset else none := by
  have front : (localSegments 0 archive.entries).find? (fun segment => decide (segment.kind = .zip64Eocd)) = none := by
    rw [List.find?_eq_none]
    intro segment member
    simp only [localSegments_kinds segment member, decide_false, Bool.false_eq_true, not_false_eq_true]
  have middle :
      (centralSegments 0 archive.entries).find? (fun segment => decide (segment.kind = .zip64Eocd)) = none := by
    rw [List.find?_eq_none]
    intro segment member
    simp only [centralSegments_kinds segment member, decide_false, Bool.false_eq_true, not_false_eq_true]
  rw [zip64End, wellFormed.table, List.find?_append, List.find?_append, front, middle, Option.none_or,
    Option.none_or, endSegments]
  cases archive.needsZip64 <;> rfl

theorem narrowed_min {width exact : Nat} {wide : Option Nat}
    (known : exact < 256 ^ width - 1 ∨ wide = some exact) :
    Narrowed width exact (min exact (256 ^ width - 1)) wide := by
  by_cases small : exact < 256 ^ width - 1
  · exact .inl ⟨Nat.min_eq_left (Nat.le_of_lt small), Nat.ne_of_lt small⟩
  · have present := known.resolve_left small
    exact .inr ⟨Nat.min_eq_right (Nat.le_of_not_lt small), present⟩

theorem ZipArchive.WellFormed.eocd_field (wellFormed : archive.WellFormed) (crc : ZipEntry → Nat)
    (sizes : ∀ entry ∈ archive.entries, (content entry).length = entry.size) {position width value : Nat}
    (index : Nat) (stands : (eocdWidths.take index).sum = position)
    (found : (eocdFields archive)[index]? = some (width, value)) (fits : value < 256 ^ width) :
    fieldAt (archive.reference crc content) (archive.zip64EocdOffset + archive.zip64Length + position) width =
      value := by
  have field := fieldAt_leFields stands found fits []
  rw [List.append_nil, ← writeEocd_eq] at field
  rw [fieldAt_drop, wellFormed.drop_eocd crc sizes, field]

theorem ZipArchive.WellFormed.zip64Eocd_field (wellFormed : archive.WellFormed) (crc : ZipEntry → Nat)
    (sizes : ∀ entry ∈ archive.entries, (content entry).length = entry.size) (zip64 : archive.needsZip64 = true)
    {position width value : Nat} (index : Nat) (stands : (zip64EocdWidths.take index).sum = position)
    (found : (zip64EocdFields archive)[index]? = some (width, value)) (fits : value < 256 ^ width) :
    fieldAt (archive.reference crc content) (archive.zip64EocdOffset + position) width = value := by
  have field := fieldAt_leFields stands found fits (writeZip64Locator archive [] ++ writeEocd archive [])
  rw [← writeZip64Eocd_eq] at field
  rw [fieldAt_drop, (wellFormed.drop_zip64 crc sizes zip64).1, field]

theorem ZipArchive.WellFormed.zip64Locator_field (wellFormed : archive.WellFormed) (crc : ZipEntry → Nat)
    (sizes : ∀ entry ∈ archive.entries, (content entry).length = entry.size) (zip64 : archive.needsZip64 = true)
    {position width value : Nat} (index : Nat) (stands : (zip64LocatorWidths.take index).sum = position)
    (found : (zip64LocatorFields archive)[index]? = some (width, value)) (fits : value < 256 ^ width) :
    fieldAt (archive.reference crc content) (archive.zip64EocdOffset + zip64EocdLen + position) width = value := by
  have field := fieldAt_leFields stands found fits (writeEocd archive [])
  rw [← writeZip64Locator_eq] at field
  rw [fieldAt_drop, (wellFormed.drop_zip64 crc sizes zip64).2, field]

/-- A field of the end record, by what the Zip64 end record holds if it is there. -/
theorem ZipArchive.narrowed_field {bytes : Bytes} {width exact position : Nat}
    (filled : archive.needsZip64 = true → fieldAt bytes (archive.zip64EocdOffset + position) 8 = exact)
    (short : archive.needsZip64 = false → exact < 256 ^ width - 1) :
    Narrowed width exact (min exact (256 ^ width - 1))
      ((if archive.needsZip64 then some archive.zip64EocdOffset else none).map
        fun start => fieldAt bytes (start + position) 8) := by
  apply narrowed_min
  cases zip64 : archive.needsZip64 with
  | true => exact .inr (congrArg some (filled zip64))
  | false => exact .inl (short zip64)

/-- The Zip64 end record begins with its signature, and the locator before the end record points to it. -/
theorem ZipArchive.WellFormed.zip64_record (wellFormed : archive.WellFormed) (crc : ZipEntry → Nat)
    (sizes : ∀ entry ∈ archive.entries, (content entry).length = entry.size) (zip64 : archive.needsZip64 = true)
    (fits : archive.zip64EocdOffset < 256 ^ 8) :
    let eocd := archive.zip64EocdOffset + archive.zip64Length
    fieldAt (archive.reference crc content) archive.zip64EocdOffset 4 = signatureZip64Eocd ∧
      fieldAt (archive.reference crc content) (eocd - 20) 4 = signatureZip64Locator ∧
      fieldAt (archive.reference crc content) (eocd - 12) 8 = archive.zip64EocdOffset := by
  intro eocd
  have length : archive.zip64Length = zip64EocdLen + 20 := by rw [zip64Length, zip64]; rfl
  have first : eocd - 20 = archive.zip64EocdOffset + zip64EocdLen + 0 := by omega
  have third : eocd - 12 = archive.zip64EocdOffset + zip64EocdLen + 8 := by omega
  rw [first, third]
  exact ⟨wellFormed.zip64Eocd_field crc sizes zip64 0 (show _ = 0 by decide) rfl (by decide),
    wellFormed.zip64Locator_field crc sizes zip64 0 (by decide) rfl (by decide),
    wellFormed.zip64Locator_field crc sizes zip64 2 (by decide) rfl fits⟩

/-- The end record says enough unless it says 65535 entries in the short form. -/
theorem ZipArchive.WellFormed.endSentinels_iff (wellFormed : archive.WellFormed) (crc : ZipEntry → Nat)
    (sizes : ∀ entry ∈ archive.entries, (content entry).length = entry.size) :
    EndSentinels (archive.reference crc content) ((archive.reference crc content).length - eocdFixed)
        archive.zip64End archive.entries.length archive.cdSize archive.cdOffset ↔
      archive.entries.length ≠ 65535 ∨ u32Max ≤ archive.cdOffset ∨ u32Max ≤ archive.cdSize := by
  have ending := wellFormed.ending
  have bounded := wellFormed.bounded
  have ordered := wellFormed.directorySize
  have number := wellFormed.locals.length_le
  have stop : (archive.reference crc content).length - eocdFixed = archive.zip64EocdOffset + archive.zip64Length := by
    rw [wellFormed.reference_length crc sizes, ← ending, Nat.add_sub_cancel]
  have count : min archive.entries.length u16Max < 256 ^ 2 := Nat.lt_of_le_of_lt (Nat.min_le_right _ _) (by decide)
  have size : min archive.cdSize u32Max < 256 ^ 4 := Nat.lt_of_le_of_lt (Nat.min_le_right _ _) (by decide)
  have offset : min archive.cdOffset u32Max < 256 ^ 4 := Nat.lt_of_le_of_lt (Nat.min_le_right _ _) (by decide)
  have signature := wellFormed.eocd_field crc sizes 0 (show _ = 0 by decide) rfl (show signatureEocd < 256 ^ 4 by decide)
  have here := wellFormed.eocd_field crc sizes 3 (show _ = 8 by decide) rfl count
  have entries := wellFormed.eocd_field crc sizes 4 (show _ = 10 by decide) rfl count
  have directorySize := wellFormed.eocd_field crc sizes 5 (show _ = 12 by decide) rfl size
  have directoryOffset := wellFormed.eocd_field crc sizes 6 (show _ = 16 by decide) rfl offset
  have needed := archive.needsZip64_iff
  rw [stop, wellFormed.zip64End_eq]
  constructor
  · intro holds
    by_contra failing
    have short : archive.needsZip64 = false := by
      rw [← Bool.not_eq_true, needed]
      simp only [u16Max]
      omega
    have narrow := holds.entriesHere
    rw [here, short] at narrow
    rcases narrow with ⟨_, different⟩ | ⟨_, wide⟩
    · exact failing (.inl different)
    · cases wide
  · intro safe
    have fits : ∀ value ≤ archive.zip64EocdOffset, value < 256 ^ 8 := by
      intro value small
      simp only [u64Size] at bounded
      omega
    have field := @ZipArchive.WellFormed.zip64Eocd_field _ _ wellFormed crc sizes
    simp only [u16Max, u32Max] at needed safe
    have short : archive.needsZip64 = false →
        archive.entries.length < 65535 ∧ archive.cdSize < 4294967295 ∧ archive.cdOffset < 4294967295 := by
      intro zip64
      simp only [zip64, Bool.false_eq_true, false_iff] at needed
      omega
    refine ⟨signature, ?_, ?_, ?_, ?_, ?_, ?_, ?_⟩
    · rw [here]
      exact narrowed_field (fun zip64 => field zip64 6 (by decide) rfl (fits _ (by omega)))
        fun zip64 => (short zip64).1
    · rw [entries]
      exact narrowed_field (fun zip64 => field zip64 7 (by decide) rfl (fits _ (by omega)))
        fun zip64 => (short zip64).1
    · rw [directorySize]
      exact narrowed_field (fun zip64 => field zip64 8 (by decide) rfl (fits _ (by omega)))
        fun zip64 => (short zip64).2.1
    · rw [directoryOffset]
      exact narrowed_field (fun zip64 => field zip64 9 (by decide) rfl (fits _ (by omega)))
        fun zip64 => (short zip64).2.2
    · have present : (if archive.needsZip64 then some archive.zip64EocdOffset else none).isSome = true ↔
          archive.needsZip64 = true := by cases archive.needsZip64 <;> simp
      rw [present, needed, here, entries, directorySize, directoryOffset]
      simp only [u16Max, u32Max]
      omega
    · intro start found
      cases zip64 : archive.needsZip64 with
      | false => simp [zip64] at found
      | true =>
          rw [zip64, if_pos rfl, Option.some.injEq] at found
          subst found
          exact wellFormed.zip64_record crc sizes zip64 (fits _ (Nat.le_refl _))
    · intro absent
      cases zip64 : archive.needsZip64 with
      | true => simp [zip64] at absent
      | false =>
          have length : archive.zip64Length = 0 := by rw [zip64Length, zip64]; rfl
          omega

theorem ZipArchive.WellFormed.drop_central (wellFormed : archive.WellFormed) (crc : ZipEntry → Nat)
    (sizes : ∀ entry ∈ archive.entries, (content entry).length = entry.size) {entry : ZipEntry}
    (member : entry ∈ archive.entries) :
    ∃ rest, (archive.reference crc content).drop entry.centralOffset =
      writeCentralEntry entry (crc entry) [] ++ rest := by
  obtain ⟨front, _⟩ := wellFormed.front_length crc sizes
  have widths : ∀ entry ∈ archive.entries, (writeCentralEntry entry (crc entry) []).length = entry.centralLen := by
    intro entry member
    rw [writeCentralEntry_length, wellFormed.centralLengths entry member, ZipEntry.centralLength, List.length_nil,
      Nat.zero_add]
  have bounds := wellFormed.centrals.base_le_start entry member
  have length := wellFormed.centrals.length_flatMap (fun entry => writeCentralEntry entry (crc entry) []) widths
  obtain ⟨rest, found⟩ := wellFormed.centrals.drop_item widths member
  refine ⟨rest ++ archive.endRecords, ?_⟩
  rw [ZipArchive.reference, List.append_assoc,
    show entry.centralOffset = archive.cdOffset + (entry.centralOffset - archive.cdOffset) by omega,
    ← List.drop_drop, List.drop_left' front, List.drop_append_of_le_length (by omega), found, List.append_assoc]

theorem ZipArchive.WellFormed.sentinels_iff (wellFormed : archive.WellFormed) (crc : ZipEntry → Nat)
    (sizes : ∀ entry ∈ archive.entries, (content entry).length = entry.size)
    (encodable : ∀ entry ∈ archive.entries, entry.Encodable) :
    archive.Sentinels (archive.reference crc content) ↔
      archive.entries.length ≠ 65535 ∨ u32Max ≤ archive.cdOffset ∨ u32Max ≤ archive.cdSize := by
  have ends := wellFormed.endSentinels_iff crc sizes
  have offset := wellFormed.locals.stop_eq
  have ordered := wellFormed.directorySize
  have stop := wellFormed.centrals.stop_eq
  have size : archive.cdSize = (archive.entries.map ZipEntry.centralLen).sum := by omega
  rw [Nat.zero_add] at offset
  constructor
  · intro sentinels
    have last := sentinels.ends
    rw [← offset, ← size] at last
    exact ends.mp last
  · intro safe
    have last := ends.mpr safe
    rw [offset, size] at last
    refine ⟨?_, ?_, last⟩
    · intro entry member
      obtain ⟨rest, placed⟩ := wellFormed.drop_local crc sizes member
      rw [placed, ZipEntry.image, List.append_assoc]
      exact (encodable entry member).localSentinels (crc entry) _
    · intro entry member
      obtain ⟨rest, placed⟩ := wellFormed.drop_central crc sizes member
      rw [placed]
      exact (encodable entry member).centralSentinels (crc entry) _

end Ends

section Inputs

/-- The length of an entry's local header and content without a Zip64 extra field. -/
def shortLocal (item : ScannedEntry) : Nat := localHeaderFixed + item.relativePath.length + item.size

def shortCentral (item : ScannedEntry) : Nat := centralEntryFixed + item.relativePath.length

variable {scanned : List ScannedEntry}

theorem localSpans_short {entries : List ZipEntry} (planned : List.Forall₂ Planned scanned entries)
    (lengths : ∀ entry ∈ entries, entry.localHeaderLen = entry.localLength)
    (small : (entries.map ZipEntry.localSpan).sum < u32Max ∨ (scanned.map shortLocal).sum < u32Max) :
    (entries.map ZipEntry.localSpan).sum = (scanned.map shortLocal).sum := by
  induction planned with
  | nil => rfl
  | @cons item entry scanned entries here _ ih =>
      have header := lengths entry List.mem_cons_self
      have size := here.size
      simp only [List.map_cons, List.sum_cons, ZipEntry.localSpan, shortLocal] at small ⊢
      have few : entry.size < u32Max := by omega
      have short : localExtraLen entry = 0 := by
        have flag : entry.localZip64 = false := by
          rw [here.localZip64, ZipEntry.large, decide_eq_false (by omega), Bool.and_false]
        rw [localExtraLen, flag]
        rfl
      rw [header, ZipEntry.localLength, short, here.nameBytes, size] at small ⊢
      have later := ih (fun other member => lengths other (List.mem_cons_of_mem _ member)) (by omega)
      omega

theorem centralLens_short {entries : List ZipEntry} (planned : List.Forall₂ Planned scanned entries)
    (lengths : ∀ entry ∈ entries, entry.centralLen = entry.centralLength)
    (small : ∀ entry ∈ entries, entry.localOffset + entry.size < u32Max) :
    (entries.map ZipEntry.centralLen).sum = (scanned.map shortCentral).sum := by
  induction planned with
  | nil => rfl
  | @cons item entry scanned entries here _ ih =>
      have bound := small entry List.mem_cons_self
      have sizes : entry.centralSizeZip64 = false := by
        rw [here.centralSizeZip64, ZipEntry.large, decide_eq_false (by omega), Bool.and_false]
      have offset : entry.centralOffsetZip64 = false := by
        rw [here.centralOffsetZip64, decide_eq_false (by omega)]
      have short : centralExtraLen entry = 0 := by
        rw [centralExtraLen, sizes, offset]
        rfl
      have later := ih (fun other member => lengths other (List.mem_cons_of_mem _ member))
        fun other member => small other (List.mem_cons_of_mem _ member)
      rw [List.map_cons, List.sum_cons, List.map_cons, List.sum_cons, later,
        lengths entry List.mem_cons_self, ZipEntry.centralLength, short, here.nameBytes, Nat.add_zero, shortCentral]

theorem ZipArchive.WellFormed.large_iff {archive : ZipArchive} (wellFormed : archive.WellFormed)
    (planned : List.Forall₂ Planned scanned archive.entries) :
    (u32Max ≤ archive.cdOffset ∨ u32Max ≤ archive.cdSize) ↔
      (u32Max ≤ (scanned.map shortLocal).sum ∨ u32Max ≤ (scanned.map shortCentral).sum) := by
  have offset := wellFormed.locals.stop_eq
  have ordered := wellFormed.directorySize
  have stop := wellFormed.centrals.stop_eq
  have front := localSpans_short planned wellFormed.localLengths
  by_cases far : u32Max ≤ archive.cdOffset
  · omega
  · have back := centralLens_short planned wellFormed.centralLengths fun entry member => by
      have bounds := wellFormed.locals.base_le_start entry member
      rw [ZipEntry.localSpan] at bounds
      omega
    omega

/-- The archive of fewer or more than 65535 entries keeps the discipline, and so does one
whose directory starts or stretches beyond four bytes. -/
theorem zip64_sentinels_iff (names : ∀ item ∈ scanned, item.relativePath.length ≤ 65535)
    (fits : (ZipArchive.createFrom scanned).extent < 2 ^ 63) (crc : ZipEntry → Nat) {content : ZipEntry → Bytes}
    (sizes : ∀ entry ∈ (ZipArchive.createFrom scanned).entries, (content entry).length = entry.size) :
    (ZipArchive.createFrom scanned).Sentinels ((ZipArchive.createFrom scanned).reference crc content) ↔
      scanned.length ≠ 65535 ∨ u32Max ≤ (scanned.map shortLocal).sum ∨ u32Max ≤ (scanned.map shortCentral).sum := by
  have small : (ZipArchive.createFrom scanned).extent < u64Size := Nat.lt_trans fits (by decide)
  obtain ⟨wellFormed, _⟩ := ZipArchive.createFrom_wellFormed small
  have planned := ZipArchive.createFrom_planned scanned
  have encodable := wellFormed.encodable planned names
  rw [wellFormed.sentinels_iff crc sizes encodable, wellFormed.large_iff planned, planned.length_eq]

theorem zip64_sentinels_small : (ZipArchive.createFrom smallScan).Sentinels
    ((ZipArchive.createFrom smallScan).reference (fun _ => 0) fun entry => List.replicate entry.size 97) :=
  (zip64_sentinels_iff (by decide) (by decide +kernel) (fun _ => 0) fun _ _ => List.length_replicate).mpr
    (.inl (by decide))

end Inputs

/-- Four letters for each number below 65536, in order. -/
def letters (index : Nat) : Bytes :=
  [4096, 256, 16, 1].map fun place => UInt8.ofNat (97 + index / place % 16)

def emptyFile (name : Bytes) : ScannedEntry where
  relativePath := name
  sourcePath := [47, 115, 47] ++ name
  size := 0
  isDir := false
  mode := 0
  mtime := 0
  dirSize := fun _ => rfl
  modeMasked := Nat.succ_pos _
  mtimeFits := Nat.succ_pos _

/-- A scan of `/s` with 65535 empty files. -/
def fullScan : List ScannedEntry := (List.range 65535).map fun index => emptyFile (letters index)

theorem fullScan_items : ∀ item ∈ fullScan, item.relativePath.length = 4 ∧ item.size = 0 := by
  intro item member
  obtain ⟨index, _, rfl⟩ := List.mem_map.mp member
  exact ⟨rfl, rfl⟩

theorem fullScan_sum {length : ScannedEntry → Nat} {each : Nat} (same : ∀ item ∈ fullScan, length item = each) :
    (fullScan.map length).sum = 65535 * each := by
  rw [List.map_congr_left same, List.map_const', List.sum_replicate_nat, fullScan, List.length_map, List.length_range]

theorem fullScan_extent : (ZipArchive.createFrom fullScan).extent < 2 ^ 63 := by
  have planned := ZipArchive.createFrom_planned fullScan
  have count : (ZipArchive.createFrom fullScan).entries.length = 65535 := by
    rw [← planned.length_eq, fullScan, List.length_map, List.length_range]
  have bounds : ∀ entry ∈ (ZipArchive.createFrom fullScan).entries,
      entry.localLength + entry.size ≤ 54 ∧ entry.centralLength ≤ 78 := by
    intro entry member
    obtain ⟨item, inside, made⟩ := forall₂_mem_right planned member
    obtain ⟨name, size⟩ := fullScan_items item inside
    rw [← made.nameBytes] at name
    rw [← made.size] at size
    simp only [ZipEntry.localLength, ZipEntry.centralLength, localExtraLen, centralExtraLen, name, size,
      localHeaderFixed, centralEntryFixed, zip64ExtraHeader, zip64LocalData]
    constructor
    · split <;> omega
    · split <;> split <;> split <;> omega
  have front := List.sum_le_card_nsmul ((ZipArchive.createFrom fullScan).entries.map fun entry =>
    entry.localLength + entry.size) 54 fun length member => by
      obtain ⟨entry, inside, rfl⟩ := List.mem_map.mp member
      exact (bounds entry inside).1
  have back := List.sum_le_card_nsmul ((ZipArchive.createFrom fullScan).entries.map ZipEntry.centralLength) 78
    fun length member => by
      obtain ⟨entry, inside, rfl⟩ := List.mem_map.mp member
      exact (bounds entry inside).2
  have records : (ZipArchive.createFrom fullScan).zip64Length ≤ 76 := by
    unfold ZipArchive.zip64Length
    split <;> decide
  rw [List.length_map, count, Nat.nsmul_eq_mul] at front back
  rw [ZipArchive.extent, eocdFixed]
  omega

/-- 65535 entries are announced by the sentinel of the end record, without a Zip64 end record. -/
theorem full_count_without_zip64 :
    (∀ item ∈ fullScan, item.relativePath.length ≤ 65535) ∧ (ZipArchive.createFrom fullScan).extent < 2 ^ 63 ∧
      ¬ (ZipArchive.createFrom fullScan).Sentinels
        ((ZipArchive.createFrom fullScan).reference (fun _ => 0) fun _ => []) := by
  have names : ∀ item ∈ fullScan, item.relativePath.length ≤ 65535 := by
    intro item member
    rw [(fullScan_items item member).1]
    decide
  refine ⟨names, fullScan_extent, ?_⟩
  have small : (ZipArchive.createFrom fullScan).extent < u64Size := Nat.lt_trans fullScan_extent (by decide)
  obtain ⟨wellFormed, _⟩ := ZipArchive.createFrom_wellFormed small
  have planned := ZipArchive.createFrom_planned fullScan
  have sizes : ∀ entry ∈ (ZipArchive.createFrom fullScan).entries, ([] : Bytes).length = entry.size := by
    intro entry member
    obtain ⟨item, inside, made⟩ := forall₂_mem_right planned member
    rw [made.size, (fullScan_items item inside).2, List.length_nil]
  have front : (fullScan.map shortLocal).sum = 65535 * 34 := fullScan_sum fun item member => by
    rw [shortLocal, (fullScan_items item member).1, (fullScan_items item member).2, localHeaderFixed]
  have back : (fullScan.map shortCentral).sum = 65535 * 50 := fullScan_sum fun item member => by
    rw [shortCentral, (fullScan_items item member).1, centralEntryFixed]
  rw [wellFormed.sentinels_iff _ sizes (wellFormed.encodable planned names), wellFormed.large_iff planned, front, back,
    ← planned.length_eq, fullScan, List.length_map, List.length_range]
  decide

end Raas.Zip
