import Raas.Archive.Zip.Decode

namespace Raas.Zip

open Data

/-! Reading back what the encoders emit. -/

section Extra

theorem findExtra_first {id fuel : Nat} (small : id < 65536) (data rest : Bytes) (fits : data.length < 65536)
    (positive : 0 < fuel) :
    findExtra id fuel (leBytes 2 id ++ leBytes 2 data.length ++ data ++ rest) = some data := by
  obtain ⟨fuel, rfl⟩ : ∃ less, fuel = less + 1 := ⟨fuel - 1, by omega⟩
  have fields : FieldsFit [(2, id), (2, data.length)] := ⟨small, fits, trivial⟩
  have header := takeFields_leFields fields (data ++ rest)
  simp only [leFields, List.flatMap_cons, List.flatMap_nil, List.append_nil, List.map_cons, List.map_nil,
    List.append_assoc] at header
  simp only [findExtra, List.append_assoc, header, Option.bind_eq_bind, Option.bind_some,
    takeBytes_append rfl, if_true, Option.pure_def]

theorem zip64Values_field (data : Bytes) (fits : data.length < 65536) :
    zip64Values (leBytes 2 0x0001 ++ leBytes 2 data.length ++ data) = data := by
  have found := findExtra_first (show 0x0001 < 65536 by decide) data [] fits
    (show 0 < (leBytes 2 0x0001 ++ leBytes 2 data.length ++ data).length by
      simp only [List.length_append, leBytes_length]
      omega)
  rw [List.append_nil] at found
  rw [zip64Values, found, Option.getD_some]

theorem resolve_small {value : Nat} (small : value < u32Max) (zip64 : Bytes) :
    resolve value zip64 = some (value, zip64) := by
  have different : saturated32 value = false := by
    simp only [saturated32, u32Max] at small ⊢
    exact beq_eq_false_iff_ne.mpr (Nat.ne_of_lt small)
  rw [resolve, different]
  rfl

theorem resolve_saturated {value : Nat} (fits : value < u64Size) (rest : Bytes) :
    resolve u32Max (leBytes 8 value ++ rest) = some (value, rest) := by
  have sentinel : saturated32 u32Max = true := rfl
  rw [resolve, sentinel, if_pos rfl]
  exact takeLe_leBytes fits rest

end Extra

def sizeField (zip64 : Bool) (size : Nat) : Nat := if zip64 then u32Max else size

theorem sizeFields_eq (zip64 : Bool) (size : Nat) :
    sizeFields zip64 size = leFields [(4, sizeField zip64 size), (4, sizeField zip64 size)] := by
  cases zip64 <;> rfl

def localVersion (entry : ZipEntry) : Nat := if entry.localZip64 then versionZip64 else versionDefault

def localFields (entry : ZipEntry) (crc : Nat) : List (Nat × Nat) :=
  [(4, signatureLocal), (2, localVersion entry), (2, flagUtf8), (2, methodStore), (2, dosTime), (2, dosDate),
   (4, crc), (4, sizeField entry.localZip64 entry.size), (4, sizeField entry.localZip64 entry.size),
   (2, entry.nameBytes.length), (2, localExtraLen entry)]

theorem writeLocalHeader_eq (entry : ZipEntry) (crc : Nat) :
    writeLocalHeader entry crc [] = leFields (localFields entry crc) ++ (entry.nameBytes ++ localExtra entry) := by
  unfold writeLocalHeader
  simp only [sizeFields_eq, localFields, leFields, List.flatMap_cons, List.flatMap_nil, List.append_nil,
    List.nil_append, List.append_assoc, localVersion, localExtraLen]

def centralFields (entry : ZipEntry) (crc : Nat) : List (Nat × Nat) :=
  [(4, signatureCentral), (2, versionDefault), (2, centralVersion entry), (2, flagUtf8), (2, methodStore),
   (2, dosTime), (2, dosDate), (4, crc), (4, sizeField entry.centralSizeZip64 entry.size),
   (4, sizeField entry.centralSizeZip64 entry.size), (2, entry.nameBytes.length), (2, centralExtraField entry),
   (2, 0), (2, 0), (2, 0), (4, if entry.isDir then 0x10 else 0), (4, centralOffsetField entry)]

theorem writeCentralEntry_eq (entry : ZipEntry) (crc : Nat) :
    writeCentralEntry entry crc [] =
      leFields (centralFields entry crc) ++ (entry.nameBytes ++ centralExtra entry) := by
  unfold writeCentralEntry
  simp only [sizeFields_eq, centralFields, leFields, List.flatMap_cons, List.flatMap_nil, List.append_nil,
    List.nil_append, List.append_assoc]

/-- What an entry needs for its records to be readable: every value fits its field,
in the short form or in the Zip64 form that its flags announce. -/
structure ZipEntry.Encodable (entry : ZipEntry) : Prop where
  name : entry.nameBytes.length < 65536
  size : entry.size < u64Size
  offset : entry.localOffset < u64Size
  directory : entry.isDir = true → entry.size = 0
  localZip64 : entry.localZip64 = entry.large
  centralSizeZip64 : entry.centralSizeZip64 = entry.large
  centralOffsetZip64 : entry.centralOffsetZip64 = decide (u32Max ≤ entry.localOffset)

def recordOf (entry : ZipEntry) (crc : Nat) : Record where
  flags := flagUtf8
  method := methodStore
  crc := crc
  size := entry.size
  compressedSize := entry.size
  name := entry.nameBytes

section Records

variable {entry : ZipEntry} {crc : Nat}

theorem ZipEntry.Encodable.small (encodable : entry.Encodable) (short : entry.large = false) :
    entry.size < u32Max := by
  cases directory : entry.isDir with
  | true =>
      rw [encodable.directory directory]
      decide
  | false => simpa [large, directory] using short

theorem ZipEntry.Encodable.sizeField_fits (encodable : entry.Encodable) :
    sizeField entry.large entry.size < 256 ^ 4 := by
  cases short : entry.large with
  | true => exact show u32Max < 256 ^ 4 by decide
  | false =>
      have bound := encodable.small short
      exact Nat.lt_trans bound (by decide)

theorem localExtraLen_fits (entry : ZipEntry) : localExtraLen entry < 256 ^ 2 := by
  unfold localExtraLen
  split <;> decide

theorem centralExtraLen_fits (entry : ZipEntry) : centralExtraLen entry < 256 ^ 2 := by
  unfold centralExtraLen
  cases entry.centralSizeZip64 <;> cases entry.centralOffsetZip64 <;> decide

theorem centralExtraField_eq (entry : ZipEntry) : centralExtraField entry = centralExtraLen entry := by
  have length := centralExtraData_length entry
  unfold centralExtraField centralExtraLen
  rw [← length]
  cases extra : centralExtraData entry with
  | nil => rfl
  | cons first rest => rfl

theorem ZipEntry.Encodable.localFields_fit (encodable : entry.Encodable) (checksum : crc < 256 ^ 4) :
    FieldsFit (localFields entry crc) := by
  have version : localVersion entry < 256 ^ 2 := by
    unfold localVersion
    split <;> decide
  have size := encodable.sizeField_fits
  rw [← encodable.localZip64] at size
  exact ⟨by decide, version, by decide, by decide, by decide, by decide, checksum, size, size, encodable.name,
    localExtraLen_fits entry, trivial⟩

theorem ZipEntry.Encodable.centralFields_fit (encodable : entry.Encodable) (checksum : crc < 256 ^ 4) :
    FieldsFit (centralFields entry crc) := by
  have version : centralVersion entry < 256 ^ 2 := by
    unfold centralVersion
    split <;> decide
  have size := encodable.sizeField_fits
  rw [← encodable.centralSizeZip64] at size
  have extra := centralExtraLen_fits entry
  rw [← centralExtraField_eq] at extra
  have external : (if entry.isDir then 0x10 else 0) < 256 ^ 4 := by split <;> decide
  have offset : centralOffsetField entry < 256 ^ 4 := by
    rw [centralOffsetField, encodable.centralOffsetZip64]
    by_cases far : u32Max ≤ entry.localOffset
    · simp only [far, decide_true, if_true]
      decide
    · simp only [far, decide_false, Bool.false_eq_true, if_false]
      exact Nat.lt_trans (Nat.lt_of_not_le far) (by decide)
  exact ⟨by decide, by decide, version, by decide, by decide, by decide, by decide, checksum, size, size,
    encodable.name, extra, by decide, by decide, by decide, external, offset, trivial⟩

def wideSizes (entry : ZipEntry) : Bytes :=
  if entry.large then leBytes 8 entry.size ++ leBytes 8 entry.size else []

/-- Sizes are taken from the Zip64 values exactly when these hold them. -/
theorem ZipEntry.Encodable.resolve_sizes (encodable : entry.Encodable) (rest : Bytes) :
    ∃ values, resolve (sizeField entry.large entry.size) (wideSizes entry ++ rest) = some (entry.size, values) ∧
      resolve (sizeField entry.large entry.size) values = some (entry.size, rest) := by
  cases short : entry.large with
  | false =>
      have bound := encodable.small short
      refine ⟨rest, ?_, resolve_small bound rest⟩
      rw [wideSizes, short]
      exact resolve_small bound rest
  | true =>
      refine ⟨leBytes 8 entry.size ++ rest, ?_, resolve_saturated encodable.size rest⟩
      rw [wideSizes, short, if_pos rfl, List.append_assoc]
      exact resolve_saturated encodable.size _

theorem ZipEntry.Encodable.zip64Values_local (encodable : entry.Encodable) :
    zip64Values (localExtra entry) = wideSizes entry := by
  rw [localExtra, wideSizes, encodable.localZip64]
  split
  · have values := zip64Values_field (leBytes 8 entry.size ++ leBytes 8 entry.size)
      (by simp only [List.length_append, leBytes_length]; decide)
    simp only [List.length_append, leBytes_length, List.append_assoc] at values ⊢
    exact values
  · rfl

theorem ZipEntry.Encodable.zip64Values_central (encodable : entry.Encodable) :
    zip64Values (centralExtra entry) =
      wideSizes entry ++ if entry.centralOffsetZip64 then leBytes 8 entry.localOffset else [] := by
  have length := centralExtraData_length entry
  have data : centralExtraData entry =
      wideSizes entry ++ if entry.centralOffsetZip64 then leBytes 8 entry.localOffset else [] := by
    rw [centralExtraData, wideSizes, encodable.centralSizeZip64]
  rw [← data, centralExtra]
  split
  · rename_i empty
    rw [List.isEmpty_iff.mp empty]
    rfl
  · apply zip64Values_field _
    rw [length]
    split <;> split <;> decide

theorem ZipEntry.Encodable.resolve_offset (encodable : entry.Encodable) :
    ∃ rest, resolve (centralOffsetField entry)
      (if entry.centralOffsetZip64 then leBytes 8 entry.localOffset else []) =
        some (entry.localOffset, rest) := by
  rw [centralOffsetField, encodable.centralOffsetZip64]
  by_cases far : u32Max ≤ entry.localOffset
  · simp only [far, decide_true, if_true]
    have resolved := resolve_saturated encodable.offset []
    rw [List.append_nil] at resolved
    exact ⟨[], resolved⟩
  · simp only [far, decide_false, Bool.false_eq_true, if_false]
    exact ⟨[], resolve_small (Nat.lt_of_not_le far) _⟩

theorem readLocal_image (encodable : entry.Encodable) (checksum : crc < 256 ^ 4) {content : Bytes}
    (size : content.length = entry.size) (rest : Bytes) :
    readLocal (entry.image crc content ++ rest) = some (recordOf entry crc, content) := by
  obtain ⟨values, first, second⟩ := encodable.resolve_sizes []
  rw [List.append_nil, ← encodable.zip64Values_local, ← encodable.localZip64] at first
  rw [← encodable.localZip64] at second
  have header := takeFields_leFields (encodable.localFields_fit checksum)
    (entry.nameBytes ++ (localExtra entry ++ (content ++ rest)))
  have image : entry.image crc content ++ rest = leFields (localFields entry crc) ++
      (entry.nameBytes ++ (localExtra entry ++ (content ++ rest))) := by
    simp only [ZipEntry.image, writeLocalHeader_eq, List.append_assoc]
  rw [readLocal, image, show localWidths = (localFields entry crc).map Prod.fst from rfl, header]
  simp only [localFields, List.map_cons, List.map_nil, Option.bind_eq_bind, Option.bind_some,
    takeBytes_append rfl, takeBytes_append (localExtra_length entry), takeBytes_append size, first, second]
  rfl

def centralOf (entry : ZipEntry) (crc : Nat) : CentralRecord where
  record := recordOf entry crc
  isDir := entry.isDir
  localOffset := entry.localOffset

theorem readCentral_entry (encodable : entry.Encodable) (checksum : crc < 256 ^ 4) (rest : Bytes) :
    readCentral (writeCentralEntry entry crc [] ++ rest) = some (centralOf entry crc, rest) := by
  obtain ⟨values, first, second⟩ := encodable.resolve_sizes
    (if entry.centralOffsetZip64 then leBytes 8 entry.localOffset else [])
  obtain ⟨remaining, third⟩ := encodable.resolve_offset
  rw [← encodable.zip64Values_central, ← encodable.centralSizeZip64] at first
  rw [← encodable.centralSizeZip64] at second
  have header := takeFields_leFields (encodable.centralFields_fit checksum)
    (entry.nameBytes ++ (centralExtra entry ++ rest))
  have bytes : writeCentralEntry entry crc [] ++ rest = leFields (centralFields entry crc) ++
      (entry.nameBytes ++ (centralExtra entry ++ rest)) := by
    simp only [writeCentralEntry_eq, List.append_assoc]
  have extra : (centralExtra entry).length = centralExtraField entry := by
    rw [centralExtra_length, centralExtraField_eq]
  have attributes : (if entry.isDir then 0x10 else 0 : Nat).testBit 4 = entry.isDir := by
    cases entry.isDir <;> decide
  rw [readCentral, bytes, show centralWidths = (centralFields entry crc).map Prod.fst from rfl, header]
  simp only [centralFields, List.map_cons, List.map_nil, Option.bind_eq_bind, Option.bind_some,
    takeBytes_append rfl, takeBytes_append extra, first, second, third, attributes]
  rfl

end Records

section Archive

variable {archive : ZipArchive} {crc : ZipEntry → Nat} {content : ZipEntry → Bytes}

theorem readDirectory_entries {entries : List ZipEntry} (encodable : ∀ entry ∈ entries, entry.Encodable)
    (checksums : ∀ entry ∈ entries, crc entry < 256 ^ 4) (rest : Bytes) :
    readDirectory entries.length
        (entries.flatMap (fun entry => writeCentralEntry entry (crc entry) []) ++ rest) =
      some (entries.map fun entry => centralOf entry (crc entry), rest) := by
  induction entries with
  | nil => rfl
  | cons entry entries ih =>
      have first := readCentral_entry (encodable entry (by simp)) (checksums entry (by simp))
        (entries.flatMap (fun entry => writeCentralEntry entry (crc entry) []) ++ rest)
      have later := ih (fun other member => encodable other (by simp [member]))
        (fun other member => checksums other (by simp [member]))
      simp only [List.length_cons, readDirectory, List.flatMap_cons, List.append_assoc, first, later,
        Option.bind_eq_bind, Option.bind_some, Option.pure_def, List.map_cons]

def memberOf (content : ZipEntry → Bytes) (entry : ZipEntry) : Member where
  name := entry.nameBytes
  isDir := entry.isDir
  size := entry.size
  localOffset := entry.localOffset
  content := content entry

theorem ZipArchive.WellFormed.front_length (wellFormed : archive.WellFormed) (crc : ZipEntry → Nat)
    (sizes : ∀ entry ∈ archive.entries, (content entry).length = entry.size) :
    (archive.entries.flatMap fun entry => entry.image (crc entry) (content entry)).length = archive.cdOffset ∧
      ∀ entry ∈ archive.entries, (entry.image (crc entry) (content entry)).length = entry.localSpan := by
  have widths : ∀ entry ∈ archive.entries,
      (entry.image (crc entry) (content entry)).length = entry.localSpan := by
    intro entry member
    rw [ZipEntry.image, List.length_append, writeLocalHeader_length, sizes entry member, ZipEntry.localSpan,
      wellFormed.localLengths entry member, ZipEntry.localLength, List.length_nil, Nat.zero_add]
  have length := wellFormed.locals.length_flatMap (fun entry => entry.image (crc entry) (content entry)) widths
  exact ⟨by omega, widths⟩

theorem ZipArchive.WellFormed.drop_local (wellFormed : archive.WellFormed) (crc : ZipEntry → Nat)
    (sizes : ∀ entry ∈ archive.entries, (content entry).length = entry.size) {entry : ZipEntry}
    (member : entry ∈ archive.entries) :
    ∃ rest, (archive.reference crc content).drop entry.localOffset = entry.image (crc entry) (content entry) ++ rest := by
  obtain ⟨front, widths⟩ := wellFormed.front_length crc sizes
  have bounds := wellFormed.locals.base_le_start entry member
  obtain ⟨rest, found⟩ := wellFormed.locals.drop_item widths member
  rw [Nat.sub_zero] at found
  refine ⟨rest ++ (archive.entries.flatMap (fun entry => writeCentralEntry entry (crc entry) []) ++
    archive.endRecords), ?_⟩
  rw [ZipArchive.reference, List.append_assoc, List.drop_append_of_le_length (by omega), found, List.append_assoc]

theorem ZipArchive.WellFormed.readMember_entry (wellFormed : archive.WellFormed)
    (sizes : ∀ entry ∈ archive.entries, (content entry).length = entry.size) {entry : ZipEntry}
    (member : entry ∈ archive.entries) (encodable : entry.Encodable) (checksum : crc entry < 256 ^ 4) :
    readMember (archive.reference crc content) (centralOf entry (crc entry)) = some (memberOf content entry) := by
  obtain ⟨rest, placed⟩ := wellFormed.drop_local crc sizes member
  have decoded := readLocal_image encodable checksum (sizes entry member) rest
  simp only [readMember, centralOf, placed, decoded, Option.bind_eq_bind, Option.bind_some, guard, if_true,
    Option.pure_def]
  rfl

def eocdFields (archive : ZipArchive) : List (Nat × Nat) :=
  [(4, signatureEocd), (2, 0), (2, 0), (2, min archive.entries.length u16Max),
   (2, min archive.entries.length u16Max), (4, min archive.cdSize u32Max), (4, min archive.cdOffset u32Max), (2, 0)]

theorem writeEocd_eq (archive : ZipArchive) : writeEocd archive [] = leFields (eocdFields archive) := by
  simp only [writeEocd, eocdFields, leFields, List.flatMap_cons, List.flatMap_nil, List.append_nil,
    List.nil_append, List.append_assoc]

def zip64LocatorFields (archive : ZipArchive) : List (Nat × Nat) :=
  [(4, signatureZip64Locator), (4, 0), (8, archive.zip64EocdOffset), (4, 1)]

theorem writeZip64Locator_eq (archive : ZipArchive) :
    writeZip64Locator archive [] = leFields (zip64LocatorFields archive) := by
  simp only [writeZip64Locator, zip64LocatorFields, leFields, List.flatMap_cons, List.flatMap_nil,
    List.append_nil, List.nil_append, List.append_assoc]

def zip64EocdFields (archive : ZipArchive) : List (Nat × Nat) :=
  [(4, signatureZip64Eocd), (8, zip64EocdLen - 12), (2, versionDefault), (2, versionZip64), (4, 0), (4, 0),
   (8, archive.entries.length), (8, archive.entries.length), (8, archive.cdSize), (8, archive.cdOffset)]

theorem writeZip64Eocd_eq (archive : ZipArchive) :
    writeZip64Eocd archive [] = leFields (zip64EocdFields archive) := by
  simp only [writeZip64Eocd, zip64EocdFields, leFields, List.flatMap_cons, List.flatMap_nil, List.append_nil,
    List.nil_append, List.append_assoc]

theorem ZipArchive.endRecords_length (archive : ZipArchive) :
    archive.endRecords.length = archive.zip64Length + eocdFixed := by
  rw [endRecords, List.length_append, zip64Length, writeEocd_length]
  split
  · rw [List.length_append, writeZip64Eocd_length, writeZip64Locator_length]
    simp only [List.length_nil, Nat.zero_add]
  · simp only [List.length_nil, Nat.zero_add]

theorem ZipArchive.WellFormed.endRecords_split (wellFormed : archive.WellFormed) (crc : ZipEntry → Nat)
    (sizes : ∀ entry ∈ archive.entries, (content entry).length = entry.size) :
    ∃ front : Bytes, archive.reference crc content = front ++ archive.endRecords ∧
      front.length = archive.zip64EocdOffset := by
  have total := wellFormed.reference_length crc sizes
  have ending := wellFormed.ending
  have records := archive.endRecords_length
  refine ⟨_, rfl, ?_⟩
  rw [reference, List.length_append] at total
  omega

theorem ZipArchive.WellFormed.drop_endRecords (wellFormed : archive.WellFormed) (crc : ZipEntry → Nat)
    (sizes : ∀ entry ∈ archive.entries, (content entry).length = entry.size) :
    (archive.reference crc content).drop archive.zip64EocdOffset = archive.endRecords := by
  obtain ⟨front, whole, frontLength⟩ := wellFormed.endRecords_split crc sizes
  rw [whole, List.drop_left' frontLength]

theorem ZipArchive.WellFormed.drop_eocd (wellFormed : archive.WellFormed) (crc : ZipEntry → Nat)
    (sizes : ∀ entry ∈ archive.entries, (content entry).length = entry.size) :
    (archive.reference crc content).drop (archive.zip64EocdOffset + archive.zip64Length) = writeEocd archive [] := by
  have length := archive.endRecords_length
  rw [← List.drop_drop, wellFormed.drop_endRecords crc sizes, endRecords]
  rw [endRecords, List.length_append, writeEocd_length, List.length_nil, Nat.zero_add] at length
  exact List.drop_left' (by omega)

/-- The Zip64 end record and its locator stand between the directory and the end record. -/
theorem ZipArchive.WellFormed.drop_zip64 (wellFormed : archive.WellFormed) (crc : ZipEntry → Nat)
    (sizes : ∀ entry ∈ archive.entries, (content entry).length = entry.size) (zip64 : archive.needsZip64 = true) :
    (archive.reference crc content).drop archive.zip64EocdOffset =
        writeZip64Eocd archive [] ++ (writeZip64Locator archive [] ++ writeEocd archive []) ∧
      (archive.reference crc content).drop (archive.zip64EocdOffset + zip64EocdLen) =
        writeZip64Locator archive [] ++ writeEocd archive [] := by
  have record : (archive.reference crc content).drop archive.zip64EocdOffset =
      writeZip64Eocd archive [] ++ (writeZip64Locator archive [] ++ writeEocd archive []) := by
    rw [wellFormed.drop_endRecords crc sizes, endRecords, if_pos zip64, List.append_assoc]
  have length := writeZip64Eocd_length archive []
  rw [List.length_nil, Nat.zero_add] at length
  refine ⟨record, ?_⟩
  rw [← List.drop_drop, record, List.drop_left' length]

/-- The Zip64 detour, when its records are where the end record expects them. -/
theorem ZipArchive.readZip64End_records (archive : ZipArchive) (count : archive.entries.length < u64Size)
    (size : archive.cdSize < u64Size) (offset : archive.cdOffset < u64Size)
    (position : archive.zip64EocdOffset < u64Size) {bytes : Bytes} {eocd : Nat} {afterRecord afterLocator : Bytes}
    (record : bytes.drop archive.zip64EocdOffset = writeZip64Eocd archive [] ++ afterRecord)
    (locator : bytes.drop (eocd - 20) = writeZip64Locator archive [] ++ afterLocator) (room : 20 ≤ eocd) :
    readZip64End bytes eocd = some
      { count := archive.entries.length, size := archive.cdSize, offset := archive.cdOffset,
        endRecords := archive.zip64EocdOffset } := by
  have locatorFit : FieldsFit (zip64LocatorFields archive) :=
    ⟨by decide, by decide, position, by decide, trivial⟩
  have recordFit : FieldsFit (zip64EocdFields archive) :=
    ⟨by decide, by decide, by decide, by decide, by decide, by decide, count, count, size, offset, trivial⟩
  have locatorRead := takeFields_leFields locatorFit afterLocator
  have recordRead := takeFields_leFields recordFit afterRecord
  rw [← writeZip64Locator_eq, ← locator] at locatorRead
  rw [← writeZip64Eocd_eq, ← record] at recordRead
  rw [readZip64End, show zip64LocatorWidths = (zip64LocatorFields archive).map Prod.fst from rfl, locatorRead,
    show zip64EocdWidths = (zip64EocdFields archive).map Prod.fst from rfl]
  simp only [zip64LocatorFields, List.map_cons, List.map_nil, Option.bind_eq_bind, Option.bind_some, guard, room,
    if_true, Option.pure_def, signatureZip64Locator]
  simp only [zip64EocdFields, List.map_cons, List.map_nil] at recordRead
  simp only [zip64EocdFields, List.map_cons, List.map_nil, recordRead, Option.bind_some, signatureZip64Eocd,
    if_true]

/-- The end records lead to the directory, in the short form or by the Zip64 detour. -/
theorem ZipArchive.WellFormed.readEnd_reference (wellFormed : archive.WellFormed) (crc : ZipEntry → Nat)
    (sizes : ∀ entry ∈ archive.entries, (content entry).length = entry.size)
    (count : archive.entries.length ≠ 65535) :
    readEnd (archive.reference crc content) = some
      { count := archive.entries.length, size := archive.cdSize, offset := archive.cdOffset,
        endRecords := archive.zip64EocdOffset } := by
  have total := wellFormed.reference_length crc sizes
  have ending := wellFormed.ending
  have bounded := wellFormed.bounded
  have ordered := wellFormed.directorySize
  have number := wellFormed.locals.length_le
  have eocdFit : FieldsFit (eocdFields archive) := by
    refine ⟨by decide, by decide, by decide, ?_, ?_, ?_, ?_, by decide, trivial⟩ <;>
      simp only [u16Max, u32Max] <;> omega
  have eocdRead := takeFields_leFields eocdFit []
  rw [List.append_nil, ← writeEocd_eq] at eocdRead
  have needed : archive.needsZip64 = true ↔
      min archive.entries.length u16Max = 0xFFFF ∨ min archive.entries.length u16Max = 0xFFFF ∨
        saturated32 (min archive.cdSize u32Max) = true ∨ saturated32 (min archive.cdOffset u32Max) = true := by
    simp only [ZipArchive.needsZip64_iff, saturated32, beq_iff_eq, u16Max, u32Max]
    omega
  have last := wellFormed.drop_eocd crc sizes
  have length : (archive.reference crc content).length = archive.zip64EocdOffset + archive.zip64Length + 22 := by
    rw [total, ← ending, eocdFixed]
  -- the last 22 bytes decide which way the reader goes
  have chosen : readEnd (archive.reference crc content) =
      if archive.needsZip64 then
        readZip64End (archive.reference crc content) (archive.zip64EocdOffset + archive.zip64Length)
      else some
        { count := min archive.entries.length u16Max, size := min archive.cdSize u32Max,
          offset := min archive.cdOffset u32Max, endRecords := archive.zip64EocdOffset + archive.zip64Length } := by
    have long : 22 ≤ archive.zip64EocdOffset + archive.zip64Length + 22 := Nat.le_add_left _ _
    unfold readEnd
    simp only [length, Nat.add_sub_cancel, last, show eocdWidths = (eocdFields archive).map Prod.fst from rfl,
      eocdRead]
    simp only [eocdFields, List.map_cons, List.map_nil, Option.bind_eq_bind, Option.bind_some, guard, long,
      if_true, Option.pure_def, signatureEocd, and_self, ← needed]
  rw [chosen]
  cases zip64 : archive.needsZip64 with
  | true =>
      obtain ⟨record, locator⟩ := wellFormed.drop_zip64 crc sizes zip64
      have records : archive.zip64Length = 56 + 20 := by rw [zip64Length, zip64]; rfl
      rw [eocdFixed] at ending
      rw [if_pos rfl, records, ← Nat.add_assoc]
      exact archive.readZip64End_records (by omega) (by omega) (by omega) (by omega) record locator (by omega)
  | false =>
      have none : archive.zip64Length = 0 := by rw [zip64Length, zip64]; rfl
      rw [zip64] at needed
      simp only [Bool.false_eq_true, false_iff, saturated32, beq_iff_eq, u16Max, u32Max] at needed
      have values : min archive.entries.length 65535 = archive.entries.length ∧
          min archive.cdSize 4294967295 = archive.cdSize ∧ min archive.cdOffset 4294967295 = archive.cdOffset := by
        omega
      rw [if_neg Bool.false_ne_true, none, Nat.add_zero, u16Max, u32Max, values.1, values.2.1, values.2.2]

theorem mapM_eq_some_map {items : List α} {step : α → Option β} {image : α → β}
    (steps : ∀ item ∈ items, step item = some (image item)) : items.mapM step = some (items.map image) := by
  induction items with
  | nil => rfl
  | cons item items ih =>
      have later := ih fun other member => steps other (by simp [member])
      simp only [List.mapM_cons, steps item (by simp), later, Option.bind_eq_bind, Option.bind_some,
        Option.pure_def, List.map_cons]

theorem ZipArchive.WellFormed.decode_reference (wellFormed : archive.WellFormed) (crc : ZipEntry → Nat)
    (sizes : ∀ entry ∈ archive.entries, (content entry).length = entry.size)
    (encodable : ∀ entry ∈ archive.entries, entry.Encodable)
    (checksums : ∀ entry ∈ archive.entries, crc entry < 256 ^ 4) (count : archive.entries.length ≠ 65535) :
    decode (archive.reference crc content) =
      some (archive.entries.map (memberOf content), archive.zip64EocdOffset, archive.zip64EocdOffset) := by
  have ends := wellFormed.readEnd_reference crc sizes count
  have front := (wellFormed.front_length crc sizes).1
  have total := wellFormed.reference_length crc sizes
  have ordered := wellFormed.directorySize
  obtain ⟨before, whole, beforeLength⟩ := wellFormed.endRecords_split crc sizes
  have directory := readDirectory_entries encodable checksums archive.endRecords
  have placed : (archive.reference crc content).drop archive.cdOffset =
      archive.entries.flatMap (fun entry => writeCentralEntry entry (crc entry) []) ++ archive.endRecords := by
    rw [reference, List.append_assoc]
    exact List.drop_left' front
  have members : (archive.entries.map fun entry => centralOf entry (crc entry)).mapM
      (readMember (archive.reference crc content)) = some (archive.entries.map (memberOf content)) := by
    rw [List.mapM_map]
    exact mapM_eq_some_map fun entry member =>
      wellFormed.readMember_entry sizes member (encodable entry member) (checksums entry member)
  have finish : (archive.reference crc content).length - archive.endRecords.length = archive.zip64EocdOffset := by
    rw [whole, List.length_append, beforeLength, Nat.add_sub_cancel]
  rw [decode, ends]
  simp only [Option.bind_eq_bind, Option.bind_some, placed, directory, finish, ordered, guard, if_true, members,
    Option.pure_def]

end Archive

/-- What a member says about the scanned entry it comes from. -/
structure Recovers (paths : Path → Option Bytes) (item : ScannedEntry) (member : Member) : Prop where
  name : member.name = item.relativePath
  isDir : member.isDir = item.isDir
  size : member.size = item.size
  contentLength : member.content.length = item.size
  content : item.isDir = false → paths item.sourcePath = some member.content

theorem Planned.encodable {item : ScannedEntry} {entry : ZipEntry} (planned : Planned item entry)
    (name : item.relativePath.length ≤ 65535) (size : entry.size < u64Size) (offset : entry.localOffset < u64Size) :
    entry.Encodable where
  name := by
    rw [planned.nameBytes]
    omega
  size := size
  offset := offset
  directory := fun directory => by
    rw [planned.isDir] at directory
    rw [planned.size, item.dirSize directory]
  localZip64 := planned.localZip64
  centralSizeZip64 := planned.centralSizeZip64
  centralOffsetZip64 := planned.centralOffsetZip64

theorem ZipArchive.WellFormed.encodable {archive : ZipArchive} (wellFormed : archive.WellFormed)
    {scanned : List ScannedEntry} (planned : List.Forall₂ Planned scanned archive.entries)
    (names : ∀ item ∈ scanned, item.relativePath.length ≤ 65535) : ∀ entry ∈ archive.entries, entry.Encodable := by
  intro entry member
  obtain ⟨item, inside, made⟩ := forall₂_mem_right planned member
  have bounds := wellFormed.locals.base_le_start entry member
  have ordered := wellFormed.directorySize
  have ending := wellFormed.ending
  have bounded := wellFormed.bounded
  rw [ZipEntry.localSpan] at bounds
  exact made.encodable (names item inside) (by omega) (by omega)

theorem Planned.recovers {paths : Path → Option Bytes} {item : ScannedEntry} {entry : ZipEntry}
    (planned : Planned item entry) (length : (entryContent paths entry).length = entry.size)
    (leads : entry.isDir = false → ∀ source, entry.sourcePath = some source →
      ∃ bytes, paths source = some bytes ∧ bytes.length = entry.size) :
    Recovers paths item (memberOf (entryContent paths) entry) where
  name := planned.nameBytes
  isDir := planned.isDir
  size := planned.size
  contentLength := length.trans planned.size
  content := fun regular => by
    have sourcePath : entry.sourcePath = some item.sourcePath := by
      rw [planned.sourcePath, regular]
      rfl
    obtain ⟨bytes, found, _⟩ := leads (planned.isDir.trans regular) item.sourcePath sourcePath
    simp only [memberOf, entryContent, sourcePath, found, Option.getD_some]

/-- The complete stream decodes to the scanned entries, in order, each at the offset
that the index recorded, and the central directory ends where the end records begin. -/
theorem decode_recovers_scanned {scanned : List ScannedEntry}
    (names : ∀ item ∈ scanned, item.relativePath.length ≤ 65535) (count : scanned.length ≠ 65535)
    (fits : (ZipArchive.createFrom scanned).extent < 2 ^ 63) {feature : CrcFeature} {os : Files}
    {paths : Path → Option Bytes} (unchanged : os.Unchanged paths)
    (keeps : (ZipArchive.createFrom scanned).KeepsSizes paths) :
    let archive := ZipArchive.createFrom scanned
    ∀ (world : World) (fuel : Nat) (capacities : List Nat),
      CellsHold feature paths archive world.cells →
      (∀ entry ∈ archive.entries, entry.size < fuel) →
      (∀ capacity ∈ capacities, 0 < capacity ∧ capacity < fuel) → archive.totalSize < capacities.length →
      ∃ bytes members,
        (drain (read 64 feature fuel os archive) (ZipArchive.streamRange 0 archive.totalSize, world)
          capacities).1 = .ended bytes ∧
        decode bytes = some (members, archive.cdOffset + archive.cdSize, archive.cdOffset + archive.cdSize) ∧
        List.Forall₂ (Recovers paths) scanned members ∧
        members.map Member.localOffset = archive.entries.map ZipEntry.localOffset := by
  intro archive world fuel capacities hold hashable usable enough
  have small : archive.extent < u64Size := Nat.lt_trans fits (by decide)
  obtain ⟨wellFormed, _⟩ := ZipArchive.createFrom_wellFormed small
  obtain ⟨holds, serves⟩ := unchanged
  have planned : List.Forall₂ Planned scanned archive.entries := ZipArchive.createFrom_planned scanned
  have sizes := wellFormed.entryContent_length keeps
  have encodable := wellFormed.encodable planned names
  have decoded := wellFormed.decode_reference (crcOf feature paths) sizes encodable
    (fun entry _ => crcOf_lt feature paths entry) (by rw [← planned.length_eq]; exact count)
  refine ⟨_, archive.entries.map (memberOf (entryContent paths)),
    wellFormed.stream_complete serves keeps hashable hold usable enough, ?_, ?_, ?_⟩
  · rw [decoded, wellFormed.directorySize]
  · rw [List.forall₂_map_right_iff]
    exact forall₂_imp_mem planned fun item _ entry member made => made.recovers (sizes entry member) (keeps entry member)
  · rw [List.map_map]
    rfl

theorem decode_recovers_scanned_small : ∃ bytes members,
    (drain (read 64 smallFeature 1001 (Files.memory smallFiles 2) (ZipArchive.createFrom smallScan))
        (ZipArchive.streamRange 0 (ZipArchive.createFrom smallScan).totalSize, { cells := fun _ => none, now := 0 })
        (List.replicate 1000 1000)).1 = .ended bytes ∧
      decode bytes = some (members, (ZipArchive.createFrom smallScan).cdOffset + (ZipArchive.createFrom smallScan).cdSize,
        (ZipArchive.createFrom smallScan).cdOffset + (ZipArchive.createFrom smallScan).cdSize) ∧
      List.Forall₂ (Recovers (Files.contentOf smallFiles)) smallScan members ∧
      members.map Member.localOffset = (ZipArchive.createFrom smallScan).entries.map ZipEntry.localOffset := by
  have unchanged : (Files.memory smallFiles 2).Unchanged (Files.contentOf smallFiles) :=
    Files.memory_unchanged smallFiles (by decide)
  have usable : ∀ capacity ∈ List.replicate 1000 1000, 0 < capacity ∧ capacity < 1001 :=
    List.forall_mem_replicate.mpr (.inr (by decide))
  have total : (ZipArchive.createFrom smallScan).totalSize < 1000 := by decide +kernel
  exact decode_recovers_scanned (by decide) (by decide) (by decide +kernel) unchanged (by decide +kernel)
    { cells := fun _ => none, now := 0 } 1001 (List.replicate 1000 1000) cellsHold_fresh (by decide +kernel) usable
    (by rw [List.length_replicate]; exact total)

end Raas.Zip
