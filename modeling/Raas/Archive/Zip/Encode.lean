import Raas.Archive.Zip.Index
import Raas.Data.LittleEndian

namespace Raas.Zip

open Data

def signatureLocal : Nat := 0x04034b50
def signatureCentral : Nat := 0x02014b50
def signatureEocd : Nat := 0x06054b50
def signatureZip64Eocd : Nat := 0x06064b50
def signatureZip64Locator : Nat := 0x07064b50

def flagUtf8 : Nat := 0x0800
def methodStore : Nat := 0
def versionDefault : Nat := 20
def versionZip64 : Nat := 45
def dosTime : Nat := 0
def dosDate : Nat := 0x0021

def sizeFields (zip64 : Bool) (size : Nat) : Bytes :=
  if zip64 then leBytes 4 u32Max ++ leBytes 4 u32Max else leBytes 4 size ++ leBytes 4 size

/-- The local Zip64 extra field. -/
def localExtra (entry : ZipEntry) : Bytes :=
  if entry.localZip64 then
    leBytes 2 0x0001 ++ leBytes 2 zip64LocalData ++ leBytes 8 entry.size ++ leBytes 8 entry.size
  else []

/-- `write_local_header` after the checksum is known. -/
def writeLocalHeader (entry : ZipEntry) (crc : Nat) (buf : Bytes) : Bytes :=
  let version := if entry.localZip64 then versionZip64 else versionDefault
  let extraLen := if entry.localZip64 then zip64ExtraHeader + zip64LocalData else 0
  buf ++ leBytes 4 signatureLocal ++ leBytes 2 version ++ leBytes 2 flagUtf8 ++
    leBytes 2 methodStore ++ leBytes 2 dosTime ++ leBytes 2 dosDate ++ leBytes 4 crc ++
    sizeFields entry.localZip64 entry.size ++ leBytes 2 entry.nameBytes.length ++ leBytes 2 extraLen ++
    entry.nameBytes ++ localExtra entry

/-- The values of the central Zip64 extra field: the sizes, then the offset, each if it is needed. -/
def centralExtraData (entry : ZipEntry) : Bytes :=
  (if entry.centralSizeZip64 then leBytes 8 entry.size ++ leBytes 8 entry.size else []) ++
    (if entry.centralOffsetZip64 then leBytes 8 entry.localOffset else [])

/-- The central Zip64 extra field, absent when it would hold nothing. -/
def centralExtra (entry : ZipEntry) : Bytes :=
  if (centralExtraData entry).isEmpty then []
  else leBytes 2 0x0001 ++ leBytes 2 (centralExtraData entry).length ++ centralExtraData entry

def centralVersion (entry : ZipEntry) : Nat :=
  if entry.centralSizeZip64 || entry.centralOffsetZip64 then versionZip64 else versionDefault

def centralExtraField (entry : ZipEntry) : Nat :=
  if (centralExtraData entry).isEmpty then 0 else zip64ExtraHeader + (centralExtraData entry).length

def centralOffsetField (entry : ZipEntry) : Nat :=
  if entry.centralOffsetZip64 then u32Max else entry.localOffset

/-- `write_central_entry` after the checksum is known. -/
def writeCentralEntry (entry : ZipEntry) (crc : Nat) (buf : Bytes) : Bytes :=
  buf ++ leBytes 4 signatureCentral ++ leBytes 2 versionDefault ++ leBytes 2 (centralVersion entry) ++
    leBytes 2 flagUtf8 ++ leBytes 2 methodStore ++ leBytes 2 dosTime ++ leBytes 2 dosDate ++
    leBytes 4 crc ++ sizeFields entry.centralSizeZip64 entry.size ++
    leBytes 2 entry.nameBytes.length ++ leBytes 2 (centralExtraField entry) ++ leBytes 2 0 ++ leBytes 2 0 ++
    leBytes 2 0 ++ leBytes 4 (if entry.isDir then 0x10 else 0) ++ leBytes 4 (centralOffsetField entry) ++
    entry.nameBytes ++ centralExtra entry

def writeZip64Eocd (archive : ZipArchive) (buf : Bytes) : Bytes :=
  let count := archive.entries.length
  buf ++ leBytes 4 signatureZip64Eocd ++ leBytes 8 (zip64EocdLen - 12) ++ leBytes 2 versionDefault ++
    leBytes 2 versionZip64 ++ leBytes 4 0 ++ leBytes 4 0 ++ leBytes 8 count ++ leBytes 8 count ++
    leBytes 8 archive.cdSize ++ leBytes 8 archive.cdOffset

def writeZip64Locator (archive : ZipArchive) (buf : Bytes) : Bytes :=
  buf ++ leBytes 4 signatureZip64Locator ++ leBytes 4 0 ++ leBytes 8 archive.zip64EocdOffset ++ leBytes 4 1

def writeEocd (archive : ZipArchive) (buf : Bytes) : Bytes :=
  let count := archive.entries.length
  buf ++ leBytes 4 signatureEocd ++ leBytes 2 0 ++ leBytes 2 0 ++ leBytes 2 (min count u16Max) ++
    leBytes 2 (min count u16Max) ++ leBytes 4 (min archive.cdSize u32Max) ++
    leBytes 4 (min archive.cdOffset u32Max) ++ leBytes 2 0

/-! Every encoder emits the length that the layout reserves for it. -/

@[simp] theorem sizeFields_length (zip64 : Bool) (size : Nat) : (sizeFields zip64 size).length = 8 := by
  cases zip64 <;> simp only [sizeFields, if_true, Bool.false_eq_true, if_false, List.length_append, leBytes_length]

def localExtraLen (entry : ZipEntry) : Nat :=
  if entry.localZip64 then zip64ExtraHeader + zip64LocalData else 0

theorem localExtra_length (entry : ZipEntry) : (localExtra entry).length = localExtraLen entry := by
  cases zip64 : entry.localZip64 <;>
    simp only [localExtra, localExtraLen, zip64, if_true, Bool.false_eq_true, if_false, List.length_append,
      leBytes_length, List.length_nil, zip64ExtraHeader, zip64LocalData]

theorem centralExtraData_length (entry : ZipEntry) :
    (centralExtraData entry).length =
      (if entry.centralSizeZip64 then 16 else 0) + (if entry.centralOffsetZip64 then 8 else 0) := by
  cases sizes : entry.centralSizeZip64 <;> cases offset : entry.centralOffsetZip64 <;>
    simp only [centralExtraData, sizes, offset, if_true, Bool.false_eq_true, if_false, List.length_append,
      leBytes_length, List.length_nil]

def centralExtraLen (entry : ZipEntry) : Nat :=
  let data := (if entry.centralSizeZip64 then 16 else 0) + (if entry.centralOffsetZip64 then 8 else 0)
  if 0 < data then zip64ExtraHeader + data else 0

theorem centralExtra_length (entry : ZipEntry) : (centralExtra entry).length = centralExtraLen entry := by
  have length := centralExtraData_length entry
  unfold centralExtra centralExtraLen
  cases extra : centralExtraData entry with
  | nil =>
      rw [extra, List.length_nil] at length
      simp only [List.isEmpty_nil, if_true, List.length_nil, ← length, Nat.lt_irrefl, if_false]
  | cons first rest =>
      rw [extra, List.length_cons] at length
      simp only [List.isEmpty_cons, Bool.false_eq_true, if_false, List.length_append, leBytes_length,
        List.length_cons, ← length, Nat.succ_pos, if_true, zip64ExtraHeader]

theorem writeLocalHeader_length (entry : ZipEntry) (crc : Nat) (buf : Bytes) :
    (writeLocalHeader entry crc buf).length =
      buf.length + (localHeaderFixed + entry.nameBytes.length + localExtraLen entry) := by
  simp only [writeLocalHeader, List.length_append, leBytes_length, sizeFields_length, localExtra_length,
    localHeaderFixed]
  omega

theorem writeCentralEntry_length (entry : ZipEntry) (crc : Nat) (buf : Bytes) :
    (writeCentralEntry entry crc buf).length =
      buf.length + (centralEntryFixed + entry.nameBytes.length + centralExtraLen entry) := by
  unfold writeCentralEntry
  simp only [List.length_append, leBytes_length, sizeFields_length, centralExtra_length, centralEntryFixed]
  omega

theorem writeZip64Eocd_length (archive : ZipArchive) (buf : Bytes) :
    (writeZip64Eocd archive buf).length = buf.length + zip64EocdLen := by
  simp only [writeZip64Eocd, List.length_append, leBytes_length, zip64EocdLen]

theorem writeZip64Locator_length (archive : ZipArchive) (buf : Bytes) :
    (writeZip64Locator archive buf).length = buf.length + zip64LocatorLen := by
  simp only [writeZip64Locator, List.length_append, leBytes_length, zip64LocatorLen]

theorem writeEocd_length (archive : ZipArchive) (buf : Bytes) :
    (writeEocd archive buf).length = buf.length + eocdFixed := by
  simp only [writeEocd, List.length_append, leBytes_length, eocdFixed]

end Raas.Zip
