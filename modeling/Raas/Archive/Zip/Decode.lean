import Raas.Archive.Zip.Reference

namespace Raas.Zip

open Data

/-! The reader that the zip application note describes, for archives that store
their members. It starts at the end of the byte string and resolves every
all-ones value from the Zip64 structures. -/

def saturated32 (value : Nat) : Bool := value == 0xFFFFFFFF

structure DirectoryInfo where
  count : Nat
  size : Nat
  offset : Nat
  endRecords : Nat
deriving DecidableEq, Repr

/-- signature, disk, directory's disk, entries on this disk, entries, directory
size, directory offset, comment length -/
def eocdWidths : List Nat := [4, 2, 2, 2, 2, 4, 4, 2]

/-- signature, disk, offset of the Zip64 end record, number of disks -/
def zip64LocatorWidths : List Nat := [4, 4, 8, 4]

/-- signature, record size, version made by, version needed, disk, directory's
disk, entries on this disk, entries, directory size, directory offset -/
def zip64EocdWidths : List Nat := [4, 8, 2, 2, 4, 4, 8, 8, 8, 8]

/-- The Zip64 end record, by way of the locator directly before the end record. -/
def readZip64End (bytes : Bytes) (eocd : Nat) : Option DirectoryInfo := do
  guard (20 ≤ eocd)
  let ([signature, _, offset, _], _) ← takeFields zip64LocatorWidths (bytes.drop (eocd - 20)) | none
  guard (signature = 0x07064b50)
  let ([signature, _, _, _, _, _, _, count, size, directory], _) ←
    takeFields zip64EocdWidths (bytes.drop offset) | none
  guard (signature = 0x06064b50)
  return { count, size, offset := directory, endRecords := offset }

def readEnd (bytes : Bytes) : Option DirectoryInfo := do
  guard (22 ≤ bytes.length)
  let eocd := bytes.length - 22
  let ([signature, _, _, here, count, size, offset, comment], rest) ←
    takeFields eocdWidths (bytes.drop eocd) | none
  guard (signature = 0x06054b50 ∧ comment = 0 ∧ rest = [])
  if here = 0xFFFF ∨ count = 0xFFFF ∨ saturated32 size ∨ saturated32 offset then readZip64End bytes eocd
  else return { count, size, offset, endRecords := eocd }

/-- The data of the extra field `id`; `fuel` bounds the number of fields. -/
def findExtra (id : Nat) : Nat → Bytes → Option Bytes
  | 0, _ => none
  | fuel + 1, extra => do
      let ([found, length], rest) ← takeFields [2, 2] extra | none
      let (data, rest) ← takeBytes length rest
      if found = id then return data else findExtra id fuel rest

/-- The Zip64 values of an entry, nothing if it has none. -/
def zip64Values (extra : Bytes) : Bytes := (findExtra 0x0001 extra.length extra).getD []

/-- A value, or the next Zip64 value if it is all ones. -/
def resolve (value : Nat) (zip64 : Bytes) : Option (Nat × Bytes) :=
  if saturated32 value then takeLe 8 zip64 else some (value, zip64)

structure Record where
  flags : Nat
  method : Nat
  crc : Nat
  size : Nat
  compressedSize : Nat
  name : Bytes
deriving DecidableEq, Repr

/-- signature, version made by, version needed, flags, method, time, date,
checksum, compressed size, size, name length, extra length, comment length, disk,
internal attributes, external attributes, offset -/
def centralWidths : List Nat := [4, 2, 2, 2, 2, 2, 2, 4, 4, 4, 2, 2, 2, 2, 2, 4, 4]

structure CentralRecord where
  record : Record
  isDir : Bool
  localOffset : Nat
deriving DecidableEq, Repr

def readCentral (bytes : Bytes) : Option (CentralRecord × Bytes) := do
  let ([signature, _, _, flags, method, _, _, crc, compressedSize, size, nameLength, extraLength,
    commentLength, _, _, external, offset], rest) ← takeFields centralWidths bytes | none
  guard (signature = 0x02014b50)
  let (name, rest) ← takeBytes nameLength rest
  let (extra, rest) ← takeBytes extraLength rest
  let (_, rest) ← takeBytes commentLength rest
  let (size, values) ← resolve size (zip64Values extra)
  let (compressedSize, values) ← resolve compressedSize values
  let (localOffset, _) ← resolve offset values
  return ({ record := { flags, method, crc, size, compressedSize, name }, isDir := external.testBit 4,
            localOffset }, rest)

def readDirectory : Nat → Bytes → Option (List CentralRecord × Bytes)
  | 0, bytes => some ([], bytes)
  | count + 1, bytes => do
      let (entry, rest) ← readCentral bytes
      let (entries, rest) ← readDirectory count rest
      return (entry :: entries, rest)

/-- signature, version needed, flags, method, time, date, checksum, compressed
size, size, name length, extra length -/
def localWidths : List Nat := [4, 2, 2, 2, 2, 2, 4, 4, 4, 2, 2]

def readLocal (bytes : Bytes) : Option (Record × Bytes) := do
  let ([signature, _, flags, method, _, _, crc, compressedSize, size, nameLength, extraLength], rest) ←
    takeFields localWidths bytes | none
  guard (signature = 0x04034b50 ∧ method = 0)
  let (name, rest) ← takeBytes nameLength rest
  let (extra, rest) ← takeBytes extraLength rest
  let (size, values) ← resolve size (zip64Values extra)
  let (compressedSize, _) ← resolve compressedSize values
  let (content, _) ← takeBytes compressedSize rest
  return ({ flags, method, crc, size, compressedSize, name }, content)

structure Member where
  name : Bytes
  isDir : Bool
  size : Nat
  localOffset : Nat
  content : Bytes
deriving DecidableEq, Repr

/-- Follow one directory entry to its local header, which has to agree with it. -/
def readMember (bytes : Bytes) (entry : CentralRecord) : Option Member := do
  let (record, content) ← readLocal (bytes.drop entry.localOffset)
  guard (record = entry.record)
  return { name := record.name, isDir := entry.isDir, size := record.size,
           localOffset := entry.localOffset, content }

/-- A whole archive: its members in the order of the directory, the position where
the directory ended, and the position where the end records begin. -/
def decode (bytes : Bytes) : Option (List Member × Nat × Nat) := do
  let info ← readEnd bytes
  let (entries, rest) ← readDirectory info.count (bytes.drop info.offset)
  guard (bytes.length - rest.length = info.offset + info.size)
  let members ← entries.mapM (readMember bytes)
  return (members, bytes.length - rest.length, info.endRecords)

end Raas.Zip
