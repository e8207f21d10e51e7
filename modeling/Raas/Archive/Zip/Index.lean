import Raas.Archive.Format
import Raas.Archive.Scanner
import Raas.Data.Tiling

namespace Raas.Zip

open Data

def localHeaderFixed : Nat := 30
def centralEntryFixed : Nat := 46
def eocdFixed : Nat := 22
def zip64EocdLen : Nat := 56
def zip64LocatorLen : Nat := 20
def zip64ExtraHeader : Nat := 4
def zip64LocalData : Nat := 16

def u32Max : Nat := 0xFFFFFFFF
def u16Max : Nat := 0xFFFF

structure ZipEntry where
  name : Bytes
  nameBytes : Bytes
  sourcePath : Option Path
  size : Nat
  isDir : Bool
  localOffset : Nat
  localHeaderLen : Nat
  localZip64 : Bool
  centralSizeZip64 : Bool
  centralOffsetZip64 : Bool
  centralOffset : Nat
  centralLen : Nat
deriving DecidableEq

inductive SegmentKind where
  | localHeader (index : Nat)
  | data (index : Nat)
  | centralEntry (index : Nat)
  | zip64Eocd
  | zip64Locator
  | eocd
deriving DecidableEq, Repr

structure Segment where
  start : Nat
  len : Nat
  kind : SegmentKind
deriving DecidableEq, Repr

structure ZipArchive where
  entries : List ZipEntry
  segments : List Segment
  totalSize : Nat
  cdOffset : Nat
  cdSize : Nat
  zip64EocdOffset : Nat

def ZipEntry.ofScanned (item : ScannedEntry) : ZipEntry where
  name := item.relativePath
  nameBytes := item.relativePath
  sourcePath := if item.isDir then none else some item.sourcePath
  size := item.size
  isDir := item.isDir
  localOffset := 0
  localHeaderLen := 0
  localZip64 := false
  centralSizeZip64 := false
  centralOffsetZip64 := false
  centralOffset := 0
  centralLen := 0

/-- The first pass: local headers and file data from `pos` on. -/
def layoutLocal : Nat → List ZipEntry → List ZipEntry × Nat
  | pos, [] => ([], pos)
  | pos, entry :: rest =>
      let localZip64 := !entry.isDir && decide (u32Max ≤ entry.size)
      let extra := if localZip64 then zip64ExtraHeader + zip64LocalData else 0
      let localHeaderLen := wrappingAdd (wrappingAdd localHeaderFixed entry.nameBytes.length) extra
      let later := layoutLocal (wrappingAdd pos (wrappingAdd localHeaderLen entry.size)) rest
      ({ entry with localZip64, localOffset := pos, localHeaderLen } :: later.1, later.2)

/-- The second pass: central directory entries from `cpos` on. -/
def layoutCentral : Nat → List ZipEntry → List ZipEntry × Nat
  | cpos, [] => ([], cpos)
  | cpos, entry :: rest =>
      let centralSizeZip64 := !entry.isDir && decide (u32Max ≤ entry.size)
      let centralOffsetZip64 := decide (u32Max ≤ entry.localOffset)
      let extraData := (if centralSizeZip64 then 16 else 0) + (if centralOffsetZip64 then 8 else 0)
      let extra := if 0 < extraData then zip64ExtraHeader + extraData else 0
      let centralLen := wrappingAdd (wrappingAdd centralEntryFixed entry.nameBytes.length) extra
      let later := layoutCentral (wrappingAdd cpos centralLen) rest
      ({ entry with centralSizeZip64, centralOffsetZip64, centralOffset := cpos, centralLen } :: later.1,
        later.2)

def localSegments : Nat → List ZipEntry → List Segment
  | _, [] => []
  | index, entry :: rest =>
      { start := entry.localOffset, len := entry.localHeaderLen, kind := .localHeader index } ::
        ((if 0 < entry.size then
            [{ start := wrappingAdd entry.localOffset entry.localHeaderLen, len := entry.size,
               kind := .data index }]
          else []) ++ localSegments (index + 1) rest)

def centralSegments : Nat → List ZipEntry → List Segment
  | _, [] => []
  | index, entry :: rest =>
      { start := entry.centralOffset, len := entry.centralLen, kind := .centralEntry index } ::
        centralSegments (index + 1) rest

def needsZip64Eocd (count cdSize cdOffset : Nat) : Bool :=
  decide (u16Max < count) || decide (u32Max ≤ cdSize) || decide (u32Max ≤ cdOffset)

/-- `ZipArchive::create` once the scan has answered `scanned`. -/
def ZipArchive.createFrom (scanned : List ScannedEntry) : ZipArchive :=
  let (entries, cdOffset) := layoutLocal 0 (scanned.map ZipEntry.ofScanned)
  let (entries, cpos) := layoutCentral cdOffset entries
  let cdSize := wrappingSub cpos cdOffset
  let needsZip64 := needsZip64Eocd entries.length cdSize cdOffset
  let zip64EocdOffset := cpos
  let total := if needsZip64 then wrappingAdd cpos (zip64EocdLen + zip64LocatorLen) else cpos
  let total := wrappingAdd total eocdFixed
  let zip64Segments : List Segment :=
    if needsZip64 then
      [{ start := zip64EocdOffset, len := zip64EocdLen, kind := .zip64Eocd },
       { start := wrappingAdd zip64EocdOffset zip64EocdLen, len := zip64LocatorLen, kind := .zip64Locator }]
    else []
  { entries
    segments := localSegments 0 entries ++ centralSegments 0 entries ++ zip64Segments ++
      [{ start := wrappingSub total eocdFixed, len := eocdFixed, kind := .eocd }]
    totalSize := total
    cdOffset
    cdSize
    zip64EocdOffset }

def findSegment (archive : ZipArchive) (pos : Nat) : Option Nat :=
  let index := partitionPoint (fun segment => decide (segment.start ≤ pos)) archive.segments
  if index = 0 then none
  else
    match archive.segments[index - 1]? with
    | some segment => if pos < wrappingAdd segment.start segment.len then some (index - 1) else none
    | none => none

end Raas.Zip
