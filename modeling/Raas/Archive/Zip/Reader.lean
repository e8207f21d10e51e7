import Raas.Archive.Zip.Checksum
import Raas.Cache.FileHandle
import Raas.Data.Positional

namespace Raas.Zip

open Data

/-- `ZipRangeReader` without the archive it borrows. -/
structure ZipRangeReader where
  endPos : Nat
  currentPos : Nat
  fileHandleCache : FileHandleCache
  scratch : Bytes

def ZipArchive.streamRange (start stop : Nat) : ZipRangeReader where
  endPos := stop
  currentPos := start
  fileHandleCache := .new
  scratch := []

/-- What outlives a single read: the checksums kept by the archive and the clock. -/
structure World where
  cells : CrcCells
  now : Nat

/-- What one turn of the read loop may change besides the buffer. -/
structure Progress where
  files : FileHandleCache
  scratch : Bytes
  world : World

def unexpectedEof (message : String) : Fault IoError := .error { kind := .unexpectedEof, message }

/-- The arm for a data segment: read `want` bytes of the entry's file. -/
def readData (os : Files) (archive : ZipArchive) (progress : Progress)
    (entryIndex offsetInSegment want : Nat) : Except (Fault IoError) Bytes × Progress :=
  match archive.entries[entryIndex]? with
  | none => (.error (.panic "index out of bounds"), progress)
  | some entry =>
      match entry.sourcePath with
      | none => (.error (.panic "数据区间必须包含源路径"), progress)
      | some source =>
          match progress.files.readAt os progress.world.now source offsetInSegment want with
          | (.error reason, files, now) =>
              (.error (.error reason), { progress with files, world := { progress.world with now } })
          | (.ok bytes, files, now) =>
              let progress := { progress with files, world := { progress.world with now } }
              if bytes.length = 0 then
                (.error (unexpectedEof ("读取源文件 " ++ text entry.name ++ " 时提前结束")), progress)
              else (.ok bytes, progress)

/-- The arm for every other segment: encode it whole and copy `want` bytes of it. -/
def readEncoded (pointerBits : Nat) (feature : CrcFeature) (fuel : Nat) (os : Files) (archive : ZipArchive)
    (progress : Progress) (kind : SegmentKind) (offsetInSegment want : Nat) :
    Except (Fault IoError) Bytes × Progress :=
  match writeSegmentInto feature fuel os archive kind progress.world.cells progress.world.now with
  | (.error reason, cells, now) => (.error reason, { progress with scratch := [], world := { cells, now } })
  | (.ok scratch, cells, now) =>
      (slice scratch (asUsize pointerBits offsetInSegment) want,
        { progress with scratch, world := { cells, now } })

def readStep (pointerBits : Nat) (feature : CrcFeature) (fuel : Nat) (os : Files) (archive : ZipArchive)
    (endPos : Nat) (progress : Progress) (pos room : Nat) : Except (Fault IoError) Bytes × Progress :=
  match findSegment archive pos with
  | none => (.error (unexpectedEof s!"无法定位偏移 {pos} 所属的 Zip 区间"), progress)
  | some index =>
      match archive.segments[index]? with
      | none => (.error (.panic "index out of bounds"), progress)
      | some segment =>
          let offsetInSegment := pos - segment.start
          let want :=
            min (min room (asUsize pointerBits (segment.len - offsetInSegment)))
              (asUsize pointerBits (endPos - pos))
          match segment.kind with
          | .data entryIndex => readData os archive progress entryIndex offsetInSegment want
          | kind => readEncoded pointerBits feature fuel os archive progress kind offsetInSegment want

def readIntoBuffer (pointerBits : Nat) (feature : CrcFeature) (fuel : Nat) (os : Files)
    (archive : ZipArchive) (reader : ZipRangeReader) (world : World) (capacity : Nat) :
    Except (Fault IoError) Bytes × ZipRangeReader × World :=
  if reader.endPos ≤ reader.currentPos ∨ archive.totalSize ≤ reader.currentPos then (.ok [], reader, world)
  else
    match fill (readStep pointerBits feature fuel os archive reader.endPos) .exhausted capacity reader.endPos
        archive.totalSize fuel { files := reader.fileHandleCache, scratch := reader.scratch, world }
        reader.currentPos [] with
    | (.error reason, progress) =>
        (.error reason,
          { reader with fileHandleCache := progress.files, scratch := progress.scratch }, progress.world)
    | (.ok (bytes, pos), progress) =>
        (.ok bytes,
          { reader with currentPos := pos, fileHandleCache := progress.files, scratch := progress.scratch },
          progress.world)

def read (pointerBits : Nat) (feature : CrcFeature) (fuel : Nat) (os : Files) (archive : ZipArchive)
    (reader : ZipRangeReader × World) (capacity : Nat) :
    Except (Fault IoError) Bytes × ZipRangeReader × World :=
  readIntoBuffer pointerBits feature fuel os archive reader.1 reader.2 capacity

end Raas.Zip
