import Raas.Archive.Tar.Index
import Raas.Cache.FileHandle
import Raas.Data.Positional

namespace Raas.Tar

open Data

/-- `RangeStreamWriter` without the archive it borrows. -/
structure RangeStreamWriter where
  endPos : Nat
  currentPos : Nat
  cursor : Nat
  fileHandleCache : FileHandleCache

def TarArchive.streamRange (start stop : Nat) : RangeStreamWriter where
  endPos := stop
  currentPos := start
  cursor := 0
  fileHandleCache := .new

def itemEnd (entry : TarEntry) : Nat :=
  wrappingAdd (wrappingAdd entry.info.offset entry.header.length) entry.info.size

/-- The last entry that starts at or before `pos`, if its header or content covers `pos`. -/
def locateSearch (archive : TarArchive) (cursor pos : Nat) : Option Nat × Nat :=
  let candidate := partitionPoint (fun entry => decide (entry.offset ≤ pos)) archive.entries
  if candidate = 0 then (none, cursor)
  else
    match archive.entries[candidate - 1]? with
    | some entry => if pos < itemEnd entry then (some (candidate - 1), candidate - 1) else (none, cursor)
    | none => (none, cursor)

def locate (archive : TarArchive) (cursor pos : Nat) : Option Nat × Nat :=
  if archive.entries.length = 0 then (none, cursor)
  else
    match archive.entries[cursor]? with
    | some entry =>
        if entry.info.offset ≤ pos ∧ pos < itemEnd entry then (some cursor, cursor)
        else locateSearch archive cursor pos
    | none => locateSearch archive cursor pos

def sourceFilePath (archive : TarArchive) (sourceIsFile : Bool) (entry : TarEntry) : Path :=
  if sourceIsFile then archive.sourcePath
  else archive.sourcePath.join (Path.trimEndSlashes entry.info.path)

/-- What one turn of the read loop may change besides the buffer. -/
structure Progress where
  cursor : Nat
  files : FileHandleCache
  now : Nat

/-- The body of the loop in `read_into_buffer`, with `room` bytes of the buffer left. -/
def readStep (pointerBits : Nat) (os : Files) (archive : TarArchive) (endPos : Nat)
    (progress : Progress) (pos room : Nat) : Except (Fault ArchiveError) Bytes × Progress :=
  match locate archive progress.cursor pos with
  | (none, cursor) =>
      let limit := min (min room (endPos - pos)) (archive.totalSize - pos)
      let paddingNeeded := calculatePadding pos
      let bytesToAdd :=
        asUsize pointerBits (if paddingNeeded = 0 then limit else min paddingNeeded limit)
      (.ok (List.replicate bytesToAdd 0), { progress with cursor })
  | (some index, cursor) =>
      match archive.entries[index]? with
      | none => (.error (.panic "index out of bounds"), { progress with cursor })
      | some entry =>
          let headerStart := entry.info.offset
          let headerEnd := wrappingAdd headerStart entry.header.length
          let contentStart := headerEnd
          let contentEnd := wrappingAdd contentStart entry.info.size
          if headerStart ≤ pos ∧ pos < headerEnd then
            let posInHeader := asUsize pointerBits (pos - headerStart)
            let bytesToRead :=
              min (min (entry.header.length - posInHeader) room) (asUsize pointerBits (endPos - pos))
            (slice entry.header posInHeader bytesToRead, { progress with cursor })
          else if contentStart ≤ pos ∧ pos < contentEnd then
            let source := sourceFilePath archive (os.isFile progress.now archive.sourcePath) entry
            let bytesToRead :=
              min (min room (asUsize pointerBits (contentEnd - pos))) (asUsize pointerBits (endPos - pos))
            match progress.files.readAt os (progress.now + 1) source (pos - contentStart) bytesToRead with
            | (.error reason, files, now) => (.error (.error (.io reason)), { cursor, files, now })
            | (.ok bytes, files, now) => (.ok bytes, { cursor, files, now })
          else
            (.error (.error (.unexpectedError
              (s!"Unexpected position {pos} outside of file content range for " ++ text entry.info.path))),
              { progress with cursor })

def readIntoBuffer (pointerBits fuel : Nat) (os : Files) (archive : TarArchive)
    (reader : RangeStreamWriter) (now capacity : Nat) :
    Except (Fault ArchiveError) Bytes × RangeStreamWriter × Nat :=
  if reader.endPos ≤ reader.currentPos ∨ archive.totalSize ≤ reader.currentPos then (.ok [], reader, now)
  else
    match fill (readStep pointerBits os archive reader.endPos) .exhausted capacity reader.endPos
        archive.totalSize fuel { cursor := reader.cursor, files := reader.fileHandleCache, now }
        reader.currentPos [] with
    | (.error reason, progress) =>
        (.error reason,
          { reader with cursor := progress.cursor, fileHandleCache := progress.files }, progress.now)
    | (.ok (bytes, pos), progress) =>
        (.ok bytes,
          { reader with currentPos := pos, cursor := progress.cursor, fileHandleCache := progress.files },
          progress.now)

def read (pointerBits fuel : Nat) (os : Files) (archive : TarArchive)
    (reader : RangeStreamWriter × Nat) (capacity : Nat) :
    Except (Fault IoError) Bytes × RangeStreamWriter × Nat :=
  let (result, after) := readIntoBuffer pointerBits fuel os archive reader.1 reader.2 capacity
  (result.mapError (Fault.mapError fun reason => .other reason.toString), after)

end Raas.Tar
