import Raas.Archive.Format
import Raas.Archive.Scanner
import Raas.Data.Utf8

namespace Raas.Tar

open Data

def blockSize : Nat := 512

def endOfArchiveBlocks : Nat := 2

structure FileInfo where
  path : Bytes
  offset : Nat
  size : Nat
  isDir : Bool
  mode : Nat
  mtime : Nat
deriving DecidableEq, Repr

/-- `tar::Header` as far as the archive builder uses it. A header is a `[u8; 512]`
underneath; `setPath` takes the header by mutable reference, so it also has a
resulting header when it fails. -/
structure HeaderCrate where
  Header : Type
  newGnu : Header
  setSize : Header → Nat → Header
  setEntryType : Header → UInt8 → Header
  setMode : Header → Nat → Header
  setUid : Header → Nat → Header
  setGid : Header → Nat → Header
  setMtime : Header → Nat → Header
  setCksum : Header → Header
  setPath : Header → Bytes → Except IoError Unit × Header
  /-- `header.as_gnu_mut().unwrap().name[..name.len()].clone_from_slice(name)` -/
  writeName : Header → Bytes → Header
  asBytes : Header → Bytes
  asBytes_length : ∀ header, (asBytes header).length = blockSize

/-- `header.as_old().name.len()` -/
def nameLength : Nat := 100

def fileType : UInt8 := 48
def dirType : UInt8 := 53
def longNameType : UInt8 := 76

/-- `b"././@LongLink"` -/
def longLinkName : Bytes := [46, 47, 46, 47, 64, 76, 111, 110, 103, 76, 105, 110, 107]

def calculatePadding (contentSize : Nat) : Nat := (blockSize - contentSize % blockSize) % blockSize

def alignToBoundary (offset boundary : Nat) : Nat :=
  let remainder := offset % boundary
  if remainder = 0 then offset else wrappingAdd offset (boundary - remainder)

def alignTo512Bytes (data : Bytes) : Bytes :=
  let targetLength := (data.length + blockSize - 1) / blockSize * blockSize
  data ++ List.replicate (targetLength - data.length) 0

variable (crate : HeaderCrate)

def prepareHeader (size : Nat) (entryType : UInt8) : crate.Header :=
  let header := crate.writeName crate.newGnu longLinkName
  let header := crate.setMode header 0o644
  let header := crate.setUid header 0
  let header := crate.setGid header 0
  let header := crate.setMtime header 0
  let header := crate.setSize header (wrappingAdd size 1)
  let header := crate.setEntryType header entryType
  crate.setCksum header

/-- The part of `set_path_with_gnu_extension` after the direct `set_path` has failed
with `reason` on a path that is too long for the name field. -/
def longPathHeader (header : crate.Header) (path : Bytes) : Except IoError Bytes :=
  let longHeader := prepareHeader crate path.length longNameType
  let padding := calculatePadding (path.length + 1)
  -- cut at the last character boundary that fits
  let front := path.take (min nameLength path.length)
  let truncated := front.take (Utf8.validUpTo front)
  match crate.setPath header truncated with
  | (.error reason, _) => .error reason
  | (.ok (), header) =>
      let header := crate.setCksum header
      .ok (alignTo512Bytes (crate.asBytes longHeader) ++
        (path ++ [0] ++ List.replicate padding 0) ++ alignTo512Bytes (crate.asBytes header))

def setPathWithGnuExtension (header : crate.Header) (path : Bytes) : Except IoError Bytes :=
  match crate.setPath header path with
  | (.error reason, header) =>
      if path.length ≤ nameLength then .error reason else longPathHeader crate header path
  | (.ok (), header) => .ok (crate.asBytes (crate.setCksum header))

def entryHeader (info : FileInfo) : crate.Header :=
  let header := crate.newGnu
  let header :=
    if info.isDir then crate.setEntryType (crate.setSize header 0) dirType
    else crate.setEntryType (crate.setSize header info.size) fileType
  let header := crate.setMode header info.mode
  let header := crate.setUid header 0
  let header := crate.setGid header 0
  crate.setMtime header info.mtime

def createHeader (info : FileInfo) : Except ArchiveError Bytes :=
  (setPathWithGnuExtension crate (entryHeader crate info) info.path).mapError .io

/-! Arithmetic of the 512-byte grid. -/

theorem calculatePadding_lt (size : Nat) : calculatePadding size < blockSize :=
  Nat.mod_lt _ (by decide)

theorem add_calculatePadding_mod (size : Nat) : (size + calculatePadding size) % blockSize = 0 := by
  simp only [calculatePadding, blockSize]
  omega

/-- A block boundary less than a block away is what the padding leads to. -/
theorem add_calculatePadding {position stop : Nat} (aligned : stop % blockSize = 0) (before : position ≤ stop)
    (near : stop < position + blockSize) : position + calculatePadding position = stop := by
  simp only [calculatePadding, blockSize] at aligned near ⊢
  omega

theorem alignToBoundary_of_aligned {offset : Nat} (aligned : offset % blockSize = 0) :
    alignToBoundary offset blockSize = offset := by
  simp [alignToBoundary, aligned]

theorem alignTo512Bytes_of_aligned {data : Bytes} (aligned : data.length % blockSize = 0) :
    alignTo512Bytes data = data := by
  have whole : (data.length + blockSize - 1) / blockSize * blockSize = data.length := by
    simp only [blockSize] at aligned ⊢
    omega
  simp [alignTo512Bytes, whole]

theorem createHeader_length {crate : HeaderCrate} {info : FileInfo} {header : Bytes}
    (created : createHeader crate info = .ok header) :
    0 < header.length ∧ header.length % blockSize = 0 := by
  simp only [createHeader] at created
  generalize entryHeader crate info = prepared at created
  unfold setPathWithGnuExtension at created
  have block (header : crate.Header) :
      alignTo512Bytes (crate.asBytes header) = crate.asBytes header :=
    alignTo512Bytes_of_aligned (by rw [crate.asBytes_length, Nat.mod_self])
  cases placed : crate.setPath prepared info.path with
  | mk result header' =>
      cases result with
      | ok _ =>
          simp only [placed, Except.mapError, Except.ok.injEq] at created
          rw [← created, crate.asBytes_length]
          decide
      | error reason =>
          simp only [placed] at created
          split at created
          · simp [Except.mapError] at created
          · unfold longPathHeader at created
            cases again : crate.setPath header'
                ((info.path.take (min nameLength info.path.length)).take
                  (Utf8.validUpTo (info.path.take (min nameLength info.path.length)))) with
            | mk result final =>
                cases result with
                | error reason => simp [again, Except.mapError] at created
                | ok _ =>
                    simp only [again, Except.mapError, Except.ok.injEq] at created
                    have grid := add_calculatePadding_mod (info.path.length + 1)
                    simp only [← created, block, List.length_append, crate.asBytes_length,
                      List.length_replicate, List.length_singleton, blockSize] at grid ⊢
                    omega

end Raas.Tar
