import Raas.Archive.Tar.Decode
import Raas.Archive.Tar.Reference

namespace Raas.Tar

open Data

/-! Walking what the builder and the reader produce. -/

/-- A block that the reader takes as a header with these values. -/
structure Readable (block : Bytes) (typeflag : UInt8) (size mode mtime : Nat) : Prop where
  length : block.length = blockSize
  header : isHeader block = true
  nonzero : block ≠ zeroBlock
  typeflag : Field.typeflag.of block = [typeflag]
  size : readNumber (Field.size.of block) = size
  mode : readNumber (Field.mode.of block) = mode
  mtime : readNumber (Field.mtime.of block) = mtime

section Headers

variable {crate : HeaderCrate} {typeflag : UInt8} {size mode mtime : Nat}

theorem HeaderCrate.Gnu.readable (gnu : crate.Gnu) {header : crate.Header}
    (magicIs : Field.magic.of (crate.asBytes header) = gnuMagic)
    (typeIs : Field.typeflag.of (crate.asBytes header) = [typeflag])
    (sizeIs : Field.size.of (crate.asBytes header) = numberField 12 size) (sizeFits : size < u64Size)
    (modeIs : Field.mode.of (crate.asBytes header) = octalField 8 mode) (modeFits : mode < 4096)
    (mtimeIs : Field.mtime.of (crate.asBytes header) = numberField 12 mtime) (mtimeFits : mtime < u64Size) :
    Readable (crate.asBytes (crate.setCksum header)) typeflag size mode mtime := by
  have kept : ∀ field : Field, field ≠ .cksum →
      field.of (crate.asBytes (crate.setCksum header)) = field.of (crate.asBytes header) := by
    intro field other
    rw [gnu.setCksum, if_neg other]
  have magicKept := (kept .magic (by decide)).trans magicIs
  refine ⟨crate.asBytes_length _, ?_, ?_, ?_, ?_, ?_, ?_⟩
  · have sealed := gnu.setCksum header .cksum
    rw [if_pos rfl] at sealed
    have back := readOctal_octalField 8 (checksum_lt (crate.asBytes header))
    simp only [isHeader, magicKept, sealed, back, checksum_congr kept, beq_self_eq_true, Bool.and_self]
  · intro zero
    rw [zero] at magicKept
    exact absurd magicKept (by decide)
  · rw [kept _ (by decide), typeIs]
  · rw [kept _ (by decide), sizeIs, readNumber_numberField sizeFits]
  · rw [kept _ (by decide), modeIs]
    exact readNumber_octalField (by decide) (Nat.lt_trans modeFits (by decide))
  · rw [kept _ (by decide), mtimeIs, readNumber_numberField mtimeFits]

theorem HeaderCrate.Gnu.longLink_readable (gnu : crate.Gnu) {size : Nat} (fits : size + 1 < u64Size) :
    Readable (crate.asBytes (prepareHeader crate size longNameType)) longNameType (size + 1) 0o644 0 := by
  unfold prepareHeader
  refine gnu.readable ?_ ?_ ?_ fits ?_ (by decide) ?_ (by decide) <;>
    simp [gnu.setEntryType, gnu.setSize, gnu.setMtime, gnu.setGid, gnu.setUid, gnu.setMode, gnu.writeName,
      gnu.newGnu, wrappingAdd_of_lt fits]

def typeOf (info : FileInfo) : UInt8 := if info.isDir then dirType else fileType

theorem HeaderCrate.Gnu.entry_readable (gnu : crate.Gnu) {info : FileInfo}
    (directory : info.isDir = true → info.size = 0) (sizeFits : info.size < u64Size)
    (modeFits : info.mode < 4096) (mtimeFits : info.mtime < u64Size) {header : crate.Header}
    (kept : ∀ field : Field, field ≠ .name →
      field.of (crate.asBytes header) = field.of (crate.asBytes (entryHeader crate info))) :
    Readable (crate.asBytes (crate.setCksum header)) (typeOf info) info.size info.mode info.mtime := by
  refine gnu.readable ?_ ?_ ?_ sizeFits ?_ modeFits ?_ mtimeFits
  all_goals
    rw [kept _ (by decide)]
    unfold entryHeader
    cases isDir : info.isDir
  all_goals
    simp [gnu.setEntryType, gnu.setSize, gnu.setMtime, gnu.setGid, gnu.setUid, gnu.setMode, gnu.newGnu, typeOf,
      isDir]
  exact congrArg _ (directory isDir).symm

/-- The two forms of a header group: one block that holds the path, or a long-link
header, the path with its NUL and padding, and a block whose name does not matter. -/
theorem HeaderCrate.Gnu.createHeader_cases (gnu : crate.Gnu) {info : FileInfo} {header : Bytes}
    (created : createHeader crate info = .ok header) (plain : PlainPath info.path)
    (directory : info.isDir = true → info.size = 0) (sizeFits : info.size < u64Size)
    (modeFits : info.mode < 4096) (mtimeFits : info.mtime < u64Size) (fits : header.length < u64Size) :
    (Readable header (typeOf info) info.size info.mode info.mtime ∧ 0 ∉ info.path ∧
      info.path.length ≤ nameLength ∧
      Field.name.of header = info.path ++ List.replicate (nameLength - info.path.length) 0) ∨
    ∃ long block, Readable long longNameType (info.path.length + 1) 0o644 0 ∧
      Readable block (typeOf info) info.size info.mode info.mtime ∧
      header = long ++ (info.path ++ [0] ++ List.replicate (calculatePadding (info.path.length + 1)) 0) ++ block := by
  have block (header : crate.Header) : alignTo512Bytes (crate.asBytes header) = crate.asBytes header :=
    alignTo512Bytes_of_aligned (by rw [crate.asBytes_length, Nat.mod_self])
  have pathKept := gnu.setPath (entryHeader crate info) info.path
  unfold createHeader setPathWithGnuExtension at created
  by_cases short : info.path.length ≤ nameLength
  · by_cases nul : 0 ∈ info.path
    · obtain ⟨reason, refused⟩ := gnu.refuses (entryHeader crate info) info.path plain (.inr nul)
      cases placed : crate.setPath (entryHeader crate info) info.path with
      | mk result header' =>
          rw [placed] at refused
          dsimp only at refused
          subst refused
          simp [placed, short, Except.mapError] at created
    · obtain ⟨stored, name⟩ := gnu.stores (entryHeader crate info) info.path plain short nul
      cases placed : crate.setPath (entryHeader crate info) info.path with
      | mk result header' =>
          rw [placed] at stored name pathKept
          dsimp only at stored name pathKept
          subst stored
          simp only [placed, Except.mapError, Except.ok.injEq] at created
          subst created
          refine .inl ⟨gnu.entry_readable directory sizeFits modeFits mtimeFits pathKept, nul, short, ?_⟩
          rw [gnu.setCksum, if_neg (by decide), name]
  · obtain ⟨reason, refused⟩ := gnu.refuses (entryHeader crate info) info.path plain (.inl (by omega))
    cases placed : crate.setPath (entryHeader crate info) info.path with
    | mk result header' =>
        rw [placed] at refused pathKept
        dsimp only at refused pathKept
        subst refused
        simp only [placed, if_neg short, longPathHeader, block] at created
        have truncatedKept := gnu.setPath header' ((info.path.take (min nameLength info.path.length)).take
          (Utf8.validUpTo (info.path.take (min nameLength info.path.length))))
        cases again : crate.setPath header' ((info.path.take (min nameLength info.path.length)).take
            (Utf8.validUpTo (info.path.take (min nameLength info.path.length)))) with
        | mk result final =>
            rw [again] at truncatedKept
            cases result with
            | error reason => simp [again, Except.mapError] at created
            | ok _ =>
                simp only [again, Except.mapError, Except.ok.injEq] at created
                have small : info.path.length + 1 < u64Size := by
                  rw [← created] at fits
                  simp only [List.length_append, List.length_singleton, crate.asBytes_length, blockSize] at fits
                  omega
                refine .inr ⟨_, _, gnu.longLink_readable small, gnu.entry_readable directory sizeFits modeFits
                  mtimeFits fun field other => ?_, created.symm⟩
                exact (truncatedKept field other).trans (pathKept field other)

end Headers

section Walk

variable {fuel position stop : Nat} {pending : Option (Bytes × Nat)} {bytes rest : Bytes} {members : List Member}

theorem walk_succ {result : List Member × Nat} (found : walk fuel position pending bytes = some result) :
    walk (fuel + 1) position pending bytes = some result := by
  induction fuel generalizing position pending bytes result with
  | zero => simp [walk] at found
  | succ fuel ih =>
      rw [walk] at found ⊢
      simp only [Option.bind_eq_bind, Option.bind_eq_some_iff] at found ⊢
      obtain ⟨taken, split, found⟩ := found
      refine ⟨taken, split, ?_⟩
      split at found
      · rename_i zero
        rw [if_pos zero]
        exact found
      · rename_i nonzero
        rw [if_neg nonzero]
        simp only [Option.bind_eq_some_iff] at found ⊢
        obtain ⟨_, guarded, data, takenData, padding, takenPadding, found⟩ := found
        refine ⟨_, guarded, data, takenData, padding, takenPadding, ?_⟩
        split at found
        · rename_i long
          rw [if_pos long]
          exact ih found
        · rename_i regular
          rw [if_neg regular]
          simp only [Option.bind_eq_some_iff] at found ⊢
          obtain ⟨_, kind, inner, walked, found⟩ := found
          exact ⟨_, kind, inner, ih walked, found⟩

theorem walk_mono {less : Nat} (ordered : less ≤ fuel) {result : List Member × Nat}
    (found : walk less position pending bytes = some result) :
    walk fuel position pending bytes = some result := by
  induction ordered with
  | refl => exact found
  | step _ ih => exact walk_succ ih

theorem walk_trailer (position fuel : Nat) :
    walk (fuel + 1) position none (List.replicate (endOfArchiveBlocks * blockSize) 0) = some ([], position) := by
  have halves : List.replicate (endOfArchiveBlocks * blockSize) (0 : UInt8) = zeroBlock ++ zeroBlock :=
    List.replicate_add blockSize blockSize (0 : UInt8)
  have length : zeroBlock.length = blockSize := List.length_replicate
  have whole : zeroBlock.take blockSize = zeroBlock := List.take_of_length_le (Nat.le_of_eq length)
  rw [walk, halves, takeBytes_append length]
  simp only [Option.bind_eq_bind, Option.bind_some, if_true, whole, guard, and_self, Option.pure_def]

theorem takeBytes_item {block data : Bytes} {typeflag : UInt8} {size mode mtime : Nat}
    (readable : Readable block typeflag size mode mtime) (length : data.length = size) (rest : Bytes) :
    takeBytes blockSize (block ++ (data ++ (List.replicate (calculatePadding size) 0 ++ rest))) =
        some (block, data ++ (List.replicate (calculatePadding size) 0 ++ rest)) ∧
      takeBytes size (data ++ (List.replicate (calculatePadding size) 0 ++ rest)) =
        some (data, List.replicate (calculatePadding size) 0 ++ rest) ∧
      takeBytes (calculatePadding size) (List.replicate (calculatePadding size) 0 ++ rest) =
        some (List.replicate (calculatePadding size) 0, rest) :=
  ⟨takeBytes_append readable.length _, takeBytes_append length _, takeBytes_append List.length_replicate _⟩

/-- A long-link group announces the name of the entry after it. -/
theorem walk_longLink {long path : Bytes} {mode mtime : Nat}
    (readable : Readable long longNameType (path.length + 1) mode mtime) (fuel position : Nat) (rest : Bytes) :
    walk (fuel + 1) position none
        (long ++ (path ++ [0] ++ (List.replicate (calculatePadding (path.length + 1)) 0 ++ rest))) =
      walk fuel (position + blockSize + (path.length + 1) + calculatePadding (path.length + 1))
        (some (path, position)) rest := by
  obtain ⟨header, data, padding⟩ := takeBytes_item readable (show (path ++ [0]).length = path.length + 1 by simp) rest
  have name : withoutNul (path ++ [0]) = path := by
    simp [withoutNul]
  rw [walk, header]
  simp only [Option.bind_eq_bind, Option.bind_some, readable.nonzero, if_false, readable.header, guard, if_true,
    Option.pure_def, readable.size, data, padding, readable.typeflag, name, Option.map_none, Option.getD_none]

/-- A regular entry is extracted under its pending name, or under its own. -/
theorem walk_entry {block data : Bytes} {info : FileInfo} {mode mtime : Nat}
    (readable : Readable block (typeOf info) info.size mode mtime) (length : data.length = info.size)
    (continues : walk fuel (position + blockSize + info.size + calculatePadding info.size) none rest =
      some (members, stop)) (pending : Option (Bytes × Nat)) :
    walk (fuel + 1) position pending
        (block ++ (data ++ (List.replicate (calculatePadding info.size) 0 ++ rest))) =
      some ({ path := (pending.map Prod.fst).getD ((Field.name.of block).takeWhile (· != 0))
              isDir := info.isDir
              size := info.size
              mode
              mtime
              content := data
              position := (pending.map Prod.snd).getD position } :: members, stop) := by
  obtain ⟨header, taken, padding⟩ := takeBytes_item readable length rest
  have short : ([typeOf info] : Bytes) ≠ [longNameType] := by
    unfold typeOf
    cases info.isDir <;> decide
  have kind : ([typeOf info] : Bytes) = [fileType] ∨ ([typeOf info] : Bytes) = [dirType] := by
    unfold typeOf
    cases info.isDir
    · exact .inl rfl
    · exact .inr rfl
  have directory : decide (([typeOf info] : Bytes) = [dirType]) = info.isDir := by
    unfold typeOf
    cases info.isDir <;> decide
  rw [walk, header]
  simp only [Option.bind_eq_bind, Option.bind_some, readable.nonzero, if_false, readable.header, guard, if_true,
    Option.pure_def, readable.size, taken, padding, readable.typeflag, short, kind, continues, readable.mode,
    readable.mtime, directory]

end Walk

def memberOf (content : TarEntry → Bytes) (entry : TarEntry) : Member where
  path := entry.info.path
  isDir := entry.info.isDir
  size := entry.info.size
  mode := entry.info.mode
  mtime := entry.info.mtime
  content := content entry
  position := entry.offset

section Archive

variable {crate : HeaderCrate} {content : TarEntry → Bytes} {entry : TarEntry} {item : ScannedEntry}
  {fuel stop : Nat} {rest : Bytes} {members : List Member}

theorem takeWhile_padded {path : Bytes} (clean : 0 ∉ path) (count : Nat) :
    (path ++ List.replicate count 0).takeWhile (· != 0) = path := by
  have every : ∀ byte ∈ path, (byte != 0) = true := by
    intro byte member
    rw [bne_iff_ne]
    intro same
    subst same
    exact clean member
  have none : (List.replicate count (0 : UInt8)).takeWhile (· != 0) = [] := by
    cases count with
    | zero => rfl
    | succ count => rfl
  rw [List.takeWhile_append_of_pos every, none, List.append_nil]

theorem walk_image (gnu : crate.Gnu) (described : Describes crate item entry) (plain : PlainPath item.relativePath)
    (span : entry.offset + entry.span < u64Size) (size : (content entry).length = entry.info.size)
    (continues : walk fuel (entry.offset + entry.span) none rest = some (members, stop)) :
    walk (fuel + 2) entry.offset none (entry.image (content entry) ++ rest) =
      some (memberOf content entry :: members, stop) := by
  have width : entry.span = entry.header.length + entry.info.size + calculatePadding entry.info.size := rfl
  obtain ⟨created, info⟩ := described
  have same : entry.info.path = (FileInfo.ofScanned item).path ∧ entry.info.isDir = (FileInfo.ofScanned item).isDir ∧
      entry.info.size = (FileInfo.ofScanned item).size ∧ entry.info.mode = (FileInfo.ofScanned item).mode ∧
      entry.info.mtime = (FileInfo.ofScanned item).mtime := by
    rw [info]
    exact ⟨rfl, rfl, rfl, rfl, rfl⟩
  obtain ⟨path, isDir, sizeSame, mode, mtime⟩ := same
  have directory : (FileInfo.ofScanned item).isDir = true → (FileInfo.ofScanned item).size = 0 := fun is => if_pos is
  have member : memberOf content entry =
      { path := (FileInfo.ofScanned item).path, isDir := (FileInfo.ofScanned item).isDir
        size := (FileInfo.ofScanned item).size, mode := (FileInfo.ofScanned item).mode
        mtime := (FileInfo.ofScanned item).mtime, content := content entry, position := entry.offset } := by
    rw [memberOf, path, isDir, sizeSame, mode, mtime]
  rw [sizeSame] at width size
  rcases gnu.createHeader_cases created plain directory (by omega) item.modeMasked item.mtimeFits (by omega) with
    ⟨readable, clean, _, name⟩ | ⟨long, block, longReadable, readable, header⟩
  · have next : entry.offset + entry.span = entry.offset + blockSize + (FileInfo.ofScanned item).size +
        calculatePadding (FileInfo.ofScanned item).size := by
      rw [width, readable.length]
      omega
    rw [next] at continues
    have walked := walk_entry readable size (walk_succ continues) none
    rw [name, takeWhile_padded clean] at walked
    rw [TarEntry.image, sizeSame, List.append_assoc, List.append_assoc, member]
    exact walked
  · have length : entry.header.length = blockSize + ((FileInfo.ofScanned item).path.length + 1 +
        calculatePadding ((FileInfo.ofScanned item).path.length + 1)) + blockSize := by
      rw [header]
      simp only [List.length_append, longReadable.length, readable.length, List.length_singleton,
        List.length_replicate]
    have next : entry.offset + entry.span = entry.offset + blockSize + ((FileInfo.ofScanned item).path.length + 1) +
        calculatePadding ((FileInfo.ofScanned item).path.length + 1) + blockSize + (FileInfo.ofScanned item).size +
        calculatePadding (FileInfo.ofScanned item).size := by
      rw [width, length]
      omega
    rw [next] at continues
    have walked := walk_entry readable size continues (some ((FileInfo.ofScanned item).path, entry.offset))
    rw [TarEntry.image, sizeSame, header, member]
    simp only [List.append_assoc]
    have announced := walk_longLink longReadable (fuel + 1) entry.offset
      (block ++ (content entry ++ (List.replicate (calculatePadding (FileInfo.ofScanned item).size) 0 ++ rest)))
    simp only [List.append_assoc] at announced
    rw [announced, walked]
    rfl

/-- Walking over all entries extracts them in order and stops at the end blocks. -/
theorem walk_entries (gnu : crate.Gnu) {scanned : List ScannedEntry} {entries : List TarEntry} {base : Nat}
    (tiles : Tiles TarEntry.offset TarEntry.span base entries stop)
    (described : List.Forall₂ (Describes crate) scanned entries)
    (plain : ∀ item ∈ scanned, PlainPath item.relativePath) (fits : stop < u64Size)
    (sizes : ∀ entry ∈ entries, (content entry).length = entry.info.size) :
    walk (2 * entries.length + 1) base none (entries.flatMap (fun entry => entry.image (content entry)) ++
        List.replicate (endOfArchiveBlocks * blockSize) 0) =
      some (entries.map (memberOf content), stop) := by
  induction tiles generalizing scanned with
  | nil => exact walk_trailer _ 0
  | @cons base stop entry rest starts nonempty tail ih =>
      cases described with
      | @cons item _ scanned _ here described =>
          have later := ih described (fun other member => plain other (by simp [member])) fits
            fun other member => sizes other (by simp [member])
          have ends := tail.base_le
          rw [← starts] at later ends
          have walked := walk_image gnu here (plain item (by simp)) (by omega) (sizes entry (by simp)) later
          rw [List.flatMap_cons, List.append_assoc, ← starts]
          exact walked

theorem TarArchive.WellFormed.decode_reference {archive : TarArchive} (wellFormed : archive.WellFormed)
    (gnu : crate.Gnu) {scanned : List ScannedEntry}
    (described : List.Forall₂ (Describes crate) scanned archive.entries)
    (plain : ∀ item ∈ scanned, PlainPath item.relativePath)
    (sizes : ∀ entry ∈ archive.entries, (content entry).length = entry.info.size) :
    decode (archive.reference content) =
      some (archive.entries.map (memberOf content), archive.totalSize - endOfArchiveBlocks * blockSize) := by
  have ending := wellFormed.ending
  have bounded := wellFormed.bounded
  have total := wellFormed.reference_length sizes
  have walked := walk_entries gnu wellFormed.tiles described plain (by omega) sizes
  have wide : ∀ entry ∈ archive.entries, 2 ≤ entry.span := by
    intro entry member
    obtain ⟨positive, aligned⟩ := wellFormed.headers entry member
    rw [TarEntry.span]
    simp only [blockSize] at aligned
    omega
  have counted := wellFormed.tiles.mul_length_le wide
  rw [decode, total]
  exact walk_mono (by omega) walked

end Archive

/-- The path that the reader opens for an entry: it is made of the name in the archive. -/
def openedPath (sourcePath : Path) (sourceIsFile : Bool) (item : ScannedEntry) : Path :=
  if sourceIsFile then sourcePath else sourcePath.join (Path.trimEndSlashes item.relativePath)

theorem Describes.openedPath {crate : HeaderCrate} {item : ScannedEntry} {entry : TarEntry}
    (described : Describes crate item entry) (archive : TarArchive) (sourceIsFile : Bool) :
    sourceFilePath archive sourceIsFile entry = openedPath archive.sourcePath sourceIsFile item := by
  rw [sourceFilePath, Tar.openedPath, described.2]
  rfl

/-- A member says what was scanned, and its content is that of the scanned file. -/
structure Recovers (paths : Path → Option Bytes) (item : ScannedEntry) (member : Member) : Prop where
  path : member.path = item.relativePath
  isDir : member.isDir = item.isDir
  size : member.size = item.size
  mode : member.mode = item.mode
  mtime : member.mtime = item.mtime
  contentLength : member.content.length = item.size
  content : item.isDir = false → paths item.sourcePath = some member.content

theorem Describes.size {crate : HeaderCrate} {item : ScannedEntry} {entry : TarEntry}
    (described : Describes crate item entry) : entry.info.size = item.size := by
  rw [described.2]
  exact FileInfo.ofScanned_size item

theorem Describes.recovers {crate : HeaderCrate} {paths : Path → Option Bytes} {content : TarEntry → Bytes}
    {item : ScannedEntry} {entry : TarEntry} (described : Describes crate item entry)
    (length : (content entry).length = entry.info.size)
    (scanned : item.isDir = false → paths item.sourcePath = some (content entry)) :
    Recovers paths item (memberOf content entry) where
  path := congrArg FileInfo.path described.2
  isDir := congrArg FileInfo.isDir described.2
  size := described.size
  mode := congrArg FileInfo.mode described.2
  mtime := congrArg FileInfo.mtime described.2
  contentLength := length.trans described.size
  content := scanned

end Raas.Tar
