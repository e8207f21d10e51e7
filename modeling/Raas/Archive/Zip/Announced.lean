import Raas.Archive.Zip.Reference
import Raas.Data.Settling

namespace Raas.Zip

open Data

/-! Reading a zip archive while its files are deleted, replaced, cut or grown. -/

def Returned (fault : Fault IoError) : Prop := ∃ reason, fault = .error reason

/-- The clock and the offset after `turns` reads of a checksum pass, if every one of
them found more bytes. -/
def hashTurns (os : Files) (file : FileId) : Nat → Nat → Nat → Option (Nat × Nat)
  | 0, now, offset => some (now, offset)
  | turns + 1, now, offset =>
      match os.read now file offset (64 * 1024) with
      | .ok (first :: rest) => hashTurns os file turns (now + 1) (offset + (first :: rest).length)
      | _ => none

/-- A checksum pass over `source` that begins at `now` finds more bytes with every
read, for ever. -/
def Endless (os : Files) (source : Path) (now : Nat) : Prop :=
  ∃ file, os.openFile now source = .ok file ∧ ∀ turns, (hashTurns os file turns (now + 1) 0).isSome = true

section Hashing

variable {feature : CrcFeature} {os : Files} {file : FileId} {source : Path} {now offset : Nat}

theorem hashFile_exhausts (feature : CrcFeature) (path : Path) (endless : ∀ turns, (hashTurns os file turns now offset).isSome = true)
    (fuel : Nat) (hashed : Bytes) (total : Nat) : ∃ later, hashFile feature os file path fuel now offset hashed total =
      (.error .exhausted, later) := by
  induction fuel generalizing now offset hashed total with
  | zero => exact ⟨now, rfl⟩
  | succ fuel ih =>
      cases answer : os.read now file offset (64 * 1024) with
      | error reason =>
          have again := endless 1
          simp [hashTurns, answer] at again
      | ok bytes =>
          cases bytes with
          | nil =>
              have again := endless 1
              simp [hashTurns, answer] at again
          | cons first rest =>
              have further : ∀ turns, (hashTurns os file turns (now + 1)
                  (offset + (first :: rest).length)).isSome = true := by
                intro turns
                have again := endless (turns + 1)
                simpa only [hashTurns, answer] using again
              simp only [hashFile, answer]
              exact ih further _ _

theorem hashFile_settles (feature : CrcFeature) (path : Path) {turns : Nat} (ends : hashTurns os file turns now offset = none)
    (hashed : Bytes) (total : Nat) : ∃ outcome, Settles (fun fuel => hashFile feature os file path fuel now offset hashed total) outcome ∧
      ∀ fault, outcome.1 = .error fault → ∃ message, fault = .error message := by
  induction turns generalizing now offset hashed total with
  | zero => simp [hashTurns] at ends
  | succ turns ih =>
      cases answer : os.read now file offset (64 * 1024) with
      | error reason =>
          refine ⟨(.error (.error ("读取文件失败 " ++ debugPath feature.plain path ++ ": " ++ reason.message)), now + 1), ?_, ?_⟩
          · exact .of_succ (fun fuel => by simp only [hashFile, answer]) (.const _)
          · intro _ failed
            cases failed
            exact ⟨_, rfl⟩
      | ok bytes =>
          cases bytes with
          | nil =>
              refine ⟨(.ok (hashed, total), now + 1), ?_, ?_⟩
              · exact .of_succ (fun fuel => by simp only [hashFile, answer]) (.const _)
              · intro _ failed
                cases failed
          | cons first rest =>
              simp only [hashTurns, answer] at ends
              obtain ⟨outcome, settles, fails⟩ := ih ends (hashed ++ first :: rest)
                (wrappingAdd total (first :: rest).length)
              exact ⟨outcome, .of_succ (fun fuel => by simp only [hashFile, answer]) settles, fails⟩

theorem computeCrc32_exhausts (feature : CrcFeature) (endless : Endless os source now) (fuel expectedSize : Nat) :
    ∃ later, computeCrc32 feature fuel os now source expectedSize = (.error .exhausted, later) := by
  obtain ⟨file, opened, further⟩ := endless
  obtain ⟨later, hashed⟩ := hashFile_exhausts feature source further fuel [] 0
  exact ⟨later, by simp only [computeCrc32, opened, hashed]⟩

theorem computeCrc32_settles (feature : CrcFeature) (ends : ¬ Endless os source now) (expectedSize : Nat) :
    ∃ outcome, Settles (fun fuel => computeCrc32 feature fuel os now source expectedSize) outcome ∧
      ∀ fault, outcome.1 = .error fault → ∃ message, fault = .error message := by
  cases opened : os.openFile now source with
  | error reason =>
      refine ⟨(.error (.error ("打开文件失败 " ++ debugPath feature.plain source ++ ": " ++ reason.message)), now + 1), ?_, ?_⟩
      · exact ⟨0, fun fuel _ => by simp only [computeCrc32, opened]⟩
      · intro _ failed
        cases failed
        exact ⟨_, rfl⟩
  | ok file =>
      have finite : ∃ turns, hashTurns os file turns (now + 1) 0 = none := by
        by_contra never
        refine ends ⟨file, opened, ?_⟩
        intro turns
        exact Option.isSome_iff_ne_none.mpr fun none => never ⟨turns, none⟩
      obtain ⟨turns, none⟩ := finite
      obtain ⟨⟨result, later⟩, settles, fails⟩ := hashFile_settles feature source none [] 0
      cases result with
      | error fault =>
          refine ⟨(.error fault, later), settles.follow fun fuel hashed => ?_, ?_⟩
          · simp only [computeCrc32, opened, hashed]
          · intro _ failed
            cases failed
            exact fails fault rfl
      | ok hashed =>
          by_cases size : hashed.2 = expectedSize
          · refine ⟨(.ok (feature.checksum hashed.1).toNat, later), settles.follow fun fuel answer => ?_, ?_⟩
            · simp only [computeCrc32, opened, answer, if_pos size]
            · intro _ failed
              cases failed
          · refine ⟨(.error (.error ("源文件在索引构建后发生变化: " ++ debugPath feature.plain source ++
              s!" 期望 {expectedSize} 字节, 实际 {hashed.2} 字节")), later), settles.follow fun fuel answer => ?_, ?_⟩
            · simp only [computeCrc32, opened, answer, if_neg size]
            · intro _ failed
              cases failed
              exact ⟨_, rfl⟩

end Hashing

/-- A cell that has been set stays as it is. -/
def CellsLater (before after : CrcCells) : Prop :=
  ∀ index answer, before index = some answer → after index = some answer

/-- With these cells `write_segment_into` gives `image`, whatever the files do. -/
def Emits (feature : CrcFeature) (archive : ZipArchive) (cells : CrcCells) (kind : SegmentKind) (image : Bytes) :
    Prop :=
  ∀ fuel os now, writeSegmentInto feature fuel os archive kind cells now = (.ok image, cells, now)

section Checksums

variable {feature : CrcFeature} {os : Files} {archive : ZipArchive} {cells after : CrcCells} {entry : ZipEntry}
  {index : Nat}

theorem CellsLater.refl (cells : CrcCells) : CellsLater cells cells := fun _ _ found => found

theorem CellsLater.update (unset : cells index = none) (answer : Except String Nat) :
    CellsLater cells (Function.update cells index (some answer)) := by
  intro other known found
  by_cases same : other = index
  · subst same
    simp [unset] at found
  · rw [Function.update_of_ne same]
    exact found

/-- What `entry_crc` has once answered it answers again, whatever the files do. -/
def Remembers (feature : CrcFeature) (cells : CrcCells) (index : Nat) (entry : ZipEntry) (crc : Nat) : Prop :=
  ∀ fuel os now, entryCrc feature fuel os cells now index entry = (.ok crc, cells, now)

theorem Remembers.of_cell {source : Path} {crc : Nat} (regular : entry.isDir = false)
    (enabled : feature.enabled = true) (sourced : entry.sourcePath = some source)
    (found : cells index = some (.ok crc)) : Remembers feature cells index entry crc := by
  intro fuel os now
  simp only [entryCrc, regular, enabled, sourced, found, Bool.false_eq_true, if_false, if_true]

theorem Remembers.of_skip (skipped : entry.isDir = true ∨ feature.enabled = false) :
    Remembers feature cells index entry 0 := by
  intro fuel os now
  rcases skipped with directory | disabled
  · simp only [entryCrc, directory, if_true]
  · cases directory : entry.isDir <;>
      simp only [entryCrc, directory, disabled, Bool.false_eq_true, if_false, if_true]

/-- An answer that needs no file is kept in the cell, or the entry has no checksum. -/
theorem Remembers.of_absent {crc : Nat} (answer : (entryCrc feature 0 Files.absent cells 0 index entry).1 = .ok crc)
    (later : CellsLater cells after) : Remembers feature after index entry crc := by
  have answers := entryCrc_answer feature 0 Files.absent cells 0 index entry
  rcases answered : entryCrc feature 0 Files.absent cells 0 index entry with ⟨result, left, now⟩
  rw [answered] at answers answer
  obtain rfl : result = .ok crc := answer
  cases answers with
  | skipped skip => exact .of_skip skip
  | kept regular enabled sourced known => exact .of_cell regular enabled sourced (later index _ known)
  | computed _ _ _ _ hashed => cases hashed

/-- `entry_crc` takes nothing back from a cell. -/
theorem entryCrc_later (feature : CrcFeature) (fuel : Nat) (os : Files) (cells : CrcCells) (now index : Nat)
    (entry : ZipEntry) : CellsLater cells (entryCrc feature fuel os cells now index entry).2.1 := by
  have answer := entryCrc_answer feature fuel os cells now index entry
  rcases answered : entryCrc feature fuel os cells now index entry with ⟨result, after, later⟩
  rw [answered] at answer
  cases answer with
  | skipped => exact .refl cells
  | unsourced => exact .refl cells
  | kept => exact .refl cells
  | keptError => exact .refl cells
  | computed _ _ _ unset => exact .update unset _
  | failed unset => exact .update unset _
  | lost => exact .refl cells

/-- The checksum pass that a call may start for an entry comes to an end. -/
def Hashable (feature : CrcFeature) (os : Files) (entry : ZipEntry) : Prop :=
  feature.enabled = true → entry.isDir = false → ∀ source, entry.sourcePath = some source →
    ∀ now, ¬ Endless os source now

theorem entryCrc_settles (sourced : entry.isDir = false → ∃ source, entry.sourcePath = some source)
    (hashable : Hashable feature os entry) (cells : CrcCells) (now index : Nat) :
    ∃ result after later,
      Settles (fun fuel => entryCrc feature fuel os cells now index entry) (result, after, later) ∧
      CellsLater cells after ∧
      ((∃ reason, result = .error (.error reason)) ∨ ∃ crc, result = .ok crc ∧ Remembers feature after index entry crc) := by
  by_cases skipped : entry.isDir = true ∨ feature.enabled = false
  · exact ⟨.ok 0, cells, now, ⟨0, fun fuel _ => Remembers.of_skip skipped fuel os now⟩, .refl cells,
      .inr ⟨0, rfl, .of_skip skipped⟩⟩
  · simp only [not_or, Bool.not_eq_true, Bool.not_eq_false] at skipped
    obtain ⟨regular, enabled⟩ := skipped
    obtain ⟨source, sourcePath⟩ := sourced regular
    cases found : cells index with
    | some known =>
        cases known with
        | error message =>
            refine ⟨.error (.error (.other message)), cells, now, ⟨0, fun fuel _ => ?_⟩, .refl cells, .inl ⟨_, rfl⟩⟩
            simp only [entryCrc, regular, enabled, sourcePath, found, Bool.false_eq_true, if_false, if_true]
        | ok crc =>
            have remembers := Remembers.of_cell regular enabled sourcePath found
            exact ⟨.ok crc, cells, now, ⟨0, fun fuel _ => remembers fuel os now⟩, .refl cells, .inr ⟨crc, rfl, remembers⟩⟩
    | none =>
        obtain ⟨⟨result, later⟩, settles, fails⟩ :=
          computeCrc32_settles feature (hashable enabled regular source sourcePath now) entry.size
        cases result with
        | error fault =>
            obtain ⟨message, rfl⟩ := fails fault rfl
            refine ⟨.error (.error (.other message)), Function.update cells index (some (.error message)), later,
              settles.follow fun fuel answer => ?_, .update found _, .inl ⟨_, rfl⟩⟩
            simp only [entryCrc, regular, enabled, sourcePath, found, answer, Bool.false_eq_true, if_false, if_true]
        | ok crc =>
            refine ⟨.ok crc, Function.update cells index (some (.ok crc)), later,
              settles.follow fun fuel answer => ?_, .update found _, .inr ⟨crc, rfl, ?_⟩⟩
            · simp only [entryCrc, regular, enabled, sourcePath, found, answer, Bool.false_eq_true, if_false, if_true]
            · exact .of_cell regular enabled sourcePath (Function.update_self ..)

end Checksums

/-- What `create` guarantees with or without overflow. -/
structure ZipArchive.Indexed (archive : ZipArchive) : Prop where
  localLengths : ∀ entry ∈ archive.entries, entry.localHeaderLen = entry.localLength % u64Size
  centralLengths : ∀ entry ∈ archive.entries, entry.centralLen = entry.centralLength % u64Size
  directories : ∀ entry ∈ archive.entries, entry.isDir = true → entry.size = 0
  sources : ∀ entry ∈ archive.entries, entry.isDir = false → ∃ source, entry.sourcePath = some source
  backed : ∀ segment ∈ archive.segments, segment.Backed archive
  bounded : archive.totalSize < u64Size

theorem wrappingAdd_wrappingAdd (first second third : Nat) :
    wrappingAdd (wrappingAdd first second) third = (first + second + third) % u64Size :=
  Nat.mod_add_mod _ _ _

theorem layoutLocal_lengths (pos : Nat) (entries : List ZipEntry) :
    ∀ entry ∈ (layoutLocal pos entries).1, entry.localHeaderLen = entry.localLength % u64Size := by
  induction entries generalizing pos with
  | nil => simp [layoutLocal]
  | cons entry rest ih =>
      intro other member
      rw [layoutLocal, List.mem_cons] at member
      rcases member with rfl | member
      · exact wrappingAdd_wrappingAdd _ _ _
      · exact ih _ other member

theorem layoutCentral_lengths (cpos : Nat) {entries : List ZipEntry}
    (lengths : ∀ entry ∈ entries, entry.localHeaderLen = entry.localLength % u64Size) :
    ∀ entry ∈ (layoutCentral cpos entries).1, entry.localHeaderLen = entry.localLength % u64Size ∧
      entry.centralLen = entry.centralLength % u64Size := by
  induction entries generalizing cpos with
  | nil => simp [layoutCentral]
  | cons entry rest ih =>
      intro other member
      rw [layoutCentral, List.mem_cons] at member
      rcases member with rfl | member
      · exact ⟨lengths entry (by simp), wrappingAdd_wrappingAdd _ _ _⟩
      · exact ih _ (fun entry inside => lengths entry (by simp [inside])) other member

theorem ZipArchive.createFrom_indexed (scanned : List ScannedEntry) : (createFrom scanned).Indexed := by
  have lengths : ∀ entry ∈ (createFrom scanned).entries, entry.localHeaderLen = entry.localLength % u64Size ∧
      entry.centralLen = entry.centralLength % u64Size :=
    layoutCentral_lengths _ (layoutLocal_lengths _ _)
  refine ⟨fun entry member => (lengths entry member).1, fun entry member => (lengths entry member).2, ?_,
    createFrom_sources scanned, table_backed (createFrom_table scanned), ?_⟩
  · exact fun entry member directory => (createFrom_directories scanned entry member directory).1
  · exact wrappingAdd_lt _ _

def Segment.Covers (segment : Segment) (position : Nat) : Prop :=
  segment.start ≤ position ∧ position < segment.start + segment.len

theorem findSegment_covers {archive : ZipArchive} {pos index : Nat} (located : findSegment archive pos = some index) :
    ∃ segment, archive.segments[index]? = some segment ∧ segment.Covers pos := by
  unfold findSegment at located
  dsimp only at located
  split at located
  · simp at located
  · rename_i positive
    cases found : archive.segments[partitionPoint (fun segment => decide (segment.start ≤ pos)) archive.segments - 1]? with
    | none => simp [found] at located
    | some segment =>
        simp only [found] at located
        split at located
        · rename_i before
          cases located
          have starts := partitionPoint_holds (Nat.sub_lt (Nat.pos_of_ne_zero positive) Nat.one_pos) found
          have wraps : wrappingAdd segment.start segment.len ≤ segment.start + segment.len := Nat.mod_le _ _
          exact ⟨segment, found, of_decide_eq_true starts, by omega⟩
        · simp at located

/-- What is owed at `position`: outside the data segments, the byte that the writer
of a segment there emits. -/
def Owed (feature : CrcFeature) (archive : ZipArchive) (cells : CrcCells) (position : Nat) (byte : UInt8) : Prop :=
  (∀ segment ∈ archive.segments, segment.Covers position → ∀ index, segment.kind ≠ .data index) →
    ∃ segment ∈ archive.segments, segment.Covers position ∧
      ∃ image, Emits feature archive cells segment.kind image ∧ image[position - segment.start]? = some byte

/-- The two kinds of segments that carry the checksum of entry `index`. -/
def SegmentKind.Heads (kind : SegmentKind) (index : Nat) : Prop :=
  kind = .localHeader index ∨ kind = .centralEntry index

/-- Some position of the archive leads to a header of entry `index`. -/
def ZipArchive.Shows (archive : ZipArchive) (index : Nat) : Prop :=
  ∃ pos < archive.totalSize, ∃ number segment, findSegment archive pos = some number ∧
    archive.segments[number]? = some segment ∧ segment.kind.Heads index

/-- Without checksums, or where every checksum pass over a file of the archive ends. -/
def HashesEnd (feature : CrcFeature) (os : Files) (archive : ZipArchive) : Prop :=
  feature.enabled = true → ∀ index entry, archive.entries[index]? = some entry → archive.Shows index →
    entry.isDir = false → ∀ source, entry.sourcePath = some source → ∀ now, ¬ Endless os source now

section Calls

variable {feature : CrcFeature} {os : Files} {archive : ZipArchive} {cells after : CrcCells} {kind : SegmentKind}
  {image : Bytes} {segment : Segment}

/-- The two headers of an entry, which carry its checksum. -/
def WritesHeader (feature : CrcFeature) (archive : ZipArchive) (kind : SegmentKind) (index : Nat) (entry : ZipEntry)
    (write : Nat → Bytes) : Prop :=
  ∀ fuel os cells now, writeSegmentInto feature fuel os archive kind cells now =
    ((entryCrc feature fuel os cells now index entry).1.map write, (entryCrc feature fuel os cells now index entry).2)

theorem writesHeader_local {index : Nat} {entry : ZipEntry} (found : archive.entries[index]? = some entry) :
    WritesHeader feature archive (.localHeader index) index entry fun crc => writeLocalHeader entry crc [] := by
  intro fuel os cells now
  simp only [writeSegmentInto, found]

theorem writesHeader_central {index : Nat} {entry : ZipEntry} (found : archive.entries[index]? = some entry) :
    WritesHeader feature archive (.centralEntry index) index entry fun crc => writeCentralEntry entry crc [] := by
  intro fuel os cells now
  simp only [writeSegmentInto, found]

theorem WritesHeader.emits {index crc : Nat} {entry : ZipEntry} {write : Nat → Bytes}
    (writes : WritesHeader feature archive kind index entry write)
    (remembers : Remembers feature cells index entry crc) : Emits feature archive cells kind (write crc) := by
  intro fuel os now
  rw [writes, remembers fuel os now]
  rfl

theorem WritesHeader.emits_later {index : Nat} {entry : ZipEntry} {write : Nat → Bytes}
    (writes : WritesHeader feature archive kind index entry write)
    (emits : Emits feature archive cells kind image) (later : CellsLater cells after) :
    Emits feature archive after kind image := by
  have answer := emits 0 Files.absent 0
  rw [writes, Prod.mk.injEq] at answer
  cases result : (entryCrc feature 0 Files.absent cells 0 index entry).1 with
  | error fault => simp [result, Except.map] at answer
  | ok crc =>
      rw [result] at answer
      have same : write crc = image := Except.ok.inj answer.1
      rw [← same]
      exact writes.emits (.of_absent result later)

theorem Emits.later (emits : Emits feature archive cells kind image) (later : CellsLater cells after) :
    Emits feature archive after kind image := by
  cases kind with
  | localHeader index =>
      cases found : archive.entries[index]? with
      | none =>
          have answer := emits 0 Files.absent 0
          simp [writeSegmentInto, found] at answer
      | some entry => exact (writesHeader_local found).emits_later emits later
  | centralEntry index =>
      cases found : archive.entries[index]? with
      | none =>
          have answer := emits 0 Files.absent 0
          simp [writeSegmentInto, found] at answer
      | some entry => exact (writesHeader_central found).emits_later emits later
  | data index =>
      have answer := emits 0 Files.absent 0
      simp [writeSegmentInto] at answer
  | zip64Eocd =>
      intro fuel os now
      have answer := emits fuel os now
      simp only [writeSegmentInto, Prod.mk.injEq, and_true] at answer ⊢
      exact answer
  | zip64Locator =>
      intro fuel os now
      have answer := emits fuel os now
      simp only [writeSegmentInto, Prod.mk.injEq, and_true] at answer ⊢
      exact answer
  | eocd =>
      intro fuel os now
      have answer := emits fuel os now
      simp only [writeSegmentInto, Prod.mk.injEq, and_true] at answer ⊢
      exact answer

/-- The end of `write_segment_into`: an error, or all of the segment for good. -/
def Written (feature : CrcFeature) (archive : ZipArchive) (segment : Segment) (cells : CrcCells)
    (result : Except (Fault IoError) Bytes) : Prop :=
  (∃ reason, result = .error (.error reason)) ∨
    ∃ image, result = .ok image ∧ segment.len ≤ image.length ∧ Emits feature archive cells segment.kind image

theorem WritesHeader.settles {index : Nat} {entry : ZipEntry} {write : Nat → Bytes}
    (writes : WritesHeader feature archive segment.kind index entry write)
    (sourced : entry.isDir = false → ∃ source, entry.sourcePath = some source)
    (hashable : Hashable feature os entry) (long : ∀ crc, segment.len ≤ (write crc).length) (cells : CrcCells)
    (now : Nat) : ∃ result after later,
      Settles (fun fuel => writeSegmentInto feature fuel os archive segment.kind cells now) (result, after, later) ∧
      CellsLater cells after ∧ Written feature archive segment after result := by
  obtain ⟨result, after, later, settles, moved, answer⟩ := entryCrc_settles sourced hashable cells now index
  refine ⟨result.map write, after, later, settles.follow ?_, moved, ?_⟩
  · intro fuel answer
    rw [writes, answer]
  · rcases answer with ⟨reason, rfl⟩ | ⟨crc, rfl, remembers⟩
    · exact .inl ⟨reason, rfl⟩
    · exact .inr ⟨write crc, rfl, long crc, writes.emits remembers⟩

theorem ZipArchive.Indexed.writeSegmentInto_settles (indexed : archive.Indexed)
    (hashable : ∀ index entry, archive.entries[index]? = some entry → segment.kind.Heads index →
      Hashable feature os entry) (member : segment ∈ archive.segments)
    (encoded : ∀ index, segment.kind ≠ .data index) (cells : CrcCells) (now : Nat) :
    segment.len < u64Size ∧ ∃ result after later,
      Settles (fun fuel => writeSegmentInto feature fuel os archive segment.kind cells now) (result, after, later) ∧
      CellsLater cells after ∧ Written feature archive segment after result := by
  have backed := indexed.backed segment member
  obtain ⟨start, len, kind⟩ := segment
  have fixed : ∀ image : Bytes, len = image.length →
      (∀ fuel cells now, writeSegmentInto feature fuel os archive kind cells now = (.ok image, cells, now)) →
      Emits feature archive cells kind image →
      ∃ result after later,
        Settles (fun fuel => writeSegmentInto feature fuel os archive kind cells now) (result, after, later) ∧
        CellsLater cells after ∧ Written feature archive ⟨start, len, kind⟩ after result := by
    intro image length writes emits
    exact ⟨.ok image, cells, now, ⟨0, fun fuel _ => writes fuel cells now⟩, .refl cells,
      .inr ⟨image, rfl, Nat.le_of_eq length, emits⟩⟩
  cases kind with
  | localHeader index =>
      obtain ⟨entry, found, length⟩ := backed
      have inside := List.mem_of_getElem? found
      have width := indexed.localLengths entry inside
      have bound := mod_u64Size_lt entry.localLength
      have shorter := Nat.mod_le entry.localLength u64Size
      refine ⟨by dsimp only at length ⊢; omega, (writesHeader_local found).settles (indexed.sources entry inside)
        (hashable index entry found (.inl rfl)) ?_ cells now⟩
      intro crc
      rw [writeLocalHeader_length, List.length_nil, Nat.zero_add, length, width]
      exact shorter
  | centralEntry index =>
      obtain ⟨entry, found, length⟩ := backed
      have inside := List.mem_of_getElem? found
      have width := indexed.centralLengths entry inside
      have bound := mod_u64Size_lt entry.centralLength
      have shorter := Nat.mod_le entry.centralLength u64Size
      refine ⟨by dsimp only at length ⊢; omega, (writesHeader_central found).settles (indexed.sources entry inside)
        (hashable index entry found (.inr rfl)) ?_ cells now⟩
      intro crc
      rw [writeCentralEntry_length, List.length_nil, Nat.zero_add, length, width]
      exact shorter
  | data index => exact absurd rfl (encoded index)
  | zip64Eocd =>
      refine ⟨?_, fixed (writeZip64Eocd archive []) ?_ (fun _ _ _ => rfl) fun _ _ _ => rfl⟩
      · rw [backed]
        decide
      · rw [writeZip64Eocd_length]
        exact backed.trans (Nat.zero_add _).symm
  | zip64Locator =>
      refine ⟨?_, fixed (writeZip64Locator archive []) ?_ (fun _ _ _ => rfl) fun _ _ _ => rfl⟩
      · rw [backed]
        decide
      · rw [writeZip64Locator_length]
        exact backed.trans (Nat.zero_add _).symm
  | eocd =>
      refine ⟨?_, fixed (writeEocd archive []) ?_ (fun _ _ _ => rfl) fun _ _ _ => rfl⟩
      · rw [backed]
        decide
      · rw [writeEocd_length]
        exact backed.trans (Nat.zero_add _).symm

/-- What one turn of the read loop keeps, and what it owes. -/
def Progress.Later (before after : Progress) : Prop := CellsLater before.world.cells after.world.cells

def Progress.Owes (feature : CrcFeature) (archive : ZipArchive) (progress : Progress) : Nat → UInt8 → Prop :=
  Owed feature archive progress.world.cells

theorem Owed.later {position : Nat} {byte : UInt8} (owed : Owed feature archive cells position byte)
    (later : CellsLater cells after) : Owed feature archive after position byte := by
  intro outside
  obtain ⟨segment, member, covers, image, emits, found⟩ := owed outside
  exact ⟨segment, member, covers, image, emits.later later, found⟩

theorem CellsLater.trans {between : CrcCells} (first : CellsLater cells between) (second : CellsLater between after) :
    CellsLater cells after :=
  fun index answer found => second index answer (first index answer found)

theorem Progress.evolution (feature : CrcFeature) (archive : ZipArchive) :
    Evolution Progress.Later (Progress.Owes feature archive) where
  refl progress := CellsLater.refl progress.world.cells
  trans first second := CellsLater.trans first second
  keeps later owed := Owed.later owed later

theorem readData_hands (indexed : archive.Indexed) (member : segment ∈ archive.segments) {entryIndex : Nat}
    (data : segment.kind = .data entryIndex) (progress : Progress) {endPos pos room want : Nat}
    (starts : segment.start ≤ pos) (inside : pos - segment.start + want ≤ segment.len) (fits : want ≤ room)
    (within : pos + want ≤ endPos) :
    Hands Progress.Later (Progress.Owes feature archive) Returned endPos pos room progress
      (readData os archive progress entryIndex (pos - segment.start) want) := by
  obtain ⟨entry, source, found, length, _, sourcePath⟩ :=
    (indexed.backed segment member).sourced data indexed.directories indexed.sources
  cases answer : progress.files.readAt os progress.world.now source (pos - segment.start) want with
  | mk result rest =>
      obtain ⟨files, now⟩ := rest
      cases result with
      | error reason =>
          simp only [readData, found, sourcePath, answer]
          exact ⟨⟨reason, rfl⟩, CellsLater.refl _⟩
      | ok bytes =>
          have counted := FileHandleCache.readAt_length answer
          by_cases empty : bytes.length = 0
          · simp only [readData, found, sourcePath, answer, if_pos empty]
            exact ⟨⟨_, rfl⟩, CellsLater.refl _⟩
          · simp only [readData, found, sourcePath, answer, if_neg empty]
            refine ⟨CellsLater.refl _, by omega, by omega, by omega, ?_⟩
            intro index byte here outside
            have before := (List.getElem?_eq_some_iff.mp here).1
            exact absurd data (outside segment member ⟨by omega, by omega⟩ entryIndex)

theorem readEncoded_settles (indexed : archive.Indexed)
    (hashable : ∀ index entry, archive.entries[index]? = some entry → segment.kind.Heads index →
      Hashable feature os entry) (member : segment ∈ archive.segments)
    (encoded : ∀ index, segment.kind ≠ .data index) (progress : Progress) {endPos pos room want : Nat}
    (starts : segment.start ≤ pos) (inside : pos - segment.start + want ≤ segment.len) (positive : 0 < want)
    (fits : want ≤ room) (within : pos + want ≤ endPos) :
    ∃ outcome,
      Settles (fun fuel => readEncoded 64 feature fuel os archive progress segment.kind (pos - segment.start) want)
        outcome ∧
      Hands Progress.Later (Progress.Owes feature archive) Returned endPos pos room progress outcome := by
  obtain ⟨small, result, after, later, settles, moved, written⟩ :=
    indexed.writeSegmentInto_settles hashable member encoded progress.world.cells progress.world.now
  rcases written with ⟨reason, rfl⟩ | ⟨image, rfl, long, emits⟩
  · refine ⟨(.error (.error reason), { progress with scratch := [], world := { cells := after, now := later } }),
      settles.follow fun fuel answer => ?_, ⟨reason, rfl⟩, moved⟩
    simp only [readEncoded, answer]
  · have piece : slice image (asUsize 64 (pos - segment.start)) want =
        (.ok ((image.drop (pos - segment.start)).take want) : Except (Fault IoError) Bytes) := by
      rw [asUsize_of_lt (by omega), slice_ok (by omega)]
    have length : ((image.drop (pos - segment.start)).take want).length = want := by
      rw [List.length_take, List.length_drop]
      omega
    refine ⟨(.ok ((image.drop (pos - segment.start)).take want),
      { progress with scratch := image, world := { cells := after, now := later } }),
      settles.follow fun fuel answer => ?_, moved, by omega, by omega, by omega, ?_⟩
    · simp only [readEncoded, answer, piece]
    · intro index byte here _
      have before := (List.getElem?_eq_some_iff.mp here).1
      refine ⟨segment, member, ⟨by omega, by omega⟩, image, emits, ?_⟩
      rw [List.getElem?_take_of_lt (by omega), List.getElem?_drop] at here
      rw [← here]
      congr 1
      omega

theorem readStep_encoded {pointerBits fuel endPos pos room index : Nat} {progress : Progress}
    (located : findSegment archive pos = some index) (found : archive.segments[index]? = some segment)
    (encoded : ∀ index, segment.kind ≠ .data index) :
    readStep pointerBits feature fuel os archive endPos progress pos room =
      readEncoded pointerBits feature fuel os archive progress segment.kind (pos - segment.start)
        (min (min room (asUsize pointerBits (segment.len - (pos - segment.start))))
          (asUsize pointerBits (endPos - pos))) := by
  simp only [readStep, located, found]

theorem readStep_settles (indexed : archive.Indexed) (hashes : HashesEnd feature os archive) {endPos : Nat}
    (endFits : endPos < u64Size) (progress : Progress) {pos room : Nat} (before : pos < endPos)
    (present : pos < archive.totalSize) (positive : 0 < room) :
    ∃ outcome, Settles (fun fuel => readStep 64 feature fuel os archive endPos progress pos room) outcome ∧
      Hands Progress.Later (Progress.Owes feature archive) Returned endPos pos room progress outcome := by
  cases located : findSegment archive pos with
  | none =>
      refine ⟨(.error (unexpectedEof s!"无法定位偏移 {pos} 所属的 Zip 区间"), progress), ⟨0, fun fuel _ => ?_⟩,
        ⟨_, rfl⟩, CellsLater.refl _⟩
      simp only [readStep, located]
  | some index =>
      obtain ⟨segment, found, starts, ends⟩ := findSegment_covers located
      have member := List.mem_of_getElem? found
      have distance : asUsize 64 (endPos - pos) = endPos - pos := asUsize_of_lt (by omega)
      have shorter : asUsize 64 (segment.len - (pos - segment.start)) ≤ segment.len - (pos - segment.start) :=
        Nat.mod_le _ _
      by_cases encoded : ∀ index, segment.kind ≠ .data index
      · have hashable : ∀ index entry, archive.entries[index]? = some entry → segment.kind.Heads index →
            Hashable feature os entry :=
          fun entryIndex entry known heads enabled => hashes enabled entryIndex entry known
            ⟨pos, present, index, segment, located, found, heads⟩
        have small := (indexed.writeSegmentInto_settles hashable member encoded progress.world.cells 0).1
        have room : asUsize 64 (segment.len - (pos - segment.start)) = segment.len - (pos - segment.start) :=
          asUsize_of_lt (by omega)
        simp only [readStep_encoded located found encoded, distance, room]
        exact readEncoded_settles indexed hashable member encoded progress starts (by omega) (by omega) (by omega)
          (by omega)
      · simp only [ne_eq, not_forall, not_not] at encoded
        obtain ⟨entryIndex, data⟩ := encoded
        simp only [readStep, located, found, data, distance]
        exact ⟨_, .const _, readData_hands indexed member data progress starts (by omega) (by omega) (by omega)⟩

/-- The reader of a range that ends at `stop` has come to `position`. -/
def Resting (stop : Nat) (reader : ZipRangeReader × World) (position : Nat) : Prop :=
  reader.1.endPos = stop ∧ reader.1.currentPos = position

def ReaderLater (before after : ZipRangeReader × World) : Prop := CellsLater before.2.cells after.2.cells

def ReaderOwes (feature : CrcFeature) (archive : ZipArchive) (reader : ZipRangeReader × World) : Nat → UInt8 → Prop :=
  Owed feature archive reader.2.cells

theorem reader_evolution (feature : CrcFeature) (archive : ZipArchive) :
    Evolution ReaderLater (ReaderOwes feature archive) where
  refl reader := CellsLater.refl reader.2.cells
  trans first second := CellsLater.trans first second
  keeps later owed := Owed.later owed later

theorem read_settles (indexed : archive.Indexed) (hashes : HashesEnd feature os archive)
    {stop position capacity : Nat} (stopFits : stop < u64Size) {reader : ZipRangeReader × World}
    (resting : Resting stop reader position) (positive : 0 < capacity) :
    ∃ outcome, Settles (fun fuel => read 64 feature fuel os archive reader capacity) outcome ∧
      Replies (Resting stop) ReaderLater (ReaderOwes feature archive) Returned stop archive.totalSize position reader
        outcome := by
  obtain ⟨⟨endPos, currentPos, files, scratch⟩, world⟩ := reader
  obtain ⟨rfl, rfl⟩ : endPos = stop ∧ currentPos = position := resting
  by_cases finished : endPos ≤ currentPos ∨ archive.totalSize ≤ currentPos
  · refine ⟨(.ok [], { endPos, currentPos, fileHandleCache := files, scratch }, world), ⟨0, fun fuel _ => ?_⟩, ?_⟩
    · simp only [read, readIntoBuffer, if_pos finished]
    · refine ⟨CellsLater.refl _, ⟨rfl, rfl⟩, Nat.le_max_left _ _, ?_, .nil⟩
      intro _
      omega
  · have turns : ∀ (progress : Progress) (pos written : Nat), True → written < capacity → pos < endPos →
        pos < archive.totalSize →
        Moves (fun fuel => readStep 64 feature fuel os archive endPos) Progress.Later (Progress.Owes feature archive)
          Returned (fun _ _ _ => True) endPos pos written (capacity - written) progress := by
      intro progress pos written _ room before present
      obtain ⟨outcome, settles, handed⟩ :=
        readStep_settles indexed hashes stopFits progress before present (Nat.sub_pos_of_lt room)
      exact .hands settles handed fun _ _ _ => trivial
    obtain ⟨outcome, ⟨enough, answers⟩, collects⟩ : ∃ outcome,
        FillSettles (fun fuel => readStep 64 feature fuel os archive endPos) Fault.exhausted capacity endPos
          archive.totalSize { files, scratch, world } currentPos [] outcome ∧
        Collects Progress.Later (Progress.Owes feature archive) Returned capacity endPos archive.totalSize currentPos []
          { files, scratch, world } outcome :=
      fill_settles (Progress.evolution feature archive) turns trivial (by omega)
    obtain ⟨result, progress⟩ := outcome
    cases result with
    | error reason =>
        refine ⟨(.error reason, { endPos, currentPos, fileHandleCache := progress.files, scratch := progress.scratch },
          progress.world), ⟨enough, fun fuel large => ?_⟩, collects.1, collects.2, rfl, rfl⟩
        simp only [read, readIntoBuffer, if_neg finished, answers fuel fuel large large]
    | ok collected =>
        obtain ⟨bytes, next⟩ := collected
        obtain ⟨later, full, more, joined, reached, within, pays⟩ := collects
        rw [List.nil_append] at joined
        subst joined
        refine ⟨(.ok bytes,
          { endPos, currentPos := next, fileHandleCache := progress.files, scratch := progress.scratch },
          progress.world), ⟨enough, fun fuel large => ?_⟩, later, ⟨rfl, reached⟩, ?_, ?_, pays⟩
        · simp only [read, readIntoBuffer, if_neg finished, answers fuel fuel large large]
        · omega
        · intro empty
          subst empty
          have ended := full positive
          rw [reached] at ended
          exact ended

theorem readStep_exhausts {fuel endPos pos room number index : Nat} {entry : ZipEntry} {source : Path}
    {progress : Progress} (located : findSegment archive pos = some number)
    (found : archive.segments[number]? = some segment) (heads : segment.kind.Heads index)
    (known : archive.entries[index]? = some entry) (enabled : feature.enabled = true) (regular : entry.isDir = false)
    (sourced : entry.sourcePath = some source) (unset : progress.world.cells index = none)
    (endless : Endless os source progress.world.now) :
    (readStep 64 feature fuel os archive endPos progress pos room).1 = .error .exhausted := by
  obtain ⟨later, hashed⟩ := computeCrc32_exhausts feature endless fuel entry.size
  have crc : entryCrc feature fuel os progress.world.cells progress.world.now index entry =
      (.error .exhausted, progress.world.cells, later) := by
    simp only [entryCrc, regular, enabled, sourced, unset, hashed, Bool.false_eq_true, if_false, if_true]
  have encoded : ∀ other, segment.kind ≠ .data other := by
    intro other data
    rcases heads with kind | kind <;> simp [kind] at data
  have written : writeSegmentInto feature fuel os archive segment.kind progress.world.cells progress.world.now =
      (.error .exhausted, progress.world.cells, later) := by
    rcases heads with kind | kind <;> simp only [kind, writeSegmentInto, known, crc, Except.map]
  rw [readStep_encoded located found encoded, readEncoded]
  simp only [written]

theorem read_fails {pointerBits fuel capacity : Nat} {reader : ZipRangeReader} {world : World}
    {reason : Fault IoError}
    (running : ¬ (reader.endPos ≤ reader.currentPos ∨ archive.totalSize ≤ reader.currentPos))
    (failed : (fill (readStep pointerBits feature fuel os archive reader.endPos) .exhausted capacity reader.endPos
      archive.totalSize fuel { files := reader.fileHandleCache, scratch := reader.scratch, world }
      reader.currentPos []).1 = .error reason) :
    (read pointerBits feature fuel os archive (reader, world) capacity).1 = .error reason := by
  rw [read, readIntoBuffer, if_neg running]
  generalize fill _ _ _ _ _ _ _ _ _ = filled at failed ⊢
  obtain ⟨result, progress⟩ := filled
  dsimp only at failed
  subst failed
  rfl

theorem read_exhausts {number index pos : Nat} {entry : ZipEntry} {source : Path} (present : pos < archive.totalSize)
    (located : findSegment archive pos = some number) (found : archive.segments[number]? = some segment)
    (heads : segment.kind.Heads index) (known : archive.entries[index]? = some entry)
    (enabled : feature.enabled = true) (regular : entry.isDir = false) (sourced : entry.sourcePath = some source)
    {now : Nat} (endless : Endless os source now) (fuel : Nat) :
    (read 64 feature fuel os archive (ZipArchive.streamRange pos (pos + 1), { cells := fun _ => none, now }) 1).1 =
      .error .exhausted := by
  have running : ¬ (pos + 1 ≤ pos ∨ archive.totalSize ≤ pos) := by omega
  apply read_fails running
  cases fuel with
  | zero => rfl
  | succ fuel =>
      have turning : ([] : Bytes).length < 1 ∧ pos < pos + 1 ∧ pos < archive.totalSize :=
        ⟨Nat.one_pos, Nat.lt_succ_self pos, present⟩
      have step : (readStep 64 feature (fuel + 1) os archive (pos + 1)
          { files := .new, scratch := [], world := { cells := fun _ => none, now } } pos (1 - ([] : Bytes).length)).1 =
          .error .exhausted :=
        readStep_exhausts located found heads known enabled regular sourced rfl endless
      simp only [ZipArchive.streamRange]
      rw [fill, if_pos turning]
      generalize readStep _ _ _ _ _ _ _ _ _ = stepped at step ⊢
      obtain ⟨result, progress⟩ := stepped
      dsimp only at step
      subst step
      rfl

end Calls

/-- Whatever the files do, every call of the reader comes back with an error, with at
least one byte or at the end of its range, every body has the announced length or ends
with an error, and what lies outside the data segments is what the writers emit, if and
only if no checksum pass over a file of the archive goes on for ever. -/
theorem zip_reads_end_iff (scanned : List ScannedEntry) (feature : CrcFeature) (os : Files) :
    let archive := ZipArchive.createFrom scanned
    ((∀ (stop position : UInt64) (fileHandleCache : FileHandleCache) (scratch : Bytes) (world : World)
          (capacity : Nat), 0 < capacity →
        let reader : ZipRangeReader × World :=
          ({ endPos := stop.toNat, currentPos := position.toNat, fileHandleCache, scratch }, world)
        ∃ outcome, Settles (fun fuel => read 64 feature fuel os archive reader capacity) outcome ∧
          Replies (Resting stop.toNat) ReaderLater (ReaderOwes feature archive) Returned stop.toNat archive.totalSize
            position.toNat reader outcome) ∧
      ∀ (start stop : Nat) (world : World) (capacities : List Nat), start < stop → stop ≤ archive.totalSize →
        (∀ capacity ∈ capacities, 0 < capacity) →
        ∃ body, Settles (fun fuel => drain (read 64 feature fuel os archive)
            (ZipArchive.streamRange start stop, world) capacities) body ∧
          Body ReaderLater (ReaderOwes feature archive) Returned (stop - start) start capacities.length
            (ZipArchive.streamRange start stop, world) body) ↔
      HashesEnd feature os archive := by
  intro archive
  have indexed : archive.Indexed := ZipArchive.createFrom_indexed scanned
  constructor
  · rintro ⟨calls, _⟩ enabled index entry known ⟨pos, present, number, segment, located, found, heads⟩
      regular source sourced now endless
    have bounded := indexed.bounded
    have size : UInt64.size = u64Size := rfl
    have next : (UInt64.ofNat (pos + 1)).toNat = pos + 1 := UInt64.toNat_ofNat_of_lt (by omega)
    have here : (UInt64.ofNat pos).toNat = pos := UInt64.toNat_ofNat_of_lt (by omega)
    have call := calls (UInt64.ofNat (pos + 1)) (UInt64.ofNat pos) .new [] { cells := fun _ => none, now } 1 Nat.one_pos
    rw [next, here] at call
    obtain ⟨outcome, settles, replies⟩ := call
    obtain ⟨fuel, answer⟩ := settles.reaches
    have exhausted := read_exhausts present located found heads known enabled regular sourced endless fuel
    rw [ZipArchive.streamRange, answer] at exhausted
    obtain ⟨result, after⟩ := outcome
    dsimp only at exhausted
    subst exhausted
    obtain ⟨reason, returned⟩ := replies.1
    cases returned
  · intro hashes
    refine ⟨?_, ?_⟩
    · intro stop position fileHandleCache scratch world capacity positive reader
      exact read_settles indexed hashes stop.toNat_lt ⟨rfl, rfl⟩ positive
    · intro start stop world capacities ordered inside usable
      have bounded := indexed.bounded
      have call : ∀ (reader : ZipRangeReader × World) (position capacity : Nat), Resting stop reader position →
          0 < capacity → ∃ outcome, Settles (fun fuel => read 64 feature fuel os archive reader capacity) outcome ∧
            Replies (Resting stop) ReaderLater (ReaderOwes feature archive) Returned stop archive.totalSize position
              reader outcome :=
        fun reader position capacity resting positive => read_settles indexed hashes (by omega) resting positive
      exact drain_settles (reader_evolution feature archive) inside call usable
        (show Resting stop (ZipArchive.streamRange start stop, world) start from ⟨rfl, rfl⟩) (Nat.le_of_lt ordered)

theorem growing_endless (source : Path) (now : Nat) : Endless Files.growing source now := by
  have further : ∀ turns later offset, (hashTurns Files.growing 0 turns later offset).isSome = true := by
    intro turns
    induction turns with
    | zero => exact fun _ _ => rfl
    | succ turns ih => exact fun later offset => ih (later + 1) (offset + 1)
  exact ⟨0, rfl, fun turns => further turns (now + 1) 0⟩

/-- With checksums on, the header of a file that keeps growing is never sent. -/
theorem growing_file_is_hashed_for_ever :
    ¬ ∃ outcome, Settles (fun fuel => read 64 smallFeature fuel Files.growing (ZipArchive.createFrom smallScan)
        (ZipArchive.streamRange 32 33, { cells := fun _ => none, now := 0 }) 1) outcome ∧
      Replies (Resting 33) ReaderLater (ReaderOwes smallFeature (ZipArchive.createFrom smallScan)) Returned 33
        (ZipArchive.createFrom smallScan).totalSize 32
        (ZipArchive.streamRange 32 33, { cells := fun _ => none, now := 0 }) outcome := by
  intro settled
  obtain ⟨⟨result, after⟩, settles, replies⟩ := settled
  obtain ⟨fuel, answer⟩ := settles.reaches
  have present : 32 < (ZipArchive.createFrom smallScan).totalSize := by decide +kernel
  have located : findSegment (ZipArchive.createFrom smallScan) 32 = some 1 := by decide +kernel
  have found : (ZipArchive.createFrom smallScan).segments[1]? =
      some { start := 32, len := 33, kind := .localHeader 1 } := by decide +kernel
  have enabled : smallFeature.enabled = true := rfl
  have known : ∃ entry, (ZipArchive.createFrom smallScan).entries[1]? = some entry ∧ entry.isDir = false ∧
      entry.sourcePath = some [47, 115, 47, 100, 47, 102] := ⟨_, rfl, rfl, rfl⟩
  obtain ⟨entry, held, regular, sourced⟩ := known
  have exhausted := read_exhausts present located found (.inl rfl) held enabled regular sourced
    (growing_endless _ 0) fuel
  rw [answer] at exhausted
  dsimp only at exhausted
  subst exhausted
  obtain ⟨reason, returned⟩ := replies.1
  cases returned

end Raas.Zip
