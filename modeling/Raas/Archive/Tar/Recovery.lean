import Raas.Archive.Tar.Naming
import Raas.Archive.Tar.Roundtrip
import Raas.Archive.Tar.Sources
import Raas.Data.Tracing

namespace Raas.Tar

open Data

/-! Whose bytes stand behind the headers of a complete stream. -/

def RangeStreamWriter.progress (reader : RangeStreamWriter) (now : Nat) : Progress where
  cursor := reader.cursor
  files := reader.fileHandleCache
  now := now

theorem read_looping (pointerBits fuel : Nat) (os : Files) (archive : TarArchive) :
    Looping (read pointerBits fuel os archive) (readStep pointerBits os archive) .exhausted fuel archive.totalSize
      (fun reader => reader.1.progress reader.2) (fun reader => reader.1.currentPos)
      (fun reader => reader.1.endPos) where
  finished reader capacity done := by
    rw [read, readIntoBuffer, if_pos done]
    rfl
  running reader capacity bytes after running answered := by
    unfold read readIntoBuffer at answered
    rw [if_neg running] at answered
    rcases filled : fill (readStep pointerBits os archive reader.1.endPos) .exhausted capacity reader.1.endPos
      archive.totalSize fuel (reader.1.progress reader.2) reader.1.currentPos [] with ⟨result, progress⟩
    rw [RangeStreamWriter.progress] at filled
    rw [filled] at answered
    cases result with
    | error reason => cases answered
    | ok collected =>
        obtain ⟨same, rfl⟩ := Prod.mk.inj answered
        obtain rfl := Except.ok.inj same
        exact ⟨rfl, rfl⟩

theorem slice_length {ε : Type} {values piece : Bytes} {start count : Nat}
    (sliced : (slice values start count : Except (Fault ε) Bytes) = .ok piece) : piece.length = count := by
  unfold slice at sliced
  split at sliced
  · rw [← Except.ok.inj sliced, List.length_take, List.length_drop]
    omega
  · cases sliced

/-! Which path a name in the archive stands for. -/

section Names

variable {left right : Bytes}

/-- The joined path says what the base is and what is below it. -/
theorem components_joined (base : Path) : ∃ front : List Component, ∀ names : List Bytes, names ≠ [] →
    (∀ name ∈ names, Proper name) →
    Path.components (base.join (List.intercalate [separator] names)) = front ++ names.map .normal := by
  by_cases empty : base = []
  · subst empty
    refine ⟨[], fun names nonempty proper => ?_⟩
    have pieces := List.splitOn_intercalate separator (fun name member => (proper name member).2.1) nonempty
    have joined : Path.join [] (List.intercalate [separator] names) = List.intercalate [separator] names := by
      simp [Path.join]
    rw [joined, List.nil_append]
    exact components_of_proper pieces nonempty proper
  · obtain ⟨above, joined⟩ : ∃ above, ∀ path, Path.isAbsolute path = false →
        base.join path = above ++ separator :: path := by
      by_cases closed : base.getLast? = some separator
      · obtain ⟨above, rfl⟩ := List.getLast?_eq_some_iff.mp closed
        refine ⟨above, fun path relative => ?_⟩
        rw [Path.join, relative, if_neg Bool.false_ne_true, if_pos (.inr closed), List.append_assoc,
          List.singleton_append]
      · refine ⟨base, fun path relative => ?_⟩
        rw [Path.join, relative, if_neg Bool.false_ne_true, if_neg (not_or.mpr ⟨empty, closed⟩)]
    refine ⟨Path.components (above ++ [separator]), fun names nonempty proper => ?_⟩
    have pieces := List.splitOn_intercalate separator (fun name member => (proper name member).2.1) nonempty
    obtain ⟨first, others, rfl⟩ := List.exists_cons_of_ne_nil nonempty
    rw [joined _ (relative_of_pieces pieces (proper first List.mem_cons_self).1)]
    have absolute : ∀ path, Path.isAbsolute (above ++ separator :: path) = Path.isAbsolute (above ++ [separator]) := by
      intro path
      cases above <;> rfl
    have head : ∀ rest, (above.splitOn separator ++ rest).head? = (above.splitOn separator).head? :=
      fun rest => List.head?_append_of_ne_nil _ (List.splitOn_ne_nil _ _)
    simp only [Path.components, absolute, List.splitOn_append_cons_self, pieces, head, List.splitOn_nil,
      List.filterMap_append, List.append_assoc, parse_all proper]
    rfl

theorem PlainPath.trimmed {path : Bytes} (plain : PlainPath path) : ∃ names, names ≠ [] ∧
    (∀ name ∈ names, Proper name) ∧ Path.trimEndSlashes path = List.intercalate [separator] names := by
  obtain ⟨names, nonempty, proper, joined⟩ := plain
  have ends : (List.intercalate [separator] names).getLast? ≠ some separator := by
    have pieces := List.splitOn_intercalate separator (fun name member => (proper name member).2.1) nonempty
    obtain ⟨front, last, rfl⟩ : ∃ front last, names = front ++ [last] :=
      ⟨names.dropLast, names.getLast nonempty, (List.dropLast_append_getLast nonempty).symm⟩
    exact ends_of_pieces pieces (proper last (by simp)).1
  have kept : Path.trimEndSlashes (List.intercalate [separator] names) = List.intercalate [separator] names := by
    rw [Path.trimEndSlashes, List.rdropWhile_eq_self_iff]
    intro some last
    rw [beq_iff_eq] at last
    exact ends (by rw [List.getLast?_eq_some_getLast some, last])
  refine ⟨names, nonempty, proper, ?_⟩
  rcases joined with rfl | rfl
  · exact kept
  · rw [Path.trimEndSlashes, List.rdropWhile_concat, if_pos (beq_self_eq_true _)]
    exact kept

/-- Two entries that are opened by equal paths are opened by one path. -/
theorem opened_same {base : Path} (plainLeft : PlainPath left) (plainRight : PlainPath right)
    (same : Path.same (base.join (Path.trimEndSlashes left)) (base.join (Path.trimEndSlashes right)) = true) :
    base.join (Path.trimEndSlashes left) = base.join (Path.trimEndSlashes right) := by
  obtain ⟨names, nonempty, proper, trimmed⟩ := plainLeft.trimmed
  obtain ⟨others, nonemptyOthers, properOthers, trimmedOthers⟩ := plainRight.trimmed
  obtain ⟨front, components⟩ := components_joined base
  rw [trimmed, trimmedOthers] at same ⊢
  have equal : Path.components _ = Path.components _ := of_decide_eq_true same
  rw [components names nonempty proper, components others nonemptyOthers properOthers] at equal
  have named := List.map_injective_iff.mpr (fun _ _ => Component.normal.inj) (List.append_cancel_left equal)
  rw [named]

end Names

/-! What a turn of the reader reads. -/

/-- A place inside the content of an entry. -/
def TarEntry.Fills (entry : TarEntry) (place : Nat) : Prop :=
  entry.offset + entry.header.length ≤ place ∧ place < entry.offset + entry.header.length + entry.info.size

section Turns

variable {os : Files} {archive : TarArchive} {endPos pos room place : Nat} {progress next : Progress} {piece : Bytes}
  {entry other : TarEntry} {index : Nat}

theorem TarArchive.WellFormed.entry_unique (wellFormed : archive.WellFormed) (place : Nat)
    (member : entry ∈ archive.entries) (lower : entry.offset ≤ place) (upper : place < entry.offset + entry.span)
    (otherMember : other ∈ archive.entries) (otherLower : other.offset ≤ place)
    (otherUpper : place < other.offset + other.span) : other = entry := by
  obtain ⟨first, found⟩ := List.getElem?_of_mem member
  obtain ⟨second, otherFound⟩ := List.getElem?_of_mem otherMember
  have same := wellFormed.tiles.unique found otherFound lower upper otherLower otherUpper
  rw [same, otherFound] at found
  exact Option.some.inj found

/-- What lies in the span of an entry but outside its content is in no content. -/
theorem TarArchive.WellFormed.aside {count : Nat} (wellFormed : archive.WellFormed) (member : entry ∈ archive.entries)
    (lower : entry.offset ≤ pos) (upper : pos + count ≤ entry.offset + entry.span)
    (outside : pos + count ≤ entry.offset + entry.header.length ∨
      entry.offset + entry.header.length + entry.info.size ≤ pos) :
    ∀ other ∈ archive.entries, ∀ place, other.Fills place → pos ≤ place → ¬ place < pos + count := by
  intro other otherMember place fills ahead before
  obtain ⟨otherLower, otherUpper⟩ := fills
  have width : other.span = other.header.length + other.info.size + calculatePadding other.info.size := rfl
  have own := wellFormed.entry_unique place member (by omega) (by omega) otherMember (by omega) (by omega)
  subst own
  omega

/-- A turn that hands over a part of a content has read it from the file of that entry; any
other turn opens nothing. -/
theorem TarArchive.WellFormed.readStep_cases (wellFormed : archive.WellFormed)
    (handed : readStep 64 os archive endPos progress pos room = (.ok piece, next)) :
    (next.files = progress.files ∧
      ∀ entry ∈ archive.entries, ∀ place, entry.Fills place → pos ≤ place → ¬ place < pos + piece.length) ∨
    ∃ entry ∈ archive.entries, entry.Fills pos ∧
      pos + piece.length ≤ entry.offset + entry.header.length + entry.info.size ∧ ∃ want,
        progress.files.readAt os (progress.now + 1)
          (sourceFilePath archive (os.isFile progress.now archive.sourcePath) entry)
          (pos - (entry.offset + entry.header.length)) want = (.ok piece, next.files, next.now) := by
  have located := wellFormed.locate_locates progress.cursor pos
  have small := wellFormed.bounded
  have spans : ∀ entry : TarEntry,
      entry.span = entry.header.length + entry.info.size + calculatePadding entry.info.size := fun _ => rfl
  unfold readStep at handed
  rcases answer : locate archive progress.cursor pos with ⟨covering, cursor⟩
  rw [answer] at located handed
  cases covering with
  | none =>
      left
      obtain ⟨given, rfl⟩ := Prod.mk.inj handed
      have length := congrArg List.length (Except.ok.inj given)
      rw [List.length_replicate] at length
      have cut := Nat.mod_le (if calculatePadding pos = 0 then min (min room (endPos - pos)) (archive.totalSize - pos)
        else min (calculatePadding pos) (min (min room (endPos - pos)) (archive.totalSize - pos))) (2 ^ 64)
      rw [asUsize] at length
      rcases located with ⟨index, entry, found, behind, inside⟩ | past
      · have member := List.mem_of_getElem? found
        have ends := wellFormed.padding_ends member behind inside
        rw [if_neg (by omega)] at cut length
        exact ⟨rfl, wellFormed.aside member (by omega) (by omega) (.inr behind)⟩
      · refine ⟨rfl, fun other member place fills ahead before => ?_⟩
        have bounds := wellFormed.tiles.base_le_start other member
        have width := spans other
        have last := fills.2
        omega
  | some index =>
      obtain ⟨entry, found, lower, upper⟩ := located
      have member := List.mem_of_getElem? found
      have bound := wellFormed.entry_bound found
      have width := spans entry
      have offset : entry.info.offset = entry.offset := rfl
      have headerEnd : wrappingAdd entry.offset entry.header.length = entry.offset + entry.header.length :=
        wrappingAdd_of_lt (by omega)
      have contentEnd : wrappingAdd (entry.offset + entry.header.length) entry.info.size =
          entry.offset + entry.header.length + entry.info.size := wrappingAdd_of_lt (by omega)
      simp only [found, offset, headerEnd, contentEnd] at handed
      split at handed
      · rename_i inHeader
        left
        obtain ⟨sliced, rfl⟩ := Prod.mk.inj handed
        have length := slice_length sliced
        have whole : asUsize 64 (pos - entry.offset) = pos - entry.offset := asUsize_of_lt (by omega)
        exact ⟨rfl, wellFormed.aside member lower (by omega) (.inl (by omega))⟩
      · split at handed
        · rename_i inContent
          right
          generalize counted : min (min room (asUsize 64 (entry.offset + entry.header.length + entry.info.size - pos)))
            (asUsize 64 (endPos - pos)) = want at handed
          have cut : asUsize 64 (entry.offset + entry.header.length + entry.info.size - pos) ≤
              entry.offset + entry.header.length + entry.info.size - pos := Nat.mod_le _ _
          rcases read : progress.files.readAt os (progress.now + 1)
            (sourceFilePath archive (os.isFile progress.now archive.sourcePath) entry)
            (pos - (entry.offset + entry.header.length)) want with ⟨result, files, now⟩
          rw [read] at handed
          cases result with
          | error reason => cases handed
          | ok bytes =>
              obtain ⟨same, rfl⟩ := Prod.mk.inj handed
              obtain rfl := Except.ok.inj same
              have length := FileHandleCache.readAt_length read
              exact ⟨entry, member, inContent, by omega, want, read⟩
        · cases handed

end Turns

/-! What the turns of a complete stream have read. -/

section Fetching

variable {os : Files} {holds : FileId → Option Bytes} {paths : Path → Option Bytes} {archive : TarArchive}
  {sourceIsFile : Bool} {endPos pos room : Nat} {progress next : Progress} {piece : Bytes}

/-- Up to `pos` each place of a content came out of a file that has such a place, and the
open file is that of an entry. -/
structure Fetched (archive : TarArchive) (sourceIsFile : Bool) (holds : FileId → Option Bytes)
    (paths : Path → Option Bytes) (progress : Progress) (pos : Nat) : Prop where
  held : ∀ path file, progress.files.currentFile = some (path, file) →
    (∃ entry ∈ archive.entries, path = sourceFilePath archive sourceIsFile entry) ∧
      ∃ bytes, paths path = some bytes ∧ holds file.id = some bytes
  supplied : ∀ entry ∈ archive.entries, ∀ place, entry.Fills place → place < pos →
    ∃ bytes, paths (sourceFilePath archive sourceIsFile entry) = some bytes ∧
      place - (entry.offset + entry.header.length) < bytes.length

theorem sourceFilePath_same (plain : ∀ entry ∈ archive.entries, PlainPath entry.info.path) {left right : TarEntry}
    (leftMember : left ∈ archive.entries) (rightMember : right ∈ archive.entries)
    (same : Path.same (sourceFilePath archive sourceIsFile left) (sourceFilePath archive sourceIsFile right) = true) :
    sourceFilePath archive sourceIsFile left = sourceFilePath archive sourceIsFile right := by
  cases sourceIsFile with
  | true => rfl
  | false => exact opened_same (plain left leftMember) (plain right rightMember) same

/-- A read that is answered is answered out of the file behind the path. -/
theorem Fetched.read (serves : os.Serves holds paths) (bare : os.Bare paths)
    (plain : ∀ entry ∈ archive.entries, PlainPath entry.info.path)
    (fetched : Fetched archive sourceIsFile holds paths progress pos) {entry : TarEntry}
    (member : entry ∈ archive.entries) {now later position want : Nat} {after : FileHandleCache}
    (answered : progress.files.readAt os now (sourceFilePath archive sourceIsFile entry) position want =
      (.ok piece, after, later)) :
    ∃ bytes file, paths (sourceFilePath archive sourceIsFile entry) = some bytes ∧ holds file.id = some bytes ∧
      after.currentFile = some (sourceFilePath archive sourceIsFile entry, file) ∧
      piece.length ≤ bytes.length - position := by
  obtain ⟨held, file, time, current, read, origin⟩ := FileHandleCache.readAt_keeps answered
  have leads : held = sourceFilePath archive sourceIsFile entry ∧ ∃ bytes, paths held = some bytes ∧
      holds file.id = some bytes := by
    rcases origin with ⟨own, opened, _⟩ | ⟨same, ⟨old, cached, kept⟩, _⟩
    · refine ⟨own, ?_⟩
      cases content : paths held with
      | none => exact absurd read (bare _ _ _ (own ▸ content) opened _ _ _ _)
      | some bytes =>
          obtain ⟨_, answer, holding⟩ := serves.opens now held bytes content
          rw [own, opened] at answer
          obtain rfl := Except.ok.inj answer
          exact ⟨bytes, rfl, holding⟩
    · obtain ⟨⟨other, inside, named⟩, content⟩ := fetched.held held old cached
      rw [kept] at content
      rw [named] at same
      exact ⟨named.trans (sourceFilePath_same plain inside member same), content⟩
  obtain ⟨rfl, bytes, content, holding⟩ := leads
  obtain ⟨count, answer, _⟩ := serves.reads time file.id bytes position want holding
  rw [read] at answer
  refine ⟨bytes, file, content, holding, current, ?_⟩
  rw [Except.ok.inj answer, window_length]
  omega

theorem Fetched.step (wellFormed : archive.WellFormed) (serves : os.Serves holds paths) (bare : os.Bare paths)
    (plain : ∀ entry ∈ archive.entries, PlainPath entry.info.path)
    (fetched : Fetched archive (os.isFile 0 archive.sourcePath) holds paths progress pos)
    (handed : readStep 64 os archive endPos progress pos room = (.ok piece, next)) :
    Fetched archive (os.isFile 0 archive.sourcePath) holds paths next (pos + piece.length) := by
  rcases wellFormed.readStep_cases handed with ⟨files, outside⟩ | ⟨entry, member, fills, inside, want, answered⟩
  · refine ⟨by rw [files]; exact fetched.held, fun other inside place filled before => ?_⟩
    refine fetched.supplied other inside place filled ?_
    by_contra ahead
    exact outside other inside place filled (by omega) before
  · rw [serves.steadyKind] at answered
    obtain ⟨bytes, file, content, holding, current, short⟩ := fetched.read serves bare plain member answered
    constructor
    · intro path other held
      rw [current] at held
      obtain ⟨rfl, rfl⟩ := Prod.mk.inj (Option.some.inj held)
      exact ⟨⟨entry, member, rfl⟩, bytes, content, holding⟩
    · intro other otherMember place filled before
      by_cases earlier : place < pos
      · exact fetched.supplied other otherMember place filled earlier
      · have width : entry.span = entry.header.length + entry.info.size + calculatePadding entry.info.size := rfl
        have otherWidth : other.span = other.header.length + other.info.size + calculatePadding other.info.size := rfl
        obtain ⟨lower, upper⟩ := fills
        obtain ⟨otherLower, otherUpper⟩ := filled
        obtain rfl := wellFormed.entry_unique place member (by omega) (by omega) otherMember (by omega)
          (by omega)
        exact ⟨bytes, content, by omega⟩

/-- The bytes that the reader finds for an entry. -/
def openedContent (archive : TarArchive) (sourceIsFile : Bool) (paths : Path → Option Bytes)
    (entry : TarEntry) : Bytes :=
  ((paths (sourceFilePath archive sourceIsFile entry)).getD []).take entry.info.size

/-- A complete stream has been fed: each opened file was as long as its entry. -/
theorem TarArchive.WellFormed.ended_feeds (wellFormed : archive.WellFormed) (serves : os.Serves holds paths)
    (bare : os.Bare paths) (plain : ∀ entry ∈ archive.entries, PlainPath entry.info.path) {now fuel : Nat}
    {capacities : List Nat} (usable : ∀ capacity ∈ capacities, 0 < capacity) {bytes : Bytes}
    (ended : (drain (Tar.read 64 fuel os archive) (TarArchive.streamRange 0 archive.totalSize, now) capacities).1 =
      .ended bytes) :
    archive.Feeds (os.isFile 0 archive.sourcePath) paths
      (openedContent archive (os.isFile 0 archive.sourcePath) paths) := by
  have start : Fetched archive (os.isFile 0 archive.sourcePath) holds paths
      ((TarArchive.streamRange 0 archive.totalSize).progress now) 0 :=
    ⟨fun path file held => (nomatch held), fun _ _ _ _ before => absurd before (Nat.not_lt_zero _)⟩
  obtain ⟨fetched, reached⟩ := (read_looping 64 fuel os archive).keeps
    (fun progress pos room piece next fetched handed => Fetched.step wellFormed serves bare plain fetched handed)
    (show (TarArchive.streamRange 0 archive.totalSize, now).1.endPos = archive.totalSize from rfl) start usable ended
  rw [Nat.min_self, show (TarArchive.streamRange 0 archive.totalSize).currentPos = 0 from rfl] at reached
  have found : ∀ entry ∈ archive.entries, 0 < entry.info.size →
      ∃ file, paths (sourceFilePath archive (os.isFile 0 archive.sourcePath) entry) = some file ∧
        entry.info.size ≤ file.length := by
    intro entry member positive
    obtain ⟨index, known⟩ := List.getElem?_of_mem member
    have bound := wellFormed.entry_bound known
    have width : entry.span = entry.header.length + entry.info.size + calculatePadding entry.info.size := rfl
    have last : entry.Fills (entry.offset + entry.header.length + entry.info.size - 1) := ⟨by omega, by omega⟩
    obtain ⟨file, content, inside⟩ := fetched.supplied entry member _ last
      (show _ < (TarArchive.streamRange 0 archive.totalSize).currentPos + bytes.length by
        rw [show (TarArchive.streamRange 0 archive.totalSize).currentPos = 0 from rfl]
        omega)
    exact ⟨file, content, by omega⟩
  constructor
  · intro entry member
    rcases Nat.eq_zero_or_pos entry.info.size with empty | positive
    · simp [openedContent, empty]
    · obtain ⟨file, content, long⟩ := found entry member positive
      simp [openedContent, content, long]
  · intro entry member positive
    obtain ⟨file, content, _⟩ := found entry member positive
    refine ⟨file, content, ?_⟩
    rw [openedContent, content]
    exact List.take_prefix _ _

end Fetching

section Recovering

variable {crate : HeaderCrate} {sourcePath : Path} {scanned : List ScannedEntry} {archive : TarArchive} {os : Files}
  {paths : Path → Option Bytes}

/-- A reader of the complete stream gets the scanned entries back, from where the index says they are. -/
def Recovered (paths : Path → Option Bytes) (scanned : List ScannedEntry) (archive : TarArchive)
    (drained : Drained (Fault IoError) UInt8) : Prop :=
  ∃ bytes members, drained = .ended bytes ∧ decode bytes = some (members, archive.totalSize - 1024) ∧
    List.Forall₂ (Recovers paths) scanned members ∧
    members.map Member.position = archive.entries.map TarEntry.offset

/-- What is opened under the name in the archive begins with the bytes of the scanned file. -/
def ReadsAlike (paths : Path → Option Bytes) (sourcePath : Path) (sourceIsFile : Bool) (item : ScannedEntry) : Prop :=
  ∃ bytes file, paths item.sourcePath = some bytes ∧
    paths (openedPath sourcePath sourceIsFile item) = some file ∧ bytes <+: file

/-- The scanned files are as long as they were when they were scanned. -/
def SizesStay (paths : Path → Option Bytes) (scanned : List ScannedEntry) : Prop :=
  ∀ item ∈ scanned, item.isDir = false → ∃ bytes, paths item.sourcePath = some bytes ∧ bytes.length = item.size

/-- The content of each entry as the scan has seen it, found by the path that is opened. -/
theorem openedContent_scanned {item : ScannedEntry} {entry : TarEntry} (described : Describes crate item entry)
    (stays : item.isDir = false → ∃ bytes, paths item.sourcePath = some bytes ∧ bytes.length = item.size)
    {sourceIsFile : Bool} (reads : 0 < item.size → ReadsAlike paths archive.sourcePath sourceIsFile item)
    (regular : item.isDir = false) :
    paths item.sourcePath = some (openedContent archive sourceIsFile paths entry) := by
  obtain ⟨bytes, content, size⟩ := stays regular
  rw [content, openedContent, described.openedPath, described.size]
  rcases Nat.eq_zero_or_pos item.size with empty | positive
  · rw [empty] at size ⊢
    rw [List.length_eq_zero_iff.mp size, List.take_zero]
  · obtain ⟨own, file, found, opened, begins⟩ := reads positive
    obtain rfl := Option.some.inj (content.symm.trans found)
    rw [opened, Option.getD_some, ← size, List.prefix_iff_eq_take.mp begins, List.length_take,
      Nat.min_eq_left begins.length_le]

theorem feeds_of_alike (described : List.Forall₂ (Describes crate) scanned archive.entries)
    (stays : SizesStay paths scanned) {sourceIsFile : Bool}
    (alike : ∀ item ∈ scanned, 0 < item.size → ReadsAlike paths archive.sourcePath sourceIsFile item) :
    archive.Feeds sourceIsFile paths (openedContent archive sourceIsFile paths) := by
  constructor
  · intro entry member
    obtain ⟨item, inside, made⟩ := forall₂_mem_right described member
    cases directory : item.isDir with
    | true =>
        rw [made.size, item.dirSize directory, openedContent, made.size, item.dirSize directory]
        rfl
    | false =>
        obtain ⟨bytes, content, size⟩ := stays item inside directory
        rw [openedContent_scanned made (stays item inside) (alike item inside) directory] at content
        rw [Option.some.inj content, size, made.size]
  · intro entry member positive
    obtain ⟨item, inside, made⟩ := forall₂_mem_right described member
    rw [made.size] at positive
    obtain ⟨bytes, file, _, opened, _⟩ := alike item inside positive
    rw [made.openedPath]
    refine ⟨file, opened, ?_⟩
    rw [openedContent, made.openedPath, opened]
    exact List.take_prefix _ _

theorem TarArchive.createFrom_plain (described : List.Forall₂ (Describes crate) scanned archive.entries)
    (plain : ∀ item ∈ scanned, PlainPath item.relativePath) :
    ∀ entry ∈ archive.entries, PlainPath entry.info.path := by
  intro entry member
  obtain ⟨item, inside, made⟩ := forall₂_mem_right described member
  rw [made.2]
  exact plain item inside

section Stream

variable {now fuel : Nat} {capacities : List Nat} (gnu : crate.Gnu)
  (plain : ∀ item ∈ scanned, PlainPath item.relativePath)
  (created : TarArchive.createFrom crate sourcePath scanned = .ok archive) (fits : archive.extent < u64Size)
  (usable : ∀ capacity ∈ capacities, 0 < capacity ∧ capacity < fuel) (enough : archive.totalSize < capacities.length)

include gnu plain created fits usable enough

/-- A stream that is fed ends, and what it decodes to has the content it was fed with. -/
theorem decode_fed (unchanged : os.Unchanged paths) {content : TarEntry → Bytes}
    (feeds : archive.Feeds (os.isFile 0 sourcePath) paths content) :
    (drain (read 64 fuel os archive) (TarArchive.streamRange 0 archive.totalSize, now) capacities).1 =
        .ended (archive.reference content) ∧
      decode (archive.reference content) =
        some (archive.entries.map (memberOf content), archive.totalSize - 1024) := by
  obtain ⟨wellFormed, _⟩ := TarArchive.createFrom_wellFormed created fits
  obtain ⟨source, described⟩ := TarArchive.createFrom_describes created
  obtain ⟨holds, serves⟩ := unchanged
  subst source
  exact ⟨wellFormed.stream_complete serves feeds now usable enough,
    wellFormed.decode_reference gnu described plain feeds.sizes⟩

theorem recovered_of_alike (unchanged : os.Unchanged paths) (stays : SizesStay paths scanned)
    (alike : ∀ item ∈ scanned, 0 < item.size → ReadsAlike paths sourcePath (os.isFile 0 sourcePath) item) :
    Recovered paths scanned archive
      (drain (read 64 fuel os archive) (TarArchive.streamRange 0 archive.totalSize, now) capacities).1 := by
  obtain ⟨source, described⟩ := TarArchive.createFrom_describes created
  subst source
  have feeds := feeds_of_alike described stays alike
  obtain ⟨ended, decoded⟩ := decode_fed gnu plain created fits usable enough unchanged feeds
  refine ⟨_, _, ended, decoded, ?_, by rw [List.map_map]; rfl⟩
  rw [List.forall₂_map_right_iff]
  exact forall₂_imp_mem described fun item inside entry member made =>
    made.recovers (feeds.sizes entry member) (openedContent_scanned made (stays item inside) (alike item inside))

theorem alike_of_recovered (unchanged : os.Unchanged paths) (bare : os.Bare paths)
    (recovered : Recovered paths scanned archive
      (drain (read 64 fuel os archive) (TarArchive.streamRange 0 archive.totalSize, now) capacities).1) :
    ∀ item ∈ scanned, 0 < item.size → ReadsAlike paths sourcePath (os.isFile 0 sourcePath) item := by
  intro item member positive
  obtain ⟨source, described⟩ := TarArchive.createFrom_describes created
  obtain ⟨wellFormed, _⟩ := TarArchive.createFrom_wellFormed created fits
  obtain ⟨bytes, members, ended, decoded, recovers, _⟩ := recovered
  obtain ⟨holds, serves⟩ := unchanged
  have feeds := wellFormed.ended_feeds serves bare (TarArchive.createFrom_plain described plain)
    (fun capacity member => (usable capacity member).1) ended
  rw [source] at feeds
  obtain ⟨complete, decodes⟩ := decode_fed gnu plain created fits usable enough ⟨holds, serves⟩ feeds
  rw [complete] at ended
  obtain rfl := Drained.ended.inj ended
  rw [decodes] at decoded
  obtain ⟨rfl, _⟩ := Prod.mk.inj (Option.some.inj decoded)
  rw [List.forall₂_map_right_iff] at recovers
  obtain ⟨entry, inside, made, recovers⟩ := forall₂_meet described recovers member
  have regular : item.isDir = false := by
    by_contra directory
    rw [item.dirSize (Bool.eq_true_of_not_eq_false directory)] at positive
    exact absurd positive (Nat.lt_irrefl 0)
  obtain ⟨file, opened, begins⟩ := feeds.begins entry inside (made.size ▸ positive)
  rw [made.openedPath, source] at opened
  exact ⟨_, file, recovers.content regular, opened, begins⟩

end Stream

/-- A complete stream decodes to what was scanned, and to the content of the scanned files,
exactly if the path made of each archive name leads to bytes that begin with those of
the file. -/
theorem gnu_reader_recovers_scanned_iff (gnu : crate.Gnu)
    (plain : ∀ item ∈ scanned, PlainPath item.relativePath)
    (created : TarArchive.createFrom crate sourcePath scanned = .ok archive) (fits : archive.extent < u64Size)
    (unchanged : os.Unchanged paths) (bare : os.Bare paths) (stays : SizesStay paths scanned) :
    ∀ (now fuel : Nat) (capacities : List Nat),
      (∀ capacity ∈ capacities, 0 < capacity ∧ capacity < fuel) → archive.totalSize < capacities.length →
      (Recovered paths scanned archive
          (drain (read 64 fuel os archive) (TarArchive.streamRange 0 archive.totalSize, now) capacities).1 ↔
        ∀ item ∈ scanned, 0 < item.size → ReadsAlike paths sourcePath (os.isFile 0 sourcePath) item) := by
  intro now fuel capacities usable enough
  exact ⟨alike_of_recovered gnu plain created fits usable enough unchanged bare,
    recovered_of_alike gnu plain created fits usable enough unchanged stays⟩

end Recovering

theorem smallScan_stays : SizesStay (Files.contentOf smallFiles) smallScan := by
  intro item member regular
  simp only [smallScan, List.mem_cons, List.not_mem_nil, or_false] at member
  rcases member with rfl | rfl
  · cases regular
  · exact ⟨[97, 98, 99], by decide, rfl⟩

theorem smallScan_alike : ∀ item ∈ smallScan, 0 < item.size →
    ReadsAlike (Files.contentOf smallFiles) [47, 115] ((Files.memory smallFiles 2).isFile 0 [47, 115]) item := by
  intro item member positive
  simp only [smallScan, List.mem_cons, List.not_mem_nil, or_false] at member
  rcases member with rfl | rfl
  · cases positive
  · exact ⟨[97, 98, 99], [97, 98, 99], by decide, by decide, List.prefix_refl _⟩

theorem gnu_reader_recovers_scanned_small : Recovered (Files.contentOf smallFiles) smallScan smallArchive
    (drain (read 64 1001 (Files.memory smallFiles 2) smallArchive) (TarArchive.streamRange 0 smallArchive.totalSize, 0)
      (List.replicate 5000 1000)).1 := by
  have created : TarArchive.createFrom blockCrate [47, 115] smallScan = .ok smallArchive := rfl
  have unchanged : (Files.memory smallFiles 2).Unchanged (Files.contentOf smallFiles) :=
    Files.memory_unchanged smallFiles (by decide)
  have usable : ∀ capacity ∈ List.replicate 5000 1000, 0 < capacity ∧ capacity < 1001 :=
    List.forall_mem_replicate.mpr (.inr (by decide))
  have total : smallArchive.totalSize < 5000 := by decide +kernel
  exact (gnu_reader_recovers_scanned_iff blockCrate_gnu smallScan_plain created (by decide +kernel) unchanged
    (Files.memory_bare smallFiles 2) smallScan_stays 0 1001 (List.replicate 5000 1000) usable
    (by rw [List.length_replicate]; exact total)).mpr smallScan_alike

def backslashScan : List ScannedEntry := scanDir (pathOf [separator] [[115]]) [] backslashListing

/-- What the paths below `/s` lead to. -/
def backslashFiles : List (Path × Bytes) := [([47, 115, 47, 97, 92, 98], [1]), ([47, 115, 47, 97, 47, 98], [2])]

/-- The stream of `/s` has the bytes of `a/b` under both names. -/
theorem backslash_name_not_recovered : ∃ archive,
    TarArchive.createFrom blockCrate (pathOf [separator] [[115]]) backslashScan = .ok archive ∧
      archive.extent < u64Size ∧ blockCrate.Gnu ∧ (∀ item ∈ backslashScan, PlainPath item.relativePath) ∧
      (Files.memory backslashFiles 2).Unchanged (Files.contentOf backslashFiles) ∧
      SizesStay (Files.contentOf backslashFiles) backslashScan ∧
      ¬ Recovered (Files.contentOf backslashFiles) backslashScan archive
        (drain (read 64 1001 (Files.memory backslashFiles 2) archive) (TarArchive.streamRange 0 archive.totalSize, 0)
          (List.replicate 5000 1000)).1 := by
  have created : TarArchive.createFrom blockCrate (pathOf [separator] [[115]]) backslashScan = .ok _ := rfl
  have listed : backslashScan = [_, _, _] := rfl
  have plain : ∀ item ∈ backslashScan, PlainPath item.relativePath := by
    intro item member
    simp only [listed, List.mem_cons, List.not_mem_nil, or_false] at member
    rcases member with rfl | rfl | rfl
    · exact ⟨[[97], [98]], by decide, by decide, .inl rfl⟩
    · exact ⟨[[97]], by decide, by decide, .inr rfl⟩
    · exact ⟨[[97], [98]], by decide, by decide, .inl rfl⟩
  have unchanged : (Files.memory backslashFiles 2).Unchanged (Files.contentOf backslashFiles) :=
    Files.memory_unchanged backslashFiles (by decide)
  refine ⟨_, created, by decide +kernel, blockCrate_gnu, plain, unchanged, ?_, ?_⟩
  · intro item member regular
    simp only [listed, List.mem_cons, List.not_mem_nil, or_false] at member
    rcases member with rfl | rfl | rfl
    · exact ⟨[1], by decide, rfl⟩
    · cases regular
    · exact ⟨[2], by decide, rfl⟩
  · intro recovered
    have usable : ∀ capacity ∈ List.replicate 5000 1000, 0 < capacity ∧ capacity < 1001 :=
      List.forall_mem_replicate.mpr (.inr (by decide))
    have first : ∃ item ∈ backslashScan, 0 < item.size ∧ Files.contentOf backslashFiles item.sourcePath = some [1] ∧
        Files.contentOf backslashFiles (openedPath (pathOf [separator] [[115]])
          ((Files.memory backslashFiles 2).isFile 0 (pathOf [separator] [[115]])) item) = some [2] := by
      refine ⟨_, List.mem_cons_self, by decide, by decide, by decide⟩
    obtain ⟨item, member, positive, own, other⟩ := first
    obtain ⟨bytes, file, found, opened, begins⟩ := alike_of_recovered blockCrate_gnu plain created (by decide +kernel)
      usable (by decide +kernel) unchanged (Files.memory_bare backslashFiles 2) recovered item member positive
    rw [own] at found
    rw [other] at opened
    cases found
    cases opened
    exact absurd begins (by decide)

end Raas.Tar
