import Raas.Archive.Tar.Cursor
import Raas.Data.Stalling

namespace Raas.Tar

open Data

/-! Reading a tar archive while its files are deleted, replaced, cut or grown. -/

def Returned (fault : Fault IoError) : Prop := ∃ reason, fault = .error reason

def contentStart (entry : TarEntry) : Nat := wrappingAdd entry.info.offset entry.header.length

def InHeader (entry : TarEntry) (pos : Nat) : Prop := entry.info.offset ≤ pos ∧ pos < contentStart entry

def InContent (entry : TarEntry) (pos : Nat) : Prop :=
  ¬ InHeader entry pos ∧ contentStart entry ≤ pos ∧ pos < wrappingAdd (contentStart entry) entry.info.size

/-- The bytes of content that the read loop asks for at `pos`. -/
def contentWant (entry : TarEntry) (endPos pos room : Nat) : Nat :=
  min (min room (asUsize 64 (wrappingAdd (contentStart entry) entry.info.size - pos))) (asUsize 64 (endPos - pos))

/-- One `read_at` of the source of `entry`, with the test of the source path before it. -/
def contentRead (os : Files) (archive : TarArchive) (entry : TarEntry) (offset want : Nat) (files : FileHandleCache)
    (now : Nat) : Except IoError Bytes × FileHandleCache × Nat :=
  files.readAt os (now + 1) (sourceFilePath archive (os.isFile now archive.sourcePath) entry) offset want

/-- The handle and the clock after `turns` such reads that found no byte. -/
def dryReads (os : Files) (archive : TarArchive) (entry : TarEntry) (offset want : Nat) :
    Nat → FileHandleCache → Nat → Option (FileHandleCache × Nat)
  | 0, files, now => some (files, now)
  | turns + 1, files, now =>
      match contentRead os archive entry offset want files now with
      | (.ok [], files, now) => dryReads os archive entry offset want turns files now
      | _ => none

/-- From `now` on no read of these bytes of `entry` ever fails or finds any of them. -/
def Dry (os : Files) (archive : TarArchive) (entry : TarEntry) (offset want : Nat) (files : FileHandleCache)
    (now : Nat) : Prop :=
  ∀ turns, (dryReads os archive entry offset want turns files now).isSome = true

/-- What the loop makes of a read of content. -/
def contentTurn (index : Nat) : Except IoError Bytes × FileHandleCache × Nat →
    Except (Fault ArchiveError) Bytes × Progress
  | (.error reason, files, now) => (.error (.error (.io reason)), { cursor := index, files, now })
  | (.ok bytes, files, now) => (.ok bytes, { cursor := index, files, now })

/-- Entry number `index` is the one found at `pos`, which lies in its content. -/
def AtContent (archive : TarArchive) (cursor pos index : Nat) (entry : TarEntry) : Prop :=
  locate archive cursor pos = (some index, index) ∧ archive.entries[index]? = some entry ∧
    entry.info.offset ≤ pos ∧ pos < itemEnd entry ∧ InContent entry pos

section Turns

variable {os : Files} {archive : TarArchive} {progress : Progress} {cursor next endPos pos room index : Nat}
  {entry : TarEntry}

/-- The entry that the cursor has been set to is found again at the same position. -/
theorem locate_again (found : archive.entries[index]? = some entry) (starts : entry.info.offset ≤ pos)
    (ends : pos < itemEnd entry) : locate archive index pos = (some index, index) := by
  have occupied : archive.entries.length ≠ 0 := by
    intro empty
    rw [List.eq_nil_of_length_eq_zero empty] at found
    simp at found
  simp only [locate, if_neg occupied, found, if_pos (And.intro starts ends)]

theorem AtContent.again (here : AtContent archive cursor pos index entry) : AtContent archive index pos index entry :=
  ⟨locate_again here.2.1 here.2.2.1 here.2.2.2.1, here.2⟩

theorem readStep_content (here : AtContent archive progress.cursor pos index entry) :
    readStep 64 os archive endPos progress pos room =
      contentTurn index (contentRead os archive entry (pos - contentStart entry)
        (contentWant entry endPos pos room) progress.files progress.now) := by
  obtain ⟨located, found, _, _, outside, inside⟩ := here
  have header : ¬ (entry.info.offset ≤ pos ∧ pos < wrappingAdd entry.info.offset entry.header.length) := outside
  have content : wrappingAdd entry.info.offset entry.header.length ≤ pos ∧
      pos < wrappingAdd (wrappingAdd entry.info.offset entry.header.length) entry.info.size := inside
  simp only [readStep, located, found, if_neg header, if_pos content]
  rw [contentTurn.eq_def, contentRead, contentStart, contentWant]
  rfl

/-- A turn outside the content of an entry goes ahead or fails. -/
theorem readStep_cases (os : Files) (progress : Progress) (endFits : endPos < u64Size) (roomFits : room < u64Size)
    (before : pos < endPos) (present : pos < archive.totalSize) (positive : 0 < room) :
    (∃ index entry, AtContent archive progress.cursor pos index entry) ∨
      ∃ result after, readStep 64 os archive endPos progress pos room = (result, after) ∧
        ((∃ reason, result = .error (.error reason)) ∨
          ∃ piece, result = .ok piece ∧ 0 < piece.length ∧ piece.length ≤ room ∧ pos + piece.length ≤ endPos) := by
  have distance : asUsize 64 (endPos - pos) = endPos - pos := asUsize_of_lt (by omega)
  rcases located : locate archive progress.cursor pos with ⟨found, next⟩
  cases found with
  | none =>
      right
      simp only [readStep, located]
      generalize wanted : (if calculatePadding pos = 0 then min (min room (endPos - pos)) (archive.totalSize - pos)
        else min (calculatePadding pos) (min (min room (endPos - pos)) (archive.totalSize - pos))) = want
      have bounds : 0 < want ∧ want ≤ room ∧ want ≤ endPos - pos := by
        rw [← wanted]
        split <;> omega
      rw [asUsize_of_lt (by omega)]
      refine ⟨_, _, rfl, .inr ⟨_, rfl, ?_⟩⟩
      rw [List.length_replicate]
      omega
  | some index =>
      obtain ⟨rfl, entry, found, starts, ends⟩ := locate_found located
      by_cases header : InHeader entry pos
      · right
        have inside : entry.info.offset ≤ pos ∧ pos < wrappingAdd entry.info.offset entry.header.length := header
        have wraps : wrappingAdd entry.info.offset entry.header.length ≤ entry.info.offset + entry.header.length :=
          Nat.mod_le _ _
        have lower : asUsize 64 (pos - entry.info.offset) ≤ pos - entry.info.offset := Nat.mod_le _ _
        simp only [readStep, located, found, if_pos inside, distance]
        rw [slice_ok (by omega)]
        refine ⟨_, _, rfl, .inr ⟨_, rfl, ?_⟩⟩
        rw [List.length_take, List.length_drop]
        omega
      · by_cases content : InContent entry pos
        · exact .inl ⟨next, entry, located, found, starts, ends, content⟩
        · right
          have outside : ¬ (entry.info.offset ≤ pos ∧ pos < wrappingAdd entry.info.offset entry.header.length) := header
          have beyond : ¬ (wrappingAdd entry.info.offset entry.header.length ≤ pos ∧
              pos < wrappingAdd (wrappingAdd entry.info.offset entry.header.length) entry.info.size) :=
            fun inside => content ⟨header, inside⟩
          simp only [readStep, located, found, if_neg outside, if_neg beyond]
          exact ⟨_, _, rfl, .inl ⟨_, rfl⟩⟩

theorem contentRead_fits {offset want : Nat} {files after : FileHandleCache} {now later : Nat} {bytes : Bytes}
    (answered : contentRead os archive entry offset want files now = (.ok bytes, after, later)) :
    bytes.length ≤ want :=
  FileHandleCache.readAt_length answered

theorem readStep_gives (endFits : endPos < u64Size) (progress : Progress) (before : pos < endPos)
    (present : pos < archive.totalSize) (roomFits : room < u64Size) (positive : 0 < room) :
    Gives (fun fault => ∃ reason, fault = .error reason) endPos pos room
      (readStep 64 os archive endPos progress pos room) := by
  rcases readStep_cases os progress endFits roomFits before present positive with
    ⟨index, entry, here⟩ | ⟨result, after, answer, ended⟩
  · rw [readStep_content here]
    rcases answer : contentRead os archive entry (pos - contentStart entry) (contentWant entry endPos pos room)
      progress.files progress.now with ⟨result, files, now⟩
    cases result with
    | error reason => exact ⟨.io reason, rfl⟩
    | ok bytes =>
        have counted := contentRead_fits answer
        have distance : asUsize 64 (endPos - pos) = endPos - pos := asUsize_of_lt (by omega)
        rw [contentWant, distance] at counted
        exact ⟨by omega, by omega⟩
  · rw [answer]
    rcases ended with ⟨reason, rfl⟩ | ⟨piece, rfl, _, fits, within⟩
    · exact ⟨reason, rfl⟩
    · exact ⟨fits, within⟩

theorem idle_content (here : AtContent archive progress.cursor pos index entry) (turns : Nat) :
    (idle (readStep 64 os archive endPos) pos room turns progress).isSome =
      (dryReads os archive entry (pos - contentStart entry) (contentWant entry endPos pos room) turns progress.files
        progress.now).isSome := by
  induction turns generalizing progress with
  | zero => rfl
  | succ turns ih =>
      rw [idle, dryReads, readStep_content here]
      rcases contentRead os archive entry (pos - contentStart entry) (contentWant entry endPos pos room)
        progress.files progress.now with ⟨result, files, now⟩
      cases result with
      | error reason => rfl
      | ok bytes =>
          cases bytes with
          | nil =>
              have again : AtContent archive (Progress.mk index files now).cursor pos index entry := here.again
              exact ih again
          | cons first rest => rfl

/-- The loop stands still exactly where the content of an entry has run dry. -/
theorem stalls_iff (endFits : endPos < u64Size) (before : pos < endPos) (present : pos < archive.totalSize)
    (roomFits : room < u64Size) (positive : 0 < room) :
    Stalls (readStep 64 os archive endPos) pos room progress ↔
      ∃ index entry, AtContent archive progress.cursor pos index entry ∧
        Dry os archive entry (pos - contentStart entry) (contentWant entry endPos pos room) progress.files
          progress.now := by
  constructor
  · intro stalls
    rcases readStep_cases os progress endFits roomFits before present positive with
      ⟨index, entry, here⟩ | ⟨result, after, answer, ended⟩
    · refine ⟨index, entry, here, ?_⟩
      intro turns
      rw [← idle_content here]
      exact stalls turns
    · obtain ⟨again, handed, _⟩ := stalls.turn
      rw [answer, Prod.mk.injEq] at handed
      rcases ended with ⟨reason, rfl⟩ | ⟨piece, rfl, counted, _⟩
      · simp at handed
      · have empty : piece = [] := Except.ok.inj handed.1
        simp [empty] at counted
  · intro starves turns
    obtain ⟨index, entry, here, dry⟩ := starves
    rw [idle_content here]
    exact dry turns

end Turns

/-- The call comes to a place in the content of an entry that has run dry: from then on
every read there answers that there is nothing to read. -/
def Starves (os : Files) (archive : TarArchive) (reader : RangeStreamWriter) (now capacity : Nat) : Prop :=
  ∃ progress pos count, Comes (readStep 64 os archive reader.endPos) capacity reader.endPos archive.totalSize
      { cursor := reader.cursor, files := reader.fileHandleCache, now } reader.currentPos progress pos count ∧
    count < capacity ∧ pos < reader.endPos ∧ pos < archive.totalSize ∧
    ∃ index entry, AtContent archive progress.cursor pos index entry ∧
      Dry os archive entry (pos - contentStart entry) (contentWant entry reader.endPos pos (capacity - count))
        progress.files progress.now

/-- The reader of a range that ends at `stop` has come to `position`. -/
def Resting (stop : Nat) (reader : RangeStreamWriter × Nat) (position : Nat) : Prop :=
  reader.1.endPos = stop ∧ reader.1.currentPos = position

/-- What every call is owed: an error, at least one byte, or the end of the range. -/
def Ends (total : Nat) (reader : RangeStreamWriter × Nat) :
    Except (Fault IoError) Bytes × RangeStreamWriter × Nat → Prop :=
  Replies (Resting reader.1.endPos) (fun _ _ => True) (fun _ _ _ => True) Returned reader.1.endPos total
    reader.1.currentPos reader

section Calls

variable {os : Files} {archive : TarArchive} {reader : RangeStreamWriter} {now capacity : Nat}

theorem read_starves (starves : Starves os archive reader now capacity) (endFits : reader.endPos < u64Size)
    (fits : capacity < u64Size) (fuel : Nat) :
    (read 64 fuel os archive (reader, now) capacity).1 = .error .exhausted := by
  obtain ⟨progress, pos, count, comes, room, before, present, dry⟩ := starves
  have stalls := (stalls_iff endFits before present (Nat.lt_of_le_of_lt (Nat.sub_le capacity count) fits)
    (Nat.sub_pos_of_lt room)).mpr dry
  have exhausted : (fill (readStep 64 os archive reader.endPos) .exhausted capacity reader.endPos archive.totalSize fuel
      { cursor := reader.cursor, files := reader.fileHandleCache, now } reader.currentPos []).1 = .error .exhausted :=
    stalls.exhausts comes ⟨room, before, present⟩ fuel
  have ahead := comes.first_le
  have running : ¬ (reader.endPos ≤ reader.currentPos ∨ archive.totalSize ≤ reader.currentPos) := by omega
  rw [read]
  simp only [readIntoBuffer, if_neg running]
  generalize fill _ _ _ _ _ _ _ _ _ = filled at exhausted ⊢
  obtain ⟨result, after⟩ := filled
  dsimp only at exhausted
  subst exhausted
  rfl

theorem read_ends (fed : ¬ Starves os archive reader now capacity) (endFits : reader.endPos < u64Size)
    (fits : capacity < u64Size) (positive : 0 < capacity) :
    ∃ outcome, Settles (fun fuel => read 64 fuel os archive (reader, now) capacity) outcome ∧
      Ends archive.totalSize (reader, now) outcome := by
  by_cases finished : reader.endPos ≤ reader.currentPos ∨ archive.totalSize ≤ reader.currentPos
  · refine ⟨(.ok [], reader, now), ⟨0, fun fuel _ => ?_⟩, trivial, ⟨rfl, rfl⟩, Nat.le_max_left _ _, ?_, .nil⟩
    · simp only [read, readIntoBuffer, if_pos finished, Except.mapError]
    · intro _
      dsimp only
      omega
  · have never : ∀ progress pos count, Comes (readStep 64 os archive reader.endPos) capacity reader.endPos
        archive.totalSize { cursor := reader.cursor, files := reader.fileHandleCache, now } reader.currentPos progress
        pos count → count < capacity → pos < reader.endPos → pos < archive.totalSize →
        ¬ Stalls (readStep 64 os archive reader.endPos) pos (capacity - count) progress := by
      intro progress pos count comes room before present stalls
      have dry := (stalls_iff endFits before present (Nat.lt_of_le_of_lt (Nat.sub_le capacity count) fits)
        (Nat.sub_pos_of_lt room)).mp stalls
      exact fed ⟨progress, pos, count, comes, room, before, present, dry⟩
    obtain ⟨outcome, ⟨enough, answers⟩, collects⟩ : ∃ outcome,
        FillSettles (fun _ => readStep 64 os archive reader.endPos) Fault.exhausted capacity reader.endPos
          archive.totalSize { cursor := reader.cursor, files := reader.fileHandleCache, now } reader.currentPos []
          outcome ∧
        Collects (fun _ _ => True) (fun _ _ _ => True) (fun fault => ∃ reason, fault = .error reason) capacity
          reader.endPos archive.totalSize reader.currentPos []
          { cursor := reader.cursor, files := reader.fileHandleCache, now } outcome :=
      fill_settles_unless (fun progress pos room before present some small =>
        readStep_gives endFits progress before present (Nat.lt_of_le_of_lt small fits) some) never (by omega)
    obtain ⟨result, progress⟩ := outcome
    cases result with
    | error fault =>
        obtain ⟨⟨reason, rfl⟩, _⟩ := collects
        refine ⟨(.error (.error (.other reason.toString)),
          { reader with cursor := progress.cursor, fileHandleCache := progress.files }, progress.now),
          ⟨enough, fun fuel large => ?_⟩, ⟨_, rfl⟩, trivial, rfl, rfl⟩
        simp only [read, readIntoBuffer, if_neg finished, answers fuel fuel large large, Except.mapError,
          Fault.mapError]
    | ok collected =>
        obtain ⟨bytes, next⟩ := collected
        obtain ⟨_, full, more, joined, reached, within, _⟩ := collects
        rw [List.nil_append] at joined
        subst joined
        refine ⟨(.ok bytes, { reader with currentPos := next, cursor := progress.cursor, fileHandleCache := progress.files },
          progress.now), ⟨enough, fun fuel large => ?_⟩, trivial, ⟨rfl, reached⟩, ?_, ?_, fun _ _ _ => trivial⟩
        · simp only [read, readIntoBuffer, if_neg finished, answers fuel fuel large large, Except.mapError]
        · dsimp only
          omega
        · intro empty
          subst empty
          have ended := full positive
          rw [reached] at ended
          exact ended

/-- Files that never answer a read with nothing starve no call. -/
theorem not_starves_of_feeding
    (feeds : ∀ now file offset room, 0 < room → os.read now file offset room ≠ .ok []) (endFits : reader.endPos < u64Size) :
    ¬ Starves os archive reader now capacity := by
  intro starves
  obtain ⟨progress, pos, count, comes, room, before, present, index, entry, here, dry⟩ := starves
  have once := dry 1
  rw [dryReads] at once
  rcases answer : contentRead os archive entry (pos - contentStart entry)
    (contentWant entry reader.endPos pos (capacity - count)) progress.files progress.now with ⟨result, files, later⟩
  rw [answer] at once
  cases result with
  | error reason => simp at once
  | ok bytes =>
      cases bytes with
      | cons first rest => simp at once
      | nil =>
          obtain ⟨opened, file, got⟩ := FileHandleCache.readAt_answer answer
          refine feeds opened file _ _ ?_ got
          have ends : wrappingAdd (contentStart entry) entry.info.size < u64Size := wrappingAdd_lt _ _
          have inside := here.2.2.2.2.2
          rw [contentWant, asUsize_of_lt (by omega), asUsize_of_lt (by omega)]
          omega

end Calls

/-- Whatever the files do, a call of the reader comes back with an error, with at least
one byte or at the end of its range, if and only if it does not come to content that
has run dry. This holds of every archive, so of those that `create` builds. -/
theorem tar_reads_end_iff (os : Files) (archive : TarArchive) (stop position : UInt64) (cursor : Nat)
    (fileHandleCache : FileHandleCache) (now capacity : Nat) (positive : 0 < capacity) (fits : capacity < u64Size) :
    let reader : RangeStreamWriter := { endPos := stop.toNat, currentPos := position.toNat, cursor, fileHandleCache }
    (∃ outcome, Settles (fun fuel => read 64 fuel os archive (reader, now) capacity) outcome ∧
        Ends archive.totalSize (reader, now) outcome) ↔
      ¬ Starves os archive reader now capacity := by
  intro reader
  constructor
  · intro settled starves
    obtain ⟨⟨result, after⟩, settles, ends⟩ := settled
    obtain ⟨fuel, answer⟩ := settles.reaches
    have exhausted := read_starves starves stop.toNat_lt fits fuel
    rw [answer] at exhausted
    dsimp only at exhausted
    subst exhausted
    obtain ⟨reason, returned⟩ := ends.1
    cases returned
  · intro fed
    exact read_ends fed stop.toNat_lt fits positive

theorem tar_reads_end_absent :
    ∃ outcome, Settles (fun fuel => read 64 fuel Files.absent smallArchive (TarArchive.streamRange 1024 1027, 0) 3)
        outcome ∧ Ends smallArchive.totalSize (TarArchive.streamRange 1024 1027, 0) outcome := by
  apply (tar_reads_end_iff Files.absent smallArchive 1027 1024 0 .new 0 3 (by decide) (by decide)).mpr
  apply not_starves_of_feeding
  · intro now file offset room positive answered
    cases answered
  · decide

theorem emptied_reads (cache : FileHandleCache) (now : Nat) (path : Path) (position room : Nat) :
    ∃ after later, cache.readAt Files.emptied now path position room = (.ok [], after, later) := by
  have chosen : ∃ pair after, cache.handle Files.emptied now path = (.ok pair, after) := by
    unfold FileHandleCache.handle
    cases cache.currentFile with
    | none => exact ⟨_, _, rfl⟩
    | some pair =>
        obtain ⟨known, file⟩ := pair
        by_cases hit : Path.same known path = true
        · exact ⟨(known, file), (cache.opened, now), by simp only [if_pos hit]⟩
        · exact ⟨(path, { id := 0, offset := 0 }), (cache.opened ++ [path], now + 1), by simp only [if_neg hit]; rfl⟩
  obtain ⟨pair, ⟨opened, later⟩, chosen⟩ := chosen
  simp only [FileHandleCache.readAt, chosen]
  exact ⟨_, _, rfl⟩

theorem emptied_dry (archive : TarArchive) (entry : TarEntry) (offset want : Nat) (files : FileHandleCache) (now : Nat) :
    Dry Files.emptied archive entry offset want files now := by
  intro turns
  induction turns generalizing files now with
  | zero => rfl
  | succ turns ih =>
      obtain ⟨after, later, answer⟩ := emptied_reads files (now + 1)
        (sourceFilePath archive (Files.emptied.isFile now archive.sourcePath) entry) offset want
      rw [dryReads, contentRead, answer]
      exact ih after later

/-- A read in the content of a file that has been cut to nothing never comes back. -/
theorem emptied_file_starves :
    ¬ ∃ outcome, Settles (fun fuel => read 64 fuel Files.emptied smallArchive (TarArchive.streamRange 1024 1027, 0) 3)
        outcome ∧ Ends smallArchive.totalSize (TarArchive.streamRange 1024 1027, 0) outcome := by
  intro settled
  obtain ⟨⟨result, after⟩, settles, ends⟩ := settled
  obtain ⟨fuel, answer⟩ := settles.reaches
  have here : AtContent smallArchive 0 1024 1 (smallArchive.entries.get ⟨1, by decide +kernel⟩) := by
    refine ⟨by decide +kernel, rfl, by decide +kernel, by decide +kernel, ?_⟩
    rw [InContent, InHeader]
    decide +kernel
  have present : 1024 < smallArchive.totalSize := by decide +kernel
  have starves : Starves Files.emptied smallArchive (TarArchive.streamRange 1024 1027) 0 3 :=
    ⟨{ cursor := 0, files := .new, now := 0 }, 1024, 0, .start, by decide, by decide, present, 1, _, here,
      emptied_dry _ _ _ _ _ _⟩
  have exhausted := read_starves starves (by decide) (by decide) fuel
  rw [answer] at exhausted
  dsimp only at exhausted
  subst exhausted
  obtain ⟨reason, returned⟩ := ends.1
  cases returned

end Raas.Tar
