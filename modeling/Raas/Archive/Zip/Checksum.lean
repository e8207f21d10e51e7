import Raas.Archive.Zip.Encode
import Raas.Data.Utf8
import Raas.Os.Files

namespace Raas.Zip

open Data

/-! Checksums on demand. -/

/-- The `zip-crc32` feature: whether it is compiled in, the checksum that `crc32fast`
gives for the concatenation of the chunks it is fed, and the characters that `{:?}`
prints as they are, by the standard library's tables. -/
structure CrcFeature where
  enabled : Bool
  checksum : Bytes → UInt32
  plain : Char → Bool

/-- The `OnceLock` of each entry, by entry number. -/
abbrev CrcCells := Nat → Option (Except String Nat)

/-- `char::escape_debug` -/
def escapeDebug (plain : Char → Bool) (char : Char) : String :=
  let code := char.toNat
  if plain char then char.toString
  else if code = 0 then "\\0"
  else if code = 9 then "\\t"
  else if code = 13 then "\\r"
  else if code = 10 then "\\n"
  else if code = 34 ∨ code = 39 ∨ code = 92 then "\\" ++ char.toString
  else "\\u\x7b" ++ String.ofList (Nat.toDigits 16 code) ++ "\x7d"

/-- `\xFF`, with two digits in upper case. -/
def escapeByte (byte : UInt8) : String :=
  "\\x" ++ (String.ofList [Nat.digitChar (byte.toNat / 16), Nat.digitChar (byte.toNat % 16)]).toUpper

/-- A path as `{:?}` prints it: its characters escaped, and what is no UTF-8 in hexadecimal. -/
def debugPath (plain : Char → Bool) (path : Path) : String :=
  let pieces := (Utf8.cut path).flatMap fun piece =>
    if piece.1 then (text piece.2).toList.map (escapeDebug plain) else piece.2.map escapeByte
  "\"" ++ String.join pieces ++ "\""

/-- The read loop of `compute_crc32`: the bytes hashed so far and their number. -/
def hashFile (feature : CrcFeature) (os : Files) (file : FileId) (path : Path) :
    Nat → Nat → Nat → Bytes → Nat → Except (Fault String) (Bytes × Nat) × Nat
  | 0, now, _, _, _ => (.error .exhausted, now)
  | fuel + 1, now, offset, hashed, total =>
      match os.read now file offset (64 * 1024) with
      | .error reason =>
          (.error (.error ("读取文件失败 " ++ debugPath feature.plain path ++ ": " ++ reason.message)), now + 1)
      | .ok [] => (.ok (hashed, total), now + 1)
      | .ok (first :: rest) =>
          hashFile feature os file path fuel (now + 1) (offset + (first :: rest).length) (hashed ++ first :: rest)
            (wrappingAdd total (first :: rest).length)

def computeCrc32 (feature : CrcFeature) (fuel : Nat) (os : Files) (now : Nat) (path : Path)
    (expectedSize : Nat) : Except (Fault String) Nat × Nat :=
  match os.openFile now path with
  | .error reason =>
      (.error (.error ("打开文件失败 " ++ debugPath feature.plain path ++ ": " ++ reason.message)), now + 1)
  | .ok file =>
      match hashFile feature os file path fuel (now + 1) 0 [] 0 with
      | (.error reason, now) => (.error reason, now)
      | (.ok (hashed, total), now) =>
          if total = expectedSize then (.ok (feature.checksum hashed).toNat, now)
          else
            (.error (.error ("源文件在索引构建后发生变化: " ++ debugPath feature.plain path ++
              s!" 期望 {expectedSize} 字节, 实际 {total} 字节")), now)

/-- `entry_crc`: a cell keeps the first answer it was given, an error as well as a checksum. -/
def entryCrc (feature : CrcFeature) (fuel : Nat) (os : Files) (cells : CrcCells) (now index : Nat)
    (entry : ZipEntry) : Except (Fault IoError) Nat × CrcCells × Nat :=
  if entry.isDir then (.ok 0, cells, now)
  else if feature.enabled then
    match entry.sourcePath with
    | none => (.error (.panic "文件条目必须包含源路径"), cells, now)
    | some source =>
        match cells index with
        | some (.ok crc) => (.ok crc, cells, now)
        | some (.error message) => (.error (.error (.other message)), cells, now)
        | none =>
            match computeCrc32 feature fuel os now source entry.size with
            | (.ok crc, now) => (.ok crc, Function.update cells index (some (.ok crc)), now)
            | (.error (.error message), now) =>
                (.error (.error (.other message)), Function.update cells index (some (.error message)), now)
            | (.error (.panic message), now) => (.error (.panic message), cells, now)
            | (.error .exhausted, now) => (.error .exhausted, cells, now)
  else (.ok 0, cells, now)

/-- The ends that `entry_crc` can come to, and what each leaves in the cells. -/
inductive CrcAnswer (feature : CrcFeature) (fuel : Nat) (os : Files) (cells : CrcCells) (now index : Nat)
    (entry : ZipEntry) : Except (Fault IoError) Nat × CrcCells × Nat → Prop
  | skipped (skip : entry.isDir = true ∨ feature.enabled = false) :
      CrcAnswer feature fuel os cells now index entry (.ok 0, cells, now)
  | unsourced (message : String) : CrcAnswer feature fuel os cells now index entry (.error (.panic message), cells, now)
  | kept {source : Path} {crc : Nat} (regular : entry.isDir = false) (enabled : feature.enabled = true)
      (sourced : entry.sourcePath = some source) (known : cells index = some (.ok crc)) :
      CrcAnswer feature fuel os cells now index entry (.ok crc, cells, now)
  | keptError {message : String} (known : cells index = some (.error message)) :
      CrcAnswer feature fuel os cells now index entry (.error (.error (.other message)), cells, now)
  | computed {source : Path} {crc later : Nat} (regular : entry.isDir = false) (enabled : feature.enabled = true)
      (sourced : entry.sourcePath = some source) (unset : cells index = none)
      (hashed : computeCrc32 feature fuel os now source entry.size = (.ok crc, later)) :
      CrcAnswer feature fuel os cells now index entry (.ok crc, Function.update cells index (some (.ok crc)), later)
  | failed {message : String} {later : Nat} (unset : cells index = none) :
      CrcAnswer feature fuel os cells now index entry
        (.error (.error (.other message)), Function.update cells index (some (.error message)), later)
  | lost {fault : Fault IoError} {later : Nat} :
      CrcAnswer feature fuel os cells now index entry (.error fault, cells, later)

theorem entryCrc_answer (feature : CrcFeature) (fuel : Nat) (os : Files) (cells : CrcCells) (now index : Nat)
    (entry : ZipEntry) :
    CrcAnswer feature fuel os cells now index entry (entryCrc feature fuel os cells now index entry) := by
  unfold entryCrc
  by_cases directory : entry.isDir = true
  · rw [if_pos directory]
    exact .skipped (.inl directory)
  · rw [if_neg directory]
    by_cases enabled : feature.enabled = true
    · rw [if_pos enabled]
      have regular := Bool.eq_false_iff.mpr directory
      cases sourced : entry.sourcePath with
      | none => exact .unsourced _
      | some source =>
          cases known : cells index with
          | some answer =>
              cases answer with
              | ok crc => exact .kept regular enabled sourced known
              | error message => exact .keptError known
          | none =>
              rcases hashed : computeCrc32 feature fuel os now source entry.size with ⟨result, later⟩
              dsimp only
              cases result with
              | ok crc =>
                  rw [hashed]
                  exact .computed regular enabled sourced known hashed
              | error fault =>
                  rw [hashed]
                  cases fault with
                  | error message => exact .failed known
                  | panic message => exact .lost
                  | exhausted => exact .lost
    · rw [if_neg enabled]
      exact .skipped (.inr (Bool.eq_false_iff.mpr enabled))

/-- `write_segment_into`: the buffer is cleared first. -/
def writeSegmentInto (feature : CrcFeature) (fuel : Nat) (os : Files) (archive : ZipArchive)
    (kind : SegmentKind) (cells : CrcCells) (now : Nat) :
    Except (Fault IoError) Bytes × CrcCells × Nat :=
  match kind with
  | .localHeader index =>
      match archive.entries[index]? with
      | none => (.error (.panic "index out of bounds"), cells, now)
      | some entry =>
          let (crc, after) := entryCrc feature fuel os cells now index entry
          (crc.map fun crc => writeLocalHeader entry crc [], after)
  | .centralEntry index =>
      match archive.entries[index]? with
      | none => (.error (.panic "index out of bounds"), cells, now)
      | some entry =>
          let (crc, after) := entryCrc feature fuel os cells now index entry
          (crc.map fun crc => writeCentralEntry entry crc [], after)
  | .zip64Eocd => (.ok (writeZip64Eocd archive []), cells, now)
  | .zip64Locator => (.ok (writeZip64Locator archive []), cells, now)
  | .eocd => (.ok (writeEocd archive []), cells, now)
  | .data _ =>
      (.error (.error { kind := .invalidInput, message := "数据区间应按流式方式读取" }), cells, now)

/-! Checksums of files that stay as they are. -/

def entryContent (paths : Path → Option Bytes) (entry : ZipEntry) : Bytes :=
  match entry.sourcePath with
  | some source => (paths source).getD []
  | none => []

def crcOf (feature : CrcFeature) (paths : Path → Option Bytes) (entry : ZipEntry) : Nat :=
  if entry.isDir || !feature.enabled then 0 else (feature.checksum (entryContent paths entry)).toNat

theorem crcOf_lt (feature : CrcFeature) (paths : Path → Option Bytes) (entry : ZipEntry) :
    crcOf feature paths entry < 256 ^ 4 := by
  rw [crcOf]
  split
  · decide
  · exact UInt32.toNat_lt _

/-- Every file still has the size that the index recorded for it. -/
def ZipArchive.KeepsSizes (archive : ZipArchive) (paths : Path → Option Bytes) : Prop :=
  ∀ entry ∈ archive.entries, entry.isDir = false → ∀ source, entry.sourcePath = some source →
    ∃ bytes, paths source = some bytes ∧ bytes.length = entry.size

instance (archive : ZipArchive) (paths : Path → Option Bytes) : Decidable (archive.KeepsSizes paths) :=
  decidable_of_iff (∀ entry ∈ archive.entries, entry.isDir = false → ∀ source ∈ entry.sourcePath,
      (paths source).map List.length = some entry.size)
    (by simp only [ZipArchive.KeepsSizes, Option.map_eq_some_iff, Option.mem_def])

/-- No cell keeps an error or a checksum of something else. -/
def CellsHold (feature : CrcFeature) (paths : Path → Option Bytes) (archive : ZipArchive)
    (cells : CrcCells) : Prop :=
  ∀ index entry, archive.entries[index]? = some entry →
    cells index = none ∨ cells index = some (.ok (crcOf feature paths entry))

/-- A checksum pass that goes on from `offset` at `now` meets a read that fails. -/
inductive ReadsFail (os : Files) (file : FileId) : Nat → Nat → Prop
  | here {now offset : Nat} {reason : IoError} (failed : os.read now file offset (64 * 1024) = .error reason) :
      ReadsFail os file now offset
  | further {now offset : Nat} {first : UInt8} {rest : Bytes}
      (answered : os.read now file offset (64 * 1024) = .ok (first :: rest))
      (fails : ReadsFail os file (now + 1) (offset + (first :: rest).length)) : ReadsFail os file now offset

/-- A checksum pass over `source` that begins at `now` fails to open the file or to read it to its end. -/
def Interrupted (os : Files) (source : Path) (now : Nat) : Prop :=
  (∃ reason, os.openFile now source = .error reason) ∨
    ∃ file, os.openFile now source = .ok file ∧ ReadsFail os file (now + 1) 0

section Serving

variable {feature : CrcFeature} {os : Files} {Fails : IoError → Prop} {holds : FileId → Option Bytes}
  {paths : Path → Option Bytes} {archive : ZipArchive} {cells : CrcCells} {entry : ZipEntry} {bytes : Bytes}
  {source : Path} {now : Nat}

theorem cellsHold_fresh : CellsHold feature paths archive fun _ => none :=
  fun _ _ _ => .inl rfl

theorem CellsHold.update (hold : CellsHold feature paths archive cells) {index : Nat}
    (found : archive.entries[index]? = some entry) :
    CellsHold feature paths archive (Function.update cells index (some (.ok (crcOf feature paths entry)))) := by
  intro other otherEntry otherFound
  by_cases same : other = index
  · subst same
    rw [found, Option.some.injEq] at otherFound
    subst otherFound
    rw [Function.update_self]
    exact .inr rfl
  · rw [Function.update_of_ne same]
    exact hold other otherEntry otherFound

theorem hashFile_falters (feature : CrcFeature) (falters : os.Falters Fails holds paths) {file : FileId} (holding : holds file = some bytes)
    (small : bytes.length < u64Size) (path : Path) {fuel offset : Nat} (now : Nat)
    (inside : offset ≤ bytes.length) (enough : bytes.length - offset < fuel) :
    ∃ later,
      (ReadsFail os file now offset ∧ ∃ message,
        hashFile feature os file path fuel now offset (bytes.take offset) offset = (.error (.error message), later)) ∨
      (¬ ReadsFail os file now offset ∧
        hashFile feature os file path fuel now offset (bytes.take offset) offset = (.ok (bytes, bytes.length), later)) := by
  induction fuel generalizing now offset with
  | zero => omega
  | succ fuel ih =>
      rcases falters.reads now file bytes offset (64 * 1024) holding with
        ⟨reason, failed, _⟩ | ⟨count, answered, fits, progress⟩
      · exact ⟨now + 1, .inl ⟨.here failed, _, by simp only [hashFile, failed]; rfl⟩⟩
      · rw [hashFile, answered]
        have length := window_length bytes offset (offset + count)
        have joined : bytes.take offset ++ window bytes offset (offset + count) =
            bytes.take (offset + (window bytes offset (offset + count)).length) := by
          rw [length, List.take_add, window, Nat.add_sub_cancel_left]
          congr 1
          rw [List.take_eq_take_iff, List.length_drop]
          omega
        cases piece : window bytes offset (offset + count) with
        | nil =>
            rw [piece] at answered
            have finished : offset = bytes.length := by
              by_contra before
              have positive := progress (by decide) (by omega)
              rw [piece, List.length_nil] at length
              omega
            refine ⟨now + 1, .inr ⟨?_, ?_⟩⟩
            · intro fails
              cases fails with
              | here failed => rw [answered] at failed; cases failed
              | further found _ => rw [answered] at found; cases found
            · rw [finished, List.take_length]
        | cons first rest =>
            rw [piece] at length answered joined
            have next : wrappingAdd offset (first :: rest).length = offset + (first :: rest).length :=
              wrappingAdd_of_lt (by omega)
            have counted : 0 < (first :: rest).length := Nat.succ_pos _
            dsimp only
            rw [joined, next]
            obtain ⟨later, ⟨fails, failure⟩ | ⟨succeeds, hashed⟩⟩ :=
              ih (now + 1) (show offset + (first :: rest).length ≤ bytes.length by omega) (by omega)
            · exact ⟨later, .inl ⟨.further answered fails, failure⟩⟩
            · refine ⟨later, .inr ⟨?_, hashed⟩⟩
              intro fails
              apply succeeds
              cases fails with
              | here failed => rw [answered] at failed; cases failed
              | further found fails =>
                  obtain ⟨rfl, rfl⟩ := List.cons.inj (Except.ok.inj (answered.symm.trans found))
                  exact fails

/-- A checksum pass over a file that keeps its content gives its checksum, unless it is
interrupted. -/
theorem computeCrc32_falters (feature : CrcFeature) (falters : os.Falters Fails holds paths)
    (found : paths source = some bytes) (small : bytes.length < u64Size) {fuel : Nat} (enough : bytes.length < fuel)
    (now : Nat) :
    ∃ later,
      (Interrupted os source now ∧ ∃ message,
        computeCrc32 feature fuel os now source bytes.length = (.error (.error message), later)) ∨
      (¬ Interrupted os source now ∧
        computeCrc32 feature fuel os now source bytes.length = (.ok (feature.checksum bytes).toNat, later)) := by
  rcases falters.opens now source bytes found with ⟨reason, failed, _⟩ | ⟨file, opened, holding⟩
  · exact ⟨now + 1, .inl ⟨.inl ⟨reason, failed⟩, _, by simp only [computeCrc32, failed]; rfl⟩⟩
  · have hashing := hashFile_falters feature falters holding small source (now + 1) (Nat.zero_le _)
      (show bytes.length - 0 < fuel by omega)
    rw [List.take_zero] at hashing
    obtain ⟨later, ⟨fails, message, hashed⟩ | ⟨succeeds, hashed⟩⟩ := hashing
    · refine ⟨later, .inl ⟨.inr ⟨file, opened, fails⟩, message, ?_⟩⟩
      simp only [computeCrc32, opened, hashed]
    · refine ⟨later, .inr ⟨?_, ?_⟩⟩
      · intro interrupted
        rcases interrupted with ⟨reason, failed⟩ | ⟨other, reopened, fails⟩
        · rw [opened] at failed
          cases failed
        · obtain rfl := Except.ok.inj (opened.symm.trans reopened)
          exact succeeds fails
      · simp only [computeCrc32, opened, hashed, if_true]

/-- A checksum pass that is interrupted leaves its error in the cell for good. -/
theorem entryCrc_poisons (falters : os.Falters Fails holds paths) (keeps : archive.KeepsSizes paths) {index : Nat}
    (found : archive.entries[index]? = some entry) (enabled : feature.enabled = true) (regular : entry.isDir = false)
    (sourced : entry.sourcePath = some source) (unset : cells index = none) (interrupted : Interrupted os source now)
    (small : entry.size < u64Size) {fuel : Nat} (enough : entry.size < fuel) :
    ∃ message later, entryCrc feature fuel os cells now index entry =
      (.error (.error (.other message)), Function.update cells index (some (.error message)), later) := by
  obtain ⟨bytes, leads, size⟩ := keeps entry (List.mem_of_getElem? found) regular source sourced
  rw [← size] at small enough
  obtain ⟨later, ⟨_, message, computed⟩ | ⟨never, _⟩⟩ :=
    computeCrc32_falters feature falters leads small enough now
  · refine ⟨message, later, ?_⟩
    simp only [entryCrc, regular, enabled, sourced, unset, ← size, computed, Bool.false_eq_true, if_false, if_true]
  · exact absurd interrupted never

/-- `entry_crc` gives an entry's own checksum as long as no pass is interrupted. -/
theorem entryCrc_falters (falters : os.Falters Fails holds paths) (keeps : archive.KeepsSizes paths)
    (hold : CellsHold feature paths archive cells) {index : Nat}
    (found : archive.entries[index]? = some entry)
    (sourced : entry.isDir = false → ∃ source, entry.sourcePath = some source)
    (spared : feature.enabled = true → entry.isDir = false → cells index = none →
      ∀ source, entry.sourcePath = some source → ¬ Interrupted os source now)
    (small : entry.size < u64Size) {fuel : Nat} (enough : entry.size < fuel) :
    ∃ after later, entryCrc feature fuel os cells now index entry =
      (.ok (crcOf feature paths entry), after, later) ∧ CellsHold feature paths archive after := by
  unfold entryCrc
  cases directory : entry.isDir with
  | true => exact ⟨cells, now, by simp [crcOf, directory], hold⟩
  | false =>
      cases enabled : feature.enabled with
      | false => exact ⟨cells, now, by simp [crcOf, enabled], hold⟩
      | true =>
          obtain ⟨source, sourcePath⟩ := sourced directory
          obtain ⟨bytes, leads, size⟩ := keeps entry (List.mem_of_getElem? found) directory source sourcePath
          have crc : crcOf feature paths entry = (feature.checksum bytes).toNat := by
            simp [crcOf, directory, enabled, entryContent, sourcePath, leads]
          rw [← size] at small enough
          simp only [sourcePath, Bool.false_eq_true, if_false, if_true]
          rcases hold index entry found with fresh | known
          · obtain ⟨later, ⟨interrupted, _⟩ | ⟨_, computed⟩⟩ :=
              computeCrc32_falters feature falters leads small enough now
            · exact absurd interrupted (spared enabled directory fresh source sourcePath)
            · simp only [fresh, ← size, computed, ← crc]
              exact ⟨_, later, rfl, hold.update found⟩
          · simp only [known]
            exact ⟨cells, now, rfl, hold⟩

/-- No pass is interrupted while the files can be opened and read. -/
theorem Interrupted.never (serves : os.Serves holds paths) (found : paths source = some bytes) :
    ¬ Interrupted os source now := by
  obtain ⟨file, opened, holding⟩ := serves.opens now source bytes found
  have answered : ∀ {now offset : Nat}, ¬ ReadsFail os file now offset := by
    intro now offset fails
    induction fails with
    | @here now offset reason failed =>
        obtain ⟨count, answered, _⟩ := serves.reads now file bytes offset (64 * 1024) holding
        rw [answered] at failed
        cases failed
    | further _ _ ih => exact ih
  intro interrupted
  rcases interrupted with ⟨reason, failed⟩ | ⟨other, reopened, fails⟩
  · rw [opened] at failed
    cases failed
  · obtain rfl := Except.ok.inj (opened.symm.trans reopened)
    exact answered fails

end Serving

end Raas.Zip
