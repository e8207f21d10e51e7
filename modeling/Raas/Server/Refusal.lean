import Raas.Server.FileName
import Raas.Server.Stitching

namespace Raas.Server

open Data

/-! Names that cannot be put into a header. -/

/-- What `populate_common_headers` puts into a response. -/
structure CommonHeaders where
  contentType : String
  acceptRanges : String
  contentDisposition : Bytes
deriving DecidableEq

def refused : ArchiveApiError := .badRequest "文件名包含非法字符"

def populateCommonHeaders (values : HeaderValues) (fileName : Bytes) (contentType : String) :
    Except ArchiveApiError CommonHeaders :=
  let disposition := buildContentDisposition fileName
  if values.accepts disposition then
    .ok { contentType, acceptRanges := "bytes", contentDisposition := disposition }
  else .error refused

/-- A byte that a `HeaderValue` may have: a tab, or anything from 0x20 on but DEL. -/
def isHeaderByte (byte : UInt8) : Bool := (32 ≤ byte && byte != 127) || byte == 9

/-- `HeaderValue::try_from` as the `http` crate documents it. -/
def HeaderValues.Documented (values : HeaderValues) : Prop := ∀ bytes, values.accepts bytes = bytes.all isHeaderByte

section Refusals

variable {values : HeaderValues} {env : Environment} {archive : Archive} {request : Request} {path name : Bytes}

/-- A streamed response takes its common headers from `populate_common_headers`. -/
theorem streamedResponse_eq (env : Environment) (archive : Archive) (path : Bytes) (start stop : Nat)
    (status : StatusCode) (contentLength : Nat) (body : Drained (Fault IoError) UInt8) :
    streamedResponse env archive path start stop status contentLength body =
      (populateCommonHeaders env.values (downloadName path archive.format) archive.format.contentType).bind
        fun headers =>
          let response : Response :=
            { status, contentLength := some contentLength, contentType := some headers.contentType,
              acceptRanges := some headers.acceptRanges, contentDisposition := some headers.contentDisposition,
              contentRange := none, body }
          if status = .partialContent then
            let contentRange := ContentRange.interval start (wrappingSub stop 1) archive.totalSize
            if env.values.accepts contentRange.value then .ok { response with contentRange := some contentRange }
            else .error (.internalError "无效的 Content-Range 头")
          else .ok response := by
  unfold streamedResponse populateCommonHeaders
  dsimp only
  cases env.values.accepts (buildContentDisposition (downloadName path archive.format)) <;> rfl

theorem populated_of_refused {start stop : Nat} {status : StatusCode} {contentLength : Nat}
    {body : Drained (Fault IoError) UInt8}
    (failed : streamedResponse env archive path start stop status contentLength body = .error refused) :
    populateCommonHeaders env.values (downloadName path archive.format) archive.format.contentType =
      .error refused := by
  rw [streamedResponse_eq] at failed
  cases populated : populateCommonHeaders env.values (downloadName path archive.format) archive.format.contentType with
  | error reason =>
      rw [populated] at failed
      rw [Except.error.inj failed]
  | ok headers =>
      rw [populated, Except.bind] at failed
      dsimp only at failed
      split at failed
      · split at failed <;> exact nomatch failed
      · exact nomatch failed

theorem parsedRange_error {totalSize : Nat} (failed : parsedRange env request totalSize = .error refused) : False := by
  unfold parsedRange at failed
  split at failed
  · exact nomatch failed
  · split at failed
    · have texts := ArchiveApiError.badRequest.inj (Except.error.inj failed)
      exact absurd texts (by decide)
    · exact nomatch failed

theorem unsatisfiedResponse_error (env : Environment) (totalSize : Nat) :
    unsatisfiedResponse env totalSize ≠ .error refused := by
  unfold unsatisfiedResponse
  dsimp only
  split <;> exact nofun

/-- Only the common headers refuse a download as the name's fault. -/
theorem download_refused
    (result : (downloadRandomAccessArchive env archive request world).1 = .error refused) :
    populateCommonHeaders env.values (downloadName request.path archive.format) archive.format.contentType =
      .error refused := by
  unfold downloadRandomAccessArchive at result
  dsimp only at result
  cases read : parsedRange env request archive.totalSize with
  | error reason =>
      rw [read] at result
      rw [Except.error.inj result] at read
      exact (parsedRange_error read).elim
  | ok parsed =>
      cases selected : selectRange parsed archive.totalSize with
      | none =>
          simp only [read, selected] at result
          exact absurd result (unsatisfiedResponse_error env archive.totalSize)
      | some choice =>
          obtain ⟨start, stop, status, contentLength⟩ := choice
          simp only [read, selected] at result
          exact populated_of_refused result

theorem isHeaderByte_iff {byte : UInt8} : isHeaderByte byte = true ↔ (32 ≤ byte ∧ byte ≠ 127) ∨ byte = 9 := by
  rw [isHeaderByte, Bool.or_eq_true, Bool.and_eq_true, decide_eq_true_eq, bne_iff_ne, beq_iff_eq]

theorem isHeaderByte_unreserved {byte : UInt8} (unreserved : isUnreserved byte = true) : isHeaderByte byte = true := by
  unfold isUnreserved at unreserved
  simp only [Bool.or_eq_true, Bool.and_eq_true, decide_eq_true_eq, beq_iff_eq] at unreserved
  rw [isHeaderByte_iff]
  apply Or.inl
  simp only [UInt8.le_iff_toNat_le, ← UInt8.toNat_inj, ne_eq] at unreserved ⊢
  simp only [UInt8.reduceToNat] at unreserved ⊢
  omega

theorem extendedPart_accepted (fileName : Bytes) : (extendedPart fileName).all isHeaderByte = true := by
  rw [extendedPart, List.all_append, Bool.and_eq_true, List.all_eq_true, List.all_eq_true]
  constructor
  · exact List.all_eq_true.mp (by decide)
  · intro byte member
    rcases encoded_byte member with unreserved | rfl
    · exact isHeaderByte_unreserved unreserved
    · rfl

/-- The encoded form is always accepted, the quoted one as far as the name is. -/
theorem disposition_accepted (fileName : Bytes) :
    (buildContentDisposition fileName).all isHeaderByte = (!isAsciiSafe fileName || fileName.all isHeaderByte) := by
  have word : (ascii "attachment").all isHeaderByte = true := by decide
  have front : (ascii " filename=").all isHeaderByte = true := by decide
  have marks : isHeaderByte 59 = true ∧ isHeaderByte 34 = true := ⟨rfl, rfl⟩
  rw [buildContentDisposition_eq]
  cases safe : isAsciiSafe fileName
  · simp only [Bool.false_eq_true, if_false, List.all_append, List.all_cons, word, marks, extendedPart_accepted,
      Bool.and_self, Bool.not_false, Bool.true_or]
  · simp only [if_true, List.all_append, List.all_cons, word, front, marks, extendedPart_accepted, Bool.true_and,
      Bool.and_true, Bool.not_true, Bool.false_or]

theorem downloadName_named (named : Path.fileName path = some name) (format : ArchiveFormat) :
    downloadName path format = name ++ ascii "." ++ ascii format.extension := by
  rw [downloadName, named, Option.getD_some]

theorem extension_plain (format : ArchiveFormat) :
    isAsciiSafe (ascii "." ++ ascii format.extension) = true ∧
      (ascii "." ++ ascii format.extension).all isHeaderByte = true := by
  cases format <;> decide

/-- A byte that keeps a name out of the quoted form. -/
def isUnquotable (byte : UInt8) : Bool := 128 ≤ byte || [34, 92, 13, 10].contains byte

theorem isAsciiSafe_eq (fileName : Bytes) : isAsciiSafe fileName = !fileName.any isUnquotable := by
  rw [isAsciiSafe, List.not_any_eq_all_not]
  congr 1
  funext byte
  have ascii : decide (byte < 128) = !decide (128 ≤ byte) := by
    rw [← decide_not, decide_eq_decide, UInt8.not_le]
  simp only [isUnquotable, ascii, List.contains_cons, List.contains_nil, Bool.or_false, Bool.not_or, bne,
    Bool.and_assoc]

/-- A documented header value takes the disposition of a name unless the name is put in
quotes with a control character in it. -/
theorem disposition_accepted_iff (documented : values.Documented) (named : Path.fileName path = some name)
    (format : ArchiveFormat) :
    values.accepts (buildContentDisposition (downloadName path format)) = true ↔
      name.any isUnquotable = true ∨ ∀ byte ∈ name, isHeaderByte byte = true := by
  have plain := extension_plain format
  have safe : isAsciiSafe (name ++ ascii "." ++ ascii format.extension) = isAsciiSafe name := by
    have extension := plain.1
    unfold isAsciiSafe at extension ⊢
    rw [List.append_assoc, List.all_append, extension, Bool.and_true]
  rw [documented, downloadName_named named, disposition_accepted, safe, List.append_assoc, List.all_append, plain.2,
    Bool.and_true, isAsciiSafe_eq, Bool.not_not, Bool.or_eq_true, List.all_eq_true]

/-- A name can be downloaded if and only if it has a byte that keeps it out of the
quoted form, or no control character but tabs. -/
theorem name_downloadable_iff (documented : values.Documented) (named : Path.fileName path = some name)
    (format : ArchiveFormat) :
    ((∃ headers, populateCommonHeaders values (downloadName path format) format.contentType = .ok headers) ∧
        ∀ (env : Environment) (archive : Archive) (request : Request) (world : Zip.World),
          env.values = values → archive.format = format → request.path = path →
            (downloadRandomAccessArchive env archive request world).1 ≠ .error (.badRequest "文件名包含非法字符")) ↔
      name.any isUnquotable = true ∨ ∀ byte ∈ name, isHeaderByte byte = true := by
  rw [← disposition_accepted_iff documented named format]
  constructor
  · intro answered
    obtain ⟨⟨headers, populated⟩, _⟩ := answered
    unfold populateCommonHeaders at populated
    dsimp only at populated
    split at populated
    · assumption
    · exact nomatch populated
  · intro accepted
    have populated : ∃ headers, populateCommonHeaders values (downloadName path format) format.contentType =
        .ok headers := by
      unfold populateCommonHeaders
      exact ⟨_, if_pos accepted⟩
    refine ⟨populated, ?_⟩
    obtain ⟨headers, populated⟩ := populated
    intro env archive request world same sameFormat samePath result
    have failed := download_refused result
    rw [same, sameFormat, samePath, populated] at failed
    exact nomatch failed

end Refusals

def documentedValues : HeaderValues where
  toStr := smallEnvironment.values.toStr
  accepts := fun bytes => bytes.all isHeaderByte

theorem name_downloadable_quoted :
    populateCommonHeaders documentedValues (downloadName [47, 34, 1] .zip) "application/zip" =
        .ok
          { contentType := "application/zip"
            acceptRanges := "bytes"
            contentDisposition := ascii "attachment; filename*=UTF-8''%22%01.zip" } ∧
      ∀ (env : Environment) (archive : Archive) (request : Request) (world : Zip.World),
        env.values = documentedValues → archive.format = .zip → request.path = [47, 34, 1] →
          (downloadRandomAccessArchive env archive request world).1 ≠ .error (.badRequest "文件名包含非法字符") := by
  have named : Path.fileName [47, 34, 1] = some [34, 1] := by decide
  exact ⟨by decide, ((name_downloadable_iff (fun _ => rfl) named .zip).mpr (.inl rfl)).2⟩

/-- A directory whose name is `a` and a control character cannot be downloaded at all. -/
theorem control_character_refused :
    documentedValues.Documented ∧ Path.fileName [97, 1] = some [97, 1] ∧
      (∀ format : ArchiveFormat, populateCommonHeaders documentedValues (downloadName [97, 1] format)
        format.contentType = .error (.badRequest "文件名包含非法字符")) ∧
      ∀ (env : Environment) (archive : Archive) (patience : Nat) (world : Zip.World), env.values = documentedValues →
        (downloadRandomAccessArchive env archive { path := [97, 1], range := none, patience } world).1 =
          .error (.badRequest "文件名包含非法字符") := by
  have failed : ∀ format : ArchiveFormat, populateCommonHeaders documentedValues (downloadName [97, 1] format)
      format.contentType = .error (.badRequest "文件名包含非法字符") := by
    intro format
    cases format <;> decide
  refine ⟨fun _ => rfl, by decide, failed, ?_⟩
  intro env archive patience world same
  change streamedResponse env archive [97, 1] 0 archive.totalSize .ok archive.totalSize _ = _
  rw [streamedResponse_eq, same, failed]
  rfl

end Raas.Server
