import Raas.Archive.Dispatch
import Raas.Server.Disposition
import Raas.Server.Range

namespace Raas.Server

open Data

inductive ArchiveApiError where
  | badRequest (message : String)
  | internalError (message : String)
deriving DecidableEq, Repr

/-- `http::HeaderValue` as far as the handler uses it: reading one as a `str`, and
whether one can be made of some bytes. -/
structure HeaderValues where
  toStr : Bytes → Option (List Char)
  accepts : Bytes → Bool

/-- What a download runs in: the target, the operating system, the header
library, and the configured stream buffer. -/
structure Environment where
  pointerBits : Nat
  fuel : Nat
  feature : Zip.CrcFeature
  os : Files
  values : HeaderValues
  streamReadBufferSize : Nat

inductive StatusCode where
  | ok
  | partialContent
  | rangeNotSatisfiable
deriving DecidableEq, Repr

inductive ContentRange where
  | interval (first last total : Nat)
  | unsatisfied (total : Nat)
deriving DecidableEq, Repr

def ContentRange.value : ContentRange → Bytes
  | .interval first last total => ascii s!"bytes {first}-{last}/{total}"
  | .unsatisfied total => ascii s!"bytes */{total}"

structure Response where
  status : StatusCode
  contentLength : Option Nat
  contentType : Option String
  acceptRanges : Option String
  contentDisposition : Option Bytes
  contentRange : Option ContentRange
  body : Drained (Fault IoError) UInt8
deriving DecidableEq

/-- A download request once its archive is at hand. `patience` is the number of
chunks after which the client is gone. -/
structure Request where
  path : Bytes
  range : Option Bytes
  patience : Nat

def minStreamReadBufferSize : Nat := 64 * 1024

def createStreamBody (env : Environment) (archive : Archive) (world : Zip.World) (start stop patience : Nat) :
    Drained (Fault IoError) UInt8 × Zip.World :=
  let bufferSize := max env.streamReadBufferSize minStreamReadBufferSize
  let (drained, world) :=
    archive.streamRange env.pointerBits env.fuel env.feature env.os world start stop
      (List.replicate patience bufferSize)
  (drained.mapError (Fault.mapError fun reason => .other reason.message), world)

def downloadName (path : Path) (format : ArchiveFormat) : Bytes :=
  (Path.fileName path).getD (ascii "archive") ++ ascii "." ++ ascii format.extension

/-- Start, end, status and content length of the response, or none for a 416. -/
def selectRange (parsed : Except RangeParseError (Option (Nat × Nat))) (totalSize : Nat) :
    Option (Nat × Nat × StatusCode × Nat) :=
  match parsed with
  | .ok (some (rangeStart, rangeEnd)) =>
      some (rangeStart, wrappingAdd rangeEnd 1, .partialContent,
        wrappingSub (wrappingAdd rangeEnd 1) rangeStart)
  | .ok none | .error .malformed => some (0, totalSize, .ok, totalSize)
  | .error .unsatisfiable => none

def unsatisfiedResponse (env : Environment) (totalSize : Nat) : Except ArchiveApiError Response :=
  let contentRange := ContentRange.unsatisfied totalSize
  if env.values.accepts contentRange.value then
    .ok { status := .rangeNotSatisfiable, contentLength := none, contentType := none, acceptRanges := none,
          contentDisposition := none, contentRange := some contentRange, body := .ended [] }
  else .error (.internalError "无效的 Content-Range 头")

def streamedResponse (env : Environment) (archive : Archive) (path : Path) (start stop : Nat)
    (status : StatusCode) (contentLength : Nat) (body : Drained (Fault IoError) UInt8) :
    Except ArchiveApiError Response :=
  let disposition := buildContentDisposition (downloadName path archive.format)
  if env.values.accepts disposition then
    let response : Response :=
      { status, contentLength := some contentLength, contentType := some archive.format.contentType,
        acceptRanges := some "bytes", contentDisposition := some disposition, contentRange := none, body }
    if status = .partialContent then
      let contentRange := ContentRange.interval start (wrappingSub stop 1) archive.totalSize
      if env.values.accepts contentRange.value then .ok { response with contentRange := some contentRange }
      else .error (.internalError "无效的 Content-Range 头")
    else .ok response
  else .error (.badRequest "文件名包含非法字符")

/-- The `Range` header of a request, if it has one, read against the archive. -/
def parsedRange (env : Environment) (request : Request) (totalSize : Nat) :
    Except ArchiveApiError (Except RangeParseError (Option (Nat × Nat))) :=
  match request.range with
  | none => .ok (.ok none)
  | some value =>
      match env.values.toStr value with
      | none => .error (.badRequest "无效的Range头")
      | some raw => .ok (parseRangeHeader raw totalSize)

/-- `download_random_access_archive` from the moment the archive is at hand. -/
def downloadRandomAccessArchive (env : Environment) (archive : Archive) (request : Request)
    (world : Zip.World) : Except ArchiveApiError Response × Zip.World :=
  let totalSize := archive.totalSize
  match parsedRange env request totalSize with
  | .error reason => (.error reason, world)
  | .ok parsed =>
      match selectRange parsed totalSize with
      | none => (unsatisfiedResponse env totalSize, world)
      | some (start, stop, status, contentLength) =>
          let (body, world) := createStreamBody env archive world start stop request.patience
          (streamedResponse env archive request.path start stop status contentLength body, world)

/-- The responses to a list of requests, served one after the other. -/
def serve (env : Environment) (archive : Archive) : Zip.World → List Request → List (Except ArchiveApiError Response)
  | _, [] => []
  | world, request :: requests =>
      let (response, world) := downloadRandomAccessArchive env archive request world
      response :: serve env archive world requests

end Raas.Server
