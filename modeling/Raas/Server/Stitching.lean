import Raas.Data.Stitching
import Raas.Server.Download

namespace Raas.Server

open Data

def Response.offset (response : Response) : Nat :=
  match response.contentRange with
  | some (.interval first _ _) => first
  | _ => 0

def Response.Covers (response : Response) (position : Nat) : Prop :=
  ∃ first last total, response.contentRange = some (.interval first last total) ∧
    first ≤ position ∧ position ≤ last

/-- A response tells the truth about `full`: a 200 carries all of it, a 206 the
interval that it names, each up to where the client stopped listening. -/
def Response.Honest (full : Bytes) (patience : Nat) (response : Response) : Prop :=
  match response.status with
  | .ok => response.contentRange = none ∧ response.contentLength = some full.length ∧
      response.body.Yields full patience
  | .partialContent => ∃ start stop, start < stop ∧ stop ≤ full.length ∧
      response.contentRange = some (.interval start (stop - 1) full.length) ∧
      response.contentLength = some (stop - start) ∧
      response.body.Yields (window full start stop) patience
  | .rangeNotSatisfiable => response.contentLength = none ∧ response.body = .ended []

/-- The answer to a request, by what its `Range` header asks of `full`: the interval that it
names, all of it if it names none or cannot be understood, or a 416. -/
def Response.Answers (env : Environment) (full : Bytes) (request : Request) (response : Response) : Prop :=
  match parsedRange env request full.length with
  | .ok (.ok (some (first, last))) =>
      response.status = .partialContent ∧ response.contentRange = some (.interval first last full.length) ∧
        response.contentLength = some (last + 1 - first) ∧
        response.body.Yields (window full first (last + 1)) request.patience
  | .ok (.ok none) | .ok (.error .malformed) =>
      response.status = .ok ∧ response.contentRange = none ∧ response.contentLength = some full.length ∧
        response.body.Yields full request.patience
  | .ok (.error .unsatisfiable) =>
      response.status = .rangeNotSatisfiable ∧ response.contentRange = some (.unsatisfied full.length) ∧
        response.contentLength = none ∧ response.body = .ended []
  | .error _ => False

/-- The range that a response names when its request has been read as `parsed`. -/
def namedRange (parsed : Except RangeParseError (Option (Nat × Nat))) (totalSize : Nat) : Option ContentRange :=
  match parsed with
  | .ok (some (first, last)) => some (.interval first last totalSize)
  | .ok none | .error .malformed => none
  | .error .unsatisfiable => some (.unsatisfied totalSize)

/-- The header library makes values of what the response is to have in its headers. -/
def Environment.Takes (env : Environment) (archive : Archive) (request : Request)
    (parsed : Except RangeParseError (Option (Nat × Nat))) : Prop :=
  env.values.accepts (buildContentDisposition (downloadName request.path archive.format)) = true ∧
    ∀ range, namedRange parsed archive.totalSize = some range → env.values.accepts range.value = true

instance (env : Environment) (archive : Archive) (request : Request)
    (parsed : Except RangeParseError (Option (Nat × Nat))) : Decidable (env.Takes archive request parsed) :=
  decidable_of_iff (env.values.accepts (buildContentDisposition (downloadName request.path archive.format)) = true ∧
      (namedRange parsed archive.totalSize).all (fun range => env.values.accepts range.value) = true)
    (by simp only [Environment.Takes, Option.all_eq_true])

/-- What a server needs for its downloads to be faithful: 64-bit `usize`, a buffer,
fuel for every loop, and files that stay as they are. -/
structure Sound (env : Environment) (paths : Path → Option Bytes) (archive : Archive) : Prop where
  pointers : env.pointerBits = 64
  buffer : 0 < env.streamReadBufferSize
  fuel : max env.streamReadBufferSize minStreamReadBufferSize < env.fuel
  hashable : archive.Hashable env.fuel
  unchanged : env.os.Unchanged paths
  keeps : archive.KeepsSizes env.os paths

section Responses

variable {crate : Tar.HeaderCrate} {format : ArchiveFormat} {sourcePath : Path} {scanned : List ScannedEntry}
  {archive : Archive} {env : Environment} {paths : Path → Option Bytes} {world : Zip.World}

theorem createStreamBody_yields (created : Archive.createFrom crate format sourcePath scanned = .ok archive)
    (fits : archive.extent < u64Size) (sound : Sound env paths archive)
    (hold : archive.Holds env.feature paths world) {start stop : Nat} (ordered : start ≤ stop)
    (inside : stop ≤ archive.totalSize) (patience : Nat) :
    (createStreamBody env archive world start stop patience).1.Yields
        (window (archive.reference env.feature env.os paths) start stop) patience ∧
      archive.Holds env.feature paths (createStreamBody env archive world start stop patience).2 := by
  obtain ⟨holds, serves⟩ := sound.unchanged
  have small := (Archive.reference_length env.feature created fits sound.keeps).2
  have usable : ∀ capacity ∈ List.replicate patience (max env.streamReadBufferSize minStreamReadBufferSize),
      0 < capacity ∧ capacity < env.fuel := by
    intro capacity member
    have buffer := sound.buffer
    rw [List.eq_of_mem_replicate member]
    exact ⟨by omega, sound.fuel⟩
  obtain ⟨yields, after⟩ := Archive.streamRange_yields created fits serves sound.keeps sound.hashable start
    (show stop < u64Size by omega) hold usable
  rw [List.length_replicate, Nat.min_eq_left (by omega), Nat.min_eq_left inside] at yields
  unfold createStreamBody
  rw [sound.pointers]
  exact ⟨yields.mapError _, after⟩

theorem parsedRange_bounds {request : Request} {totalSize first last : Nat}
    (read : parsedRange env request totalSize = .ok (.ok (some (first, last)))) : first ≤ last ∧ last < totalSize := by
  unfold parsedRange at read
  split at read
  · simp at read
  · split at read
    · simp at read
    · simp only [Except.ok.injEq] at read
      exact parseRangeHeader_bounds read

theorem streamedResponse_ok {path : Path} {start stop : Nat} {status : StatusCode} {contentLength : Nat}
    {body : Drained (Fault IoError) UInt8} {response : Response}
    (built : streamedResponse env archive path start stop status contentLength body = .ok response) :
    response.status = status ∧ response.contentLength = some contentLength ∧ response.body = body ∧
      response.contentRange = if status = .partialContent then
        some (.interval start (wrappingSub stop 1) archive.totalSize) else none := by
  unfold streamedResponse at built
  dsimp only at built
  split at built
  · split at built
    · rename_i partly
      split at built
      · simp only [Except.ok.injEq] at built
        subst built
        exact ⟨rfl, rfl, rfl, by rw [if_pos partly]⟩
      · simp at built
    · rename_i wholly
      simp only [Except.ok.injEq] at built
      subst built
      exact ⟨rfl, rfl, rfl, by rw [if_neg wholly]⟩
  · simp at built

theorem unsatisfiedResponse_ok {totalSize : Nat} {response : Response}
    (built : unsatisfiedResponse env totalSize = .ok response) :
    response.status = .rangeNotSatisfiable ∧ response.contentRange = some (.unsatisfied totalSize) ∧
      response.contentLength = none ∧ response.body = .ended [] := by
  unfold unsatisfiedResponse at built
  dsimp only at built
  split at built
  · simp only [Except.ok.injEq] at built
    subst built
    exact ⟨rfl, rfl, rfl, rfl⟩
  · simp at built

theorem selectRange_bounds {range : Request} {totalSize : Nat} (small : totalSize < u64Size)
    {parsed : Except RangeParseError (Option (Nat × Nat))}
    (read : parsedRange env range totalSize = .ok parsed) {start stop : Nat} {status : StatusCode}
    {contentLength : Nat} (selected : selectRange parsed totalSize = some (start, stop, status, contentLength)) :
    (status = .ok ∧ start = 0 ∧ stop = totalSize ∧ contentLength = totalSize) ∨
      (status = .partialContent ∧ start < stop ∧ stop ≤ totalSize ∧ contentLength = stop - start) := by
  cases parsed with
  | error reason =>
      cases reason with
      | malformed =>
          simp only [selectRange, Option.some.injEq, Prod.mk.injEq] at selected
          exact .inl ⟨selected.2.2.1.symm, selected.1.symm, selected.2.1.symm, selected.2.2.2.symm⟩
      | unsatisfiable => simp [selectRange] at selected
  | ok found =>
      cases found with
      | none =>
          simp only [selectRange, Option.some.injEq, Prod.mk.injEq] at selected
          exact .inl ⟨selected.2.2.1.symm, selected.1.symm, selected.2.1.symm, selected.2.2.2.symm⟩
      | some interval =>
          obtain ⟨first, last⟩ := interval
          have bounds := parsedRange_bounds read
          simp only [selectRange, Option.some.injEq, Prod.mk.injEq] at selected
          have next : wrappingAdd last 1 = last + 1 := wrappingAdd_of_lt (by omega)
          rw [next, wrappingSub_of_le (by omega) (by omega)] at selected
          obtain ⟨rfl, rfl, rfl, rfl⟩ := selected
          exact .inr ⟨rfl, by omega, by omega, rfl⟩

/-- A response to the whole is read against the whole, and one to an interval against its interval. -/
theorem streamed_answers {full : Bytes} (length : full.length = archive.totalSize) (small : archive.totalSize < u64Size)
    {request : Request} {parsed : Except RangeParseError (Option (Nat × Nat))}
    (read : parsedRange env request archive.totalSize = .ok parsed) {start stop contentLength : Nat}
    {status : StatusCode} (selected : selectRange parsed archive.totalSize = some (start, stop, status, contentLength))
    {body : Drained (Fault IoError) UInt8} (yields : body.Yields (window full start stop) request.patience)
    {response : Response}
    (built : streamedResponse env archive request.path start stop status contentLength body = .ok response) :
    response.Answers env full request := by
  obtain ⟨statusIs, lengthIs, bodyIs, rangeIs⟩ := streamedResponse_ok built
  have whole := window_all full
  rw [length] at whole
  rw [← bodyIs] at yields
  rw [Response.Answers, length, read]
  rcases parsed with reason | found
  · cases reason with
    | unsatisfiable => cases selected
    | malformed =>
        cases selected
        rw [whole] at yields
        exact ⟨statusIs, rangeIs, lengthIs, yields⟩
  · rcases found with _ | ⟨first, last⟩
    · cases selected
      rw [whole] at yields
      exact ⟨statusIs, rangeIs, lengthIs, yields⟩
    · have bounds := parsedRange_bounds read
      have next : wrappingAdd last 1 = last + 1 := wrappingAdd_of_lt (by omega)
      simp only [selectRange, next, Option.some.injEq, Prod.mk.injEq] at selected
      obtain ⟨rfl, rfl, rfl, rfl⟩ := selected
      rw [wrappingSub_of_le (by omega) (by omega)] at lengthIs rangeIs
      exact ⟨statusIs, rangeIs, lengthIs, yields⟩

theorem download_answers (created : Archive.createFrom crate format sourcePath scanned = .ok archive)
    (fits : archive.extent < u64Size) (sound : Sound env paths archive)
    (hold : archive.Holds env.feature paths world) (request : Request) :
    archive.Holds env.feature paths (downloadRandomAccessArchive env archive request world).2 ∧
      ∀ response, (downloadRandomAccessArchive env archive request world).1 = .ok response →
        response.Answers env (archive.reference env.feature env.os paths) request := by
  obtain ⟨length, small⟩ := Archive.reference_length env.feature created fits sound.keeps
  rw [downloadRandomAccessArchive]
  cases read : parsedRange env request archive.totalSize with
  | error reason => exact ⟨hold, fun response built => by cases built⟩
  | ok parsed =>
      dsimp only
      cases selected : selectRange parsed archive.totalSize with
      | none =>
          have refused : parsed = .error .unsatisfiable := by
            rcases parsed with (_ | _) | (_ | _)
            · cases selected
            · rfl
            · cases selected
            · cases selected
          refine ⟨hold, fun response built => ?_⟩
          rw [Response.Answers, length, read, refused]
          exact unsatisfiedResponse_ok built
      | some choice =>
          obtain ⟨start, stop, status, contentLength⟩ := choice
          have bounds := selectRange_bounds small read selected
          have ordered : start ≤ stop ∧ stop ≤ archive.totalSize := by omega
          obtain ⟨yields, after⟩ :=
            createStreamBody_yields created fits sound hold ordered.1 ordered.2 request.patience
          exact ⟨after, fun response built => streamed_answers length small read selected yields built⟩

/-- Only the header library keeps a request from its response. -/
theorem download_given (small : archive.totalSize < u64Size) {request : Request}
    {parsed : Except RangeParseError (Option (Nat × Nat))}
    (read : parsedRange env request archive.totalSize = .ok parsed) (takes : env.Takes archive request parsed) :
    ∃ response, (downloadRandomAccessArchive env archive request world).1 = .ok response := by
  obtain ⟨disposition, named⟩ := takes
  rw [downloadRandomAccessArchive, read]
  dsimp only
  rcases parsed with (_ | _) | (_ | ⟨first, last⟩)
  · exact ⟨_, if_pos disposition⟩
  · exact ⟨_, if_pos (named _ rfl)⟩
  · exact ⟨_, if_pos disposition⟩
  · have bounds := parsedRange_bounds read
    have next : wrappingAdd last 1 = last + 1 := wrappingAdd_of_lt (by omega)
    have back : wrappingSub (last + 1) 1 = last := wrappingSub_of_le (by omega) (by omega)
    simp only [selectRange, streamedResponse, next, back, if_pos disposition, if_true, named _ rfl]
    exact ⟨_, rfl⟩

theorem Response.Answers.honest {full : Bytes} {request : Request} {response : Response}
    (answers : response.Answers env full request) : response.Honest full request.patience := by
  rw [Response.Answers] at answers
  rw [Response.Honest]
  rcases read : parsedRange env request full.length with reason | (reason | (_ | ⟨first, last⟩))
  · rw [read] at answers
    exact answers.elim
  · rw [read] at answers
    cases reason with
    | malformed =>
        obtain ⟨status, range, length, body⟩ := answers
        rw [status]
        exact ⟨range, length, body⟩
    | unsatisfiable =>
        obtain ⟨status, _, length, body⟩ := answers
        rw [status]
        exact ⟨length, body⟩
  · rw [read] at answers
    obtain ⟨status, range, length, body⟩ := answers
    rw [status]
    exact ⟨range, length, body⟩
  · have bounds := parsedRange_bounds read
    rw [read] at answers
    obtain ⟨status, range, length, body⟩ := answers
    rw [status]
    exact ⟨first, last + 1, by omega, by omega, range, length, body⟩

theorem download_honest (created : Archive.createFrom crate format sourcePath scanned = .ok archive)
    (fits : archive.extent < u64Size) (sound : Sound env paths archive)
    (hold : archive.Holds env.feature paths world) (request : Request) :
    archive.Holds env.feature paths (downloadRandomAccessArchive env archive request world).2 ∧
      ∀ response, (downloadRandomAccessArchive env archive request world).1 = .ok response →
        response.Honest (archive.reference env.feature env.os paths) request.patience := by
  obtain ⟨after, answers⟩ := download_answers created fits sound hold request
  exact ⟨after, fun response built => (answers response built).honest⟩

theorem serve_answers (created : Archive.createFrom crate format sourcePath scanned = .ok archive)
    (fits : archive.extent < u64Size) (sound : Sound env paths archive)
    (hold : archive.Holds env.feature paths world) (requests : List Request) :
    List.Forall₂ (fun request answer =>
        (∀ response, answer = .ok response →
          response.Answers env (archive.reference env.feature env.os paths) request) ∧
        ∀ parsed, parsedRange env request archive.totalSize = .ok parsed → env.Takes archive request parsed →
          ∃ response, answer = .ok response)
      requests (serve env archive world requests) := by
  obtain ⟨_, small⟩ := Archive.reference_length env.feature created fits sound.keeps
  induction requests generalizing world with
  | nil => exact .nil
  | cons request requests ih =>
      obtain ⟨after, answers⟩ := download_answers created fits sound hold request
      exact .cons ⟨answers, fun parsed read takes => download_given small read takes⟩ (ih after)

end Responses

/-- Bodies of an honest server that arrived to their end rebuild the download. -/
theorem honest_parts_rebuild {full : Bytes} {parts : List Response}
    (honest : ∀ part ∈ parts, part.status = .partialContent ∧ ∃ patience, part.Honest full patience)
    (arrived : ∀ part ∈ parts, part.body = .ended part.body.bytes)
    (cover : ∀ position < full.length, ∃ part ∈ parts, part.Covers position) :
    Sparse.empty.writeAll (parts.map fun part => (part.offset, part.body.bytes)) =
      fun position => full[position]? := by
  have interval : ∀ part ∈ parts, ∃ start stop, start < stop ∧ stop ≤ full.length ∧
      part.contentRange = some (.interval start (stop - 1) full.length) ∧ part.offset = start ∧
      part.body.bytes = window full start stop := by
    intro part member
    obtain ⟨status, patience, honest⟩ := honest part member
    rw [Response.Honest, status] at honest
    obtain ⟨start, stop, ordered, inside, named, _, yields⟩ := honest
    have arrivedPart := arrived part member
    rw [arrivedPart] at yields
    exact ⟨start, stop, ordered, inside, named, by rw [Response.offset, named], yields⟩
  apply Sparse.writeAll_rebuilds
  · intro piece member
    obtain ⟨part, inParts, rfl⟩ := List.mem_map.mp member
    obtain ⟨start, stop, ordered, inside, _, offset, content⟩ := interval part inParts
    have length := window_length_of_le start inside
    dsimp only [PieceOf]
    rw [offset, content, length, Nat.add_sub_cancel' (Nat.le_of_lt ordered)]
    exact ⟨inside, rfl⟩
  · intro position before
    obtain ⟨part, member, first, last, total, named, lower, upper⟩ := cover position before
    obtain ⟨start, stop, ordered, inside, range, offset, content⟩ := interval part member
    have length := window_length_of_le start inside
    rw [named, Option.some.injEq, ContentRange.interval.injEq] at range
    refine ⟨_, List.mem_map.mpr ⟨part, member, rfl⟩, ?_⟩
    dsimp only
    rw [offset, content, length]
    omega

def Response.Exact (full : Bytes) (response : Response) : Prop :=
  match response.status with
  | .ok => response.contentLength = some full.length ∧ response.body = .ended full
  | .partialContent => ∃ start stop, start < stop ∧ stop ≤ full.length ∧
      response.contentRange = some (.interval start (stop - 1) full.length) ∧
      response.contentLength = some (stop - start) ∧ (window full start stop).length = stop - start ∧
      response.body = .ended (window full start stop)
  | .rangeNotSatisfiable => response.contentLength = none ∧ response.body = .ended []

theorem Response.Honest.exact {full : Bytes} {patience : Nat} {response : Response}
    (honest : response.Honest full patience) (patient : full.length < patience) : response.Exact full := by
  unfold Response.Honest at honest
  unfold Response.Exact
  cases status : response.status with
  | ok =>
      rw [status] at honest
      exact ⟨honest.2.1, honest.2.2.ended patient⟩
  | partialContent =>
      rw [status] at honest
      obtain ⟨start, stop, ordered, inside, named, length, yields⟩ := honest
      have width := window_length_of_le start inside
      exact ⟨start, stop, ordered, inside, named, length, width, yields.ended (by omega)⟩
  | rangeNotSatisfiable =>
      rw [status] at honest
      exact honest

/-- Range stitching. There is one byte string behind an archive. A header that asks for the
bytes from `first` to `last` is answered with exactly these, one that asks for none or is
malformed with all of them; and any 206 bodies whose intervals cover the string rebuild it
when they are written at their offsets, in any order and with any overlaps. -/
theorem range_requests_stitch {crate : Tar.HeaderCrate} {format : ArchiveFormat} {sourcePath : Path}
    {scanned : List ScannedEntry} {archive : Archive} {env : Environment} {paths : Path → Option Bytes}
    (created : Archive.createFrom crate format sourcePath scanned = .ok archive)
    (fits : archive.extent < u64Size) (sound : Sound env paths archive) :
    ∃ full : Bytes, full.length = archive.totalSize ∧
      (∀ raw start last, parseRangeHeader raw archive.totalSize = .ok (some (start, last)) →
        wrappingAdd last 1 = last + 1 ∧ start < last + 1 ∧ last + 1 ≤ archive.totalSize ∧
          (window full start (last + 1)).length = last + 1 - start) ∧
      ∀ (requests : List Request) (world : Zip.World), archive.Holds env.feature paths world →
        List.Forall₂ (fun request answer =>
            (∀ response, answer = .ok response → response.Answers env full request ∧
              (full.length < request.patience → response.Exact full)) ∧
            ∀ parsed, parsedRange env request archive.totalSize = .ok parsed → env.Takes archive request parsed →
              ∃ response, answer = .ok response)
          requests (serve env archive world requests) ∧
        ∀ parts : List Response,
          (∀ part ∈ parts, .ok part ∈ serve env archive world requests ∧ part.status = .partialContent ∧
            part.body = .ended part.body.bytes) →
          (∀ position < archive.totalSize, ∃ part ∈ parts, part.Covers position) →
          Sparse.empty.writeAll (parts.map fun part => (part.offset, part.body.bytes)) =
            fun position => full[position]? := by
  obtain ⟨length, small⟩ := Archive.reference_length env.feature created fits sound.keeps
  refine ⟨archive.reference env.feature env.os paths, length, ?_, ?_⟩
  · intro raw start last accepted
    have bounds := parseRangeHeader_bounds accepted
    exact ⟨wrappingAdd_of_lt (by omega), by omega, by omega, window_length_of_le start (by omega)⟩
  · intro requests world hold
    have answers := serve_answers created fits sound hold requests
    refine ⟨answers.imp fun request answer told => ⟨fun response ok =>
      ⟨told.1 response ok, (told.1 response ok).honest.exact⟩, told.2⟩, ?_⟩
    intro parts served cover
    rw [← length] at cover
    refine honest_parts_rebuild (fun part member => ?_) (fun part member => (served part member).2.2) cover
    obtain ⟨answered, status, _⟩ := served part member
    obtain ⟨request, _, told⟩ := forall₂_mem_right answers answered
    exact ⟨status, request.patience, (told.1 part rfl).honest⟩

def smallEnvironment : Environment where
  pointerBits := 64
  fuel := 100000
  feature := Zip.smallFeature
  os := Files.memory smallFiles 2
  values :=
    { toStr := fun bytes =>
        if bytes.all fun byte => (32 ≤ byte && byte < 127) || byte == 9 then
          some (bytes.map fun byte => Char.ofNat byte.toNat)
        else none
      accepts := fun bytes => bytes.all fun byte => (32 ≤ byte && byte != 127) || byte == 9 }
  streamReadBufferSize := 1

def smallRequests : List Request :=
  [{ path := [100], range := some (ascii "bytes=0-99"), patience := 5000 },
   { path := [100], range := some (ascii "bytes=50-"), patience := 5000 }]

theorem range_requests_stitch_small : ∃ (full : Bytes) (first second : Response),
    full.length = Tar.smallArchive.totalSize ∧
      serve smallEnvironment (.tar Tar.smallArchive) { cells := fun _ => none, now := 0 } smallRequests =
        [.ok first, .ok second] ∧
      first.contentRange = some (.interval 0 99 full.length) ∧ first.contentLength = some 100 ∧
      first.body = .ended (window full 0 100) ∧ second.body = .ended (window full 50 full.length) ∧
      Sparse.empty.writeAll [(0, first.body.bytes), (50, second.body.bytes)] = fun position => full[position]? := by
  have created : Archive.createFrom Tar.blockCrate .tar [47, 115] smallScan = .ok (.tar Tar.smallArchive) := rfl
  have unchanged : smallEnvironment.os.Unchanged (Files.contentOf smallFiles) :=
    Files.memory_unchanged smallFiles (by decide)
  have keeps : Tar.smallArchive.KeepsSizes ((Files.memory smallFiles 2).isFile 0 Tar.smallArchive.sourcePath)
      (Files.contentOf smallFiles) := by decide +kernel
  have sound : Sound smallEnvironment (Files.contentOf smallFiles) (.tar Tar.smallArchive) :=
    ⟨rfl, by decide, by decide, trivial, unchanged, keeps⟩
  have fits : Tar.smallArchive.extent < u64Size := by decide +kernel
  have total : (Archive.tar Tar.smallArchive).totalSize = 2560 := by decide +kernel
  obtain ⟨full, length, _, served⟩ := range_requests_stitch created fits sound
  obtain ⟨answers, rebuild⟩ := served smallRequests { cells := fun _ => none, now := 0 } trivial
  obtain ⟨answer, others, here, rest, split⟩ := List.forall₂_cons_left_iff.mp answers
  obtain ⟨later, none, there, ended, last⟩ := List.forall₂_cons_left_iff.mp rest
  obtain rfl := List.forall₂_nil_left_iff.mp ended
  subst last
  obtain ⟨first, rfl⟩ := here.2 (.ok (some (0, 99))) (by decide +kernel) (by decide +kernel)
  obtain ⟨second, rfl⟩ := there.2 (.ok (some (50, 2559))) (by decide +kernel) (by decide +kernel)
  have front := (here.1 first rfl).1
  have back := (there.1 second rfl).1
  have frontRead : parsedRange smallEnvironment { path := [100], range := some (ascii "bytes=0-99"), patience := 5000 }
      2560 = .ok (.ok (some (0, 99))) := by decide +kernel
  have backRead : parsedRange smallEnvironment { path := [100], range := some (ascii "bytes=50-"), patience := 5000 }
      2560 = .ok (.ok (some (50, 2559))) := by decide +kernel
  rw [Response.Answers, length, total, frontRead] at front
  rw [Response.Answers, length, total, backRead] at back
  obtain ⟨frontStatus, frontRange, frontLength, frontBody⟩ := front
  obtain ⟨backStatus, backRange, _, backBody⟩ := back
  have frontWhole := frontBody.ended (by rw [window_length_of_le 0 (by omega)]; decide)
  have backWhole := backBody.ended (by rw [window_length_of_le 50 (by omega)]; decide)
  refine ⟨full, first, second, length, split, by rw [length, total]; exact frontRange, frontLength, frontWhole,
    by rw [length, total]; exact backWhole, ?_⟩
  have rebuilt := rebuild [first, second] ?_ ?_
  · simpa only [List.map_cons, List.map_nil, Response.offset, frontRange, backRange] using rebuilt
  · intro part member
    rw [split]
    rcases List.mem_cons.mp member with rfl | member
    · exact ⟨by simp, frontStatus, by rw [frontWhole]; rfl⟩
    · rw [List.mem_singleton.mp member]
      exact ⟨by simp, backStatus, by rw [backWhole]; rfl⟩
  · intro position before
    rw [total] at before
    by_cases inFront : position < 100
    · exact ⟨first, by simp, 0, 99, 2560, frontRange, by omega, by omega⟩
    · exact ⟨second, by simp, 50, 2559, 2560, backRange, by omega, by omega⟩

end Raas.Server
