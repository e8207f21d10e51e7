import Raas.Server.Numbers
import Raas.Server.Stitching

namespace Raas.Server

open Data

/-! What a `Range` header has to look like to have an effect. -/

/-- `chars` is `bytes=` and, up to its first comma, `first-last` with blanks around it, and
if `inner` is set also beside the dash. -/
def Spells (blank : Char → Prop) (inner : Bool) (chars first last : List Char) : Prop :=
  ∃ before left right after tail : List Char,
    chars = bytesPrefix ++ ((before ++ (first ++ left)) ++ '-' :: (right ++ (last ++ after)) ++ tail) ∧
      (∀ char ∈ before ++ left ++ right ++ after, blank char) ∧ (inner = false → left = [] ∧ right = []) ∧
      (tail = [] ∨ ∃ more, tail = ',' :: more)

/-- Space and tab, the only blanks that a header value can have. -/
def isBlank (char : Char) : Prop := char = ' ' ∨ char = '\t'

/-- The grammar: digits on at least one side of the dash, nothing but digits on both. -/
def InGrammar (inner : Bool) (chars : List Char) : Prop :=
  ∃ first last, Spells isBlank inner chars first last ∧ (∀ char ∈ first ++ last, char.isDigit = true) ∧
    ¬ (first = [] ∧ last = [])

/-- The two sides of the dash are numbers for `u64`, or one is and the other is missing. -/
def Meant (first last : List Char) : Prop :=
  (first = [] ∧ ∃ suffix, Reads last suffix) ∨ (last = [] ∧ ∃ start, Reads first start) ∨
    ∃ start stop, Reads first start ∧ Reads last stop ∧ start ≤ stop

section Parsing

variable {first last chars : List Char} {totalSize : Nat}

theorem parseBound_iff {value : Nat} : parseBound chars = .ok value ↔ Reads chars value := by
  rw [← parseU64_iff, parseBound]
  cases parseU64 chars <;> simp

theorem parseBound_unread (unread : ∀ value, ¬ Reads chars value) : parseBound chars = .error .malformed := by
  cases bound : parseU64 chars with
  | none => rw [parseBound, bound]
  | some value => exact absurd (parseU64_iff.mp bound) (unread value)

theorem not_reads_nil (value : Nat) : ¬ Reads [] value := fun reads => reads.present rfl

theorem Reads.unique {value other : Nat} (reads : Reads chars value) (again : Reads chars other) : value = other :=
  reads.number.symm.trans again.number

theorem parseSuffix_malformed_iff :
    parseSuffix last totalSize = .error .malformed ↔ ¬ ∃ suffix, Reads last suffix := by
  by_cases read : ∃ suffix, Reads last suffix
  · obtain ⟨suffix, reads⟩ := read
    simp only [parseSuffix, parseBound_iff.mpr reads, iff_false_intro (not_not_intro (Exists.intro suffix reads)),
      iff_false]
    split <;> exact fun same => by cases same
  · have unread := parseBound_unread (not_exists.mp read)
    simp only [parseSuffix, unread, read, not_false_eq_true]

theorem parseOpen_malformed_iff :
    parseOpen first totalSize = .error .malformed ↔ ¬ ∃ start, Reads first start := by
  by_cases read : ∃ start, Reads first start
  · obtain ⟨start, reads⟩ := read
    simp only [parseOpen, parseBound_iff.mpr reads, iff_false_intro (not_not_intro (Exists.intro start reads)),
      iff_false]
    split <;> exact fun same => by cases same
  · have unread := parseBound_unread (not_exists.mp read)
    simp only [parseOpen, unread, read, not_false_eq_true]

theorem parseClosed_malformed_iff : parseClosed first last totalSize = .error .malformed ↔
    ¬ ∃ start stop, Reads first start ∧ Reads last stop ∧ start ≤ stop := by
  by_cases firstRead : ∃ start, Reads first start
  · obtain ⟨start, starts⟩ := firstRead
    by_cases lastRead : ∃ stop, Reads last stop
    · obtain ⟨stop, stops⟩ := lastRead
      have ordered : (∃ start stop, Reads first start ∧ Reads last stop ∧ start ≤ stop) ↔ start ≤ stop := by
        constructor
        · intro ranges
          obtain ⟨start', stop', starts', stops', le⟩ := ranges
          rw [starts.unique starts', stops.unique stops']
          exact le
        · exact fun le => ⟨start, stop, starts, stops, le⟩
      rw [ordered]
      simp only [parseClosed, parseBound_iff.mpr starts, parseBound_iff.mpr stops]
      by_cases reversed : stop < start
      · simp only [reversed, if_true, Nat.not_le_of_lt, not_false_eq_true]
      · simp only [reversed, if_false, Nat.le_of_not_lt reversed, not_true, iff_false]
        split <;> exact fun same => by cases same
    · have unread := parseBound_unread (not_exists.mp lastRead)
      simp only [parseClosed, parseBound_iff.mpr starts, unread, true_iff]
      intro ranges
      obtain ⟨_, stop, _, stops, _⟩ := ranges
      exact lastRead ⟨stop, stops⟩
  · have unread := parseBound_unread (not_exists.mp firstRead)
    simp only [parseClosed, unread, true_iff]
    intro ranges
    obtain ⟨start, _, starts, _, _⟩ := ranges
    exact firstRead ⟨start, starts⟩

theorem parseSpec_malformed_iff : parseSpec first last totalSize = .error .malformed ↔ ¬ Meant first last := by
  have none : ∀ value, ¬ Reads [] value := not_reads_nil
  cases first with
  | nil =>
      cases last with
      | nil => simp [parseSpec, Meant, none]
      | cons stop last =>
          have form : parseSpec [] (stop :: last) totalSize = parseSuffix (stop :: last) totalSize := rfl
          rw [form, parseSuffix_malformed_iff]
          simp [Meant, none]
  | cons start first =>
      cases last with
      | nil =>
          have form : parseSpec (start :: first) [] totalSize = parseOpen (start :: first) totalSize := rfl
          rw [form, parseOpen_malformed_iff]
          simp [Meant, none]
      | cons stop last =>
          have form : parseSpec (start :: first) (stop :: last) totalSize =
              parseClosed (start :: first) (stop :: last) totalSize := rfl
          rw [form, parseClosed_malformed_iff]
          simp [Meant]

theorem Reads.plain {value : Nat} (reads : Reads chars value) :
    ∀ char ∈ chars, char.isDigit = true ∨ char = '+' := by
  have digits := reads.digits
  cases chars with
  | nil => exact fun _ member => absurd member List.not_mem_nil
  | cons sign rest =>
      intro char member
      by_cases plus : sign = '+'
      · subst plus
        rcases List.mem_cons.mp member with rfl | member
        · exact .inr rfl
        · exact .inl (digits char member)
      · rw [unsigned_cons plus] at digits
        exact .inl (digits char member)

theorem Meant.plain (meant : Meant first last) :
    (∀ char ∈ first, char.isDigit = true ∨ char = '+') ∧ ∀ char ∈ last, char.isDigit = true ∨ char = '+' := by
  have none : ∀ char ∈ ([] : List Char), char.isDigit = true ∨ char = '+' :=
    fun _ member => absurd member List.not_mem_nil
  rcases meant with ⟨rfl, suffix, reads⟩ | ⟨rfl, start, reads⟩ | ⟨start, stop, starts, stops, _⟩
  · exact ⟨none, reads.plain⟩
  · exact ⟨reads.plain, none⟩
  · exact ⟨starts.plain, stops.plain⟩

theorem plain_solid {char : Char} (plain : char.isDigit = true ∨ char = '+') :
    isWhitespace char = false ∧ char ≠ ',' ∧ char ≠ '-' := by
  rcases plain with digit | rfl
  · exact ⟨digit_not_whitespace digit, digit_ne digit (by decide), digit_ne digit (by decide)⟩
  · decide

theorem whitespace_apart {char : Char} (white : isWhitespace char = true) : char ≠ ',' ∧ char ≠ '-' := by
  constructor <;> rintro rfl <;> exact absurd white (by decide)

theorem stripBytes_iff {rest : List Char} : stripBytes chars = some rest ↔ chars = bytesPrefix ++ rest := by
  constructor
  · intro stripped
    unfold stripBytes at stripped
    split at stripped
    · rw [Option.some.injEq] at stripped
      rw [← stripped]
      rfl
    · cases stripped
  · intro same
    subst same
    rfl

/-- A header that spells two plain sides is cut into just these. -/
theorem Spells.cut {inner : Bool} (spells : Spells (isWhitespace · = true) inner chars first last)
    (firstPlain : ∀ char ∈ first, char.isDigit = true ∨ char = '+')
    (lastPlain : ∀ char ∈ last, char.isDigit = true ∨ char = '+') :
    ∃ rest front back, stripBytes chars = some rest ∧ splitDash (firstSpec rest) = some (front, back) ∧
      trim front = first ∧ trim back = last := by
  obtain ⟨before, left, right, after, tail, whole, blanks, _, ending⟩ := spells
  simp only [List.forall_mem_append] at blanks
  obtain ⟨⟨⟨beforeBlank, leftBlank⟩, rightBlank⟩, afterBlank⟩ := blanks
  refine ⟨_, before ++ (first ++ left), right ++ (last ++ after), stripBytes_iff.mpr whole, ?_, ?_, ?_⟩
  · have clean : ∀ char ∈ (before ++ (first ++ left)) ++ '-' :: (right ++ (last ++ after)), (char != ',') = true := by
      simp only [List.forall_mem_append, List.forall_mem_cons, bne_iff_ne]
      exact ⟨⟨fun char member => (whitespace_apart (beforeBlank char member)).1,
        fun char member => (plain_solid (firstPlain char member)).2.1,
        fun char member => (whitespace_apart (leftBlank char member)).1⟩, by decide,
        fun char member => (whitespace_apart (rightBlank char member)).1,
        fun char member => (plain_solid (lastPlain char member)).2.1,
        fun char member => (whitespace_apart (afterBlank char member)).1⟩
    have spec : firstSpec ((before ++ (first ++ left)) ++ '-' :: (right ++ (last ++ after)) ++ tail) =
        (before ++ (first ++ left)) ++ '-' :: (right ++ (last ++ after)) := by
      rcases ending with rfl | ⟨more, rfl⟩
      · rw [List.append_nil]
        exact List.takeWhile_eq_self_iff.mpr clean
      · exact takeWhile_before clean (by decide)
    rw [spec]
    refine splitDash_iff.mpr ⟨rfl, ?_⟩
    simp only [List.forall_mem_append]
    exact ⟨fun char member => (whitespace_apart (beforeBlank char member)).2,
      fun char member => (plain_solid (firstPlain char member)).2.2,
      fun char member => (whitespace_apart (leftBlank char member)).2⟩
  · exact trimmed_padded beforeBlank (fun char member => (plain_solid (firstPlain char member)).1) leftBlank
  · exact trimmed_padded rightBlank (fun char member => (plain_solid (lastPlain char member)).1) afterBlank

/-- Whatever is cut was spelled so. -/
theorem spells_of_cut {rest front back : List Char} (stripped : stripBytes chars = some rest)
    (cut : splitDash (firstSpec rest) = some (front, back)) :
    Spells (isWhitespace · = true) true chars (trim front) (trim back) := by
  obtain ⟨before, left, frontWhole, beforeBlank, leftBlank⟩ := trimmed_split isWhitespace front
  obtain ⟨right, after, backWhole, rightBlank, afterBlank⟩ := trimmed_split isWhitespace back
  obtain ⟨spec, _⟩ := splitDash_iff.mp cut
  have split : firstSpec rest ++ rest.dropWhile (· != ',') = rest := List.takeWhile_append_dropWhile
  refine ⟨before, left, right, after, rest.dropWhile (· != ','), ?_, ?_, (fun same => by cases same), ?_⟩
  · have front_eq : before ++ (trim front ++ left) = front := frontWhole.symm
    have back_eq : right ++ (trim back ++ after) = back := backWhole.symm
    rw [stripBytes_iff.mp stripped, front_eq, back_eq, ← spec, split]
  · simp only [List.forall_mem_append]
    exact ⟨⟨⟨beforeBlank, leftBlank⟩, rightBlank⟩, afterBlank⟩
  · cases tail : rest.dropWhile (· != ',') with
    | nil => exact .inl rfl
    | cons comma more =>
        have stops : comma = ',' := by simpa using dropWhile_stops tail
        exact .inr ⟨more, by rw [stops]⟩

/-- A header is malformed unless it spells something that is meant. -/
theorem parseRangeHeader_malformed_iff (positive : totalSize ≠ 0) :
    parseRangeHeader chars totalSize = .error .malformed ↔
      ¬ ∃ first last, Spells (isWhitespace · = true) true chars first last ∧ Meant first last := by
  constructor
  · intro malformed asks
    obtain ⟨first, last, spells, meant⟩ := asks
    obtain ⟨rest, front, back, stripped, cut, rfl, rfl⟩ := spells.cut meant.plain.1 meant.plain.2
    rw [parseRangeHeader_eq positive stripped, cut] at malformed
    exact parseSpec_malformed_iff.mp malformed meant
  · intro unmeant
    cases stripped : stripBytes chars with
    | none => rw [parseRangeHeader, stripped]
    | some rest =>
        rw [parseRangeHeader_eq positive stripped]
        cases cut : splitDash (firstSpec rest) with
        | none => rfl
        | some parts =>
            obtain ⟨front, back⟩ := parts
            apply parseSpec_malformed_iff.mpr
            intro meant
            exact unmeant ⟨_, _, spells_of_cut stripped cut, meant⟩

theorem parseSpec_ne_none : parseSpec first last totalSize ≠ .ok none := by
  unfold parseSpec
  split
  · unfold parseSuffix
    cases parseBound last with
    | error reason => exact fun same => by cases same
    | ok suffix => dsimp only; split <;> exact fun same => by cases same
  · unfold parseOpen
    cases parseBound first with
    | error reason => exact fun same => by cases same
    | ok start => dsimp only; split <;> exact fun same => by cases same
  · unfold parseClosed
    cases parseBound first with
    | error reason => exact fun same => by cases same
    | ok start =>
        cases parseBound last with
        | error reason => exact fun same => by cases same
        | ok stop => dsimp only; split <;> (try split) <;> exact fun same => by cases same
  · exact fun same => by cases same

theorem parseRangeHeader_ne_none (positive : totalSize ≠ 0) : parseRangeHeader chars totalSize ≠ .ok none := by
  cases stripped : stripBytes chars with
  | none =>
      rw [parseRangeHeader, stripped]
      exact fun same => by cases same
  | some rest =>
      rw [parseRangeHeader_eq positive stripped]
      cases splitDash (firstSpec rest) with
      | none => exact fun same => by cases same
      | some parts => exact parseSpec_ne_none

end Parsing

/-- Visible ASCII and tab. -/
def isVisible (byte : UInt8) : Bool := (32 ≤ byte && byte < 127) || byte == 9

/-- The characters of a header value, one for each byte. -/
def latin (value : Bytes) : List Char := value.map fun byte => Char.ofNat byte.toNat

/-- `HeaderValue::to_str` as documented: the text of a value of visible characters and tabs,
and no text for any other. -/
def HeaderValues.ReadsVisible (values : HeaderValues) : Prop :=
  ∀ value, values.toStr value = if value.all isVisible then some (latin value) else none

/-- A header value that leaves the response alone: every byte is visible ASCII or a tab, and it
does not spell a range whose numbers `u64` reads, signs included, the second no less than the first. -/
def Harmless (value : Bytes) : Prop :=
  value.all isVisible = true ∧ ¬ ∃ first last, Spells isBlank true (latin value) first last ∧ Meant first last

/-- The response to a request with this `Range` value is the one to the request without it:
200 with the whole archive, and no error unless the archive's name is refused. -/
structure Ignored (env : Environment) (archive : Archive) (request : Request) (world : Zip.World) (value : Bytes) :
    Prop where
  same : downloadRandomAccessArchive env archive { request with range := some value } world =
    downloadRandomAccessArchive env archive { request with range := none } world
  whole : ∀ response,
    (downloadRandomAccessArchive env archive { request with range := some value } world).1 = .ok response →
    response.status = .ok ∧ response.contentRange = none ∧ response.contentLength = some archive.totalSize ∧
      response.body = (createStreamBody env archive world 0 archive.totalSize request.patience).1
  refused : ∀ reason,
    (downloadRandomAccessArchive env archive { request with range := some value } world).1 = .error reason →
    env.values.accepts (buildContentDisposition (downloadName request.path archive.format)) = false

section Answers

variable {value : Bytes} {first last : List Char} {env : Environment} {archive : Archive} {request : Request}
  {world : Zip.World}

theorem latin_blank (visible : value.all isVisible = true) {char : Char} (member : char ∈ latin value) :
    isWhitespace char = true ↔ isBlank char := by
  obtain ⟨byte, inside, rfl⟩ := List.mem_map.mp member
  have small := byte.toNat_lt
  have code : (Char.ofNat byte.toNat).toNat = byte.toNat := by
    have valid : byte.toNat.isValidChar := .inl (by omega)
    rw [Char.ofNat, dif_pos valid]
    rfl
  have seen := List.all_eq_true.mp visible byte inside
  simp only [isVisible, Bool.or_eq_true, Bool.and_eq_true, decide_eq_true_eq, beq_iff_eq, UInt8.le_iff_toNat_le,
    UInt8.lt_iff_toNat_lt, ← UInt8.toNat_inj] at seen
  have range : (32 ≤ byte.toNat ∧ byte.toNat < 127) ∨ byte.toNat = 9 := seen
  have blank : isBlank (Char.ofNat byte.toNat) ↔ byte.toNat = 32 ∨ byte.toNat = 9 := by
    rw [isBlank, ← Char.toNat_inj, ← Char.toNat_inj, code]
    rfl
  rw [blank]
  simp only [isWhitespace, code, Bool.or_eq_true, decide_eq_true_eq, beq_iff_eq]
  omega

theorem Spells.imp {blank white : Char → Prop} {inner : Bool} {chars : List Char}
    (spells : Spells blank inner chars first last) (implies : ∀ char ∈ chars, blank char → white char) :
    Spells white inner chars first last := by
  obtain ⟨before, left, right, after, tail, whole, blanks, beside, ending⟩ := spells
  refine ⟨before, left, right, after, tail, whole, fun char member => implies char ?_ (blanks char member), beside,
    ending⟩
  rw [whole]
  simp only [List.mem_append, List.mem_cons] at member ⊢
  tauto

theorem harmless_iff {totalSize : Nat} (positive : totalSize ≠ 0) : Harmless value ↔
    value.all isVisible = true ∧ parseRangeHeader (latin value) totalSize = .error .malformed := by
  unfold Harmless
  refine and_congr_right fun visible => ?_
  rw [parseRangeHeader_malformed_iff positive]
  refine not_congr (exists_congr fun first => exists_congr fun last => and_congr_left fun _ => ?_)
  constructor
  · exact fun spells => spells.imp fun char member blank => (latin_blank visible member).mpr blank
  · exact fun spells => spells.imp fun char member white => (latin_blank visible member).mp white

theorem download_plain : downloadRandomAccessArchive env archive { request with range := none } world =
    (streamedResponse env archive request.path 0 archive.totalSize .ok archive.totalSize
      (createStreamBody env archive world 0 archive.totalSize request.patience).1,
      (createStreamBody env archive world 0 archive.totalSize request.patience).2) := rfl

theorem streamedResponse_refused {path : Path} {start stop contentLength : Nat}
    {body : Drained (Fault IoError) UInt8} {reason : ArchiveApiError}
    (failed : streamedResponse env archive path start stop .ok contentLength body = .error reason) :
    env.values.accepts (buildContentDisposition (downloadName path archive.format)) = false := by
  cases accepted : env.values.accepts (buildContentDisposition (downloadName path archive.format)) with
  | false => rfl
  | true =>
      rw [streamedResponse, if_pos accepted, if_neg (by decide)] at failed
      cases failed

theorem Harmless.ignored (harmless : Harmless value) (reads : env.values.ReadsVisible)
    (positive : archive.totalSize ≠ 0) : Ignored env archive request world value := by
  obtain ⟨visible, malformed⟩ := (harmless_iff positive).mp harmless
  have parsed : parsedRange env { request with range := some value } archive.totalSize =
      .ok (.error .malformed) := by
    simp only [parsedRange, reads value, visible, if_true, malformed]
  have same : downloadRandomAccessArchive env archive { request with range := some value } world =
      downloadRandomAccessArchive env archive { request with range := none } world := by
    rw [download_plain, downloadRandomAccessArchive]
    simp only [parsed, selectRange]
  refine ⟨same, ?_, ?_⟩
  · intro response answered
    rw [same, download_plain] at answered
    obtain ⟨status, length, body, range⟩ := streamedResponse_ok answered
    exact ⟨status, range, length, body⟩
  · intro reason failed
    rw [same, download_plain] at failed
    exact streamedResponse_refused failed

/-- Any other value is answered by something else than a 200. -/
theorem status_of_not_harmless (harmful : ¬ Harmless value) (reads : env.values.ReadsVisible)
    (positive : archive.totalSize ≠ 0) {response : Response}
    (answered : (downloadRandomAccessArchive env archive { request with range := some value } world).1 =
      .ok response) : response.status ≠ .ok := by
  rw [harmless_iff positive] at harmful
  unfold downloadRandomAccessArchive at answered
  cases visible : value.all isVisible with
  | false =>
      have parsed : parsedRange env { request with range := some value } archive.totalSize =
          .error (.badRequest "无效的Range头") := by
        simp only [parsedRange, reads value, visible, Bool.false_eq_true, if_false]
      simp only [parsed] at answered
      cases answered
  | true =>
      have parsed : parsedRange env { request with range := some value } archive.totalSize =
          .ok (parseRangeHeader (latin value) archive.totalSize) := by
        simp only [parsedRange, reads value, visible, if_true]
      simp only [parsed] at answered
      cases result : parseRangeHeader (latin value) archive.totalSize with
      | error reason =>
          cases reason with
          | malformed => exact absurd ⟨visible, result⟩ harmful
          | unsatisfiable =>
              simp only [result, selectRange] at answered
              rw [(unsatisfiedResponse_ok answered).1]
              decide
      | ok found =>
          cases found with
          | none => exact absurd result (parseRangeHeader_ne_none positive)
          | some interval =>
              simp only [result, selectRange] at answered
              rw [(streamedResponse_ok answered).1]
              decide

theorem not_ignored (harmful : ¬ Harmless value) (reads : env.values.ReadsVisible) (positive : archive.totalSize ≠ 0)
    (named : env.values.accepts (buildContentDisposition (downloadName request.path archive.format)) = true) :
    ¬ Ignored env archive request world value := by
  intro ignored
  cases answered : (downloadRandomAccessArchive env archive { request with range := some value } world).1 with
  | error reason =>
      have refused := ignored.refused reason answered
      rw [named] at refused
      cases refused
  | ok response => exact status_of_not_harmless harmful reads positive answered (ignored.whole response answered).1

theorem InGrammar.cut {inner : Bool} (visible : value.all isVisible = true) (inside : InGrammar inner (latin value)) :
    ∃ rest front back, stripBytes (latin value) = some rest ∧ splitDash (firstSpec rest) = some (front, back) ∧
      (trim front).all Char.isDigit = true ∧ (trim back).all Char.isDigit = true := by
  obtain ⟨first, last, spells, digits, _⟩ := inside
  have white := spells.imp fun char member blank => (latin_blank visible member).mpr blank
  rw [List.forall_mem_append] at digits
  obtain ⟨rest, front, back, stripped, cut, rfl, rfl⟩ :=
    white.cut (fun char member => .inl (digits.1 char member)) fun char member => .inl (digits.2 char member)
  exact ⟨rest, front, back, stripped, cut, List.all_eq_true.mpr digits.1, List.all_eq_true.mpr digits.2⟩

/-- A value outside the grammar is ignored exactly if it is harmless, whether or not blanks
beside the dash are taken into the grammar; a harmless one is ignored whatever the archive is called. -/
theorem off_grammar_ignored_iff (reads : env.values.ReadsVisible) (positive : 0 < archive.totalSize)
    (inner : Bool) :
    (Harmless value → Ignored env archive request world value) ∧
      (env.values.accepts (buildContentDisposition (downloadName request.path archive.format)) = true →
        ((¬ InGrammar inner (latin value) → Ignored env archive request world value) ↔
          InGrammar inner (latin value) ∨ Harmless value)) := by
  have nonzero := Nat.ne_of_gt positive
  refine ⟨fun harmless => harmless.ignored reads nonzero, fun named => ?_⟩
  constructor
  · intro claimed
    by_contra neither
    obtain ⟨outside, harmful⟩ := not_or.mp neither
    exact not_ignored harmful reads nonzero named (claimed outside)
  · intro either outside
    rcases either with inside | harmless
    · exact absurd inside outside
    · exact harmless.ignored reads nonzero

end Answers

def smallRequest : Request where
  path := [100]
  range := none
  patience := 5

theorem smallEnvironment_reads : smallEnvironment.values.ReadsVisible := fun _ => rfl

theorem smallArchive_harmless_iff {value : Bytes} : Harmless value ↔
    value.all isVisible = true ∧ parseRangeHeader (latin value) 7 = .error .malformed :=
  harmless_iff (by decide)

/-- `0-1` lacks the unit -/
theorem off_grammar_ignored_small : Ignored smallEnvironment (.tar Tar.smallArchive) smallRequest
    { cells := fun _ => none, now := 0 } [48, 45, 49] :=
  (off_grammar_ignored_iff smallEnvironment_reads (by decide +kernel) false).1
    (smallArchive_harmless_iff.mpr (by decide))

/-- `bytes=+1-2` -/
def signedRange : Bytes := [98, 121, 116, 101, 115, 61, 43, 49, 45, 50]

theorem signedRange_outside (inner : Bool) : ¬ InGrammar inner (latin signedRange) := by
  intro inside
  obtain ⟨rest, front, back, stripped, cut, digits, _⟩ := inside.cut (by decide)
  have known : stripBytes (latin signedRange) = some ['+', '1', '-', '2'] := by decide
  rw [known, Option.some.injEq] at stripped
  subst stripped
  have sides : splitDash (firstSpec ['+', '1', '-', '2']) = some (['+', '1'], ['2']) := by decide
  rw [sides, Option.some.injEq, Prod.mk.injEq] at cut
  obtain ⟨rfl, rfl⟩ := cut
  exact absurd digits (by decide)

/-- A sign before a number is outside the grammar and has an effect, and so has a byte beyond ASCII. -/
theorem signed_number_takes_effect :
    ((∀ inner, ¬ InGrammar inner (latin signedRange)) ∧
      ¬ Ignored smallEnvironment (.tar Tar.smallArchive) smallRequest { cells := fun _ => none, now := 0 }
        signedRange) ∧
    (∀ inner, ¬ InGrammar inner (latin [255])) ∧
      ¬ Ignored smallEnvironment (.tar Tar.smallArchive) smallRequest { cells := fun _ => none, now := 0 } [255] := by
  have positive : (Archive.tar Tar.smallArchive).totalSize ≠ 0 := by decide +kernel
  have named : smallEnvironment.values.accepts
      (buildContentDisposition (downloadName smallRequest.path (Archive.tar Tar.smallArchive).format)) = true := by
    decide
  have signed : ¬ Harmless signedRange := fun harmless => absurd (smallArchive_harmless_iff.mp harmless) (by decide)
  have wide : ¬ Harmless [255] := fun harmless => absurd (smallArchive_harmless_iff.mp harmless) (by decide)
  refine ⟨⟨signedRange_outside, not_ignored signed smallEnvironment_reads positive named⟩, ?_,
    not_ignored wide smallEnvironment_reads positive named⟩
  intro inner asks
  obtain ⟨first, last, ⟨before, left, right, after, tail, whole, _⟩, _⟩ := asks
  cases whole

end Raas.Server
