import Raas.Archive.Zip.Announced
import Raas.Data.Tracing

namespace Raas.Zip

open Data

/-! What reading a range opens and computes. -/

def ZipRangeReader.progress (reader : ZipRangeReader) (world : World) : Progress where
  files := reader.fileHandleCache
  scratch := reader.scratch
  world := world

theorem read_looping (pointerBits : Nat) (feature : CrcFeature) (fuel : Nat) (os : Files) (archive : ZipArchive) :
    Looping (read pointerBits feature fuel os archive) (readStep pointerBits feature fuel os archive) .exhausted fuel
      archive.totalSize (fun reader => reader.1.progress reader.2) (fun reader => reader.1.currentPos)
      (fun reader => reader.1.endPos) where
  finished reader capacity done := if_pos done
  running reader capacity bytes after running answered := by
    unfold read readIntoBuffer at answered
    rw [if_neg running] at answered
    rcases filled : fill (readStep pointerBits feature fuel os archive reader.1.endPos) .exhausted capacity
      reader.1.endPos archive.totalSize fuel (reader.1.progress reader.2) reader.1.currentPos [] with ⟨result, progress⟩
    rw [ZipRangeReader.progress] at filled
    rw [filled] at answered
    cases result with
    | error reason => cases answered
    | ok collected =>
        obtain ⟨same, rfl⟩ := Prod.mk.inj answered
        obtain rfl := Except.ok.inj same
        exact ⟨rfl, rfl⟩

def kindAt (archive : ZipArchive) (pos : Nat) : Option SegmentKind :=
  match findSegment archive pos with
  | none => none
  | some index => (archive.segments[index]?).map Segment.kind

/-- The source of an entry's content, if `kind` is its data segment. -/
def contentSource (archive : ZipArchive) : Option SegmentKind → Option Path
  | some (.data index) => (archive.entries[index]?).bind ZipEntry.sourcePath
  | _ => none

/-- The range from `start` to `stop` meets a segment of that kind. -/
def ZipArchive.Meets (archive : ZipArchive) (kind : SegmentKind) (start stop : Nat) : Prop :=
  ∃ segment ∈ archive.segments, segment.kind = kind ∧ ∃ place, start ≤ place ∧ place < stop ∧ segment.Covers place

/-- Entry `index` is a file, and the cells are there to keep its checksum. -/
def Sealable (feature : CrcFeature) (archive : ZipArchive) (cells : CrcCells) (index : Nat) : Prop :=
  feature.enabled = true ∧ cells index = none ∧ ∃ entry, archive.entries[index]? = some entry ∧ entry.isDir = false

/-- What encoding the headers of some entries does to the cells. -/
structure Seals (feature : CrcFeature) (archive : ZipArchive) (heads : Nat → Prop) (cells after : CrcCells) :
    Prop where
  sets : ∀ index, heads index → Sealable feature archive cells index → (after index).isSome = true
  keeps : ∀ index, ¬ (heads index ∧ Sealable feature archive cells index) → after index = cells index

section Effects

variable {pointerBits : Nat} {feature : CrcFeature} {fuel : Nat} {os : Files} {archive : ZipArchive}
  {cells after : CrcCells} {now later endPos pos room index : Nat} {entry : ZipEntry} {kind : SegmentKind}
  {heads : Nat → Prop}

theorem Seals.idle (none : ∀ index, heads index → ¬ Sealable feature archive cells index) :
    Seals feature archive heads cells cells where
  sets index headed sealable := absurd sealable (none index headed)
  keeps _ _ := rfl

theorem Seals.congr {others : Nat → Prop} (seals : Seals feature archive heads cells after)
    (same : ∀ index, others index ↔ heads index) : Seals feature archive others cells after where
  sets index headed := seals.sets index ((same index).mp headed)
  keeps index elsewhere := seals.keeps index fun headed => elsewhere ⟨(same index).mpr headed.1, headed.2⟩

theorem Seals.trans {others : Nat → Prop} {last : CrcCells} (first : Seals feature archive heads cells after)
    (second : Seals feature archive others after last) :
    Seals feature archive (fun index => heads index ∨ others index) cells last where
  sets index headed sealable := by
    by_cases early : heads index
    · have sealed := first.sets index early sealable
      rw [second.keeps index fun later => by rw [later.2.2.1] at sealed; cases sealed]
      exact sealed
    · have same := first.keeps index fun late => early late.1
      exact second.sets index (headed.resolve_left early) ⟨sealable.1, same.trans sealable.2.1, sealable.2.2⟩
  keeps index elsewhere := by
    have same := first.keeps index fun early => elsewhere ⟨.inl early.1, early.2⟩
    rw [← same]
    apply second.keeps
    intro sealed
    obtain ⟨late, enabled, unset, file⟩ := sealed
    exact elsewhere ⟨.inr late, enabled, same.symm.trans unset, file⟩

/-- An answer of `entry_crc` seals the cell of a file, and no other cell. -/
theorem entryCrc_seals {crc : Nat} (found : archive.entries[index]? = some entry)
    (answered : entryCrc feature fuel os cells now index entry = (.ok crc, after, later)) :
    Seals feature archive (· = index) cells after ∧ (feature.enabled = false → later = now) := by
  have answer := entryCrc_answer feature fuel os cells now index entry
  rw [answered] at answer
  cases answer with
  | skipped skip =>
      refine ⟨.idle ?_, fun _ => rfl⟩
      intro other same sealable
      subst same
      obtain ⟨enabled, _, known, placed, regular⟩ := sealable
      obtain rfl := Option.some.inj (found.symm.trans placed)
      rcases skip with directory | disabled
      · exact Bool.false_ne_true (regular.symm.trans directory)
      · exact Bool.false_ne_true (disabled.symm.trans enabled)
  | kept regular enabled sourced known =>
      refine ⟨.idle ?_, fun _ => rfl⟩
      intro other same sealable
      subst same
      rw [sealable.2.1] at known
      cases known
  | computed regular enabled sourced unset hashed =>
      refine ⟨⟨?_, ?_⟩, ?_⟩
      · intro other same _
        subst same
        rw [Function.update_self]
        rfl
      · intro other elsewhere
        rw [Function.update_of_ne]
        intro same
        subst same
        exact elsewhere ⟨rfl, enabled, unset, entry, found, regular⟩
      · intro disabled
        rw [enabled] at disabled
        cases disabled

theorem writeSegmentInto_seals {scratch : Bytes}
    (written : writeSegmentInto feature fuel os archive kind cells now = (.ok scratch, after, later)) :
    Seals feature archive kind.Heads cells after ∧ (feature.enabled = false → later = now) := by
  have headless : (∀ index, ¬ kind.Heads index) → cells = after ∧ now = later →
      Seals feature archive kind.Heads cells after ∧ (feature.enabled = false → later = now) := by
    intro none still
    obtain ⟨rfl, rfl⟩ := still
    exact ⟨.idle fun index headed => absurd headed (none index), fun _ => rfl⟩
  have headed : ∀ {index : Nat} {entry : ZipEntry} {write : Nat → Bytes}, archive.entries[index]? = some entry →
      ((entryCrc feature fuel os cells now index entry).1.map write,
        (entryCrc feature fuel os cells now index entry).2) = (.ok scratch, after, later) →
      Seals feature archive (· = index) cells after ∧ (feature.enabled = false → later = now) := by
    intro index entry write found answered
    rcases computed : entryCrc feature fuel os cells now index entry with ⟨result, time⟩
    rw [computed] at answered
    cases result with
    | error fault => cases answered
    | ok crc =>
        have last : time = (after, later) := (Prod.mk.inj answered).2
        rw [last] at computed
        exact entryCrc_seals found computed
  unfold writeSegmentInto at written
  cases kind with
  | data index => cases written
  | zip64Eocd =>
      exact headless (fun _ => by rintro (heads | heads) <;> cases heads) (Prod.mk.inj (Prod.mk.inj written).2)
  | zip64Locator =>
      exact headless (fun _ => by rintro (heads | heads) <;> cases heads) (Prod.mk.inj (Prod.mk.inj written).2)
  | eocd =>
      exact headless (fun _ => by rintro (heads | heads) <;> cases heads) (Prod.mk.inj (Prod.mk.inj written).2)
  | localHeader index =>
      dsimp only at written
      cases found : archive.entries[index]? with
      | none =>
          rw [found] at written
          cases written
      | some entry =>
          simp only [found] at written
          refine (headed found written).imp_left fun seals => seals.congr fun other => ?_
          simp only [SegmentKind.Heads, SegmentKind.localHeader.injEq, reduceCtorEq, or_false, eq_comm]
  | centralEntry index =>
      dsimp only at written
      cases found : archive.entries[index]? with
      | none =>
          rw [found] at written
          cases written
      | some entry =>
          simp only [found] at written
          refine (headed found written).imp_left fun seals => seals.congr fun other => ?_
          simp only [SegmentKind.Heads, SegmentKind.centralEntry.injEq, reduceCtorEq, false_or, eq_comm]

theorem readEncoded_effects {progress next : Progress} {offset want : Nat} {piece : Bytes}
    (handed : readEncoded pointerBits feature fuel os archive progress kind offset want = (.ok piece, next)) :
    piece.length = want ∧ next.files = progress.files ∧ ∃ scratch, writeSegmentInto feature fuel os archive kind
      progress.world.cells progress.world.now = (.ok scratch, next.world.cells, next.world.now) := by
  unfold readEncoded at handed
  rcases written : writeSegmentInto feature fuel os archive kind progress.world.cells progress.world.now with
    ⟨result, cells, now⟩
  rw [written] at handed
  cases result with
  | error reason => cases handed
  | ok scratch =>
      obtain ⟨sliced, rfl⟩ := Prod.mk.inj handed
      refine ⟨?_, rfl, scratch, rfl⟩
      unfold slice at sliced
      split at sliced
      · rw [← Except.ok.inj sliced, List.length_take, List.length_drop]
        omega
      · cases sliced

theorem readData_effects {progress next : Progress} {offset want : Nat} {piece : Bytes}
    (handed : readData os archive progress index offset want = (.ok piece, next)) :
    ∃ source, contentSource archive (some (.data index)) = some source ∧
      next.world.cells = progress.world.cells ∧
      progress.files.readAt os progress.world.now source offset want = (.ok piece, next.files, next.world.now) := by
  unfold readData at handed
  cases found : archive.entries[index]? with
  | none =>
      rw [found] at handed
      cases handed
  | some entry =>
      cases sourced : entry.sourcePath with
      | none =>
          simp only [found, sourced] at handed
          cases handed
      | some source =>
          simp only [found, sourced] at handed
          rcases read : progress.files.readAt os progress.world.now source offset want with ⟨result, files, now⟩
          rw [read] at handed
          cases result with
          | error reason => cases handed
          | ok bytes =>
              dsimp only at handed
              split at handed
              · cases handed
              · obtain ⟨same, rfl⟩ := Prod.mk.inj handed
                obtain rfl := Except.ok.inj same
                refine ⟨source, ?_, rfl, read⟩
                simp only [contentSource, found, Option.bind_some, sourced]

/-- What a turn that goes ahead does: it stays in its segment, and either reads content
or encodes the segment. -/
theorem readStep_effects {progress next : Progress} {piece : Bytes}
    (handed : readStep pointerBits feature fuel os archive endPos progress pos room = (.ok piece, next)) :
    ∃ segment ∈ archive.segments, kindAt archive pos = some segment.kind ∧ segment.Covers pos ∧
      (piece.length ≤ room ∧ piece.length ≤ asUsize pointerBits (segment.len - (pos - segment.start)) ∧
        piece.length ≤ asUsize pointerBits (endPos - pos)) ∧
      ((∃ source offset want, contentSource archive (some segment.kind) = some source ∧
          (∀ index, ¬ segment.kind.Heads index) ∧ next.world.cells = progress.world.cells ∧
          progress.files.readAt os progress.world.now source offset want = (.ok piece, next.files, next.world.now)) ∨
        contentSource archive (some segment.kind) = none ∧ (∀ index, segment.kind ≠ .data index) ∧
          next.files = progress.files ∧
          Seals feature archive segment.kind.Heads progress.world.cells next.world.cells ∧
          (feature.enabled = false → next.world.now = progress.world.now)) := by
  cases located : findSegment archive pos with
  | none =>
      simp only [readStep, located] at handed
      cases handed
  | some number =>
      obtain ⟨segment, found, lower, upper⟩ := findSegment_covers located
      have kind : kindAt archive pos = some segment.kind := by
        simp only [kindAt, located, found, Option.map_some]
      refine ⟨segment, List.mem_of_getElem? found, kind, ⟨lower, upper⟩, ?_⟩
      by_cases encoded : ∀ index, segment.kind ≠ .data index
      · have sourceless : contentSource archive (some segment.kind) = none := by
          unfold contentSource
          split
          · rename_i index data
            exact absurd (Option.some.inj data) (encoded index)
          · rfl
        rw [readStep_encoded located found encoded] at handed
        generalize counted : min (min room (asUsize pointerBits (segment.len - (pos - segment.start))))
          (asUsize pointerBits (endPos - pos)) = want at handed
        obtain ⟨length, files, scratch, written⟩ := readEncoded_effects handed
        refine ⟨⟨by omega, by omega, by omega⟩, .inr ⟨sourceless, encoded, files, writeSegmentInto_seals written⟩⟩
      · simp only [ne_eq, not_forall, not_not] at encoded
        obtain ⟨index, data⟩ := encoded
        simp only [readStep, located, found, data] at handed
        generalize counted : min (min room (asUsize pointerBits (segment.len - (pos - segment.start))))
          (asUsize pointerBits (endPos - pos)) = want at handed
        obtain ⟨source, known, cells, read⟩ := readData_effects handed
        have length := FileHandleCache.readAt_length read
        refine ⟨⟨by omega, by omega, by omega⟩, .inl ⟨source, _, want, ?_, ?_, cells, read⟩⟩
        · rw [data]
          exact known
        · rintro other (heads | heads) <;> rw [data] at heads <;> cases heads

end Effects

/-- Entry `index` has a header among the segments that the turns began in. -/
def Headed (archive : ZipArchive) (past : List (Turn Progress)) (index : Nat) : Prop :=
  ∃ turn ∈ past, ∃ kind, kindAt archive turn.position = some kind ∧ kind.Heads index

/-- A turn stays in the range and in the segment that it begins in. -/
def Stays (archive : ZipArchive) (start stop : Nat) (turn : Turn Progress) : Prop :=
  start ≤ turn.position ∧ turn.position < stop ∧ ∃ segment ∈ archive.segments,
    kindAt archive turn.position = some segment.kind ∧ segment.Covers turn.position ∧
      turn.position + turn.count ≤ segment.start + segment.len

/-- What is known of the turns that a reader has taken from `start`, and of the state and
the position that they have led to. -/
structure Footprint (feature : CrcFeature) (archive : ZipArchive) (start stop : Nat) (initial : World)
    (past : List (Turn Progress)) (progress : Progress) (pos : Nat) : Prop where
  ahead : start ≤ pos
  covers : Covers past start pos
  stays : ∀ turn ∈ past, Stays archive start stop turn
  handle : ∀ path file, progress.files.currentFile = some (path, file) → path ∈ progress.files.opened
  opens : ∀ path ∈ progress.files.opened, ∃ turn ∈ past, contentSource archive (kindAt archive turn.position) = some path
  content : ∀ turn ∈ past, ∀ source, contentSource archive (kindAt archive turn.position) = some source →
    ∃ path ∈ progress.files.opened, Path.same path source = true
  seals : Seals feature archive (Headed archive past) initial.cells progress.world.cells
  quiet : feature.enabled = false → (∀ turn ∈ past, contentSource archive (kindAt archive turn.position) = none) →
    progress.world.now = initial.now

section Footprints

variable {pointerBits : Nat} {feature : CrcFeature} {fuel : Nat} {os : Files} {archive : ZipArchive}
  {start stop pos room : Nat} {initial : World} {past : List (Turn Progress)} {progress : Progress}

theorem footprint_start (files : progress.files = .new) (world : progress.world = initial) :
    Footprint feature archive start stop initial [] progress start where
  ahead := Nat.le_refl start
  covers place lower upper := by omega
  stays := nofun
  handle path file cached := by rw [files] at cached; cases cached
  opens path opened := by rw [files] at opened; cases opened
  content := nofun
  seals := world ▸ .idle nofun
  quiet _ _ := by rw [world]

theorem headed_snoc {turn : Turn Progress} {kind : SegmentKind} (here : kindAt archive turn.position = some kind)
    (index : Nat) : Headed archive (past ++ [turn]) index ↔ Headed archive past index ∨ kind.Heads index := by
  simp only [Headed, List.mem_append, List.mem_singleton, or_and_right, exists_or, exists_eq_left, here,
    Option.some.injEq, exists_eq_left']

/-- A read of content opens its file unless the handle that is kept leads there; either
way the file of the handle has been opened, and nothing else has been. -/
theorem Footprint.read (footprint : Footprint feature archive start stop initial past progress pos) {source : Path}
    {offset want now : Nat} {piece : Bytes} {files : FileHandleCache}
    (answered : progress.files.readAt os progress.world.now source offset want = (.ok piece, files, now)) :
    progress.files.opened ⊆ files.opened ∧ (∀ path ∈ files.opened, path ∈ progress.files.opened ∨ path = source) ∧
      ∃ held file, files.currentFile = some (held, file) ∧ Path.same held source = true ∧ held ∈ files.opened := by
  obtain ⟨held, file, _, current, _, ⟨rfl, _, opened⟩ | ⟨same, ⟨old, cached, _⟩, opened⟩⟩ :=
    FileHandleCache.readAt_keeps answered
  · rw [opened]
    refine ⟨List.subset_append_left _ _, ?_, held, file, current, decide_eq_true rfl, ?_⟩
    · intro path member
      rw [List.mem_append, List.mem_singleton] at member
      exact member
    · exact List.mem_append_right _ List.mem_cons_self
  · rw [opened]
    exact ⟨List.Subset.refl _, fun path member => .inl member, held, file, current, same,
      footprint.handle held old cached⟩

theorem Footprint.step (footprint : Footprint feature archive start stop initial past progress pos)
    (before : pos < stop) {piece : Bytes} {next : Progress}
    (handed : readStep pointerBits feature fuel os archive stop progress pos room = (.ok piece, next)) :
    Footprint feature archive start stop initial
      (past ++ [{ state := progress, position := pos, room, count := piece.length }]) next (pos + piece.length) := by
  obtain ⟨segment, member, kind, covered, ⟨_, counted, _⟩, effect⟩ := readStep_effects handed
  have ahead := footprint.ahead
  have shorter : asUsize pointerBits (segment.len - (pos - segment.start)) ≤ segment.len - (pos - segment.start) :=
    Nat.mod_le _ _
  have inside : pos + piece.length ≤ segment.start + segment.len := by
    have upper := covered.2
    have lower := covered.1
    omega
  refine ⟨by omega, footprint.covers.next rfl, ?_, ?_, ?_, ?_, ?_, ?_⟩
  · intro turn taken
    rcases List.mem_append.mp taken with taken | taken
    · exact footprint.stays turn taken
    · rw [List.mem_singleton.mp taken]
      exact ⟨ahead, before, segment, member, kind, covered, inside⟩
  · intro path file cached
    rcases effect with ⟨source, offset, want, _, _, _, answered⟩ | ⟨_, _, files, _⟩
    · obtain ⟨_, _, held, other, current, _, opened⟩ := footprint.read answered
      rw [current, Option.some.injEq, Prod.mk.injEq] at cached
      rw [← cached.1]
      exact opened
    · rw [files] at cached ⊢
      exact footprint.handle path file cached
  · intro path opened
    have either : path ∈ progress.files.opened ∨ contentSource archive (kindAt archive pos) = some path := by
      rcases effect with ⟨source, offset, want, sourced, _, _, answered⟩ | ⟨_, _, files, _⟩
      · rcases (footprint.read answered).2.1 path opened with before | rfl
        · exact .inl before
        · exact .inr (kind ▸ sourced)
      · exact .inl (files ▸ opened)
    rcases either with before | sourced
    · obtain ⟨turn, taken, sourced⟩ := footprint.opens path before
      exact ⟨turn, List.mem_append_left _ taken, sourced⟩
    · exact ⟨_, List.mem_append_right _ List.mem_cons_self, sourced⟩
  · intro turn taken source here
    rcases List.mem_append.mp taken with taken | taken
    · obtain ⟨path, opened, same⟩ := footprint.content turn taken source here
      rcases effect with ⟨_, _, _, _, _, _, answered⟩ | ⟨_, _, files, _⟩
      · exact ⟨path, (footprint.read answered).1 opened, same⟩
      · exact ⟨path, files ▸ opened, same⟩
    · rw [List.mem_singleton.mp taken, kind] at here
      rcases effect with ⟨other, offset, want, sourced, _, _, answered⟩ | ⟨sourceless, _⟩
      · obtain rfl := Option.some.inj (sourced.symm.trans here)
        obtain ⟨_, _, held, _, _, same, opened⟩ := footprint.read answered
        exact ⟨held, opened, same⟩
      · rw [sourceless] at here
        cases here
  · have seals : Seals feature archive segment.kind.Heads progress.world.cells next.world.cells := by
      rcases effect with ⟨_, _, _, _, headless, cells, _⟩ | ⟨_, _, _, seals, _⟩
      · rw [cells]
        exact .idle fun index heads => absurd heads (headless index)
      · exact seals
    exact (footprint.seals.trans seals).congr (headed_snoc kind)
  · intro disabled quiet
    have earlierQuiet := footprint.quiet disabled fun turn taken => quiet turn (List.mem_append_left _ taken)
    have here := quiet _ (List.mem_append_right past List.mem_cons_self)
    rw [kind] at here
    rcases effect with ⟨_, _, _, sourced, _⟩ | ⟨_, _, _, _, still⟩
    · rw [sourced] at here
      cases here
    · exact (still disabled).trans earlierQuiet

end Footprints

section Meeting

variable {archive : ZipArchive} {start stop next place : Nat} {segment : Segment} {kind : SegmentKind}
  {past : List (Turn Progress)} {turn : Turn Progress}

theorem ZipArchive.WellFormed.covering_unique (wellFormed : archive.WellFormed) {other : Segment}
    (member : segment ∈ archive.segments) (covers : segment.Covers place) (otherMember : other ∈ archive.segments)
    (otherCovers : other.Covers place) : segment = other := by
  obtain ⟨first, found⟩ := List.getElem?_of_mem member
  obtain ⟨second, otherFound⟩ := List.getElem?_of_mem otherMember
  have same := wellFormed.segments_tile.unique found otherFound covers.1 covers.2 otherCovers.1 otherCovers.2
  rw [same, otherFound] at found
  exact (Option.some.inj found).symm

theorem Stays.meets (stays : Stays archive start stop turn) (here : kindAt archive turn.position = some kind) :
    archive.Meets kind start stop := by
  obtain ⟨ahead, before, segment, member, same, covers, _⟩ := stays
  exact ⟨segment, member, Option.some.inj (same.symm.trans here), turn.position, ahead, before, covers⟩

theorem Footprint.turn_of_meets (wellFormed : archive.WellFormed) {feature : CrcFeature} {initial : World}
    {progress : Progress} (footprint : Footprint feature archive start stop initial past progress next)
    (reached : stop ≤ next) (meets : archive.Meets kind start stop) :
    ∃ turn ∈ past, kindAt archive turn.position = some kind := by
  obtain ⟨segment, member, rfl, place, lower, upper, covers⟩ := meets
  obtain ⟨turn, taken, starts, ends⟩ := footprint.covers place lower (by omega)
  obtain ⟨_, _, other, otherMember, same, otherCovers, inside⟩ := footprint.stays turn taken
  have spanning : other.Covers place := ⟨Nat.le_trans otherCovers.1 starts, by omega⟩
  rw [wellFormed.covering_unique member covers otherMember spanning]
  exact ⟨turn, taken, same⟩

/-- The entries whose headers a turn was at are those whose headers the range meets. -/
theorem Footprint.headed_iff (wellFormed : archive.WellFormed) {feature : CrcFeature} {initial : World}
    {progress : Progress} (footprint : Footprint feature archive start stop initial past progress next)
    (reached : stop ≤ next) (index : Nat) : Headed archive past index ↔
      archive.Meets (.localHeader index) start stop ∨ archive.Meets (.centralEntry index) start stop := by
  constructor
  · intro headed
    obtain ⟨turn, taken, kind, here, rfl | rfl⟩ := headed
    · exact .inl ((footprint.stays turn taken).meets here)
    · exact .inr ((footprint.stays turn taken).meets here)
  · intro meets
    rcases meets with meets | meets
    · obtain ⟨turn, taken, here⟩ := footprint.turn_of_meets wellFormed reached meets
      exact ⟨turn, taken, _, here, .inl rfl⟩
    · obtain ⟨turn, taken, here⟩ := footprint.turn_of_meets wellFormed reached meets
      exact ⟨turn, taken, _, here, .inr rfl⟩

/-- Without data segments in the range no turn has a file to read. -/
theorem Stays.sourceless (stays : Stays archive start stop turn)
    (contentless : ∀ index, ¬ archive.Meets (.data index) start stop) :
    contentSource archive (kindAt archive turn.position) = none := by
  unfold contentSource
  split
  · rename_i index here
    exact absurd (stays.meets here) (contentless index)
  · rfl

theorem contentSource_some {source : Path} (sourced : contentSource archive (kindAt archive turn.position) = some source) :
    ∃ index entry, kindAt archive turn.position = some (.data index) ∧ archive.entries[index]? = some entry ∧
      entry.sourcePath = some source := by
  unfold contentSource at sourced
  split at sourced
  · rename_i index kind
    obtain ⟨entry, found, sourcePath⟩ := Option.bind_eq_some_iff.mp sourced
    exact ⟨index, entry, kind, found, sourcePath⟩
  · cases sourced

end Meeting

/-- Draining a range opens for content the files whose data segments it meets and no
others, by the record that the handle cache keeps of its calls, and sets the cells of the
files whose headers it meets and no others. Without checksums and without data segments
in the range nothing is called: the clock stands, which every call moves on. -/
theorem range_touches_what_it_meets {scanned : List ScannedEntry}
    (fits : (ZipArchive.createFrom scanned).extent < u64Size) {feature : CrcFeature} {os : Files} {fuel start stop : Nat}
    (inside : stop ≤ (ZipArchive.createFrom scanned).totalSize) {world : World} {capacities : List Nat}
    (usable : ∀ capacity ∈ capacities, 0 < capacity) {bytes : Bytes}
    (ended : (drain (read 64 feature fuel os (ZipArchive.createFrom scanned))
      (ZipArchive.streamRange start stop, world) capacities).1 = .ended bytes) :
    let archive := ZipArchive.createFrom scanned
    let opened := (drain (read 64 feature fuel os archive) (ZipArchive.streamRange start stop, world)
      capacities).2.1.fileHandleCache.opened
    let final := (drain (read 64 feature fuel os archive) (ZipArchive.streamRange start stop, world) capacities).2.2
    (∀ path ∈ opened, ∃ index entry, archive.entries[index]? = some entry ∧
      entry.sourcePath = some path ∧ archive.Meets (.data index) start stop) ∧
    (∀ index entry source, archive.entries[index]? = some entry → entry.sourcePath = some source →
      archive.Meets (.data index) start stop → ∃ path ∈ opened, Path.same path source = true) ∧
    (∀ index, Sealable feature archive world.cells index →
      ((final.cells index).isSome = true ↔
        archive.Meets (.localHeader index) start stop ∨ archive.Meets (.centralEntry index) start stop)) ∧
    (∀ index, ¬ Sealable feature archive world.cells index → final.cells index = world.cells index) ∧
    (feature.enabled = false → (∀ index, ¬ archive.Meets (.data index) start stop) →
      opened = [] ∧ final.now = world.now) := by
  intro archive opened final
  obtain ⟨wellFormed, _⟩ := ZipArchive.createFrom_wellFormed fits
  obtain ⟨footprint, ending⟩ := (read_looping 64 feature fuel os archive).drained
    (fun past progress pos room piece next (footprint : Footprint feature archive start stop world past progress pos)
      before _ _ handed => footprint.step before handed)
    (show (ZipArchive.streamRange start stop, world).1.endPos = stop from rfl) (footprint_start rfl rfl) usable
    (fun _ _ failed => by rw [ended] at failed; cases failed)
  have reached : stop ≤ start + bytes.length := by
    have last := ending bytes ended
    rwa [Nat.min_eq_left inside] at last
  rw [ended] at footprint
  have meets : ∀ path ∈ opened, ∃ index entry, archive.entries[index]? = some entry ∧
      entry.sourcePath = some path ∧ archive.Meets (.data index) start stop := by
    intro path member
    obtain ⟨turn, taken, sourced⟩ := footprint.opens path member
    obtain ⟨index, entry, kind, found, sourcePath⟩ := contentSource_some sourced
    exact ⟨index, entry, found, sourcePath, (footprint.stays turn taken).meets kind⟩
  refine ⟨meets, ?_, ?_, ?_, ?_⟩
  · intro index entry source found sourcePath meets
    obtain ⟨turn, taken, here⟩ := footprint.turn_of_meets wellFormed reached meets
    apply footprint.content turn taken source
    rw [here]
    exact Option.bind_eq_some_iff.mpr ⟨entry, found, sourcePath⟩
  · intro index sealable
    rw [← footprint.headed_iff wellFormed reached index]
    constructor
    · intro sealed
      by_contra headless
      have same := footprint.seals.keeps index fun both => headless both.1
      rw [show final.cells index = world.cells index from same, sealable.2.1] at sealed
      cases sealed
    · exact fun headed => footprint.seals.sets index headed sealable
  · intro index unsealable
    exact footprint.seals.keeps index fun both => unsealable both.2
  · intro disabled contentless
    have untouched : opened = [] := by
      refine List.eq_nil_iff_forall_not_mem.mpr fun path member => ?_
      obtain ⟨index, _, _, _, met⟩ := meets path member
      exact contentless index met
    exact ⟨untouched, footprint.quiet disabled fun turn taken => (footprint.stays turn taken).sourceless contentless⟩

/-- The header and the first bytes of the one small file. -/
theorem range_touches_what_it_meets_small :
    let archive := ZipArchive.createFrom smallScan
    let drained := (drain (read 64 smallFeature 8 (Files.memory smallFiles 2) archive)
      (ZipArchive.streamRange 60 67, { cells := fun _ => none, now := 0 }) (List.replicate 8 3)).2
    (∃ path ∈ drained.1.fileHandleCache.opened, Path.same path [47, 115, 47, 100, 47, 102] = true) ∧
      (drained.2.cells 1).isSome = true := by
  intro archive drained
  have fits : archive.extent < u64Size := smallZip_fits
  obtain ⟨wellFormed, _⟩ := ZipArchive.createFrom_wellFormed fits
  obtain ⟨holds, serves⟩ := Files.memory_unchanged smallFiles (show 0 < 2 by decide)
  have keeps : archive.KeepsSizes (Files.contentOf smallFiles) := smallZip_keeps
  have hashable : ∀ entry ∈ archive.entries, entry.size < 8 := smallZip_hashable
  have usable : ∀ capacity ∈ List.replicate 8 3, 0 < capacity ∧ capacity < 8 :=
    List.forall_mem_replicate.mpr (.inr (by decide))
  have total : archive.totalSize = 187 := by decide +kernel
  have hold : CellsHold smallFeature (Files.contentOf smallFiles) archive
    ({ cells := fun _ => none, now := 0 } : World).cells := cellsHold_fresh
  have yields := (wellFormed.streamRange_yields serves keeps hashable 60 (show 67 < u64Size by decide) hold usable).1
  have ended := yields.ended (by rw [window_length, List.length_replicate, total]; omega)
  obtain ⟨_, opens, seals, _⟩ := range_touches_what_it_meets fits (by rw [total]; decide)
    (fun capacity member => (usable capacity member).1) ended
  obtain ⟨entry, known, regular, sourced⟩ : ∃ entry, archive.entries[1]? = some entry ∧ entry.isDir = false ∧
    entry.sourcePath = some [47, 115, 47, 100, 47, 102] := ⟨_, rfl, rfl, rfl⟩
  constructor
  · apply opens 1 entry _ known sourced
    have member : { start := 65, len := 3, kind := .data 1 } ∈ archive.segments := by decide +kernel
    exact ⟨_, member, rfl, 65, by decide, by decide, by decide, by decide⟩
  · refine (seals 1 ⟨rfl, rfl, entry, known, regular⟩).mpr ?_
    have member : { start := 32, len := 33, kind := .localHeader 1 } ∈ archive.segments := by decide +kernel
    exact .inl ⟨_, member, rfl, 60, by decide, by decide, by decide, by decide⟩

end Raas.Zip
