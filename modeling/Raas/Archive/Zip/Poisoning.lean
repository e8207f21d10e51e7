import Raas.Archive.Zip.Sharing

namespace Raas.Zip

open Data

/-! What failed opens and reads leave behind in the checksums of a shared archive. -/

namespace Sharing

/-- A turn that begins a checksum pass over a file, which fails to open it or to read it to its end. -/
def Spoils (feature : CrcFeature) (os : Files) (archive : ZipArchive) (world : World) : Event → Prop
  | .turn pos _ => ∃ kind index entry source, kindAt archive pos = some kind ∧ kind.Heads index ∧
      Sealable feature archive world.cells index ∧ archive.entries[index]? = some entry ∧
      entry.sourcePath = some source ∧ Interrupted os source world.now
  | _ => False

/-- What a turn hands over and what a call returns is the part of the reference that is
due, and only failures that `Fails` admits are passed on. -/
def Event.Right (Fails : IoError → Prop) (reference : Bytes) (total : Nat) : Event → Prop
  | .turn _ (.error fault) => Passes Fails fault
  | .turn pos (.ok piece) => 0 < piece.length ∧ piece = window reference pos (pos + piece.length)
  | .answer pos stop capacity bytes => bytes = window reference pos (min (min stop total) (pos + capacity))
  | _ => True

end Sharing

open Sharing

/-- The call has collected what the reference has from the reader's position on. -/
structure Call.Collects (reference : Bytes) (total : Nat) (reader : ZipRangeReader) (call : Call) : Prop where
  counted : call.pos = reader.currentPos + call.written.length
  room : call.written.length ≤ call.capacity
  content : call.written = window reference reader.currentPos call.pos
  inside : call.written = [] ∨ call.pos ≤ min reader.endPos total

structure Session.Sound (holds : FileId → Option Bytes) (paths : Path → Option Bytes) (reference : Bytes) (total : Nat)
    (session : Session) : Prop where
  valid : session.reader.fileHandleCache.Valid holds paths
  fits : session.reader.endPos < u64Size
  collects : ∀ call, session.call = some call → call.Collects reference total session.reader

section Collecting

variable {reference : Bytes} {archive : ZipArchive} {reader : ZipRangeReader} {call : Call} {piece : Bytes}

theorem Call.Collects.start (reference : Bytes) (total : Nat) (reader : ZipRangeReader) (capacity : Nat) :
    Call.Collects reference total reader { capacity, pos := reader.currentPos, written := [] } where
  counted := rfl
  room := Nat.zero_le capacity
  content := (window_self _ _).symm
  inside := .inl rfl

theorem Call.Collects.turn (collects : call.Collects reference archive.totalSize reader) (progress : Progress)
    (fits : piece.length ≤ call.capacity - call.written.length)
    (inside : call.pos + piece.length ≤ min reader.endPos archive.totalSize)
    (content : piece = window reference call.pos (call.pos + piece.length)) :
    Call.Collects reference archive.totalSize (reader.keeping progress)
      { call with pos := call.pos + piece.length, written := call.written ++ piece } where
  counted := by
    have counted := collects.counted
    rw [List.length_append]
    change call.pos + piece.length = reader.currentPos + _
    omega
  room := by
    have room := collects.room
    rw [List.length_append]
    dsimp only
    omega
  content := by
    have counted := collects.counted
    change call.written ++ piece = window reference reader.currentPos (call.pos + piece.length)
    rw [← window_append (show reader.currentPos ≤ call.pos by omega) (Nat.le_add_right _ _), ← collects.content,
      ← content]
  inside := .inr inside

/-- Where the loop stops, the call has collected all that it has room for. -/
theorem Call.Collects.answer (collects : call.Collects reference archive.totalSize reader)
    (done : ¬ call.Running archive reader) :
    call.written =
      window reference reader.currentPos
        (min (min reader.endPos archive.totalSize) (reader.currentPos + call.capacity)) := by
  have counted := collects.counted
  have room := collects.room
  have stopped : call.capacity ≤ call.written.length ∨ min reader.endPos archive.totalSize ≤ call.pos := by
    by_contra running
    exact done ⟨by omega, by omega, by omega⟩
  rcases collects.inside with empty | inside
  · rw [empty, List.length_nil] at counted stopped
    rw [empty, window_of_le (by omega)]
  · rw [show min (min reader.endPos archive.totalSize) (reader.currentPos + call.capacity) = call.pos by omega]
    exact collects.content

end Collecting

section Spared

variable {archive : ZipArchive} {feature : CrcFeature} {os : Files} {Fails : IoError → Prop}
  {holds : FileId → Option Bytes} {paths : Path → Option Bytes} {endPos pos room fuel : Nat}

theorem ZipArchive.WellFormed.kindAt_covered (wellFormed : archive.WellFormed) {segment : Segment}
    (member : segment ∈ archive.segments) (covers : segment.Covers pos) (inside : pos < archive.totalSize) :
    kindAt archive pos = some segment.kind := by
  obtain ⟨index, other, located, found, covering⟩ := wellFormed.findSegment_finds inside
  rw [wellFormed.covering_unique member covers (List.mem_of_getElem? found) covering]
  simp only [kindAt, located, found, Option.map_some]

/-- A turn that no interrupted pass spoils gives its piece of the reference, or passes on
the failure of an open or a read. -/
theorem ZipArchive.WellFormed.readStep_spared (wellFormed : archive.WellFormed)
    (falters : os.Falters Fails holds paths) (keeps : archive.KeepsSizes paths)
    (hashable : ∀ entry ∈ archive.entries, entry.size < fuel) (endFits : endPos < u64Size) {progress : Progress}
    (kept : progress.Kept feature holds paths archive) {outcome : Except (Fault IoError) Bytes}
    (spared : ¬ Spoils feature os archive progress.world (.turn pos outcome))
    (before : pos < min endPos archive.totalSize) (positive : 0 < room) :
    Delivers (Progress.Kept feature holds paths archive) (Passes Fails)
      (archive.reference (crcOf feature paths) (entryContent paths)) (min endPos archive.totalSize) pos room
      (readStep 64 feature fuel os archive endPos progress pos room) := by
  have moving : ¬ Stuck 64 archive endPos pos := wellFormed.not_stuck wellFormed.bounded endFits (by omega)
  apply wellFormed.readStep_delivers falters keeps wellFormed.addressable moving kept ?_ before positive
  intro segment member lower upper regular
  have kind := wellFormed.kindAt_covered member ⟨lower, upper⟩ (by omega)
  apply wellFormed.encodes kept.2 member regular
  intro index entry heads found
  have inEntries := List.mem_of_getElem? found
  apply entryCrc_falters falters keeps kept.2 found (wellFormed.sources entry inEntries) ?_
    (wellFormed.size_lt inEntries) (hashable entry inEntries)
  intro enabled file unset source sourced interrupted
  exact spared ⟨segment.kind, index, entry, source, kind, heads, ⟨enabled, unset, entry, found, file⟩, found, sourced,
    interrupted⟩

/-- What a reader does, as long as no pass is spoiled, keeps its call on its way and
every checksum right. -/
theorem Sharing.Acts.sound (wellFormed : archive.WellFormed) (falters : os.Falters Fails holds paths)
    (keeps : archive.KeepsSizes paths) (hashable : ∀ entry ∈ archive.entries, entry.size < fuel)
    {session next : Session} {world after : World} {event : Event}
    (sound : session.Sound holds paths (archive.reference (crcOf feature paths) (entryContent paths)) archive.totalSize)
    (hold : CellsHold feature paths archive world.cells) (spared : ¬ Spoils feature os archive world event)
    (acted : Acts feature fuel os archive (session, world) event (next, after)) :
    (next.Sound holds paths (archive.reference (crcOf feature paths) (entryContent paths)) archive.totalSize ∧
      CellsHold feature paths archive after.cells) ∧
      event.Right Fails (archive.reference (crcOf feature paths) (entryContent paths)) archive.totalSize := by
  obtain ⟨valid, fits, collects⟩ := sound
  have delivers : ∀ {reader : ZipRangeReader} {call : Call} {outcome : Except (Fault IoError) Bytes},
      reader.fileHandleCache.Valid holds paths → reader.endPos < u64Size → call.Running archive reader →
      ¬ Spoils feature os archive world (.turn call.pos outcome) →
      Delivers (Progress.Kept feature holds paths archive) (Passes Fails)
        (archive.reference (crcOf feature paths) (entryContent paths)) (min reader.endPos archive.totalSize) call.pos
        (call.capacity - call.written.length)
        (readStep 64 feature fuel os archive reader.endPos (reader.progress world) call.pos
          (call.capacity - call.written.length)) := by
    intro reader call outcome valid fits running spared
    have before := running.2
    exact wellFormed.readStep_spared falters keeps hashable fits ⟨valid, hold⟩ spared (by omega)
      (Nat.sub_pos_of_lt running.1)
  cases acted with
  | read capacity =>
      refine ⟨⟨⟨valid, fits, ?_⟩, hold⟩, trivial⟩
      intro _ here
      cases here
      exact .start _ _ _ capacity
  | turn running handed =>
      have delivered := delivers valid fits running spared
      rw [handed] at delivered
      obtain ⟨⟨keptFiles, keptCells⟩, positive, room, inside, content⟩ := delivered
      refine ⟨⟨⟨keptFiles, fits, ?_⟩, keptCells⟩, positive, content⟩
      intro _ here
      cases here
      exact (collects _ rfl).turn _ room inside content
  | fail running failed =>
      have delivered := delivers valid fits running spared
      rw [failed] at delivered
      obtain ⟨passes, keptFiles, keptCells⟩ := delivered
      exact ⟨⟨⟨keptFiles, fits, nofun⟩, keptCells⟩, passes⟩
  | answer done =>
      refine ⟨⟨⟨valid, fits, nofun⟩, hold⟩, ?_⟩
      exact (collects _ rfl).answer done

/-- Every open reader is on its way, and no cell keeps an error or another file's checksum. -/
def Sharing.Healthy (feature : CrcFeature) (holds : FileId → Option Bytes) (paths : Path → Option Bytes)
    (archive : ZipArchive) : Pool Session World → Prop :=
  Pool.Holds (Session.Sound holds paths (archive.reference (crcOf feature paths) (entryContent paths)) archive.totalSize)
    fun world => CellsHold feature paths archive world.cells

theorem Sharing.idle_healthy (now : Nat) : Healthy feature holds paths archive (idle now) where
  parties := nofun
  shared := cellsHold_fresh

theorem Sharing.Healthy.step (wellFormed : archive.WellFormed) (falters : os.Falters Fails holds paths)
    (keeps : archive.KeepsSizes paths) (hashable : ∀ entry ∈ archive.entries, entry.size < fuel)
    {before after : Pool Session World} {event : Event} (healthy : Healthy feature holds paths archive before)
    (spared : ¬ Spoils feature os archive before.shared event)
    (taken : Step feature fuel os archive before event after) :
    Healthy feature holds paths archive after ∧
      event.Right Fails (archive.reference (crcOf feature paths) (entryContent paths)) archive.totalSize := by
  apply taken.keeps healthy
  · intro session entered
    obtain ⟨start, stop, rfl, rfl⟩ := entered
    exact ⟨⟨FileHandleCache.new_valid, stop.toNat_lt, nofun⟩, trivial⟩
  · intro session next world sound hold acted
    exact acted.sound wellFormed falters keeps hashable sound hold spared

/-- No pass is spoiled while the files can be opened and read. -/
theorem Sharing.spoils_never (serves : os.Serves holds paths) (keeps : archive.KeepsSizes paths) (world : World)
    (event : Event) : ¬ Spoils feature os archive world event := by
  cases event with
  | turn pos outcome =>
      intro spoils
      obtain ⟨kind, index, entry, source, _, _, ⟨_, _, known, found, regular⟩, same, sourced, interrupted⟩ := spoils
      obtain rfl := Option.some.inj (same.symm.trans found)
      obtain ⟨bytes, leads, _⟩ := keeps entry (List.mem_of_getElem? found) regular source sourced
      exact Interrupted.never serves leads interrupted
  | _ => exact id

end Spared

/-- From here on everything that the archive's readers are given is right: in whatever
order they take their turns, no turn fails, each hands over bytes that are due, each
call returns what is due; and a reader of a new range gets all of it. -/
structure Sharing.ReadsRight (feature : CrcFeature) (fuel : Nat) (os : Files) (paths : Path → Option Bytes)
    (archive : ZipArchive) (pool : Pool Session World) : Prop where
  events : ∀ state event after, Reaches (Step feature fuel os archive) (fun _ _ => True) pool state →
    Step feature fuel os archive state event after →
      event.Right (fun _ => False) (archive.reference (crcOf feature paths) (entryContent paths)) archive.totalSize
  ranges : ∀ state, Reaches (Step feature fuel os archive) (fun _ _ => True) pool state →
    ∀ (start stop : UInt64) (calls : Nat) (capacities : List Nat), (∀ entry ∈ archive.entries, entry.size < calls) →
      (∀ capacity ∈ capacities, 0 < capacity ∧ capacity < calls) →
        (drain (Zip.read 64 feature calls os archive) (ZipArchive.streamRange start.toNat stop.toNat, state.shared)
          capacities).1.Yields
          (window (archive.reference (crcOf feature paths) (entryContent paths)) (min start.toNat archive.totalSize)
            (min stop.toNat archive.totalSize)) capacities.length

theorem Sharing.Healthy.readsRight {archive : ZipArchive} {feature : CrcFeature} {os : Files}
    {holds : FileId → Option Bytes} {paths : Path → Option Bytes} {fuel : Nat} (wellFormed : archive.WellFormed)
    (serves : os.Serves holds paths) (keeps : archive.KeepsSizes paths)
    (hashable : ∀ entry ∈ archive.entries, entry.size < fuel) {pool : Pool Session World}
    (healthy : Healthy feature holds paths archive pool) : ReadsRight feature fuel os paths archive pool := by
  have step : ∀ state event after, Healthy feature holds paths archive state →
      Step feature fuel os archive state event after →
      Healthy feature holds paths archive after ∧ event.Right (fun _ => False)
        (archive.reference (crcOf feature paths) (entryContent paths)) archive.totalSize := by
    intro state event after here taken
    exact here.step wellFormed (serves.falters fun _ => False) keeps hashable
      (spoils_never serves keeps state.shared event) taken
  have run : ∀ state, Reaches (Step feature fuel os archive) (fun _ _ => True) pool state →
      Healthy feature holds paths archive state := by
    intro state reached
    exact reached.invariant healthy fun before event after here _ taken => (step before event after here taken).1
  constructor
  · intro state event after reached taken
    exact (step state event after (run state reached) taken).2
  · intro state reached start stop calls capacities enough usable
    exact (wellFormed.streamRange_yields serves keeps enough start.toNat stop.toNat_lt (run state reached).shared
      usable).1

section Poisoned

variable {archive : ZipArchive} {feature : CrcFeature} {os : Files} {cells after : CrcCells}
  {pointerBits endPos pos room fuel now index : Nat} {entry : ZipEntry} {kind : SegmentKind} {progress : Progress}

theorem writeSegmentInto_later (feature : CrcFeature) (fuel : Nat) (os : Files) (archive : ZipArchive)
    (kind : SegmentKind) (cells : CrcCells) (now : Nat) :
    CellsLater cells (writeSegmentInto feature fuel os archive kind cells now).2.1 := by
  cases kind with
  | localHeader index =>
      cases found : archive.entries[index]? with
      | none => simp only [writeSegmentInto, found, CellsLater.refl]
      | some entry =>
          rw [writesHeader_local found]
          exact entryCrc_later feature fuel os cells now index entry
  | centralEntry index =>
      cases found : archive.entries[index]? with
      | none => simp only [writeSegmentInto, found, CellsLater.refl]
      | some entry =>
          rw [writesHeader_central found]
          exact entryCrc_later feature fuel os cells now index entry
  | data index => exact .refl cells
  | zip64Eocd => exact .refl cells
  | zip64Locator => exact .refl cells
  | eocd => exact .refl cells

theorem readData_cells (os : Files) (archive : ZipArchive) (progress : Progress) (entryIndex offset want : Nat) :
    (readData os archive progress entryIndex offset want).2.world.cells = progress.world.cells := by
  unfold readData
  split
  · rfl
  · split
    · rfl
    · split
      · rfl
      · dsimp only
        split <;> rfl

/-- No turn takes back what a cell keeps. -/
theorem readStep_later (pointerBits : Nat) (feature : CrcFeature) (fuel : Nat) (os : Files) (archive : ZipArchive)
    (endPos : Nat) (progress : Progress) (pos room : Nat) :
    progress.Later (readStep pointerBits feature fuel os archive endPos progress pos room).2 := by
  unfold readStep
  split
  · exact .refl _
  · split
    · exact .refl _
    · rename_i segment _
      dsimp only
      split
      · rename_i entryIndex _
        rw [Progress.Later, readData_cells]
        exact .refl _
      · have later := writeSegmentInto_later feature fuel os archive segment.kind progress.world.cells progress.world.now
        unfold readEncoded
        rcases written : writeSegmentInto feature fuel os archive segment.kind progress.world.cells
          progress.world.now with ⟨result, cells, now⟩
        rw [written] at later
        cases result <;> exact later

/-- The cell of an entry keeps an error, and `pos` lies in a header of that entry. -/
def Poisoned (feature : CrcFeature) (archive : ZipArchive) (cells : CrcCells) (pos : Nat) : Prop :=
  feature.enabled = true ∧ ∃ kind index entry source message, kindAt archive pos = some kind ∧ kind.Heads index ∧
    archive.entries[index]? = some entry ∧ entry.isDir = false ∧ entry.sourcePath = some source ∧
    cells index = some (.error message)

theorem Poisoned.later (poisoned : Poisoned feature archive cells pos) (later : CellsLater cells after) :
    Poisoned feature archive after pos := by
  obtain ⟨enabled, kind, index, entry, source, message, here, heads, found, regular, sourced, kept⟩ := poisoned
  exact ⟨enabled, kind, index, entry, source, message, here, heads, found, regular, sourced, later index _ kept⟩

/-- In a header of an entry a turn is the checksum of the entry, written into that header. -/
theorem readStep_header (feature : CrcFeature) (here : kindAt archive pos = some kind) (heads : kind.Heads index)
    (found : archive.entries[index]? = some entry) :
    ∃ offset want write, WritesHeader feature archive kind index entry write ∧
      readStep pointerBits feature fuel os archive endPos progress pos room =
        readEncoded pointerBits feature fuel os archive progress kind offset want := by
  unfold kindAt at here
  cases located : findSegment archive pos with
  | none =>
      rw [located] at here
      cases here
  | some number =>
      simp only [located, Option.map_eq_some_iff] at here
      obtain ⟨segment, placed, rfl⟩ := here
      have encoded : ∀ other, segment.kind ≠ .data other := by
        intro other data
        rcases heads with heads | heads <;> rw [data] at heads <;> cases heads
      rw [readStep_encoded located placed encoded]
      rcases heads with heads | heads
      · rw [heads]
        exact ⟨_, _, _, writesHeader_local found, rfl⟩
      · rw [heads]
        exact ⟨_, _, _, writesHeader_central found, rfl⟩

/-- A turn in a header fails when the checksum does, and leaves the cells as that does. -/
theorem readStep_fails {fault : Fault IoError} {later : Nat} (here : kindAt archive pos = some kind)
    (heads : kind.Heads index) (found : archive.entries[index]? = some entry)
    (failed : entryCrc feature fuel os progress.world.cells progress.world.now index entry =
      (.error fault, after, later)) :
    readStep pointerBits feature fuel os archive endPos progress pos room =
      (.error fault, { progress with scratch := [], world := { cells := after, now := later } }) := by
  obtain ⟨offset, want, write, writes, same⟩ := readStep_header feature here heads found
  rw [same, readEncoded, writes, failed]
  rfl

theorem Poisoned.fails (poisoned : Poisoned feature archive progress.world.cells pos) :
    ∃ message, readStep pointerBits feature fuel os archive endPos progress pos room =
      (.error (.error (.other message)), { progress with scratch := [] }) := by
  obtain ⟨enabled, kind, index, entry, source, message, here, heads, found, regular, sourced, kept⟩ := poisoned
  refine ⟨message, readStep_fails here heads found ?_⟩
  simp only [entryCrc, regular, enabled, sourced, kept, Bool.false_eq_true, if_false, if_true]

/-- A range of one byte of such a header can never be read again, whatever the files do. -/
theorem Poisoned.drained {world : World} (poisoned : Poisoned feature archive world.cells pos) (pointerBits : Nat)
    (os : Files) (inside : pos < archive.totalSize) (positive : 0 < fuel) :
    ∃ reason, (drain (read pointerBits feature fuel os archive) (ZipArchive.streamRange pos (pos + 1), world) [1]).1 =
      .failed [] reason := by
  obtain ⟨fuel, rfl⟩ := Nat.exists_eq_succ_of_ne_zero (Nat.ne_of_gt positive)
  have running : ¬ (pos + 1 ≤ pos ∨ archive.totalSize ≤ pos) := by omega
  have looping : ([] : Bytes).length < 1 ∧ pos < pos + 1 ∧ pos < archive.totalSize :=
    ⟨Nat.one_pos, Nat.lt_succ_self pos, inside⟩
  have fails : ∃ message, readStep pointerBits feature (fuel + 1) os archive (pos + 1)
      { files := .new, scratch := [], world } pos (1 - ([] : Bytes).length) =
        (.error (.error (.other message)), { files := .new, scratch := [], world }) := Poisoned.fails poisoned
  obtain ⟨message, failed⟩ := fails
  refine ⟨.error (.other message), ?_⟩
  simp only [drain, read, readIntoBuffer, ZipArchive.streamRange, if_neg running, fill, if_pos looping, failed]

end Poisoned

section Spoiled

variable {archive : ZipArchive} {feature : CrcFeature} {os : Files} {Fails : IoError → Prop}
  {holds : FileId → Option Bytes} {paths : Path → Option Bytes} {fuel pos : Nat} {event : Event}
  {before after : Pool Session World}

/-- A turn that is spoiled fails, and leaves an error in a cell. -/
theorem Sharing.Acts.poisons (wellFormed : archive.WellFormed) (falters : os.Falters Fails holds paths)
    (keeps : archive.KeepsSizes paths) (hashable : ∀ entry ∈ archive.entries, entry.size < fuel)
    {session next : Session} {world after : World} {outcome : Except (Fault IoError) Bytes}
    (spoils : Spoils feature os archive world (.turn pos outcome))
    (acted : Acts feature fuel os archive (session, world) (.turn pos outcome) (next, after)) :
    pos < archive.totalSize ∧ Poisoned feature archive after.cells pos := by
  obtain ⟨kind, index, entry, source, here, heads, ⟨enabled, unset, known, same, regular⟩, found, sourced,
    interrupted⟩ := spoils
  obtain rfl := Option.some.inj (same.symm.trans found)
  have member := List.mem_of_getElem? found
  obtain ⟨message, later, failed⟩ := entryCrc_poisons falters keeps found enabled regular sourced unset interrupted
    (wellFormed.size_lt member) (hashable _ member)
  cases acted with
  | turn running handed =>
      rw [readStep_fails here heads found failed] at handed
      cases handed
  | fail running handed =>
      rw [readStep_fails here heads found failed] at handed
      obtain ⟨_, rfl⟩ := Prod.mk.inj handed
      exact ⟨running.2.2, enabled, kind, index, _, source, message, here, heads, found, regular, sourced,
        Function.update_self ..⟩

theorem Sharing.Step.poisons (wellFormed : archive.WellFormed) (falters : os.Falters Fails holds paths)
    (keeps : archive.KeepsSizes paths) (hashable : ∀ entry ∈ archive.entries, entry.size < fuel)
    (spoils : Spoils feature os archive before.shared event) (taken : Step feature fuel os archive before event after) :
    ∃ pos < archive.totalSize, Poisoned feature archive after.shared.cells pos := by
  cases event with
  | turn pos outcome =>
      cases taken with
      | enter session entered =>
          obtain ⟨start, stop, same, _⟩ := entered
          cases same
      | act front back session next acted => exact ⟨pos, acted.poisons wellFormed falters keeps hashable spoils⟩
  | streamRange start stop => exact spoils.elim
  | read capacity => exact spoils.elim
  | answer pos stop capacity bytes => exact spoils.elim

theorem Sharing.Acts.later {session next : Session} {world later : World}
    (acted : Acts feature fuel os archive (session, world) event (next, later)) :
    CellsLater world.cells later.cells := by
  cases acted with
  | read capacity => exact .refl _
  | @turn reader _ call piece progress running handed =>
      have later := readStep_later 64 feature fuel os archive reader.endPos (reader.progress world) call.pos
        (call.capacity - call.written.length)
      rw [handed] at later
      exact later
  | @fail reader _ call fault progress running failed =>
      have later := readStep_later 64 feature fuel os archive reader.endPos (reader.progress world) call.pos
        (call.capacity - call.written.length)
      rw [failed] at later
      exact later
  | answer done => exact .refl _

theorem Sharing.Step.later (taken : Step feature fuel os archive before event after) :
    CellsLater before.shared.cells after.shared.cells :=
  taken.shared_moves (fun world later => CellsLater world.cells later.cells) (.refl _) fun _ _ _ acted => acted.later

/-- Once an error is in a cell it is there in every later state. -/
theorem Poisoned.run (poisoned : Poisoned feature archive before.shared.cells pos)
    (reached : Reaches (Step feature fuel os archive) (fun _ _ => True) before after) :
    Poisoned feature archive after.shared.cells pos := by
  induction reached with
  | start => exact poisoned
  | next _ _ taken ih => exact ih.later (Step.later taken)

theorem Poisoned.reads_wrong (poisoned : Poisoned feature archive before.shared.cells pos)
    (wellFormed : archive.WellFormed) (inside : pos < archive.totalSize)
    (hashable : ∀ entry ∈ archive.entries, entry.size < fuel) : ¬ ReadsRight feature fuel os paths archive before := by
  intro right
  have bounded := wellFormed.bounded
  have first : (UInt64.ofNat pos).toNat = pos := UInt64.toNat_ofNat_of_lt' (Nat.lt_trans inside bounded)
  have last : (UInt64.ofNat (pos + 1)).toNat = pos + 1 := UInt64.toNat_ofNat_of_lt' (Nat.lt_of_le_of_lt inside bounded)
  have yields := right.ranges before .start (UInt64.ofNat pos) (UInt64.ofNat (pos + 1)) (fuel + 2) [1]
    (fun entry member => Nat.lt_add_right 2 (hashable entry member)) (fun capacity member => by
      rw [List.mem_singleton.mp member]
      omega)
  rw [first, last] at yields
  obtain ⟨reason, failed⟩ := poisoned.drained 64 os inside (Nat.succ_pos (fuel + 1))
  rw [failed] at yields
  exact yields

end Spoiled

/-- Failed opens and reads leave nothing behind in an archive whose checksum passes they
spare: once the files can be read again, whatever its readers are given is right, in any
order. After a run in which they have interrupted one pass that is never so again. -/
theorem unspoiled_archive_recovers {scanned : List ScannedEntry}
    (fits : (ZipArchive.createFrom scanned).extent < u64Size)
    {feature : CrcFeature} {holds : FileId → Option Bytes} {paths : Path → Option Bytes} {os later : Files}
    (falters : os.Falters (fun _ => True) holds paths) (serves : later.Serves holds paths)
    (keeps : (ZipArchive.createFrom scanned).KeepsSizes paths) {fuel : Nat}
    (hashable : ∀ entry ∈ (ZipArchive.createFrom scanned).entries, entry.size < fuel) (now : Nat) :
    let archive := ZipArchive.createFrom scanned
    (∀ state, Reaches (Step feature fuel os archive) (fun pool event => ¬ Spoils feature os archive pool.shared event)
        (idle now) state → ReadsRight feature fuel later paths archive state) ∧
      ∀ before event after state, Reaches (Step feature fuel os archive) (fun _ _ => True) (idle now) before →
        Spoils feature os archive before.shared event → Step feature fuel os archive before event after →
        Reaches (Step feature fuel os archive) (fun _ _ => True) after state →
          ¬ ReadsRight feature fuel later paths archive state := by
  intro archive
  obtain ⟨wellFormed, _⟩ := ZipArchive.createFrom_wellFormed fits
  constructor
  · intro state reached
    have healthy : Healthy feature holds paths archive state :=
      reached.invariant (idle_healthy now) fun before event after here spared taken =>
        (here.step wellFormed falters keeps hashable spared taken).1
    exact healthy.readsRight wellFormed serves keeps hashable
  · intro before event after state _ spoils taken further
    obtain ⟨pos, inside, poisoned⟩ := Step.poisons wellFormed falters keeps hashable spoils taken
    exact (poisoned.run further).reads_wrong wellFormed inside hashable

/-- The small files, but the first open fails. -/
def shortFiles : Files := (Files.memory smallFiles 2).exhaustedAt fun now => now == 0

/-- The reader of part of the small archive, and the archive's state before any read. -/
def firstReader (start stop : Nat) : Pool Session World where
  parties := [{ reader := ZipArchive.streamRange start stop, call := none }]
  shared := { cells := fun _ => none, now := 0 }

theorem firstReader_entered {os : Files} {condition : Pool Session World → Event → Prop} (start stop : UInt64)
    (met : condition (idle 0) (.streamRange start stop)) :
    Reaches (Step smallFeature 8 os (ZipArchive.createFrom smallScan)) condition (idle 0)
      (firstReader start.toNat stop.toNat) :=
  .single met (.enter _ ⟨start, stop, rfl, rfl⟩)

/-- The open fails that the content is to be read through. -/
theorem unspoiled_archive_recovers_small :
    let archive := ZipArchive.createFrom smallScan
    let condition := fun (pool : Pool Session World) event => ¬ Spoils smallFeature shortFiles archive pool.shared event
    ∃ fault before state, Reaches (Step smallFeature 8 shortFiles archive) condition (idle 0) before ∧
      Step smallFeature 8 shortFiles archive before (.turn 65 (.error fault)) state ∧
      ReadsRight smallFeature 8 (Files.memory smallFiles 2) (Files.contentOf smallFiles) archive state := by
  intro archive condition
  obtain ⟨holds, serves⟩ := Files.memory_unchanged smallFiles (show 0 < 2 by decide)
  let reader := ZipArchive.streamRange 65 68
  let world : World := { cells := fun _ => none, now := 0 }
  let call : Call := { capacity := 3, pos := 65, written := [] }
  obtain ⟨fault, progress, failed⟩ : ∃ fault progress, readStep 64 smallFeature 8 shortFiles archive 68
      (reader.progress world) 65 3 = (.error fault, progress) := ⟨_, _, rfl⟩
  have entered : Reaches (Step smallFeature 8 shortFiles archive) condition (idle 0)
      { parties := [{ reader, call := some call }], shared := world } :=
    (firstReader_entered 65 68 id).next id (.act [] [] _ _ (.read 3))
  have taken : Step smallFeature 8 shortFiles archive { parties := [{ reader, call := some call }], shared := world }
      (.turn 65 (.error fault))
      { parties := [{ reader := reader.keeping progress, call := none }], shared := progress.world } :=
    .act [] [] _ _ (.fail ⟨by decide, by decide, by decide +kernel⟩ failed)
  have spared : condition { parties := [{ reader, call := some call }], shared := world } (.turn 65 (.error fault)) := by
    intro spoils
    obtain ⟨kind, index, _, _, here, heads, _⟩ := spoils
    have content : kindAt archive 65 = some (.data 1) := rfl
    obtain rfl := Option.some.inj (content.symm.trans here)
    rcases heads with heads | heads <;> cases heads
  obtain ⟨recovers, _⟩ := unspoiled_archive_recovers smallZip_fits (serves.exhaustedAt fun now => now == 0) serves
    smallZip_keeps smallZip_hashable 0
  exact ⟨fault, _, _, entered, taken, recovers _ (entered.next spared taken)⟩

/-- The open fails that a checksum is to be computed through: the archive cannot be read
again although the files can. -/
theorem failed_open_poisons :
    let archive := ZipArchive.createFrom smallScan
    ∃ holds state, shortFiles.Falters (fun _ => True) holds (Files.contentOf smallFiles) ∧
      (Files.memory smallFiles 2).Serves holds (Files.contentOf smallFiles) ∧ archive.extent < u64Size ∧
      archive.KeepsSizes (Files.contentOf smallFiles) ∧ (∀ entry ∈ archive.entries, entry.size < 8) ∧
      Reaches (Step smallFeature 8 shortFiles archive) (fun _ _ => True) (idle 0) state ∧
      ¬ ReadsRight smallFeature 8 (Files.memory smallFiles 2) (Files.contentOf smallFiles) archive state := by
  intro archive
  obtain ⟨holds, serves⟩ := Files.memory_unchanged smallFiles (show 0 < 2 by decide)
  have inside : 40 < archive.totalSize := by decide +kernel
  obtain ⟨wellFormed, _⟩ := ZipArchive.createFrom_wellFormed smallZip_fits
  obtain ⟨entry, known, regular, sourced⟩ : ∃ entry, archive.entries[1]? = some entry ∧ entry.isDir = false ∧
    entry.sourcePath = some [47, 115, 47, 100, 47, 102] := ⟨_, rfl, rfl, rfl⟩
  obtain ⟨reason, after, message, answered, kept⟩ : ∃ reason after message,
      Zip.read 64 smallFeature 8 shortFiles archive
          (ZipArchive.streamRange 40 41, { cells := fun _ => none, now := 0 }) 1 = (.error (.error reason), after) ∧
        after.2.cells 1 = some (.error message) := ⟨_, _, _, rfl, rfl⟩
  have reads : Reaches (Step smallFeature 8 shortFiles archive) (fun _ _ => True) (firstReader 40 41)
      { parties := [{ reader := after.1, call := none }], shared := after.2 } :=
    Pool.of_alone (fun _ _ => True) [] [] (read_acts answered fun same => by cases same)
  have reached : Reaches (Step smallFeature 8 shortFiles archive) (fun _ _ => True) (idle 0)
      { parties := [{ reader := after.1, call := none }], shared := after.2 } :=
    (firstReader_entered 40 41 trivial).trans reads
  have poisoned : Poisoned smallFeature archive after.2.cells 40 :=
    ⟨rfl, .localHeader 1, 1, entry, _, message, rfl, .inl rfl, known, regular, sourced, kept⟩
  exact ⟨holds, _, serves.exhaustedAt _, serves, smallZip_fits, smallZip_keeps, smallZip_hashable, reached,
    poisoned.reads_wrong wellFormed inside smallZip_hashable⟩

end Raas.Zip
