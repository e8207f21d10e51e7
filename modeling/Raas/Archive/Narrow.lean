import Mathlib.Data.Bool.AllAny
import Raas.Archive.Tar.Recovery
import Raas.Archive.Tar.Starving
import Raas.Archive.Zip.Footprint
import Raas.Data.Agreement

namespace Raas

open Data

/-! Reading on targets whose `usize` is narrower than the archive. -/

namespace Tar

/-- The turns that draining a reader takes. -/
def drainTurns (pointerBits fuel : Nat) (os : Files) (archive : TarArchive) :
    RangeStreamWriter × Nat → List Nat → List (Turn Progress) :=
  trace
    (callTurns (readStep pointerBits os archive) fuel archive.totalSize (fun reader => reader.1.progress reader.2)
      (fun reader => reader.1.currentPos) (fun reader => reader.1.endPos))
    (read pointerBits fuel os archive)

section Narrow

variable {pointerBits fuel : Nat} {os : Files} {archive : TarArchive} {endPos pos room : Nat}
  {progress next : Progress} {piece : Bytes}

/-- What the cursor finds at a place of an entry's header or content is that entry. -/
theorem TarArchive.WellFormed.locate_entry (wellFormed : archive.WellFormed) {entry : TarEntry}
    (member : entry ∈ archive.entries) (lower : entry.offset ≤ pos)
    (upper : pos < entry.offset + entry.header.length + entry.info.size) (cursor : Nat) :
    ∃ index after, locate archive cursor pos = (some index, after) ∧ archive.entries[index]? = some entry := by
  obtain ⟨number, known⟩ := List.getElem?_of_mem member
  have width : entry.span = entry.header.length + entry.info.size + calculatePadding entry.info.size := rfl
  have located := wellFormed.locate_locates cursor pos
  rcases answer : locate archive cursor pos with ⟨covering, after⟩
  rw [answer] at located
  cases covering with
  | some index =>
      obtain ⟨other, found, starts, ends⟩ := located
      have otherWidth : other.span = other.header.length + other.info.size + calculatePadding other.info.size := rfl
      obtain rfl := wellFormed.tiles.unique known found lower (by omega) starts (by omega)
      exact ⟨_, after, rfl, known⟩
  | none =>
      exfalso
      rcases located with ⟨index, other, found, starts, ends⟩ | past
      · have same := wellFormed.tiles.unique known found lower (by omega) (by omega) ends
        subst same
        rw [known, Option.some.injEq] at found
        subst found
        omega
      · have bounds := wellFormed.tiles.base_le_start entry member
        omega

/-- How much a turn that goes well hands over at most. -/
theorem readStep_piece (handed : readStep pointerBits os archive endPos progress pos room = (.ok piece, next)) :
    (∃ cursor, locate archive progress.cursor pos = (none, cursor) ∧ piece.length ≤ room) ∨
      ∃ index cursor entry, locate archive progress.cursor pos = (some index, cursor) ∧
        archive.entries[index]? = some entry ∧ piece.length ≤ room ∧
        piece.length ≤ asUsize pointerBits (endPos - pos) ∧
        (¬ InHeader entry pos →
          piece.length ≤ asUsize pointerBits (wrappingAdd (contentStart entry) entry.info.size - pos)) := by
  rcases located : locate archive progress.cursor pos with ⟨covering, cursor⟩
  cases covering with
  | none =>
      simp only [readStep, located, Prod.mk.injEq, Except.ok.injEq] at handed
      refine .inl ⟨cursor, rfl, ?_⟩
      rw [← handed.1, List.length_replicate]
      refine Nat.le_trans (Nat.mod_le _ _) ?_
      split <;> omega
  | some index =>
      cases found : archive.entries[index]? with
      | none =>
          simp only [readStep, located, found] at handed
          cases handed
      | some entry =>
          refine .inr ⟨index, cursor, entry, rfl, found, ?_⟩
          simp only [readStep, located, found] at handed
          split at handed
          · rename_i header
            have length := slice_length (Prod.mk.inj handed).1
            refine ⟨by omega, by omega, fun outside => absurd header outside⟩
          · split at handed
            · generalize answer : progress.files.readAt os (progress.now + 1) _ _ _ = answered at handed
              obtain ⟨result, files, now⟩ := answered
              cases result with
              | error reason => cases handed
              | ok bytes =>
                  obtain rfl := Except.ok.inj (Prod.mk.inj handed).1
                  have length := FileHandleCache.readAt_length answer
                  exact ⟨by omega, by omega, fun _ => by rw [contentStart]; omega⟩
            · cases handed

theorem readStep_fits (handed : readStep pointerBits os archive endPos progress pos room = (.ok piece, next)) :
    piece.length ≤ room := by
  rcases readStep_piece handed with ⟨_, _, fits⟩ | ⟨_, _, _, _, _, fits, _⟩ <;> exact fits

theorem TarArchive.WellFormed.readStep_stuck (wellFormed : archive.WellFormed)
    (stuck : Stuck pointerBits archive endPos pos)
    (handed : readStep pointerBits os archive endPos progress pos room = (.ok piece, next)) : piece = [] := by
  obtain ⟨entry, member, lower, upper, nothing⟩ := stuck
  obtain ⟨index, after, located, found⟩ := wellFormed.locate_entry member lower upper progress.cursor
  rcases readStep_piece handed with ⟨_, answer, _⟩ | ⟨other, _, known, answer, foundOther, _, rest, content⟩
  · rw [located] at answer
    cases answer
  · rw [located] at answer
    cases answer
    rw [found] at foundOther
    cases foundOther
    apply List.eq_nil_of_length_eq_zero
    have bound := wellFormed.entry_bound found
    have small := wellFormed.bounded
    have width : entry.span = entry.header.length + entry.info.size + calculatePadding entry.info.size := rfl
    have offset : entry.info.offset = entry.offset := rfl
    have headerEnd : contentStart entry = entry.offset + entry.header.length := wrappingAdd_of_lt (by omega)
    have contentEnd : wrappingAdd (contentStart entry) entry.info.size =
        entry.offset + entry.header.length + entry.info.size := by
      rw [headerEnd]
      exact wrappingAdd_of_lt (by omega)
    rcases nothing with nothing | ⟨inContent, nothing⟩
    · omega
    · have outside : ¬ InHeader entry pos := fun header => by
        have before := header.2
        omega
      have length := content outside
      rw [contentEnd] at length
      omega

/-- On a target with such pointers every turn goes ahead, and the bytes are those that a
64-bit target reads. -/
def Portable (pointerBits : Nat) (os : Files) (archive : TarArchive) (start stop : Nat) : Prop :=
  ∀ (now fuel : Nat) (capacities : List Nat), (∀ capacity ∈ capacities, 0 < capacity ∧ capacity < fuel) →
    (∀ turn ∈ drainTurns pointerBits fuel os archive (TarArchive.streamRange start stop, now) capacities,
      0 < turn.count) ∧
    (drain (read pointerBits fuel os archive) (TarArchive.streamRange start stop, now) capacities).1 =
      (drain (read 64 fuel os archive) (TarArchive.streamRange start stop, now) capacities).1

theorem TarArchive.WellFormed.portable_iff (wellFormed : archive.WellFormed)
    (addressable : archive.Addressable pointerBits) {paths : Path → Option Bytes} (unchanged : os.Unchanged paths)
    (keeps : archive.KeepsSizes (os.isFile 0 archive.sourcePath) paths) (start : Nat) {stop : Nat}
    (stopFits : stop < u64Size) :
    Portable pointerBits os archive start stop ↔
      ∀ place, start ≤ place → place < min stop archive.totalSize → ¬ Stuck pointerBits archive stop place := by
  obtain ⟨holds, serves⟩ := unchanged
  have length := wellFormed.reference_length (wellFormed.entryContent_length keeps)
  have inside : min stop archive.totalSize ≤
      (archive.reference (entryContent archive (os.isFile 0 archive.sourcePath) paths)).length := by
    rw [length]
    exact Nat.min_le_right _ _
  have standing : ∀ now, Standing stop holds paths (TarArchive.streamRange start stop, now) start :=
    fun now => ⟨rfl, rfl, FileHandleCache.new_valid⟩
  have answers : ∀ (fuel : Nat) caller position capacity, Standing stop holds paths caller position →
      0 < capacity ∧ capacity < fuel → Answers (Standing stop holds paths)
        (archive.reference (entryContent archive (os.isFile 0 archive.sourcePath) paths))
        (min stop archive.totalSize) position capacity (read 64 fuel os archive caller capacity) :=
    fun fuel caller position capacity standing usable =>
      wellFormed.read_answers serves (wellFormed.feeds keeps) stopFits usable.2 standing
  constructor
  · intro portable place ahead before stuck
    obtain ⟨state, room, piece, after, handed, positive⟩ := (read_looping pointerBits 2 os archive).unstuck
      (show (TarArchive.streamRange start stop, 0).1.endPos = stop from rfl)
      (fun capacity (usable : 0 < capacity ∧ capacity < 2) => usable.1) (by decide) inside (answers 2)
      (fun state position room piece after => readStep_fits) (standing 0)
      (fun capacities usable => (portable 0 2 capacities usable).2) ahead before
    rw [wellFormed.readStep_stuck stuck handed] at positive
    exact absurd positive (Nat.lt_irrefl 0)
  · intro moving now fuel capacities usable
    apply (read_looping pointerBits fuel os archive).agrees (fun progress => progress.files.Valid holds paths)
      (show (TarArchive.streamRange start stop, now).1.endPos = stop from rfl)
      (fun capacity (usable : 0 < capacity ∧ capacity < fuel) => usable.1) inside (answers fuel) ?_ ?_
      FileHandleCache.new_valid (standing now) usable
    · intro caller position capacity standing ahead usable
      exact (wellFormed.read_responds (serves.falters fun _ => False) (wellFormed.feeds keeps) addressable
        (fun place further => moving place (Nat.le_trans ahead further)) usable.2 standing).answers
        fun _ surfaces => surfaces.elim fun _ admitted => admitted.1
    · intro state here room piece after valid ahead before positive handed
      have delivered := wellFormed.readStep_delivers (serves.falters fun _ => False) (wellFormed.feeds keeps) addressable
        (moving here ahead before) valid before positive
      rw [handed] at delivered
      exact ⟨delivered.2.1, delivered.1⟩

end Narrow

end Tar

namespace Zip

/-- The turns that draining a reader takes. -/
def drainTurns (pointerBits : Nat) (feature : CrcFeature) (fuel : Nat) (os : Files) (archive : ZipArchive) :
    ZipRangeReader × World → List Nat → List (Turn Progress) :=
  trace
    (callTurns (readStep pointerBits feature fuel os archive) fuel archive.totalSize
      (fun reader => reader.1.progress reader.2) (fun reader => reader.1.currentPos) (fun reader => reader.1.endPos))
    (read pointerBits feature fuel os archive)

section Narrow

variable {pointerBits fuel : Nat} {feature : CrcFeature} {os : Files} {archive : ZipArchive} {endPos pos room : Nat}
  {progress next : Progress} {piece : Bytes}

theorem readStep_fits
    (handed : readStep pointerBits feature fuel os archive endPos progress pos room = (.ok piece, next)) :
    piece.length ≤ room := by
  obtain ⟨_, _, _, _, ⟨fits, _⟩, _⟩ := readStep_effects handed
  exact fits

theorem ZipArchive.WellFormed.readStep_stuck (wellFormed : archive.WellFormed)
    (stuck : Stuck pointerBits archive endPos pos)
    (handed : readStep pointerBits feature fuel os archive endPos progress pos room = (.ok piece, next)) :
    piece = [] := by
  obtain ⟨segment, member, _, covers, ⟨_, content, rest⟩, _⟩ := readStep_effects handed
  apply List.eq_nil_of_length_eq_zero
  rcases stuck with nothing | ⟨other, otherMember, lower, upper, nothing⟩
  · omega
  · rw [← wellFormed.covering_unique member covers otherMember ⟨lower, upper⟩] at nothing
    omega

/-- On a target with such pointers every turn goes ahead, and the bytes are those that a
64-bit target reads. -/
def Portable (pointerBits : Nat) (feature : CrcFeature) (os : Files) (paths : Path → Option Bytes)
    (archive : ZipArchive) (start stop : Nat) : Prop :=
  ∀ (world : World) (fuel : Nat) (capacities : List Nat), CellsHold feature paths archive world.cells →
    (∀ entry ∈ archive.entries, entry.size < fuel) →
    (∀ capacity ∈ capacities, 0 < capacity ∧ capacity < fuel) →
    (∀ turn ∈ drainTurns pointerBits feature fuel os archive (ZipArchive.streamRange start stop, world) capacities,
      0 < turn.count) ∧
    (drain (read pointerBits feature fuel os archive) (ZipArchive.streamRange start stop, world) capacities).1 =
      (drain (read 64 feature fuel os archive) (ZipArchive.streamRange start stop, world) capacities).1

theorem ZipArchive.WellFormed.portable_iff (wellFormed : archive.WellFormed)
    (addressable : archive.Addressable pointerBits) {paths : Path → Option Bytes} (unchanged : os.Unchanged paths)
    (keeps : archive.KeepsSizes paths) (start : Nat) {stop : Nat} (stopFits : stop < u64Size) :
    Portable pointerBits feature os paths archive start stop ↔
      ∀ place, start ≤ place → place < min stop archive.totalSize → ¬ Stuck pointerBits archive stop place := by
  obtain ⟨holds, serves⟩ := unchanged
  have length := wellFormed.reference_length (crcOf feature paths) (wellFormed.entryContent_length keeps)
  have inside : min stop archive.totalSize ≤
      (archive.reference (crcOf feature paths) (entryContent paths)).length := by
    rw [length]
    exact Nat.min_le_right _ _
  have answers : ∀ {fuel : Nat}, (∀ entry ∈ archive.entries, entry.size < fuel) → ∀ caller position capacity,
      Standing feature holds paths archive stop caller position → 0 < capacity ∧ capacity < fuel →
      Answers (Standing feature holds paths archive stop)
        (archive.reference (crcOf feature paths) (entryContent paths)) (min stop archive.totalSize) position capacity
        (read 64 feature fuel os archive caller capacity) :=
    fun hashable caller position capacity standing usable =>
      wellFormed.read_answers serves keeps hashable stopFits usable.2 standing
  have standing : ∀ {world : World}, CellsHold feature paths archive world.cells →
      Standing feature holds paths archive stop (ZipArchive.streamRange start stop, world) start :=
    fun hold => ⟨rfl, rfl, FileHandleCache.new_valid, hold⟩
  constructor
  · intro portable place ahead before stuck
    have hashable : ∀ entry ∈ archive.entries, entry.size < archive.totalSize + 2 := by
      intro entry member
      have bounds := wellFormed.locals.base_le_start entry member
      have ending := wellFormed.ending
      have ordered := wellFormed.directorySize
      simp only [ZipEntry.localSpan] at bounds
      omega
    have fresh : CellsHold feature paths archive ({ cells := fun _ => none, now := 0 } : World).cells := cellsHold_fresh
    obtain ⟨state, room, piece, after, handed, positive⟩ :=
      (read_looping pointerBits feature (archive.totalSize + 2) os archive).unstuck
        (show (ZipArchive.streamRange start stop, ({ cells := fun _ => none, now := 0 } : World)).1.endPos = stop
          from rfl)
        (fun capacity (usable : 0 < capacity ∧ capacity < archive.totalSize + 2) => usable.1)
        ⟨Nat.one_pos, by omega⟩ inside (answers hashable) (fun state position room piece after => readStep_fits)
        (standing fresh) (fun capacities usable => (portable _ _ capacities fresh hashable usable).2) ahead before
    rw [wellFormed.readStep_stuck stuck handed] at positive
    exact absurd positive (Nat.lt_irrefl 0)
  · intro moving world fuel capacities hold hashable usable
    have sums := (show archive.Sums feature fuel os paths from wellFormed.sums serves keeps hashable)
    apply (read_looping pointerBits feature fuel os archive).agrees (Progress.Kept feature holds paths archive)
      (show (ZipArchive.streamRange start stop, world).1.endPos = stop from rfl)
      (fun capacity (usable : 0 < capacity ∧ capacity < fuel) => usable.1) inside (answers hashable) ?_ ?_
      ⟨FileHandleCache.new_valid, hold⟩ (standing hold) usable
    · intro caller position capacity standing ahead usable
      exact (wellFormed.read_responds (serves.falters fun _ => False) keeps sums addressable
        (fun place further => moving place (Nat.le_trans ahead further)) usable.2 standing).answers
        fun _ passes => passes.elim fun _ admitted => admitted.1
    · intro state here room piece after kept ahead before positive handed
      have delivered := wellFormed.readStep_delivers (serves.falters fun _ => False) keeps addressable
        (moving here ahead before) kept
        (fun segment member _ _ regular => sums.encodes wellFormed kept.2 member regular) before positive
      rw [handed] at delivered
      exact ⟨delivered.2.1, delivered.1⟩

end Narrow

end Zip

/-- On a 32-bit target every turn of both readers goes ahead, and they end and give the
bytes that they give on a 64-bit target, if and only if the range has no place that is a
multiple of 2^32 before its end or before the end of the content or segment there. -/
theorem narrow_targets_iff {os : Files} {paths : Path → Option Bytes} (unchanged : os.Unchanged paths) :
    (∀ (crate : Tar.HeaderCrate) (sourcePath : Path) (scanned : List ScannedEntry) (archive : Tar.TarArchive),
      Tar.TarArchive.createFrom crate sourcePath scanned = .ok archive → archive.extent < u64Size →
      archive.Addressable 32 → archive.KeepsSizes (os.isFile 0 sourcePath) paths → ∀ start stop : UInt64,
        Tar.Portable 32 os archive start.toNat stop.toNat ↔
          ∀ place, start.toNat ≤ place → place < min stop.toNat archive.totalSize →
            ¬ Tar.Stuck 32 archive stop.toNat place) ∧
    ∀ (scanned : List ScannedEntry) (feature : Zip.CrcFeature), (Zip.ZipArchive.createFrom scanned).extent < u64Size →
      (Zip.ZipArchive.createFrom scanned).Addressable 32 → (Zip.ZipArchive.createFrom scanned).KeepsSizes paths →
      ∀ start stop : UInt64,
        Zip.Portable 32 feature os paths (Zip.ZipArchive.createFrom scanned) start.toNat stop.toNat ↔
          ∀ place, start.toNat ≤ place → place < min stop.toNat (Zip.ZipArchive.createFrom scanned).totalSize →
            ¬ Zip.Stuck 32 (Zip.ZipArchive.createFrom scanned) stop.toNat place := by
  constructor
  · intro crate sourcePath scanned archive created fits addressable keeps start stop
    obtain ⟨wellFormed, _⟩ := Tar.TarArchive.createFrom_wellFormed created fits
    obtain ⟨source, _⟩ := Tar.TarArchive.createFrom_describes created
    subst source
    exact wellFormed.portable_iff addressable unchanged keeps start.toNat stop.toNat_lt
  · intro scanned feature fits addressable keeps start stop
    obtain ⟨wellFormed, _⟩ := Zip.ZipArchive.createFrom_wellFormed fits
    exact wellFormed.portable_iff addressable unchanged keeps start.toNat stop.toNat_lt

theorem narrow_targets_small :
    Tar.Portable 32 (Files.memory smallFiles 2) Tar.smallArchive 0 2560 ∧
      Zip.Portable 32 Zip.smallFeature (Files.memory smallFiles 2) (Files.contentOf smallFiles)
        (Zip.ZipArchive.createFrom smallScan) 0 187 := by
  have unchanged : (Files.memory smallFiles 2).Unchanged (Files.contentOf smallFiles) :=
    Files.memory_unchanged smallFiles (by decide)
  obtain ⟨tar, zip⟩ := narrow_targets_iff unchanged
  constructor
  · have created : Tar.TarArchive.createFrom Tar.blockCrate [47, 115] smallScan = .ok Tar.smallArchive := rfl
    have fits : Tar.smallArchive.extent < u64Size := by decide +kernel
    have addressable : Tar.smallArchive.Addressable 32 :=
      ⟨by decide, List.all_iff_forall_prop.mp (by decide +kernel)⟩
    refine (tar _ _ _ _ created fits addressable (by decide +kernel) 0 2560).mpr ?_
    intro place _ before
    obtain ⟨wellFormed, _⟩ := Tar.TarArchive.createFrom_wellFormed created fits
    exact wellFormed.not_stuck (by decide +kernel) (by decide) (Nat.lt_of_lt_of_le before (Nat.min_le_left _ _))
  · have fits : (Zip.ZipArchive.createFrom smallScan).extent < u64Size := Zip.smallZip_fits
    have lengths : ∀ segment ∈ (Zip.ZipArchive.createFrom smallScan).segments, segment.len < 2 ^ 32 :=
      List.all_iff_forall_prop.mp (by decide +kernel)
    refine (zip smallScan Zip.smallFeature fits (fun segment member _ => lengths segment member) Zip.smallZip_keeps
      0 187).mpr ?_
    intro place _ before
    obtain ⟨wellFormed, _⟩ := Zip.ZipArchive.createFrom_wellFormed fits
    exact wellFormed.not_stuck (by decide +kernel) (by decide) (Nat.lt_of_lt_of_le before (Nat.min_le_left _ _))

/-- One file of 4 GiB. -/
def hugeScan : List ScannedEntry :=
  [{ relativePath := [102], sourcePath := [47, 115, 47, 102], size := 4294967296, isDir := false
     mode := 0o640, mtime := 1700000002, dirSize := by decide, modeMasked := by decide, mtimeFits := by decide }]

def hugeArchive : Tar.TarArchive :=
  match Tar.TarArchive.createFrom Tar.blockCrate [47, 115] hugeScan with
  | .ok archive => archive
  | .error _ => { sourcePath := [], entries := [], pathIndex := [], totalSize := 0 }

/-- A file system with that one file. -/
def hugeFiles (content : Bytes) : List (Path × Bytes) := [([47, 115, 47, 102], content)]

theorem hugeFiles_found (content : Bytes) : Files.contentOf (hugeFiles content) [47, 115, 47, 102] = some content := rfl

theorem hugeArchive_entries : ∀ entry ∈ hugeArchive.entries, entry.offset = 0 ∧ entry.header.length = 512 ∧
    entry.info.size = 4294967296 ∧ Tar.sourceFilePath hugeArchive false entry = [47, 115, 47, 102] :=
  List.all_iff_forall_prop.mp (by decide +kernel)

theorem hugeZip_entries : ∀ entry ∈ (Zip.ZipArchive.createFrom hugeScan).entries,
    entry.sourcePath = some [47, 115, 47, 102] ∧ entry.size = 4294967296 :=
  List.all_iff_forall_prop.mp (by decide +kernel)

/-- On a 32-bit target neither reader gets past the header of a file of 4 GiB. -/
theorem huge_file_stands_still :
    ∃ content : Bytes,
      let os := Files.memory (hugeFiles content) 1
      let paths := Files.contentOf (hugeFiles content)
      os.Unchanged paths ∧
      (Tar.TarArchive.createFrom Tar.blockCrate [47, 115] hugeScan = .ok hugeArchive ∧
        hugeArchive.extent < u64Size ∧ hugeArchive.Addressable 32 ∧
        hugeArchive.KeepsSizes (os.isFile 0 [47, 115]) paths ∧
        ¬ Tar.Portable 32 os hugeArchive 0 hugeArchive.totalSize) ∧
      (Zip.ZipArchive.createFrom hugeScan).extent < u64Size ∧ (Zip.ZipArchive.createFrom hugeScan).Addressable 32 ∧
        (Zip.ZipArchive.createFrom hugeScan).KeepsSizes paths ∧
        ¬ Zip.Portable 32 Zip.smallFeature os paths (Zip.ZipArchive.createFrom hugeScan) 0
          (Zip.ZipArchive.createFrom hugeScan).totalSize := by
  refine ⟨List.replicate 4294967296 0, ?_⟩
  have size : (List.replicate 4294967296 (0 : UInt8)).length = 4294967296 := List.length_replicate
  generalize List.replicate 4294967296 (0 : UInt8) = content at size
  intro os paths
  have unchanged : os.Unchanged paths := Files.memory_unchanged (hugeFiles content) (by decide)
  refine ⟨unchanged, ⟨rfl, ?_⟩, ?_⟩
  · have fits : hugeArchive.extent < u64Size := by decide +kernel
    have addressable : hugeArchive.Addressable 32 := by
      refine ⟨by decide, ?_⟩
      intro entry member
      rw [(hugeArchive_entries entry member).2.1]
      decide
    have keeps : hugeArchive.KeepsSizes (os.isFile 0 [47, 115]) paths := by
      intro entry member _
      obtain ⟨_, _, sized, source⟩ := hugeArchive_entries entry member
      exact ⟨content, source ▸ hugeFiles_found content, size.trans sized.symm⟩
    refine ⟨fits, addressable, keeps, ?_⟩
    obtain ⟨wellFormed, _⟩ := Tar.TarArchive.createFrom_wellFormed (show Tar.TarArchive.createFrom Tar.blockCrate
      [47, 115] hugeScan = .ok hugeArchive from rfl) fits
    obtain ⟨entry, member⟩ := List.exists_mem_of_ne_nil hugeArchive.entries (by decide +kernel)
    obtain ⟨offset, header, sized, _⟩ := hugeArchive_entries entry member
    rw [wellFormed.portable_iff addressable unchanged keeps 0 wellFormed.bounded]
    intro never
    have total : 512 < hugeArchive.totalSize := by decide +kernel
    apply never 512 (Nat.zero_le _) (by omega)
    refine ⟨entry, member, by omega, by omega, .inr ⟨by omega, ?_⟩⟩
    rw [offset, header, sized]
    rfl
  · have fits : (Zip.ZipArchive.createFrom hugeScan).extent < u64Size := by decide +kernel
    have addressable : (Zip.ZipArchive.createFrom hugeScan).Addressable 32 := by
      have short : ∀ segment ∈ (Zip.ZipArchive.createFrom hugeScan).segments,
          segment.len < 2 ^ 32 ∨ segment.kind = .data 0 := List.all_iff_forall_prop.mp (by decide +kernel)
      intro segment member encoded
      exact (short segment member).resolve_right (encoded 0)
    have keeps : (Zip.ZipArchive.createFrom hugeScan).KeepsSizes paths := by
      intro entry member _ source sourced
      obtain ⟨known, sized⟩ := hugeZip_entries entry member
      rw [known, Option.some.injEq] at sourced
      exact ⟨content, sourced ▸ hugeFiles_found content, size.trans sized.symm⟩
    refine ⟨fits, addressable, keeps, ?_⟩
    obtain ⟨wellFormed, _⟩ := Zip.ZipArchive.createFrom_wellFormed fits
    rw [wellFormed.portable_iff addressable unchanged keeps 0 wellFormed.bounded]
    intro never
    have total : 51 < (Zip.ZipArchive.createFrom hugeScan).totalSize := by decide +kernel
    have member : { start := 51, len := 4294967296, kind := .data 0 } ∈ (Zip.ZipArchive.createFrom hugeScan).segments := by
      decide +kernel
    apply never 51 (Nat.zero_le _) (by omega)
    exact .inr ⟨_, member, Nat.le_refl _, by decide, by decide⟩

end Raas
