import Raas.Archive.Tar.Reference
import Raas.Data.Searching

namespace Raas.Tar

open Data

/-! The cursor of `locate` and what it must not change. -/

/-- The slow path of `locate` over the partition-point search that it calls. -/
def locateSearchBy (search : (TarEntry → Bool) → List TarEntry → Nat) (archive : TarArchive) (cursor pos : Nat) :
    Option Nat × Nat :=
  let candidate := search (fun entry => decide (entry.offset ≤ pos)) archive.entries
  if candidate = 0 then (none, cursor)
  else
    match archive.entries[candidate - 1]? with
    | some entry => if pos < itemEnd entry then (some (candidate - 1), candidate - 1) else (none, cursor)
    | none => (none, cursor)

def locateBy (search : (TarEntry → Bool) → List TarEntry → Nat) (archive : TarArchive) (cursor pos : Nat) :
    Option Nat × Nat :=
  if archive.entries.length = 0 then (none, cursor)
  else
    match archive.entries[cursor]? with
    | some entry =>
        if entry.info.offset ≤ pos ∧ pos < itemEnd entry then (some cursor, cursor)
        else locateSearchBy search archive cursor pos
    | none => locateSearchBy search archive cursor pos

theorem locateBy_partitionPoint : locateBy partitionPoint = locate := rfl

section Found

variable {search : (TarEntry → Bool) → List TarEntry → Nat} {archive : TarArchive} {holds : TarEntry → Prop}
  {cursor next pos index : Nat}

/-- What the search knows of the entry before the point that it finds. -/
def SearchKnows (search : (TarEntry → Bool) → List TarEntry → Nat) (archive : TarArchive) (pos : Nat)
    (holds : TarEntry → Prop) : Prop :=
  let point := search (fun entry => decide (entry.offset ≤ pos)) archive.entries
  ∀ entry, point ≠ 0 → archive.entries[point - 1]? = some entry → holds entry

theorem locateSearchBy_found (knows : SearchKnows search archive pos holds)
    (located : locateSearchBy search archive cursor pos = (some index, next)) :
    next = index ∧ ∃ entry, archive.entries[index]? = some entry ∧ holds entry ∧ pos < itemEnd entry := by
  unfold locateSearchBy at located
  dsimp only at located
  split at located
  · cases located
  · rename_i positive
    cases found : archive.entries[search (fun entry => decide (entry.offset ≤ pos)) archive.entries - 1]? with
    | none => simp [found] at located
    | some entry =>
        simp only [found] at located
        split at located
        · rename_i before
          cases located
          exact ⟨rfl, entry, found, knows entry positive found, before⟩
        · cases located

/-- An entry that is found is where the cursor is left, and it ends, as a `u64`, after the position. -/
theorem locateBy_found (knows : SearchKnows search archive pos holds)
    (starts : ∀ entry : TarEntry, entry.info.offset ≤ pos → holds entry)
    (located : locateBy search archive cursor pos = (some index, next)) :
    next = index ∧ ∃ entry, archive.entries[index]? = some entry ∧ holds entry ∧ pos < itemEnd entry := by
  unfold locateBy at located
  split at located
  · cases located
  · cases found : archive.entries[cursor]? with
    | none =>
        simp only [found] at located
        exact locateSearchBy_found knows located
    | some entry =>
        simp only [found] at located
        split at located
        · rename_i inside
          cases located
          exact ⟨rfl, entry, found, starts entry inside.1, inside.2⟩
        · exact locateSearchBy_found knows located

theorem locate_found (located : locate archive cursor pos = (some index, next)) :
    next = index ∧ ∃ entry, archive.entries[index]? = some entry ∧ entry.info.offset ≤ pos ∧
      pos < itemEnd entry := by
  have knows : SearchKnows partitionPoint archive pos fun entry => entry.info.offset ≤ pos := by
    intro entry positive found
    have passed := partitionPoint_holds (Nat.sub_lt (Nat.pos_of_ne_zero positive) Nat.one_pos) found
    exact of_decide_eq_true passed
  exact locateBy_found knows (fun _ before => before) located

end Found

/-- One call of `locate` after the other: each begins with the cursor that the one before it left. -/
def locateRun (search : (TarEntry → Bool) → List TarEntry → Nat) (archive : TarArchive) :
    Nat → List Nat → List (Option Nat) × Nat
  | cursor, [] => ([], cursor)
  | cursor, pos :: rest =>
      let (found, cursor) := locateBy search archive cursor pos
      let (later, cursor) := locateRun search archive cursor rest
      (found :: later, cursor)

namespace TarEntry

/-- Where the content ends and the padding begins. -/
def contentEnd (entry : TarEntry) : Nat := entry.info.offset + entry.header.length + entry.info.size

/-- `pos` lies in the header or in the content. -/
def Covers (entry : TarEntry) (pos : Nat) : Prop := entry.info.offset ≤ pos ∧ pos < entry.contentEnd

instance (entry : TarEntry) (pos : Nat) : Decidable (entry.Covers pos) :=
  inferInstanceAs (Decidable (_ ∧ _))

/-- `pos` lies in the padding after the content. -/
def Pads (entry : TarEntry) (pos : Nat) : Prop := entry.contentEnd ≤ pos ∧ pos < entry.offset + entry.span

end TarEntry

/-- The linear scan for the entry at `pos`. -/
def TarArchive.scan (archive : TarArchive) (pos : Nat) : Option Nat :=
  archive.entries.findIdx? fun entry => decide (entry.Covers pos)

/-- `pos` lies in the two zero blocks at the end. -/
def TarArchive.InTrailer (archive : TarArchive) (pos : Nat) : Prop :=
  archive.totalSize ≤ pos + endOfArchiveBlocks * blockSize ∧ pos < archive.totalSize

/-- Where the two zero blocks begin. -/
def TarArchive.trailer (archive : TarArchive) : Nat := archive.totalSize - endOfArchiveBlocks * blockSize

/-- The answers of `locate` are those of the linear scan, in every order of calls and from
every cursor; it answers none between the entries and after them, and there the padding
of the position leads to what comes next. -/
structure CursorIsHint (search : (TarEntry → Bool) → List TarEntry → Nat) (archive : TarArchive) : Prop where
  scans : ∀ (cursor : Nat) (positions : List UInt64),
    (locateRun search archive cursor (positions.map UInt64.toNat)).1 = positions.map fun pos => archive.scan pos.toNat
  unique : ∀ (pos : UInt64) (first second : Nat) (left right : TarEntry), archive.entries[first]? = some left →
    archive.entries[second]? = some right → left.Covers pos.toNat → right.Covers pos.toNat → first = second
  none_iff : ∀ (cursor : Nat) (pos : UInt64), (locateBy search archive cursor pos.toNat).1 = none ↔
    (∃ entry ∈ archive.entries, entry.Pads pos.toNat) ∨ archive.InTrailer pos.toNat ∨ archive.totalSize ≤ pos.toNat
  padding : ∀ (pos : UInt64) (index : Nat) (entry : TarEntry), archive.entries[index]? = some entry →
    entry.Pads pos.toNat → pos.toNat + calculatePadding pos.toNat =
      (archive.entries[index + 1]?).elim archive.trailer TarEntry.offset

section Laid

variable {search : (TarEntry → Bool) → List TarEntry → Nat} {archive : TarArchive} {entry : TarEntry}
  {cursor pos index : Nat}

theorem scan_some (located : archive.scan pos = some index) :
    ∃ entry, archive.entries[index]? = some entry ∧ entry.Covers pos := by
  obtain ⟨bound, covers, _⟩ := List.findIdx?_eq_some_iff_getElem.mp located
  exact ⟨archive.entries[index], List.getElem?_eq_getElem bound, of_decide_eq_true covers⟩

theorem scan_none (located : archive.scan pos = none) : ∀ entry ∈ archive.entries, ¬ entry.Covers pos :=
  fun entry member => of_decide_eq_false (List.findIdx?_eq_none_iff.mp located entry member)

theorem TarArchive.WellFormed.contentEnd_le (wellFormed : archive.WellFormed) (member : entry ∈ archive.entries) :
    entry.contentEnd ≤ entry.offset + entry.span ∧ entry.offset + entry.span ≤ archive.trailer := by
  have bounds := wellFormed.tiles.base_le_start entry member
  exact ⟨by simp only [TarEntry.contentEnd, TarEntry.offset, TarEntry.span]; omega, bounds.2⟩

theorem TarArchive.WellFormed.covers_unique (wellFormed : archive.WellFormed) {first second : Nat}
    {left right : TarEntry} (foundLeft : archive.entries[first]? = some left)
    (foundRight : archive.entries[second]? = some right) (coversLeft : left.Covers pos)
    (coversRight : right.Covers pos) : first = second := by
  have endLeft := wellFormed.contentEnd_le (List.mem_of_getElem? foundLeft)
  have endRight := wellFormed.contentEnd_le (List.mem_of_getElem? foundRight)
  exact wellFormed.tiles.unique foundLeft foundRight coversLeft.1 (Nat.lt_of_lt_of_le coversLeft.2 endLeft.1)
    coversRight.1 (Nat.lt_of_lt_of_le coversRight.2 endRight.1)

/-- Whatever the search, it finds the point that `partition_point` finds. -/
theorem TarArchive.WellFormed.locateBy_eq (wellFormed : archive.WellFormed) (searches : PartitionSearch search)
    (cursor pos : Nat) : locateBy search archive cursor pos = locate archive cursor pos := by
  rw [← locateBy_partitionPoint]
  unfold locateBy locateSearchBy
  rw [wellFormed.tiles.search_eq searches]

/-- No entry covers a position of the padding or one past the entries. -/
theorem TarArchive.WellFormed.uncovered (wellFormed : archive.WellFormed)
    (outside : (∃ entry ∈ archive.entries, entry.Pads pos) ∨ archive.trailer ≤ pos) :
    ∀ entry ∈ archive.entries, ¬ entry.Covers pos := by
  intro entry member covers
  have ends := wellFormed.contentEnd_le member
  rcases outside with ⟨padded, paddedMember, pads⟩ | past
  · obtain ⟨first, firstBound, rfl⟩ := List.getElem_of_mem member
    obtain ⟨second, secondBound, rfl⟩ := List.getElem_of_mem paddedMember
    have start : archive.entries[second].offset ≤ pos := by
      have width := pads.1
      simp only [TarEntry.contentEnd, TarEntry.offset] at width ⊢
      omega
    have same : first = second := wellFormed.tiles.unique (List.getElem?_eq_getElem firstBound)
      (List.getElem?_eq_getElem secondBound) covers.1 (Nat.lt_of_lt_of_le covers.2 ends.1) start pads.2
    subst same
    exact Nat.not_lt.mpr pads.1 covers.2
  · have upper := covers.2
    omega

/-- The cursor plays no part in the answer. -/
theorem TarArchive.WellFormed.locate_scans (wellFormed : archive.WellFormed) (cursor pos : Nat) :
    (locate archive cursor pos).1 = archive.scan pos := by
  have located := wellFormed.locate_locates cursor pos
  generalize (locate archive cursor pos).1 = answer at located
  cases scanned : archive.scan pos with
  | none =>
      cases answer with
      | none => rfl
      | some index =>
          obtain ⟨entry, found, covers⟩ := located
          exact absurd covers (scan_none scanned entry (List.mem_of_getElem? found))
  | some index =>
      obtain ⟨entry, found, covers⟩ := scan_some scanned
      cases answer with
      | none =>
          refine absurd covers (wellFormed.uncovered ?_ entry (List.mem_of_getElem? found))
          exact located.imp_left fun ⟨_, padded, there, pads⟩ => ⟨padded, List.mem_of_getElem? there, pads⟩
      | some other =>
          obtain ⟨place, there, covering⟩ := located
          exact congrArg some (wellFormed.covers_unique there found covering covers)

/-- From a position of the padding it is exactly the padding of that position to what comes next. -/
theorem TarArchive.WellFormed.padding_distance (wellFormed : archive.WellFormed)
    (found : archive.entries[index]? = some entry) (pads : entry.Pads pos) :
    pos + calculatePadding pos = (archive.entries[index + 1]?).elim archive.trailer TarEntry.offset := by
  rw [TarArchive.trailer, ← wellFormed.tiles.next found]
  exact wellFormed.padding_ends (List.mem_of_getElem? found) pads.1 pads.2

theorem TarArchive.WellFormed.scan_none_iff (wellFormed : archive.WellFormed) (pos : Nat) :
    archive.scan pos = none ↔
      (∃ entry ∈ archive.entries, entry.Pads pos) ∨ archive.InTrailer pos ∨ archive.totalSize ≤ pos := by
  have ending := wellFormed.ending
  have past : archive.InTrailer pos ∨ archive.totalSize ≤ pos ↔ archive.trailer ≤ pos := by
    simp only [TarArchive.InTrailer, TarArchive.trailer]
    omega
  rw [past]
  constructor
  · intro scanned
    have located := wellFormed.locate_locates 0 pos
    rw [wellFormed.locate_scans, scanned] at located
    exact located.imp_left fun ⟨_, entry, found, pads⟩ => ⟨entry, List.mem_of_getElem? found, pads⟩
  · intro outside
    apply List.findIdx?_eq_none_iff.mpr
    intro entry member
    exact decide_eq_false (wellFormed.uncovered outside entry member)

theorem TarArchive.WellFormed.run_scans (wellFormed : archive.WellFormed) (searches : PartitionSearch search)
    (cursor : Nat) (positions : List Nat) :
    (locateRun search archive cursor positions).1 = positions.map archive.scan := by
  induction positions generalizing cursor with
  | nil => rfl
  | cons pos rest ih =>
      have step : (locateBy search archive cursor pos).1 = archive.scan pos := by
        rw [wellFormed.locateBy_eq searches, wellFormed.locate_scans]
      rw [List.map_cons, ← step, ← ih (locateBy search archive cursor pos).2]
      rfl

theorem TarArchive.WellFormed.cursorIsHint (wellFormed : archive.WellFormed) (searches : PartitionSearch search) :
    CursorIsHint search archive where
  scans cursor positions := by rw [wellFormed.run_scans searches, List.map_map]; rfl
  unique _ _ _ _ _ foundLeft foundRight := wellFormed.covers_unique foundLeft foundRight
  none_iff cursor pos := by
    rw [wellFormed.locateBy_eq searches, wellFormed.locate_scans]
    exact wellFormed.scan_none_iff pos.toNat
  padding _ _ _ found pads := wellFormed.padding_distance found pads

end Laid

/-! Archives whose offsets wrap. -/

section Wrapping

variable {search : (TarEntry → Bool) → List TarEntry → Nat} {archive : TarArchive} {entry : TarEntry}
  {entries : List TarEntry} {cursor pos stop index : Nat}

theorem Wraps.offset_lt (wraps : Wraps pos entries stop) (small : pos < u64Size) :
    ∀ entry ∈ entries, entry.offset < u64Size := by
  induction wraps with
  | nil => simp
  | cons starts _ _ ih =>
      exact List.forall_mem_cons.mpr ⟨by rw [starts]; exact small, ih (mod_u64Size_lt _)⟩

theorem Wraps.headers (wraps : Wraps pos entries stop) :
    ∀ entry ∈ entries, 0 < entry.header.length ∧ entry.header.length % blockSize = 0 := by
  induction wraps with
  | nil => simp
  | cons _ header _ ih => exact List.forall_mem_cons.mpr ⟨header, ih⟩

/-- Where no content reaches 2^64 and no later entry starts over at 0, only the end may wrap. -/
theorem Wraps.tiles (wraps : Wraps pos entries stop) (aligned : pos % blockSize = 0) (small : pos < u64Size)
    (ends : ∀ entry ∈ entries, entry.contentEnd < u64Size)
    (later : ∀ (index : Nat) (entry : TarEntry), entries[index + 1]? = some entry → entry.offset ≠ 0) :
    ∃ whole, Tiles TarEntry.offset TarEntry.span pos entries whole ∧ whole % blockSize = 0 ∧
      whole ≤ u64Size ∧ stop = whole % u64Size := by
  induction wraps with
  | nil => exact ⟨_, .nil, aligned, Nat.le_of_lt small, (Nat.mod_eq_of_lt small).symm⟩
  | @cons pos stop entry rest starts header tail ih =>
      have reach := ends entry List.mem_cons_self
      have padding := calculatePadding_lt entry.info.size
      have padded := add_calculatePadding_mod entry.info.size
      have width : entry.span = entry.header.length + entry.info.size + calculatePadding entry.info.size := rfl
      simp only [TarEntry.contentEnd, show entry.info.offset = pos from starts] at reach
      have next : (pos + entry.span) % blockSize = 0 ∧ pos + entry.span ≤ u64Size := by
        simp only [u64Size, blockSize] at *
        omega
      by_cases before : pos + entry.span < u64Size
      · rw [Nat.mod_eq_of_lt before] at tail ih
        obtain ⟨whole, tiled, rest⟩ := ih next.1 before (fun other member => ends other (List.mem_cons_of_mem _ member))
          fun index other found => later (index + 1) other (by rw [List.getElem?_cons_succ]; exact found)
        exact ⟨whole, .cons starts (by omega) tiled, rest⟩
      · have full : pos + entry.span = u64Size := by omega
        rw [full, Nat.mod_self] at tail
        cases tail with
        | nil =>
            refine ⟨pos + entry.span, .single starts (by omega), next.1, next.2, ?_⟩
            rw [full, Nat.mod_self]
        | cons restarts _ _ => exact absurd restarts (later 0 _ rfl)

theorem CursorIsHint.locates (hint : CursorIsHint search archive) (cursor : Nat) (pos : UInt64) :
    (locateBy search archive cursor pos.toNat).1 = archive.scan pos.toNat :=
  List.head_eq_of_cons_eq (hint.scans cursor [pos])

theorem CursorIsHint.found (hint : CursorIsHint search archive) (pos : UInt64) (member : entry ∈ archive.entries)
    (covers : entry.Covers pos.toNat) : ∃ index, (locateBy search archive 0 pos.toNat).1 = some index := by
  cases located : (locateBy search archive 0 pos.toNat).1 with
  | some index => exact ⟨index, rfl⟩
  | none =>
      rw [hint.locates] at located
      exact absurd covers (scan_none located entry member)

/-- No content reaches 2^64: the last `u64` position would be found nowhere. -/
theorem CursorIsHint.contentEnd_lt (hint : CursorIsHint search archive) (member : entry ∈ archive.entries)
    (small : entry.offset < u64Size) : entry.contentEnd < u64Size := by
  by_contra past
  have last : (UInt64.ofNat (u64Size - 1)).toNat = u64Size - 1 := by decide
  have covers : entry.Covers (UInt64.ofNat (u64Size - 1)).toNat := by
    rw [last]
    simp only [u64Size, TarEntry.offset] at *
    exact ⟨by omega, by omega⟩
  obtain ⟨index, located⟩ := hint.found _ member covers
  obtain ⟨_, other, _, _, before⟩ := locateBy_found (fun _ _ _ => trivial) (fun _ _ => trivial)
    (Prod.ext_iff.mpr ⟨located, rfl⟩)
  have wraps : itemEnd other < u64Size := wrappingAdd_lt _ _
  rw [last] at before
  omega

/-- No later entry starts over at 0, where the first one already is. -/
theorem CursorIsHint.never_restarts (hint : CursorIsHint search archive) (wraps : Wraps 0 archive.entries stop) :
    ∀ (index : Nat) (entry : TarEntry), archive.entries[index + 1]? = some entry → entry.offset ≠ 0 := by
  intro index entry found restarts
  have front : ∃ first, archive.entries[0]? = some first ∧ first.offset = 0 := by
    generalize archive.entries = entries at wraps found ⊢
    cases wraps with
    | nil => simp at found
    | cons starts _ _ => exact ⟨_, rfl, starts⟩
  have covers : ∀ other ∈ archive.entries, other.offset = 0 → other.Covers (0 : UInt64).toNat := by
    intro other member starts
    have header := wraps.headers other member
    refine ⟨Nat.le_of_eq starts, ?_⟩
    change 0 < other.contentEnd
    rw [TarEntry.contentEnd]
    omega
  obtain ⟨first, head, starts⟩ := front
  have same := hint.unique 0 0 (index + 1) first entry head found (covers first (List.mem_of_getElem? head) starts)
    (covers entry (List.mem_of_getElem? found) restarts)
  omega

/-- Where the entries lie end to end, the two zero blocks end below 2^64 as well: else the
wrapped total would lie before the last block of content. -/
theorem CursorIsHint.total_lt (hint : CursorIsHint search archive) {whole : Nat}
    (tiles : Tiles TarEntry.offset TarEntry.span 0 archive.entries whole)
    (headers : ∀ entry ∈ archive.entries, 0 < entry.header.length ∧ entry.header.length % blockSize = 0)
    (aligned : whole % blockSize = 0) (bounded : whole ≤ u64Size)
    (total : archive.totalSize = (whole + endOfArchiveBlocks * blockSize) % u64Size) :
    whole + endOfArchiveBlocks * blockSize < u64Size := by
  by_contra past
  have inside : whole - blockSize < whole := by
    simp only [endOfArchiveBlocks, blockSize, u64Size] at past ⊢
    omega
  obtain ⟨index, entry, found, _, lower, upper⟩ := tiles.locate (Nat.zero_le _) inside
  have member := List.mem_of_getElem? found
  have ends := tiles_end_aligned tiles rfl (fun entry member => (headers entry member).2) entry member
  have bounds := tiles.base_le_start entry member
  have padding := calculatePadding_lt entry.info.size
  have small : whole - blockSize < u64Size := by omega
  have place : (UInt64.ofNat (whole - blockSize)).toNat = whole - blockSize := UInt64.toNat_ofNat_of_lt' small
  have covers : entry.Covers (UInt64.ofNat (whole - blockSize)).toNat := by
    rw [place]
    refine ⟨lower, ?_⟩
    simp only [TarEntry.contentEnd, TarEntry.offset, TarEntry.span, blockSize] at *
    omega
  obtain ⟨number, located⟩ := hint.found _ member covers
  have beyond : archive.totalSize ≤ (UInt64.ofNat (whole - blockSize)).toNat := by
    rw [place, total]
    simp only [endOfArchiveBlocks, blockSize, u64Size] at *
    omega
  have none := (hint.none_iff 0 _).mpr (.inr (.inr beyond))
  rw [located] at none
  cases none

end Wrapping

/-- On an archive that `create` built, the cursor of `locate` is only a hint exactly when the
archive, its padding and its two zero blocks included, has fewer than 2^64 bytes. -/
theorem tar_cursor_is_hint_iff {crate : HeaderCrate} {sourcePath : Path} {scanned : List ScannedEntry}
    {archive : TarArchive} (created : TarArchive.createFrom crate sourcePath scanned = .ok archive)
    {search : (TarEntry → Bool) → List TarEntry → Nat} (searches : PartitionSearch search) :
    CursorIsHint search archive ↔ archive.extent < u64Size := by
  constructor
  · intro hint
    unfold TarArchive.createFrom at created
    cases built : createLoop crate scanned [] [] 0 with
    | error reason => simp [built] at created
    | ok result =>
        obtain ⟨entries, pathIndex, currentPos⟩ := result
        simp only [built, Except.ok.injEq] at created
        obtain ⟨added, collected, _, wraps⟩ := createLoop_spec rfl built
        rw [List.nil_append] at collected
        subst collected
        subst archive
        have ends : ∀ entry ∈ entries, entry.contentEnd < u64Size := fun entry member =>
          hint.contentEnd_lt member (wraps.offset_lt (by decide) entry member)
        obtain ⟨whole, tiles, aligned, bounded, stop⟩ := wraps.tiles rfl (by decide) ends (hint.never_restarts wraps)
        have total := hint.total_lt tiles wraps.headers aligned bounded (by
          rw [stop, wrappingAdd, Nat.mod_add_mod])
        have sum := tiles.stop_eq
        change (entries.map TarEntry.span).sum + endOfArchiveBlocks * blockSize < u64Size
        omega
  · intro fits
    obtain ⟨wellFormed, _⟩ := TarArchive.createFrom_wellFormed created fits
    exact wellFormed.cursorIsHint searches

theorem tar_cursor_is_hint_small :
    CursorIsHint halvingPoint smallArchive ∧ CursorIsHint partitionPoint smallArchive := by
  have created : TarArchive.createFrom blockCrate [47, 115] smallScan = .ok smallArchive := rfl
  have fits : smallArchive.extent < u64Size := by decide +kernel
  exact ⟨(tar_cursor_is_hint_iff created halvingPoint_searches).mpr fits,
    (tar_cursor_is_hint_iff created partitionPoint_searches).mpr fits⟩

/-- A file of `size` bytes in `/s`, a sparse one where that is more than a disk holds. -/
def sparseFile (name : UInt8) (size : Nat) : ScannedEntry where
  relativePath := [name]
  sourcePath := [47, 115, 47, name]
  size := size
  isDir := false
  mode := 0o600
  mtime := 1700000003
  dirSize := nofun
  modeMasked := by decide
  mtimeFits := by decide

/-- Two files of 2^63 - 1 bytes and one of three: the third one's offset wraps to 1024. -/
def sparseArchive : TarArchive :=
  match TarArchive.createFrom blockCrate [47, 115]
    [sparseFile 97 (2 ^ 63 - 1), sparseFile 98 (2 ^ 63 - 1), sparseFile 99 3] with
  | .ok archive => archive
  | .error _ => smallArchive

/-- At position 1024 of 3072 a new reader is sent into the first file, and one whose cursor is
at the third entry to the header of that entry. -/
theorem sparse_cursor_decides : TarArchive.createFrom blockCrate [47, 115]
      [sparseFile 97 (2 ^ 63 - 1), sparseFile 98 (2 ^ 63 - 1), sparseFile 99 3] = .ok sparseArchive ∧
    sparseArchive.totalSize = 3072 ∧ locate sparseArchive 0 1024 = (some 0, 0) ∧
    locate sparseArchive 2 1024 = (some 2, 2) ∧ ¬ CursorIsHint partitionPoint sparseArchive := by
  have fresh : locate sparseArchive 0 1024 = (some 0, 0) := by decide +kernel
  have stale : locate sparseArchive 2 1024 = (some 2, 2) := by decide +kernel
  refine ⟨rfl, by decide +kernel, fresh, stale, ?_⟩
  intro hint
  have place : (1024 : UInt64).toNat = 1024 := by decide
  have first := hint.locates 0 1024
  have third := hint.locates 2 1024
  rw [locateBy_partitionPoint, place] at first third
  rw [← third, fresh, stale] at first
  cases first

end Raas.Tar
