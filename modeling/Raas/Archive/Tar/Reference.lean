import Raas.Archive.Tar.Block
import Raas.Archive.Tar.Reader
import Raas.Os.Memory

namespace Raas.Tar

open Data

/-- Header, content and zeros up to the next block. -/
def TarEntry.image (entry : TarEntry) (content : Bytes) : Bytes :=
  entry.header ++ content ++ List.replicate (calculatePadding entry.info.size) 0

/-- The byte string that the archive stands for: the images of its entries and two zero blocks. -/
def TarArchive.reference (archive : TarArchive) (content : TarEntry → Bytes) : Bytes :=
  archive.entries.flatMap (fun entry => entry.image (content entry)) ++
    List.replicate (endOfArchiveBlocks * blockSize) 0

def entryContent (archive : TarArchive) (sourceIsFile : Bool) (content : Path → Option Bytes)
    (entry : TarEntry) : Bytes :=
  if entry.info.isDir then [] else (content (sourceFilePath archive sourceIsFile entry)).getD []

def TarArchive.KeepsSizes (archive : TarArchive) (sourceIsFile : Bool) (content : Path → Option Bytes) : Prop :=
  ∀ entry ∈ archive.entries, entry.info.isDir = false →
    ∃ bytes, content (sourceFilePath archive sourceIsFile entry) = some bytes ∧
      bytes.length = entry.info.size

instance (archive : TarArchive) (sourceIsFile : Bool) (content : Path → Option Bytes) :
    Decidable (archive.KeepsSizes sourceIsFile content) :=
  decidable_of_iff (∀ entry ∈ archive.entries, entry.info.isDir = false →
      (content (sourceFilePath archive sourceIsFile entry)).map List.length = some entry.info.size)
    (by simp only [TarArchive.KeepsSizes, Option.map_eq_some_iff])

/-- The content that each entry is read with: the file that is opened for it begins with
it. Nothing is opened for a content of no bytes. -/
structure TarArchive.Feeds (archive : TarArchive) (sourceIsFile : Bool) (paths : Path → Option Bytes)
    (content : TarEntry → Bytes) : Prop where
  sizes : ∀ entry ∈ archive.entries, (content entry).length = entry.info.size
  begins : ∀ entry ∈ archive.entries, 0 < entry.info.size →
    ∃ bytes, paths (sourceFilePath archive sourceIsFile entry) = some bytes ∧ content entry <+: bytes

section Layout

variable {archive : TarArchive} {content : TarEntry → Bytes} {entry : TarEntry} {index position : Nat}

theorem TarEntry.image_length (size : (content entry).length = entry.info.size) :
    (entry.image (content entry)).length = entry.span := by
  simp only [image, span, List.length_append, List.length_replicate, size]

theorem TarArchive.WellFormed.reference_length (wellFormed : archive.WellFormed)
    (sizes : ∀ entry ∈ archive.entries, (content entry).length = entry.info.size) :
    (archive.reference content).length = archive.totalSize := by
  have length := wellFormed.tiles.length_flatMap (fun entry => entry.image (content entry))
    fun entry member => TarEntry.image_length (sizes entry member)
  have ending := wellFormed.ending
  simp only [reference, List.length_append, List.length_replicate]
  omega

theorem TarArchive.WellFormed.reference_entry (wellFormed : archive.WellFormed)
    (sizes : ∀ entry ∈ archive.entries, (content entry).length = entry.info.size)
    (found : archive.entries[index]? = some entry) (first last : Nat) (inside : last ≤ entry.span) :
    window (archive.reference content) (entry.offset + first) (entry.offset + last) =
      window (entry.image (content entry)) first last := by
  have widths : ∀ entry ∈ archive.entries, (entry.image (content entry)).length = entry.span :=
    fun entry member => TarEntry.image_length (sizes entry member)
  have length := wellFormed.tiles.length_flatMap _ widths
  have bounds := wellFormed.tiles.base_le_start entry (List.mem_of_getElem? found)
  have placed := wellFormed.tiles.window_item widths found first last inside
  rw [Nat.sub_zero] at placed
  rw [← placed]
  have front := window_middle [] (archive.entries.flatMap fun entry => entry.image (content entry))
    (List.replicate (endOfArchiveBlocks * blockSize) 0) (entry.offset + first) (entry.offset + last) (by omega)
  simpa only [List.nil_append, List.length_nil, Nat.zero_add, reference] using front

theorem window_zeros {count first last : Nat} (inside : last ≤ count) :
    window (List.replicate count (0 : UInt8)) first last = List.replicate (last - first) 0 := by
  simp only [window, List.drop_replicate, List.take_replicate]
  congr 1
  omega

theorem TarEntry.image_padding (size : (content entry).length = entry.info.size) {first count : Nat}
    (lower : entry.header.length + entry.info.size ≤ first) (inside : first + count ≤ entry.span) :
    window (entry.image (content entry)) first (first + count) = List.replicate count 0 := by
  have width : entry.span = entry.header.length + entry.info.size + calculatePadding entry.info.size := rfl
  have front : (entry.header ++ content entry).length = entry.header.length + entry.info.size := by
    rw [List.length_append, size]
  have zeros := window_middle (entry.header ++ content entry)
    (List.replicate (calculatePadding entry.info.size) (0 : UInt8)) []
    (first - (entry.header.length + entry.info.size)) (first - (entry.header.length + entry.info.size) + count)
    (by rw [List.length_replicate]; omega)
  rw [List.append_nil, window_zeros (by omega), Nat.add_sub_cancel_left, front, ← Nat.add_assoc,
    Nat.add_sub_of_le lower] at zeros
  exact zeros

theorem TarArchive.WellFormed.reference_padding (wellFormed : archive.WellFormed)
    (sizes : ∀ entry ∈ archive.entries, (content entry).length = entry.info.size)
    (found : archive.entries[index]? = some entry) {count : Nat}
    (lower : entry.offset + entry.header.length + entry.info.size ≤ position)
    (inside : position + count ≤ entry.offset + entry.span) :
    window (archive.reference content) position (position + count) = List.replicate count 0 := by
  have size := sizes entry (List.mem_of_getElem? found)
  have placed := wellFormed.reference_entry sizes found (position - entry.offset)
    (position - entry.offset + count) (by omega)
  rw [← Nat.add_assoc, Nat.add_sub_of_le (by omega)] at placed
  rw [placed, TarEntry.image_padding size (by omega) (by omega)]

theorem TarArchive.WellFormed.reference_trailer (wellFormed : archive.WellFormed)
    (sizes : ∀ entry ∈ archive.entries, (content entry).length = entry.info.size)
    (past : archive.totalSize - endOfArchiveBlocks * blockSize ≤ position) {count : Nat}
    (inside : position + count ≤ archive.totalSize) :
    window (archive.reference content) position (position + count) = List.replicate count 0 := by
  have length := wellFormed.tiles.length_flatMap (fun entry => entry.image (content entry))
    fun entry member => TarEntry.image_length (sizes entry member)
  have ending := wellFormed.ending
  generalize contentEnd : archive.totalSize - endOfArchiveBlocks * blockSize = stop at length past
  have back := window_middle (archive.entries.flatMap fun entry => entry.image (content entry))
    (List.replicate (endOfArchiveBlocks * blockSize) (0 : UInt8)) [] (position - stop) (position - stop + count)
    (by rw [List.length_replicate]; omega)
  rw [List.append_nil, window_zeros (by omega), Nat.add_sub_cancel_left] at back
  have firstAt : (archive.entries.flatMap fun entry => entry.image (content entry)).length +
      (position - stop) = position := by omega
  have lastAt : (archive.entries.flatMap fun entry => entry.image (content entry)).length +
      (position - stop + count) = position + count := by omega
  rw [firstAt, lastAt] at back
  exact back

end Layout

section Locate

variable {archive : TarArchive} {entry : TarEntry} {index cursor position : Nat}

theorem TarArchive.WellFormed.entry_bound (wellFormed : archive.WellFormed)
    (found : archive.entries[index]? = some entry) : entry.offset + entry.span ≤ archive.totalSize := by
  have bounds := wellFormed.tiles.base_le_start entry (List.mem_of_getElem? found)
  omega

theorem TarArchive.WellFormed.itemEnd_eq (wellFormed : archive.WellFormed)
    (found : archive.entries[index]? = some entry) :
    itemEnd entry = entry.offset + entry.header.length + entry.info.size := by
  have bound := wellFormed.entry_bound found
  have small := wellFormed.bounded
  have offset : entry.offset = entry.info.offset := rfl
  simp only [TarEntry.span] at bound
  unfold itemEnd
  simp (disch := omega) only [wrappingAdd_of_lt, offset]

/-- What `locate` may answer for a position: the entry whose header or content
covers it, or none when it lies in padding or past the content. -/
def Locates (archive : TarArchive) (position : Nat) : Option Nat → Prop
  | some index => ∃ entry, archive.entries[index]? = some entry ∧
      entry.offset ≤ position ∧ position < entry.offset + entry.header.length + entry.info.size
  | none =>
      (∃ (index : Nat) (entry : TarEntry), archive.entries[index]? = some entry ∧
        entry.offset + entry.header.length + entry.info.size ≤ position ∧
        position < entry.offset + entry.span) ∨
      archive.totalSize - endOfArchiveBlocks * blockSize ≤ position

theorem TarArchive.WellFormed.locateSearch_locates (wellFormed : archive.WellFormed) (cursor position : Nat) :
    Locates archive position (locateSearch archive cursor position).1 := by
  by_cases inside : position < archive.totalSize - endOfArchiveBlocks * blockSize
  · obtain ⟨index, entry, found, point, lower, upper⟩ := wellFormed.tiles.locate (Nat.zero_le _) inside
    have ends := wellFormed.itemEnd_eq found
    simp only [locateSearch, point, Nat.add_sub_cancel, found, Nat.succ_ne_zero, if_false]
    by_cases covered : position < itemEnd entry
    · rw [if_pos covered]
      exact ⟨entry, found, lower, by omega⟩
    · rw [if_neg covered]
      exact .inl ⟨index, entry, found, by omega, upper⟩
  · have past := Nat.le_of_not_lt inside
    have point := wellFormed.tiles.partitionPoint_past past
    simp only [locateSearch, point]
    split
    · exact .inr past
    · cases found : archive.entries[archive.entries.length - 1]? with
      | none => exact .inr past
      | some entry =>
          have ends := wellFormed.itemEnd_eq found
          have bounds := wellFormed.tiles.base_le_start entry (List.mem_of_getElem? found)
          simp only [TarEntry.span] at bounds
          simp only [if_neg (show ¬ position < itemEnd entry by omega)]
          exact .inr past

theorem TarArchive.WellFormed.locate_locates (wellFormed : archive.WellFormed) (cursor position : Nat) :
    Locates archive position (locate archive cursor position).1 := by
  have search := wellFormed.locateSearch_locates cursor position
  unfold locate
  split
  · rename_i empty
    have tiles := wellFormed.tiles
    rw [List.length_eq_zero_iff.mp empty] at tiles
    have stop := tiles.stop_eq
    simp only [List.map_nil, List.sum_nil] at stop
    exact .inr (by omega)
  · cases found : archive.entries[cursor]? with
    | none => exact search
    | some entry =>
        by_cases covered : entry.info.offset ≤ position ∧ position < itemEnd entry
        · have ends := wellFormed.itemEnd_eq found
          simp only [if_pos covered]
          exact ⟨entry, found, covered.1, by omega⟩
        · simpa only [if_neg covered] using search

end Locate

/-- Only a regular file has content. -/
theorem TarArchive.WellFormed.regular_of_filled {archive : TarArchive} (wellFormed : archive.WellFormed)
    {entry : TarEntry} (member : entry ∈ archive.entries) (filled : 0 < entry.info.size) :
    entry.info.isDir = false := by
  cases directory : entry.info.isDir with
  | false => rfl
  | true =>
      have empty := wellFormed.directories entry member directory
      omega

theorem TarArchive.WellFormed.entryContent_length {archive : TarArchive} (wellFormed : archive.WellFormed)
    {sourceIsFile : Bool} {content : Path → Option Bytes} (sizes : archive.KeepsSizes sourceIsFile content) :
    ∀ entry ∈ archive.entries, (entryContent archive sourceIsFile content entry).length = entry.info.size := by
  intro entry member
  unfold entryContent
  cases directory : entry.info.isDir with
  | true => simp [wellFormed.directories entry member directory]
  | false =>
      obtain ⟨bytes, found, size⟩ := sizes entry member directory
      simp [found, size]

theorem TarArchive.WellFormed.feeds {archive : TarArchive} (wellFormed : archive.WellFormed) {sourceIsFile : Bool}
    {paths : Path → Option Bytes} (keeps : archive.KeepsSizes sourceIsFile paths) :
    archive.Feeds sourceIsFile paths (entryContent archive sourceIsFile paths) where
  sizes := wellFormed.entryContent_length keeps
  begins entry member filled := by
    have regular := wellFormed.regular_of_filled member filled
    obtain ⟨bytes, found, _⟩ := keeps entry member regular
    refine ⟨bytes, found, ?_⟩
    simp [entryContent, regular, found]

/-- Entries laid end to end from a block boundary on end at block boundaries. -/
theorem tiles_end_aligned {base stop : Nat} {entries : List TarEntry}
    (tiles : Tiles TarEntry.offset TarEntry.span base entries stop) (aligned : base % blockSize = 0)
    (headers : ∀ entry ∈ entries, entry.header.length % blockSize = 0) :
    ∀ entry ∈ entries, (entry.offset + entry.span) % blockSize = 0 := by
  induction tiles with
  | nil => simp
  | @cons base stop head rest starts nonempty tail ih =>
      intro entry member
      have padded := add_calculatePadding_mod head.info.size
      have header := headers head (by simp)
      have next : (base + head.span) % blockSize = 0 := by
        simp only [TarEntry.span, blockSize] at aligned padded header ⊢
        omega
      rcases List.mem_cons.mp member with rfl | member
      · rw [starts]
        exact next
      · exact ih next (fun other inRest => headers other (by simp [inRest])) entry member

theorem TarArchive.WellFormed.end_aligned {archive : TarArchive} (wellFormed : archive.WellFormed)
    {entry : TarEntry} (member : entry ∈ archive.entries) : (entry.offset + entry.span) % blockSize = 0 :=
  tiles_end_aligned wellFormed.tiles rfl (fun entry member => (wellFormed.headers entry member).2) entry member

/-- From a position of the padding it is exactly the padding of that position to the end of the entry. -/
theorem TarArchive.WellFormed.padding_ends {archive : TarArchive} (wellFormed : archive.WellFormed)
    {entry : TarEntry} {position : Nat} (member : entry ∈ archive.entries)
    (lower : entry.offset + entry.header.length + entry.info.size ≤ position)
    (upper : position < entry.offset + entry.span) :
    position + calculatePadding position = entry.offset + entry.span := by
  have padding := calculatePadding_lt entry.info.size
  have width : entry.span = entry.header.length + entry.info.size + calculatePadding entry.info.size := rfl
  exact add_calculatePadding (wellFormed.end_aligned member) (Nat.le_of_lt upper) (by omega)

section Read

variable {archive : TarArchive} {os : Files} {Fails : IoError → Prop} {holds : FileId → Option Bytes}
  {paths : Path → Option Bytes} {content : TarEntry → Bytes} {pointerBits endPos pos room index : Nat}
  {entry : TarEntry}

theorem TarArchive.WellFormed.zeros_delivered (wellFormed : archive.WellFormed)
    (sizes : ∀ entry ∈ archive.entries, (content entry).length = entry.info.size)
    (outside : Locates archive pos none) (before : pos < min endPos archive.totalSize) (positive : 0 < room) :
    let limit := min (min room (endPos - pos)) (archive.totalSize - pos)
    let count := if calculatePadding pos = 0 then limit else min (calculatePadding pos) limit
    0 < count ∧ count ≤ room ∧ count ≤ endOfArchiveBlocks * blockSize ∧ pos + count ≤ min endPos archive.totalSize ∧
      List.replicate count 0 = window (archive.reference content) pos (pos + count) := by
  intro limit count
  have counted : 0 < count ∧ count ≤ limit := by
    simp only [count, limit]
    split <;> omega
  refine ⟨counted.1, by omega, ?_⟩
  rcases outside with ⟨index, entry, found, lower, upper⟩ | past
  · have ends := wellFormed.padding_ends (List.mem_of_getElem? found) lower upper
    have padding := calculatePadding_lt pos
    have fits : count ≤ calculatePadding pos := by
      simp only [count]
      split <;> omega
    refine ⟨by simp only [endOfArchiveBlocks, blockSize] at padding ⊢; omega, by omega, ?_⟩
    exact (wellFormed.reference_padding sizes found lower (by omega)).symm
  · exact ⟨by omega, by omega, (wellFormed.reference_trailer sizes past (by omega)).symm⟩

theorem TarArchive.WellFormed.reference_header (wellFormed : archive.WellFormed)
    (sizes : ∀ entry ∈ archive.entries, (content entry).length = entry.info.size)
    (found : archive.entries[index]? = some entry) (lower : entry.offset ≤ pos) (count : Nat)
    (inside : pos - entry.offset + count ≤ entry.header.length) :
    window entry.header (pos - entry.offset) (pos - entry.offset + count) =
      window (archive.reference content) pos (pos + count) := by
  have width : entry.span = entry.header.length + entry.info.size + calculatePadding entry.info.size := rfl
  have placed := wellFormed.reference_entry sizes found (pos - entry.offset) (pos - entry.offset + count) (by omega)
  have front := window_middle [] entry.header
    (content entry ++ List.replicate (calculatePadding entry.info.size) 0) (pos - entry.offset)
    (pos - entry.offset + count) inside
  simp only [List.nil_append, List.length_nil, Nat.zero_add] at front
  rw [show entry.offset + (pos - entry.offset) = pos by omega,
    show entry.offset + (pos - entry.offset + count) = pos + count by omega, TarEntry.image, List.append_assoc,
    front] at placed
  exact placed.symm

theorem TarArchive.WellFormed.reference_content (wellFormed : archive.WellFormed)
    (sizes : ∀ entry ∈ archive.entries, (content entry).length = entry.info.size)
    (found : archive.entries[index]? = some entry) (lower : entry.offset + entry.header.length ≤ pos) (count : Nat)
    (inside : pos - (entry.offset + entry.header.length) + count ≤ entry.info.size) :
    window (content entry) (pos - (entry.offset + entry.header.length))
        (pos - (entry.offset + entry.header.length) + count) =
      window (archive.reference content) pos (pos + count) := by
  have width : entry.span = entry.header.length + entry.info.size + calculatePadding entry.info.size := rfl
  have placed := wellFormed.reference_entry sizes found (pos - entry.offset) (pos - entry.offset + count) (by omega)
  have middle := window_middle entry.header (content entry)
    (List.replicate (calculatePadding entry.info.size) 0) (pos - (entry.offset + entry.header.length))
    (pos - (entry.offset + entry.header.length) + count)
    (by rw [sizes entry (List.mem_of_getElem? found)]; exact inside)
  rw [show entry.header.length + (pos - (entry.offset + entry.header.length)) = pos - entry.offset by omega,
    show entry.header.length + (pos - (entry.offset + entry.header.length) + count) = pos - entry.offset + count
      by omega] at middle
  rw [show entry.offset + (pos - entry.offset) = pos by omega,
    show entry.offset + (pos - entry.offset + count) = pos + count by omega, TarEntry.image, middle] at placed
  exact placed.symm

/-- The target's `usize` can count the headers and the zero blocks. -/
def TarArchive.Addressable (pointerBits : Nat) (archive : TarArchive) : Prop :=
  endOfArchiveBlocks * blockSize < 2 ^ pointerBits ∧ ∀ entry ∈ archive.entries, entry.header.length < 2 ^ pointerBits

/-- A cast to `usize` makes nothing of a count that is to be read at `pos`. -/
def Stuck (pointerBits : Nat) (archive : TarArchive) (endPos pos : Nat) : Prop :=
  ∃ entry ∈ archive.entries, entry.offset ≤ pos ∧ pos < entry.offset + entry.header.length + entry.info.size ∧
    (asUsize pointerBits (endPos - pos) = 0 ∨ entry.offset + entry.header.length ≤ pos ∧
      asUsize pointerBits (entry.offset + entry.header.length + entry.info.size - pos) = 0)

theorem TarArchive.WellFormed.addressable (wellFormed : archive.WellFormed) : archive.Addressable 64 := by
  refine ⟨by decide, ?_⟩
  intro entry member
  obtain ⟨index, found⟩ := List.getElem?_of_mem member
  have bound := wellFormed.entry_bound found
  have small := wellFormed.bounded
  have width : entry.span = entry.header.length + entry.info.size + calculatePadding entry.info.size := rfl
  have size : u64Size = 2 ^ 64 := rfl
  omega

/-- Nothing is cut off if the archive and the range are small enough. -/
theorem TarArchive.WellFormed.not_stuck (wellFormed : archive.WellFormed) (fits : archive.totalSize < 2 ^ pointerBits)
    (endFits : endPos < 2 ^ pointerBits) (before : pos < endPos) : ¬ Stuck pointerBits archive endPos pos := by
  intro stuck
  obtain ⟨entry, member, lower, upper, nothing | ⟨inside, nothing⟩⟩ := stuck
  · rw [asUsize, Nat.mod_eq_of_lt (by omega)] at nothing
    omega
  · obtain ⟨index, found⟩ := List.getElem?_of_mem member
    have bound := wellFormed.entry_bound found
    have width : entry.span = entry.header.length + entry.info.size + calculatePadding entry.info.size := rfl
    rw [asUsize, Nat.mod_eq_of_lt (by omega)] at nothing
    omega

/-- The failures of a turn, if the files fail as `Fails` admits. -/
def Passes (Fails : IoError → Prop) (fault : Fault ArchiveError) : Prop :=
  ∃ reason, Fails reason ∧ fault = .error (.io reason)

/-- A turn goes ahead unless a cast makes nothing of what is left, or a file fails. -/
theorem TarArchive.WellFormed.readStep_delivers (wellFormed : archive.WellFormed)
    (falters : os.Falters Fails holds paths)
    (feeds : archive.Feeds (os.isFile 0 archive.sourcePath) paths content)
    (addressable : archive.Addressable pointerBits) (moving : ¬ Stuck pointerBits archive endPos pos)
    {progress : Progress} (valid : progress.files.Valid holds paths)
    (before : pos < min endPos archive.totalSize) (positive : 0 < room) :
    Delivers (fun progress : Progress => progress.files.Valid holds paths) (Passes Fails)
      (archive.reference content)
      (min endPos archive.totalSize) pos room (readStep pointerBits os archive endPos progress pos room) := by
  have sizes := feeds.sizes
  have small := wellFormed.bounded
  have total := wellFormed.reference_length sizes
  have located := wellFormed.locate_locates progress.cursor pos
  have rest : asUsize pointerBits (endPos - pos) ≤ endPos - pos := Nat.mod_le _ _
  unfold readStep
  generalize locate archive progress.cursor pos = answer at located
  obtain ⟨covering, cursor⟩ := answer
  cases covering with
  | none =>
      obtain ⟨counted, fits, counts, inside, zeros⟩ := wellFormed.zeros_delivered sizes located before positive
      dsimp only
      rw [asUsize, Nat.mod_eq_of_lt (Nat.lt_of_le_of_lt counts addressable.1)]
      exact Delivers.of_window valid counted fits inside (by omega) zeros
  | some index =>
      obtain ⟨entry, found, lower, upper⟩ := located
      have member := List.mem_of_getElem? found
      have bound := wellFormed.entry_bound found
      have width : entry.span = entry.header.length + entry.info.size + calculatePadding entry.info.size := rfl
      have offset : entry.info.offset = entry.offset := rfl
      have headerEnd : wrappingAdd entry.offset entry.header.length = entry.offset + entry.header.length :=
        wrappingAdd_of_lt (by omega)
      have contentEnd : wrappingAdd (entry.offset + entry.header.length) entry.info.size =
          entry.offset + entry.header.length + entry.info.size := wrappingAdd_of_lt (by omega)
      have wanted : asUsize pointerBits (endPos - pos) ≠ 0 :=
        fun nothing => moving ⟨entry, member, lower, upper, .inl nothing⟩
      simp only [found, offset, headerEnd, contentEnd]
      by_cases inHeader : entry.offset ≤ pos ∧ pos < entry.offset + entry.header.length
      · simp only [if_pos inHeader]
        have whole : asUsize pointerBits (pos - entry.offset) = pos - entry.offset :=
          Nat.mod_eq_of_lt (Nat.lt_of_le_of_lt (by omega) (addressable.2 entry member))
        rw [whole]
        generalize counted : min (min (entry.header.length - (pos - entry.offset)) room)
          (asUsize pointerBits (endPos - pos)) = count
        rw [slice_ok (by omega)]
        have delivered : Delivers (fun progress : Progress => progress.files.Valid holds paths) (Passes Fails)
            entry.header entry.header.length (pos - entry.offset) count
            (.ok ((entry.header.drop (pos - entry.offset)).take count), { progress with cursor }) :=
          .of_slice valid (by omega) (by omega) (Nat.le_refl _)
        exact delivered.of_part (wellFormed.reference_header sizes found lower) (by omega) (by omega)
      · have inContent : entry.offset + entry.header.length ≤ pos ∧
            pos < entry.offset + entry.header.length + entry.info.size := by omega
        obtain ⟨bytes, leads, tail, begins⟩ := feeds.begins entry member (by omega)
        have size := sizes entry member
        have remains : asUsize pointerBits (entry.offset + entry.header.length + entry.info.size - pos) ≠ 0 :=
          fun nothing => moving ⟨entry, member, lower, upper, .inr ⟨inContent.1, nothing⟩⟩
        have shorter : asUsize pointerBits (entry.offset + entry.header.length + entry.info.size - pos) ≤
            entry.offset + entry.header.length + entry.info.size - pos := Nat.mod_le _ _
        simp only [if_neg inHeader, if_pos inContent, falters.steadyKind progress.now archive.sourcePath]
        generalize counted : min (min room (asUsize pointerBits
          (entry.offset + entry.header.length + entry.info.size - pos))) (asUsize pointerBits (endPos - pos)) = want
        have longer : (content entry).length + tail.length = bytes.length := by rw [← begins, List.length_append]
        have delivered := FileHandleCache.readAt_delivers falters valid leads (progress.now + 1)
          (pos - (entry.offset + entry.header.length)) want (by omega) (by omega)
        generalize progress.files.readAt os (progress.now + 1) _ _ want = answer at delivered ⊢
        obtain ⟨result, files, now⟩ := answer
        cases result with
        | error reason => exact ⟨⟨reason, delivered.1, rfl⟩, delivered.2⟩
        | ok piece =>
            obtain ⟨kept, positive, fits, inside, delivered⟩ := delivered
            have copied := wellFormed.reference_content sizes found inContent.1 piece.length (by omega)
            have front := window_middle [] (content entry) tail (pos - (entry.offset + entry.header.length))
              (pos - (entry.offset + entry.header.length) + piece.length) (by omega)
            simp only [List.nil_append, List.length_nil, Nat.zero_add, begins] at front
            exact ⟨kept, positive, by omega, by omega, (delivered.trans front).trans copied⟩

/-- A reader of a range up to `endPos` that has come as far as `position`. -/
def Standing (endPos : Nat) (holds : FileId → Option Bytes) (paths : Path → Option Bytes)
    (reader : RangeStreamWriter × Nat) (position : Nat) : Prop :=
  reader.1.endPos = endPos ∧ reader.1.currentPos = position ∧
    reader.1.fileHandleCache.Valid holds paths

/-- Such a failure as `read` hands it on. -/
def Surfaces (Fails : IoError → Prop) (fault : Fault IoError) : Prop :=
  ∃ reason, Fails reason ∧ fault = .error (.other (ArchiveError.io reason).toString)

theorem TarArchive.WellFormed.read_responds (wellFormed : archive.WellFormed)
    (falters : os.Falters Fails holds paths)
    (feeds : archive.Feeds (os.isFile 0 archive.sourcePath) paths content)
    (addressable : archive.Addressable pointerBits)
    (moving : ∀ place, pos ≤ place → place < min endPos archive.totalSize → ¬ Stuck pointerBits archive endPos place)
    {fuel capacity : Nat} (enough : capacity < fuel) {reader : RangeStreamWriter × Nat}
    (standing : Standing endPos holds paths reader pos) :
    Responds (Standing endPos holds paths) (Surfaces Fails) (archive.reference content) (min endPos archive.totalSize)
      pos capacity (read pointerBits fuel os archive reader capacity) := by
  obtain ⟨reader, now⟩ := reader
  obtain ⟨ends, stands, valid⟩ := standing
  dsimp only at ends stands valid
  subst ends stands
  unfold read readIntoBuffer
  by_cases finished : reader.endPos ≤ reader.currentPos ∨ archive.totalSize ≤ reader.currentPos
  · simp only [if_pos finished, Except.mapError]
    exact ⟨(window_of_le (by omega)).symm, rfl, rfl, valid⟩
  · have filled : Fills (fun progress : Progress => progress.files.Valid holds paths) (Passes Fails)
        (archive.reference content) (min reader.endPos archive.totalSize) capacity reader.currentPos []
        (fill (readStep pointerBits os archive reader.endPos) .exhausted capacity reader.endPos archive.totalSize fuel
          { cursor := reader.cursor, files := reader.fileHandleCache, now } reader.currentPos []) :=
      fill_fills (fun progress pos room valid ahead before positive =>
        wellFormed.readStep_delivers falters feeds addressable (moving pos ahead before) valid before positive)
        valid (Nat.le_refl _) (by omega) (by simpa using enough)
    simp only [if_neg finished]
    revert filled
    generalize fill (readStep pointerBits os archive reader.endPos) .exhausted capacity reader.endPos
      archive.totalSize fuel { cursor := reader.cursor, files := reader.fileHandleCache, now } reader.currentPos [] =
      outcome
    match outcome with
    | (.error reason, progress) =>
        intro failed
        obtain ⟨⟨failure, admitted, rfl⟩, kept⟩ := failed
        exact ⟨⟨failure, admitted, rfl⟩, rfl, rfl, kept⟩
    | (.ok (bytes, next), progress) =>
        intro filled
        obtain ⟨kept, reached, collected⟩ := filled
        simp only [List.length_nil, Nat.sub_zero] at reached
        rw [List.nil_append] at collected
        have inside : next ≤ (archive.reference content).length := by
          rw [wellFormed.reference_length feeds.sizes]
          omega
        have length := window_length_of_le reader.currentPos inside
        refine ⟨by rw [← reached]; exact collected, rfl, ?_, kept⟩
        rw [collected, length]
        dsimp only
        omega

theorem TarArchive.WellFormed.read_answers (wellFormed : archive.WellFormed)
    (serves : os.Serves holds paths)
    (feeds : archive.Feeds (os.isFile 0 archive.sourcePath) paths content) (endFits : endPos < u64Size)
    {fuel capacity : Nat} (enough : capacity < fuel) {reader : RangeStreamWriter × Nat}
    (standing : Standing endPos holds paths reader pos) :
    Answers (Standing endPos holds paths) (archive.reference content) (min endPos archive.totalSize) pos capacity
      (read 64 fuel os archive reader capacity) :=
  (wellFormed.read_responds (serves.falters fun _ => False) feeds wellFormed.addressable
    (fun _ _ before => wellFormed.not_stuck wellFormed.bounded endFits (by omega)) enough standing).answers
    fun _ surfaces => surfaces.elim fun _ admitted => admitted.1

/-- Draining a range yields that part of the reference. -/
theorem TarArchive.WellFormed.streamRange_yields (wellFormed : archive.WellFormed)
    (serves : os.Serves holds paths)
    (feeds : archive.Feeds (os.isFile 0 archive.sourcePath) paths content) (start : Nat) {stop : Nat}
    (stopFits : stop < u64Size) (now : Nat) {fuel : Nat} {capacities : List Nat}
    (usable : ∀ capacity ∈ capacities, 0 < capacity ∧ capacity < fuel) :
    (drain (read 64 fuel os archive) (TarArchive.streamRange start stop, now) capacities).1.Yields
      (window (archive.reference content) (min start archive.totalSize) (min stop archive.totalSize))
      capacities.length := by
  have length := wellFormed.reference_length feeds.sizes
  have standing : Standing stop holds paths (TarArchive.streamRange start stop, now) start :=
    ⟨rfl, rfl, FileHandleCache.new_valid⟩
  have yields := (drain_yields (Standing stop holds paths)
    (fun capacity => 0 < capacity ∧ capacity < fuel) (fun capacity usable => usable.1)
    (show min stop archive.totalSize ≤ _ by rw [length]; exact Nat.min_le_right _ _)
    (fun reader position capacity standing usable =>
      wellFormed.read_answers serves feeds stopFits usable.2 standing)
    usable standing).1
  rw [← window_clip, length, Nat.min_assoc, Nat.min_self] at yields
  exact yields

theorem TarArchive.WellFormed.stream_complete (wellFormed : archive.WellFormed)
    (serves : os.Serves holds paths)
    (feeds : archive.Feeds (os.isFile 0 archive.sourcePath) paths content) (now : Nat) {fuel : Nat}
    {capacities : List Nat} (usable : ∀ capacity ∈ capacities, 0 < capacity ∧ capacity < fuel)
    (enough : archive.totalSize < capacities.length) :
    (drain (read 64 fuel os archive) (TarArchive.streamRange 0 archive.totalSize, now) capacities).1 =
      .ended (archive.reference content) := by
  have yields := wellFormed.streamRange_yields serves feeds 0 wellFormed.bounded now usable
  have total := wellFormed.reference_length feeds.sizes
  have whole := window_all (archive.reference content)
  rw [total] at whole
  rw [Nat.zero_min, Nat.min_self, whole] at yields
  exact yields.ended (by rw [total]; exact enough)

end Read

/-- A range of a tar archive reads as that range of the reference, for every
sequence of buffers and every pattern of short reads: no call fails, each call
but the last makes progress, and the end is reported only after the whole range. -/
theorem stream_range_reads_reference {crate : HeaderCrate} {sourcePath : Path}
    {scanned : List ScannedEntry} {archive : TarArchive}
    (created : TarArchive.createFrom crate sourcePath scanned = .ok archive)
    (fits : archive.extent < u64Size) {os : Files} {paths : Path → Option Bytes}
    (unchanged : os.Unchanged paths) (keeps : archive.KeepsSizes (os.isFile 0 sourcePath) paths) :
    let reference := archive.reference (entryContent archive (os.isFile 0 sourcePath) paths)
    reference.length = archive.totalSize ∧
    ∀ (start stop : UInt64) (now fuel : Nat) (capacities : List Nat),
      (∀ capacity ∈ capacities, 0 < capacity ∧ capacity < fuel) →
      let range := window reference (min start.toNat archive.totalSize) (min stop.toNat archive.totalSize)
      let drained := (drain (read 64 fuel os archive)
        (TarArchive.streamRange start.toNat stop.toNat, now) capacities).1
      drained.Yields range capacities.length ∧
        (range.length < capacities.length → drained = .ended range) := by
  obtain ⟨wellFormed, _⟩ := TarArchive.createFrom_wellFormed created fits
  obtain ⟨source, _⟩ := TarArchive.createFrom_describes created
  obtain ⟨holds, serves⟩ := unchanged
  subst source
  refine ⟨wellFormed.reference_length (wellFormed.entryContent_length keeps), ?_⟩
  intro start stop now fuel capacities usable range drained
  have yields := wellFormed.streamRange_yields serves (wellFormed.feeds keeps) start.toNat stop.toNat_lt now usable
  exact ⟨yields, yields.ended⟩

def smallArchive : TarArchive :=
  match TarArchive.createFrom blockCrate [47, 115] smallScan with
  | .ok archive => archive
  | .error _ => { sourcePath := [], entries := [], pathIndex := [], totalSize := 0 }

theorem stream_range_reads_reference_small :
    (drain (read 64 8 (Files.memory smallFiles 2) smallArchive) (TarArchive.streamRange 1000 1100, 0)
        (List.replicate 101 7)).1 =
      .ended (window (smallArchive.reference (entryContent smallArchive
        ((Files.memory smallFiles 2).isFile 0 [47, 115]) (Files.contentOf smallFiles))) 1000 1100) := by
  have created : TarArchive.createFrom blockCrate [47, 115] smallScan = .ok smallArchive := rfl
  have unchanged : (Files.memory smallFiles 2).Unchanged (Files.contentOf smallFiles) :=
    Files.memory_unchanged smallFiles (by decide)
  have usable : ∀ capacity ∈ List.replicate 101 7, 0 < capacity ∧ capacity < 8 :=
    List.forall_mem_replicate.mpr (.inr (by decide))
  have reads := (stream_range_reads_reference created (by decide +kernel) unchanged (by decide +kernel)).2
    1000 1100 0 8 (List.replicate 101 7) usable
  have upper : min (1100 : UInt64).toNat smallArchive.totalSize = 1100 := by decide +kernel
  have lower : min (1000 : UInt64).toNat smallArchive.totalSize = 1000 := by decide +kernel
  rw [upper, lower] at reads
  apply reads.2
  rw [window_length, List.length_replicate]
  omega

end Raas.Tar
