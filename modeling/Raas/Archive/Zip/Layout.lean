import Raas.Archive.Zip.Encode

namespace Raas.Zip

open Data

namespace ZipEntry

def localLength (entry : ZipEntry) : Nat :=
  localHeaderFixed + entry.nameBytes.length + localExtraLen entry

def centralLength (entry : ZipEntry) : Nat :=
  centralEntryFixed + entry.nameBytes.length + centralExtraLen entry

def localSpan (entry : ZipEntry) : Nat := entry.localHeaderLen + entry.size

def large (entry : ZipEntry) : Bool := !entry.isDir && decide (u32Max ≤ entry.size)

end ZipEntry

def ZipArchive.needsZip64 (archive : ZipArchive) : Bool :=
  needsZip64Eocd archive.entries.length archive.cdSize archive.cdOffset

theorem ZipArchive.needsZip64_iff (archive : ZipArchive) : archive.needsZip64 = true ↔
    u16Max < archive.entries.length ∨ u32Max ≤ archive.cdSize ∨ u32Max ≤ archive.cdOffset := by
  simp only [needsZip64, needsZip64Eocd, Bool.or_eq_true, decide_eq_true_eq, or_assoc]

/-- The length of the Zip64 end record and its locator, if the archive has them. -/
def ZipArchive.zip64Length (archive : ZipArchive) : Nat :=
  if archive.needsZip64 then zip64EocdLen + zip64LocatorLen else 0

def ZipArchive.extent (archive : ZipArchive) : Nat :=
  (archive.entries.map fun entry => entry.localLength + entry.size).sum +
    (archive.entries.map ZipEntry.centralLength).sum + archive.zip64Length + eocdFixed

/-- The segments of the end records. -/
def ZipArchive.endSegments (archive : ZipArchive) : List Segment :=
  (if archive.needsZip64 then
    [{ start := archive.zip64EocdOffset, len := zip64EocdLen, kind := .zip64Eocd },
     { start := wrappingAdd archive.zip64EocdOffset zip64EocdLen, len := zip64LocatorLen,
       kind := .zip64Locator }]
  else []) ++
    [{ start := wrappingSub archive.totalSize eocdFixed, len := eocdFixed, kind := .eocd }]

/-- What the two passes decide about a scanned entry, its places aside. -/
structure Planned (item : ScannedEntry) (entry : ZipEntry) : Prop where
  name : entry.name = item.relativePath
  nameBytes : entry.nameBytes = item.relativePath
  sourcePath : entry.sourcePath = if item.isDir then none else some item.sourcePath
  size : entry.size = item.size
  isDir : entry.isDir = item.isDir
  localZip64 : entry.localZip64 = entry.large
  centralSizeZip64 : entry.centralSizeZip64 = entry.large
  centralOffsetZip64 : entry.centralOffsetZip64 = decide (u32Max ≤ entry.localOffset)

def PlacedLocally (entry placed : ZipEntry) : Prop :=
  placed = { entry with
    localZip64 := entry.large
    localOffset := placed.localOffset
    localHeaderLen := placed.localHeaderLen }

def PlacedCentrally (entry placed : ZipEntry) : Prop :=
  placed = { entry with
    centralSizeZip64 := entry.large
    centralOffsetZip64 := decide (u32Max ≤ entry.localOffset)
    centralOffset := placed.centralOffset
    centralLen := placed.centralLen }

theorem layoutLocal_placed (pos : Nat) (entries : List ZipEntry) :
    List.Forall₂ PlacedLocally entries (layoutLocal pos entries).1 := by
  induction entries generalizing pos with
  | nil => exact .nil
  | cons entry rest ih => exact .cons rfl (ih _)

theorem layoutCentral_placed (cpos : Nat) (entries : List ZipEntry) :
    List.Forall₂ PlacedCentrally entries (layoutCentral cpos entries).1 := by
  induction entries generalizing cpos with
  | nil => exact .nil
  | cons entry rest ih => exact .cons rfl (ih _)

/-- Without overflow the first pass lays the entries end to end. -/
theorem layoutLocal_tiles (pos : Nat) (entries : List ZipEntry)
    (fits : pos + ((layoutLocal pos entries).1.map fun entry => entry.localLength + entry.size).sum < u64Size) :
    Tiles ZipEntry.localOffset ZipEntry.localSpan pos (layoutLocal pos entries).1 (layoutLocal pos entries).2 ∧
      ∀ entry ∈ (layoutLocal pos entries).1, entry.localHeaderLen = entry.localLength := by
  induction entries generalizing pos with
  | nil => exact ⟨.nil, by simp [layoutLocal]⟩
  | cons entry rest ih =>
      rw [layoutLocal] at fits ⊢
      simp only [List.map_cons, List.sum_cons, ZipEntry.localLength, localExtraLen] at fits
      dsimp only
      generalize extra : (if (!entry.isDir && decide (u32Max ≤ entry.size)) = true
        then zip64ExtraHeader + zip64LocalData else 0) = extraLen at fits ⊢
      have header : wrappingAdd (wrappingAdd localHeaderFixed entry.nameBytes.length) extraLen =
          localHeaderFixed + entry.nameBytes.length + extraLen := by
        simp (disch := omega) only [wrappingAdd_of_lt]
      have next : wrappingAdd pos (wrappingAdd (localHeaderFixed + entry.nameBytes.length + extraLen) entry.size) =
          pos + (localHeaderFixed + entry.nameBytes.length + extraLen + entry.size) := by
        simp (disch := omega) only [wrappingAdd_of_lt]
      simp only [header, next] at fits ⊢
      have later : pos + (localHeaderFixed + entry.nameBytes.length + extraLen + entry.size) +
          ((layoutLocal (pos + (localHeaderFixed + entry.nameBytes.length + extraLen + entry.size)) rest).1.map
            fun entry => entry.localLength + entry.size).sum < u64Size := by
        simp only [ZipEntry.localLength, localExtraLen]
        omega
      obtain ⟨tail, lengths⟩ := ih _ later
      refine ⟨.cons rfl ?_ tail, ?_⟩
      · simp only [ZipEntry.localSpan, localHeaderFixed]
        omega
      · intro other member
        rcases List.mem_cons.mp member with rfl | member
        · simp only [ZipEntry.localLength, localExtraLen, extra]
        · exact lengths other member

theorem layoutCentral_tiles (cpos : Nat) (entries : List ZipEntry)
    (fits : cpos + ((layoutCentral cpos entries).1.map ZipEntry.centralLength).sum < u64Size) :
    Tiles ZipEntry.centralOffset ZipEntry.centralLen cpos (layoutCentral cpos entries).1
        (layoutCentral cpos entries).2 ∧
      ∀ entry ∈ (layoutCentral cpos entries).1, entry.centralLen = entry.centralLength := by
  induction entries generalizing cpos with
  | nil => exact ⟨.nil, by simp [layoutCentral]⟩
  | cons entry rest ih =>
      rw [layoutCentral] at fits ⊢
      simp only [List.map_cons, List.sum_cons] at fits
      rw [ZipEntry.centralLength, centralExtraLen] at fits
      dsimp only at fits ⊢
      generalize extra : (if 0 < (if (!entry.isDir && decide (u32Max ≤ entry.size)) = true then 16 else 0) +
          (if decide (u32Max ≤ entry.localOffset) = true then 8 else 0) then
          zip64ExtraHeader + ((if (!entry.isDir && decide (u32Max ≤ entry.size)) = true then 16 else 0) +
            (if decide (u32Max ≤ entry.localOffset) = true then 8 else 0)) else 0) = extraLen at fits ⊢
      have length : wrappingAdd (wrappingAdd centralEntryFixed entry.nameBytes.length) extraLen =
          centralEntryFixed + entry.nameBytes.length + extraLen := by
        simp (disch := omega) only [wrappingAdd_of_lt]
      have next : wrappingAdd cpos (centralEntryFixed + entry.nameBytes.length + extraLen) =
          cpos + (centralEntryFixed + entry.nameBytes.length + extraLen) := wrappingAdd_of_lt (by omega)
      simp only [length, next] at fits ⊢
      have later : cpos + (centralEntryFixed + entry.nameBytes.length + extraLen) +
          ((layoutCentral (cpos + (centralEntryFixed + entry.nameBytes.length + extraLen)) rest).1.map
            ZipEntry.centralLength).sum < u64Size := by omega
      obtain ⟨tail, lengths⟩ := ih _ later
      refine ⟨.cons rfl ?_ tail, ?_⟩
      · simp only [centralEntryFixed]
        omega
      · intro other member
        rcases List.mem_cons.mp member with rfl | member
        · simp only [ZipEntry.centralLength, centralExtraLen, extra]
        · exact lengths other member

/-- What `create` guarantees as long as no offset overflows: headers and data tile
the front, the central directory follows, and the end records close the archive. -/
structure ZipArchive.WellFormed (archive : ZipArchive) : Prop where
  localLengths : ∀ entry ∈ archive.entries, entry.localHeaderLen = entry.localLength
  centralLengths : ∀ entry ∈ archive.entries, entry.centralLen = entry.centralLength
  directories : ∀ entry ∈ archive.entries, entry.isDir = true → entry.size = 0
  folders : ∀ entry ∈ archive.entries, entry.isDir = true → entry.sourcePath = none
  sources : ∀ entry ∈ archive.entries, entry.isDir = false → ∃ source, entry.sourcePath = some source
  locals : Tiles ZipEntry.localOffset ZipEntry.localSpan 0 archive.entries archive.cdOffset
  centrals : Tiles ZipEntry.centralOffset ZipEntry.centralLen archive.cdOffset archive.entries
    archive.zip64EocdOffset
  directorySize : archive.cdOffset + archive.cdSize = archive.zip64EocdOffset
  ending : archive.zip64EocdOffset + archive.zip64Length + eocdFixed = archive.totalSize
  bounded : archive.totalSize < u64Size
  table : archive.segments =
    localSegments 0 archive.entries ++ (centralSegments 0 archive.entries ++ archive.endSegments)

theorem layout_planned (scanned : List ScannedEntry) (pos cpos : Nat) :
    List.Forall₂ Planned scanned
      (layoutCentral cpos (layoutLocal pos (scanned.map ZipEntry.ofScanned)).1).1 := by
  have first := List.forall₂_map_left_iff.mp (layoutLocal_placed pos (scanned.map ZipEntry.ofScanned))
  have second := layoutCentral_placed cpos (layoutLocal pos (scanned.map ZipEntry.ofScanned)).1
  generalize (layoutLocal pos (scanned.map ZipEntry.ofScanned)).1 = middle at first second
  generalize (layoutCentral cpos middle).1 = entries at second
  induction first generalizing entries with
  | nil => cases second; exact .nil
  | @cons item placed _ _ locally _ ih =>
      cases second with
      | @cons _ entry _ _ centrally second =>
          refine .cons ?_ (ih _ second)
          rw [PlacedCentrally] at centrally
          rw [PlacedLocally] at locally
          rw [centrally, locally]
          exact ⟨rfl, rfl, rfl, rfl, rfl, rfl, rfl, rfl⟩

/-- The second pass does not move what the first has placed. -/
theorem layoutCentral_keeps_locals (cpos : Nat) {pos stop : Nat} {entries : List ZipEntry}
    (tiles : Tiles ZipEntry.localOffset ZipEntry.localSpan pos entries stop)
    (lengths : ∀ entry ∈ entries, entry.localHeaderLen = entry.localLength) :
    Tiles ZipEntry.localOffset ZipEntry.localSpan pos (layoutCentral cpos entries).1 stop ∧
      ∀ entry ∈ (layoutCentral cpos entries).1, entry.localHeaderLen = entry.localLength := by
  have placed := layoutCentral_placed cpos entries
  refine ⟨tiles.transfer (placed.imp fun entry image centrally => ?_), ?_⟩
  · rw [PlacedCentrally] at centrally
    rw [centrally]
    exact ⟨rfl, rfl⟩
  · intro image member
    obtain ⟨entry, inside, centrally⟩ := forall₂_mem_right placed member
    have length := lengths entry inside
    rw [PlacedCentrally] at centrally
    rw [centrally]
    exact length

theorem layoutCentral_keeps_lengths (cpos : Nat) (entries : List ZipEntry) :
    (layoutCentral cpos entries).1.map (fun entry => entry.localLength + entry.size) =
      entries.map fun entry => entry.localLength + entry.size := by
  induction entries generalizing cpos with
  | nil => rfl
  | cons entry rest ih =>
      rw [layoutCentral, List.map_cons, List.map_cons, ih]
      rfl

theorem ZipArchive.createFrom_planned (scanned : List ScannedEntry) :
    List.Forall₂ Planned scanned (createFrom scanned).entries :=
  layout_planned scanned _ _

theorem ZipArchive.createFrom_directories (scanned : List ScannedEntry) :
    ∀ entry ∈ (createFrom scanned).entries, entry.isDir = true → entry.size = 0 ∧ entry.sourcePath = none := by
  intro entry member directory
  obtain ⟨item, _, planned⟩ := forall₂_mem_right (createFrom_planned scanned) member
  rw [planned.isDir] at directory
  rw [planned.size, planned.sourcePath, directory]
  exact ⟨item.dirSize directory, rfl⟩

theorem ZipArchive.createFrom_sources (scanned : List ScannedEntry) :
    ∀ entry ∈ (createFrom scanned).entries, entry.isDir = false → ∃ source, entry.sourcePath = some source := by
  intro entry member regular
  obtain ⟨item, _, planned⟩ := forall₂_mem_right (createFrom_planned scanned) member
  rw [planned.isDir] at regular
  exact ⟨item.sourcePath, by rw [planned.sourcePath, regular]; rfl⟩

theorem ZipArchive.createFrom_table (scanned : List ScannedEntry) : (createFrom scanned).segments =
    localSegments 0 (createFrom scanned).entries ++
      (centralSegments 0 (createFrom scanned).entries ++ (createFrom scanned).endSegments) := by
  rw [endSegments, ← List.append_assoc, ← List.append_assoc]
  rfl

theorem ZipArchive.createFrom_wellFormed {scanned : List ScannedEntry}
    (fits : (createFrom scanned).extent < u64Size) :
    (createFrom scanned).WellFormed ∧ (createFrom scanned).totalSize = (createFrom scanned).extent := by
  generalize built : layoutLocal 0 (scanned.map ZipEntry.ofScanned) = front
  generalize directory : layoutCentral front.2 front.1 = back
  have entries : (createFrom scanned).entries = back.1 := by rw [← directory, ← built]; rfl
  have cdOffset : (createFrom scanned).cdOffset = front.2 := by rw [← built]; rfl
  have zip64EocdOffset : (createFrom scanned).zip64EocdOffset = back.2 := by rw [← directory, ← built]; rfl
  have cdSize : (createFrom scanned).cdSize = wrappingSub back.2 front.2 := by rw [← directory, ← built]; rfl
  have totalSize : (createFrom scanned).totalSize =
      wrappingAdd (if (createFrom scanned).needsZip64 then wrappingAdd back.2 (zip64EocdLen + zip64LocatorLen)
        else back.2) eocdFixed := by rw [← directory, ← built]; rfl
  have frontLengths : (back.1.map fun entry => entry.localLength + entry.size) =
      front.1.map fun entry => entry.localLength + entry.size := by
    rw [← directory]
    exact layoutCentral_keeps_lengths _ _
  have sizes : (createFrom scanned).extent =
      (front.1.map fun entry => entry.localLength + entry.size).sum +
        (back.1.map ZipEntry.centralLength).sum + (createFrom scanned).zip64Length + eocdFixed := by
    rw [extent, entries, frontLengths]
  rw [sizes] at fits
  have firstPass := layoutLocal_tiles 0 (scanned.map ZipEntry.ofScanned)
  rw [built] at firstPass
  obtain ⟨frontTiles, headers⟩ := firstPass (by omega)
  have frontEnd : front.2 = (front.1.map fun entry => entry.localLength + entry.size).sum := by
    rw [frontTiles.stop_eq, Nat.zero_add]
    exact congrArg List.sum (List.map_congr_left fun entry member => by
      rw [ZipEntry.localSpan, headers entry member])
  have secondPass := layoutCentral_tiles front.2 front.1
  have kept := layoutCentral_keeps_locals front.2 frontTiles headers
  rw [directory] at secondPass kept
  obtain ⟨backTiles, lengths⟩ := secondPass (by omega)
  have backEnd : back.2 = front.2 + (back.1.map ZipEntry.centralLength).sum := by
    rw [backTiles.stop_eq]
    exact congrArg (front.2 + List.sum ·) (List.map_congr_left lengths)
  have ending : back.2 + (createFrom scanned).zip64Length + eocdFixed = (createFrom scanned).totalSize := by
    rw [totalSize]
    simp only [zip64Length] at fits ⊢
    split at fits
    · rename_i needed
      simp (disch := omega) only [if_pos needed, wrappingAdd_of_lt]
    · rename_i needless
      simp (disch := omega) only [if_neg needless, wrappingAdd_of_lt]
      omega
  refine ⟨⟨?_, ?_, ?_, ?_, createFrom_sources scanned, ?_, ?_, ?_, ?_, ?_, createFrom_table scanned⟩, ?_⟩
  · rw [entries]
    exact kept.2
  · rw [entries]
    exact lengths
  · exact fun entry member directory => (createFrom_directories scanned entry member directory).1
  · exact fun entry member directory => (createFrom_directories scanned entry member directory).2
  · rw [entries, cdOffset]
    exact kept.1
  · rw [entries, cdOffset, zip64EocdOffset]
    exact backTiles
  · rw [cdOffset, cdSize, zip64EocdOffset, wrappingSub_of_le (by omega) (by omega)]
    omega
  · rw [zip64EocdOffset]
    exact ending
  · omega
  · omega

end Raas.Zip
