import Raas.Archive.Safety
import Raas.Archive.Unpacking

namespace Raas

open Data

/-! Which names of a tree stay apart in an archive. -/

/-- The pieces of an entity's path between slashes and backslashes. A directory's path
has an empty one at its end. -/
def Entity.pieces (names : Location) (entity : Entity) : List Bytes :=
  names.flatMap (fun name => name.splitOn backslash) ++ if entity.isDir then [[]] else []

def SameNames (names other : List Bytes) : Prop := List.Forall₂ Utf8.Lookalike names other

instance (names other : List Bytes) : Decidable (SameNames names other) :=
  inferInstanceAs (Decidable (List.Forall₂ _ _ _))

/-- Two paths with these pieces are unpacked in one place. -/
def Collide (pieces other : List Bytes) : Prop :=
  match landing pieces, landing other with
  | some names, some taken => SameNames names taken
  | _, _ => False

instance (pieces other : List Bytes) : Decidable (Collide pieces other) := by
  unfold Collide
  split <;> infer_instance

/-- Two entities that an archive shows under one name, or two files that it unpacks in one place. -/
def Confusable (one other : Location × Entity) : Prop :=
  SameNames (one.2.pieces one.1) (other.2.pieces other.1) ∨
    one.2.isDir = false ∧ other.2.isDir = false ∧ Collide (one.2.pieces one.1) (other.2.pieces other.1)

instance (one other : Location × Entity) : Decidable (Confusable one other) :=
  inferInstanceAs (Decidable (_ ∨ _ ∧ _ ∧ _))

/-- No two files of a list of names, each with whether it is a directory's, are unpacked in one place. -/
def UnpackedApart (shown : List (Bytes × Bool)) : Prop :=
  shown.Pairwise fun one other => one.2 = false → other.2 = false →
    ∀ names, landing (one.1.splitOn separator) = some names → landing (other.1.splitOn separator) ≠ some names

/-- No entry takes the name of another, in the index by path of a tar, or its place when unpacked. -/
structure NamesDistinct (source : Path) (scanned : List ScannedEntry) : Prop where
  scan : (scanned.map fun item => item.relativePath).Nodup
  index : ∀ crate archive, Tar.TarArchive.createFrom crate source scanned = .ok archive →
    ∀ position entry, archive.entries[position]? = some entry →
      archive.pathIndex.lookup entry.info.path = some position
  tar : ∀ crate archive, Tar.TarArchive.createFrom crate source scanned = .ok archive →
    UnpackedApart (archive.entries.map fun entry => (entry.info.path, entry.info.isDir))
  zip : UnpackedApart ((Zip.ZipArchive.createFrom scanned).entries.map fun entry => (entry.nameBytes, entry.isDir))
  unpacked : UnpackedApart (scanned.map fun item => (item.relativePath, item.isDir))

section Shown

variable {names other : Location} {entity under : Entity}

theorem shownPath_pieces (nonempty : names ≠ []) (legal : ∀ name ∈ names, LegalName name) :
    (entity.shownPath names).splitOn separator = (entity.pieces names).map Utf8.lossy := by
  have components := relativeString_components nonempty legal
  cases entity with
  | file content stat =>
      have isDir : (Entity.file content stat).isDir ≠ true := Bool.false_ne_true
      rw [Entity.pieces, if_neg isDir, List.append_nil]
      exact components
  | directory stat =>
      have isDir : (Entity.directory stat).isDir = true := rfl
      rw [Entity.pieces, if_pos isDir, Entity.shownPath, List.splitOn_append_cons_self, components, List.map_append]
      rfl

theorem sameNames_iff {pieces others : List Bytes} :
    pieces.map Utf8.lossy = others.map Utf8.lossy ↔ SameNames pieces others := by
  rw [← List.forall₂_eq_eq_eq, List.forall₂_map_left_iff, List.forall₂_map_right_iff]
  simp only [Utf8.lossy_eq_iff]
  rfl

theorem shownPath_eq_iff (nonempty : names ≠ []) (legal : ∀ name ∈ names, LegalName name) (filled : other ≠ [])
    (legalOther : ∀ name ∈ other, LegalName name) :
    entity.shownPath names = under.shownPath other ↔ SameNames (entity.pieces names) (under.pieces other) := by
  rw [← sameNames_iff, ← shownPath_pieces nonempty legal, ← shownPath_pieces filled legalOther]
  constructor
  · exact congrArg _
  · intro same
    have joined := congrArg (List.intercalate [separator]) same
    rwa [List.intercalate_splitOn, List.intercalate_splitOn] at joined

theorem landing_lossy (pieces : List Bytes) :
    landing (pieces.map Utf8.lossy) = (landing pieces).map (List.map Utf8.lossy) := by
  have kept : (pieces.map Utf8.lossy).filter (fun piece => piece ≠ [] ∧ piece ≠ [46]) =
      (pieces.filter fun piece => piece ≠ [] ∧ piece ≠ [46]).map Utf8.lossy := by
    rw [List.filter_map]
    congr 1
    refine List.filter_congr fun piece _ => ?_
    simp only [Function.comp_apply, ne_eq, Utf8.lossy_eq_nil, lossy_eq_dot]
  have dots : [46, 46] ∈ pieces.map Utf8.lossy ↔ [46, 46] ∈ pieces := by
    rw [List.mem_map]
    constructor
    · intro shows
      obtain ⟨piece, member, shown⟩ := shows
      exact lossy_eq_dots.mp shown ▸ member
    · intro member
      exact ⟨[46, 46], member, lossy_eq_dots.mpr rfl⟩
  unfold landing
  dsimp only
  rw [kept]
  by_cases refused : (pieces.filter fun piece => piece ≠ [] ∧ piece ≠ [46]) = [] ∨ [46, 46] ∈ pieces
  · rw [if_pos refused, if_pos (refused.imp List.map_eq_nil_iff.mpr dots.mpr)]
    rfl
  · rw [if_neg refused, if_neg fun shown => refused (shown.imp List.map_eq_nil_iff.mp dots.mp)]
    rfl

/-- Two paths are unpacked in one place exactly if their pieces lead there. -/
theorem collide_iff {pieces others : List Bytes} : Collide pieces others ↔
    ∃ names, landing (pieces.map Utf8.lossy) = some names ∧ landing (others.map Utf8.lossy) = some names := by
  rw [landing_lossy, landing_lossy, Collide]
  cases landing pieces with
  | none => simp
  | some names =>
      cases landing others with
      | none => simp
      | some taken => simp [← sameNames_iff, eq_comm]

end Shown

theorem map_eq_of_forall₂ {related : α → β → Prop} {items : List α} {images : List β}
    (paired : List.Forall₂ related items images) {left : α → γ} {right : β → γ}
    (same : ∀ item image, related item image → right image = left item) : images.map right = items.map left := by
  induction paired with
  | nil => rfl
  | cons here _ ih => rw [List.map_cons, List.map_cons, same _ _ here, ih]

theorem tar_shown {crate : Tar.HeaderCrate} {source : Path} {scanned : List ScannedEntry} {archive : Tar.TarArchive}
    (created : Tar.TarArchive.createFrom crate source scanned = .ok archive) :
    archive.entries.map (fun entry => (entry.info.path, entry.info.isDir)) =
      scanned.map fun item => (item.relativePath, item.isDir) := by
  refine map_eq_of_forall₂ (Tar.TarArchive.createFrom_describes created).2 fun item entry described => ?_
  rw [described.2]
  rfl

theorem zip_shown (scanned : List ScannedEntry) :
    (Zip.ZipArchive.createFrom scanned).entries.map (fun entry => (entry.nameBytes, entry.isDir)) =
      scanned.map fun item => (item.relativePath, item.isDir) := by
  refine map_eq_of_forall₂ (Zip.ZipArchive.createFrom_planned scanned) fun item entry planned => ?_
  rw [planned.nameBytes, planned.isDir]

/-- The index finds every entry if no name occurs twice. -/
theorem pathIndex_lookup {crate : Tar.HeaderCrate} {source : Path} {scanned : List ScannedEntry} {archive : Tar.TarArchive}
    (created : Tar.TarArchive.createFrom crate source scanned = .ok archive)
    (distinct : (scanned.map fun item => item.relativePath).Nodup) {position : Nat} {entry : Tar.TarEntry}
    (here : archive.entries[position]? = some entry) : archive.pathIndex.lookup entry.info.path = some position := by
  have paths : archive.entries.map (fun entry => entry.info.path) = scanned.map fun item => item.relativePath := by
    have names := congrArg (List.map Prod.fst) (tar_shown created)
    rwa [List.map_map, List.map_map] at names
  have shown : (scanned.map fun item => item.relativePath)[position]? = some entry.info.path := by
    rw [← paths, List.getElem?_map, here]
    rfl
  rw [Tar.TarArchive.createFrom_pathIndex created]
  refine lookup_of_mem ?_ (List.mem_reverse.mpr (List.mk_mem_zipIdx_iff_getElem?.mpr shown))
  rw [List.map_reverse, List.nodup_reverse, List.zipIdx_map_fst]
  exact distinct

section Scan

variable {listing : Listing}

theorem scan_distinct_iff (source : Path) (legal : listing.Legal) :
    (((placed listing).map fun found => found.2.scanned source found.1).map fun item => item.relativePath).Nodup ↔
      (placed listing).Pairwise fun one other => ¬ SameNames (one.2.pieces one.1) (other.2.pieces other.1) := by
  rw [List.map_map, List.Nodup, List.pairwise_map]
  refine List.Pairwise.iff_of_mem fun {one other} member found => not_congr ?_
  obtain ⟨nonempty, names⟩ := placed_names legal one member
  obtain ⟨filled, others⟩ := placed_names legal other found
  rw [← shownPath_eq_iff nonempty names filled others, Function.comp_apply, Function.comp_apply,
    (scanned_relativePath source one.1 one.2).1, (scanned_relativePath source other.1 other.2).1]

theorem scan_apart_iff (source : Path) (legal : listing.Legal) :
    UnpackedApart (((placed listing).map fun found => found.2.scanned source found.1).map
        fun item => (item.relativePath, item.isDir)) ↔
      (placed listing).Pairwise fun one other =>
        ¬ (one.2.isDir = false ∧ other.2.isDir = false ∧ Collide (one.2.pieces one.1) (other.2.pieces other.1)) := by
  rw [List.map_map, UnpackedApart, List.pairwise_map]
  refine List.Pairwise.iff_of_mem fun {one other} member found => ?_
  obtain ⟨nonempty, names⟩ := placed_names legal one member
  obtain ⟨filled, others⟩ := placed_names legal other found
  obtain ⟨path, isDir⟩ := scanned_relativePath source one.1 one.2
  obtain ⟨path', isDir'⟩ := scanned_relativePath source other.1 other.2
  simp only [Function.comp_apply, path, isDir, path', isDir', shownPath_pieces nonempty names,
    shownPath_pieces filled others, collide_iff, not_and, not_exists, ne_eq]

end Scan

/-- The names of an archive stay apart exactly if no two entities below the source are
confused by what becomes of backslashes, of invalid bytes, and of empty pieces and dots. -/
theorem archive_names_distinct_iff (source : Path) (stat : Stat) {listing : Listing} (legal : listing.Legal) :
    ∃ scanned, scanSource source (some (.dir stat listing)) = .ok scanned ∧
      (NamesDistinct source scanned ↔ (placed listing).Pairwise fun one other => ¬ Confusable one other) := by
  refine ⟨_, scanSource_directory source stat listing, ?_⟩
  simp only [Confusable, not_or]
  rw [List.pairwise_and_iff, ← scan_distinct_iff source legal, ← scan_apart_iff source legal]
  constructor
  · intro distinct
    exact ⟨distinct.scan, distinct.unpacked⟩
  · intro extracted
    obtain ⟨scan, unpacked⟩ := extracted
    refine ⟨scan, fun crate archive created position entry here => pathIndex_lookup created scan here, ?_, ?_, unpacked⟩
    · intro crate archive created
      rw [tar_shown created]
      exact unpacked
    · rw [zip_shown]
      exact unpacked

/-- The files `a\b` and `\xff`, and `a\xff` in a directory `c`. -/
def apartListing : Listing :=
  .cons [97, 92, 98] (.leaf (.file [1] smallStat))
    (.cons [0xFF] (.leaf (.file [2] smallStat))
      (.cons [99] (.dir smallStat (.cons [97, 0xFF] (.leaf (.file [3] smallStat)) .nil)) .nil))

theorem archive_names_distinct_apart : ∃ scanned,
    scanSource [47, 115] (some (.dir smallStat apartListing)) = .ok scanned ∧ NamesDistinct [47, 115] scanned := by
  have legal : apartListing.Legal := by decide
  obtain ⟨scanned, answered, distinct⟩ := archive_names_distinct_iff [47, 115] smallStat legal
  exact ⟨scanned, answered, distinct.mpr (by decide)⟩

theorem backslash_name_collides : Tar.backslashListing.Legal ∧ ∃ scanned,
    scanSource [47, 115] (some (.dir smallStat Tar.backslashListing)) = .ok scanned ∧
      scanned.map (fun item => item.relativePath) = [[97, 47, 98], [97, 47], [97, 47, 98]] ∧
      ¬ NamesDistinct [47, 115] scanned := by
  refine ⟨by decide, _, rfl, by decide, ?_⟩
  intro distinct
  exact absurd distinct.scan (by decide)

end Raas
