import Raas.Archive.Scanner
import Raas.Archive.Tar.Reference
import Raas.Os.Walk

namespace Raas.Tar

open Data

/-! Which files a tar archive reads its contents from. -/

/-- A name that the archive shows as it is. -/
def Clean (name : Bytes) : Prop := Utf8.Valid name ∧ (92 : UInt8) ∉ name

instance (name : Bytes) : Decidable (Clean name) := inferInstanceAs (Decidable (_ ∧ _))

/-- A path that arrives at a location, but only by way of a symbolic link. -/
def Detour (root : Node) (path : Path) (location : Location) : Prop :=
  opens root path = some location ∧ Raas.walk root 0 [] (path.splitOn separator) ≠ some location

section Names

variable {name bytes : Bytes} {names : Location}

theorem slashed_replaces : Utf8.Replaces slashed where
  ascii := fun byte ascii => by
    unfold slashed
    split
    · decide
    · exact ascii
  other := fun byte other => by
    unfold slashed
    rw [if_neg]
    intro same
    subst same
    exact absurd other (by decide)

theorem map_slashed (clean : (92 : UInt8) ∉ bytes) : bytes.map slashed = bytes := by
  have kept : ∀ byte ∈ bytes, slashed byte = byte := by
    intro byte member
    apply if_neg
    intro same
    subst same
    exact clean member
  rw [List.map_congr_left kept, List.map_id']

theorem archivedName_clean (clean : Clean name) : archivedName name = name := by
  rw [archivedName, Utf8.lossy_eq_self.mpr clean.1, map_slashed clean.2]

theorem relativeString_clean (clean : ∀ name ∈ names, Clean name) :
    relativeString names = List.intercalate [separator] names := by
  rw [relativeString_eq]
  congr 1
  rw [List.map_congr_left fun name member => archivedName_clean (clean name member), List.map_id']

theorem clean_separator {front back : Bytes} : Clean (front ++ separator :: back) ↔ Clean front ∧ Clean back := by
  have other : (92 : UInt8) ≠ separator := by decide
  simp only [Clean, Utf8.valid_append (show separator < 0x80 by decide), List.mem_append, List.mem_cons, other,
    false_or, not_or]
  constructor
  · intro both
    obtain ⟨⟨left, right⟩, notLeft, notRight⟩ := both
    exact ⟨⟨left, notLeft⟩, right, notRight⟩
  · intro both
    obtain ⟨⟨left, notLeft⟩, right, notRight⟩ := both
    exact ⟨⟨left, right⟩, notLeft, notRight⟩

theorem clean_pieces {pieces : List Bytes} (clean : Clean (List.intercalate [separator] pieces)) :
    ∀ piece ∈ pieces, Clean piece := by
  induction pieces with
  | nil => simp
  | cons first rest ih =>
      cases rest with
      | nil =>
          intro piece member
          rw [List.mem_singleton.mp member]
          simpa using clean
      | cons second rest =>
          rw [List.intercalate_cons_cons, List.append_assoc, List.singleton_append, clean_separator] at clean
          intro piece member
          rcases List.mem_cons.mp member with rfl | later
          · exact clean.1
          · exact ih clean.2 piece later

theorem clean_trim (clean : Clean bytes) : Clean (Path.trimEndSlashes bytes) := by
  induction bytes using List.reverseRecOn with
  | nil => exact clean
  | append_singleton front last ih =>
      rw [Path.trimEndSlashes, List.rdropWhile_concat]
      split
      · rename_i slash
        rw [beq_iff_eq] at slash
        subst slash
        exact ih (clean_separator.mp clean).1
      · exact clean

theorem relativeString_is_clean (names : Location) : Clean (relativeString names) := by
  refine ⟨slashed_replaces.valid (Utf8.lossy_valid _), ?_⟩
  intro member
  obtain ⟨byte, _, same⟩ := List.mem_map.mp member
  unfold slashed at same
  split at same
  · exact absurd same (by decide)
  · contradiction

theorem relativeString_pieces (names : Location) :
    ∀ piece ∈ (Path.trimEndSlashes (relativeString names)).splitOn separator, Clean piece := by
  apply clean_pieces
  rw [List.intercalate_splitOn]
  exact clean_trim (relativeString_is_clean names)

theorem trimEndSlashes_names (legal : ∀ name ∈ names, LegalName name) :
    Path.trimEndSlashes (List.intercalate [separator] names) = List.intercalate [separator] names := by
  rw [Path.trimEndSlashes, List.rdropWhile_eq_self_iff]
  intro nonempty last
  rw [beq_iff_eq] at last
  exact intercalate_ends legal (by rw [List.getLast?_eq_some_getLast nonempty, last])

end Names

/-- The regular files below a directory. -/
def files : Listing → List Location
  | .nil => []
  | .leaf name (.file _ _) rest => [name] :: files rest
  | .leaf _ _ rest => files rest
  | .dir name _ children rest => (files children).map (name :: ·) ++ files rest

section Files

variable {listing : Listing}

theorem scanDir_files (basePath : Path) (below : Location) (listing : Listing) (holds : Bytes → Path → Prop) :
    (∀ item ∈ scanDir basePath below listing, item.isDir = false → holds item.relativePath item.sourcePath) ↔
      ∀ names ∈ files listing, holds (relativeString (below ++ names)) (pathOf basePath (below ++ names)) := by
  induction listing generalizing below with
  | nil => simp [scanDir, files]
  | leaf name kind rest ih =>
      cases kind with
      | file content stat =>
          simp only [scanDir, files, List.forall_mem_cons, ih]
          simp [ScannedEntry.file]
      | symlink target => exact ih below
      | special => exact ih below
  | dir name stat children rest inside later =>
      simp only [scanDir, files, List.forall_mem_cons, List.forall_mem_append, inside, later, List.forall_mem_map]
      simp [ScannedEntry.directory]

theorem lookup_cons {name : Bytes} {node found : Node} {rest : Listing} {names : Location} (stat : Stat)
    (fresh : name ∉ rest.names) (nonempty : names ≠ []) (reached : (Node.dir stat rest).lookup names = some found) :
    (Node.dir stat (.cons name node rest)).lookup names = some found := by
  cases names with
  | nil => exact absurd rfl nonempty
  | cons first more =>
      rw [Node.lookup] at reached ⊢
      cases held : rest.find? first with
      | none => simp [held] at reached
      | some inner =>
          have other : name ≠ first := by
            intro same
            subst same
            exact fresh (Listing.find?_names held)
          rw [held] at reached
          cases node with
          | leaf kind =>
              rw [Listing.cons, Listing.find?, if_neg other, held]
              exact reached
          | dir stat' children =>
              rw [Listing.cons, Listing.find?, if_neg other, held]
              exact reached

theorem files_lookup (legal : listing.Legal) {names : Location} (member : names ∈ files listing) (stat : Stat) :
    names ≠ [] ∧ ∃ content fileStat, (Node.dir stat listing).lookup names = some (.leaf (.file content fileStat)) := by
  induction listing generalizing names stat with
  | nil => simp [files] at member
  | leaf name kind rest ih =>
      have later : names ∈ files rest → names ≠ [] ∧ ∃ content fileStat,
          (Node.dir stat (.cons name (.leaf kind) rest)).lookup names = some (.leaf (.file content fileStat)) := by
        intro member
        obtain ⟨nonempty, content, fileStat, reached⟩ := ih legal.2.2 member stat
        exact ⟨nonempty, content, fileStat, lookup_cons stat legal.2.1 nonempty reached⟩
      cases kind with
      | file content fileStat =>
          rcases List.mem_cons.mp member with rfl | member
          · exact ⟨by simp, content, fileStat, by simp [Node.lookup, Listing.find?]⟩
          · exact later member
      | symlink target => exact later member
      | special => exact later member
  | dir name stat' children rest inside ih =>
      rcases List.mem_append.mp member with deeper | member
      · obtain ⟨inner, innerMember, rfl⟩ := List.mem_map.mp deeper
        obtain ⟨_, content, fileStat, reached⟩ := inside legal.2.2.1 innerMember stat'
        exact ⟨by simp, content, fileStat, by simpa [Node.lookup, Listing.find?] using reached⟩
      · obtain ⟨nonempty, content, fileStat, reached⟩ := ih legal.2.2.2 member stat
        have whole : (Node.dir stat (.cons name (.dir stat' children) rest)).lookup names =
            some (.leaf (.file content fileStat)) := lookup_cons stat legal.2.1 nonempty reached
        exact ⟨nonempty, content, fileStat, whole⟩

end Files

section Opening

variable {root : Node} {location names : Location} {stat : Stat} {listing : Listing}

theorem clean_of_direct (legal : root.Legal) (here : root.lookup location = some (.dir stat listing))
    (direct : Raas.walk root 0 [] ((Path.join (pathOf [separator] location)
      (Path.trimEndSlashes (relativeString names))).splitOn separator) = some (location ++ names)) :
    ∀ name ∈ names, Clean name := by
  have pieces := relativeString_pieces names
  generalize Path.trimEndSlashes (relativeString names) = shown at direct pieces
  cases relative : Path.isAbsolute shown with
  | false =>
      rw [walk_join legal here relative] at direct
      obtain ⟨kept, pushed, fits, whole, within⟩ := walkWithin_pieces direct
      intro name member
      refine pieces name (within name ?_)
      have back : names = pushed.drop (location.length - kept) := by
        have cut := congrArg (List.drop location.length) whole
        rw [List.drop_left, List.drop_append, List.length_take, Nat.min_eq_left fits] at cut
        rw [cut, List.drop_of_length_le (by rw [List.length_take]; omega), List.nil_append]
      rw [back] at member
      exact List.mem_of_mem_drop member
  | true =>
      rw [Path.join, relative, if_pos rfl] at direct
      obtain ⟨kept, pushed, fits, whole, within⟩ := walkWithin_pieces direct
      intro name member
      refine pieces name (within name ?_)
      rw [List.take_nil, List.nil_append] at whole
      rw [← whole]
      exact List.mem_append_right _ member

theorem lookup_file (legal : root.Legal) (here : root.lookup location = some (.dir stat listing))
    (member : names ∈ files listing) :
    names ≠ [] ∧ ∃ content fileStat, root.lookup (location ++ names) = some (.leaf (.file content fileStat)) := by
  obtain ⟨nonempty, content, fileStat, reached⟩ := files_lookup (legal.lookup here).1 member stat
  refine ⟨nonempty, content, fileStat, ?_⟩
  rw [Node.lookup_append, here]
  exact reached

theorem opens_scanned (legal : root.Legal) (here : root.lookup location = some (.dir stat listing))
    (member : names ∈ files listing) :
    opens root (pathOf (pathOf [separator] location) names) = some (location ++ names) := by
  obtain ⟨nonempty, content, fileStat, reached⟩ := lookup_file legal here member
  have path : pathOf (pathOf [separator] location) names = pathOf [separator] (location ++ names) := by
    rw [pathOf, pathOf, pathOf, List.foldl_append]
  rw [path]
  exact opens_pathOf legal (by simp [nonempty]) reached (file_plain content fileStat)

/-- The path that a tar archive opens for a file leads to that file exactly when it
shows the names on the way as they are, or when a symbolic link makes up for it. -/
theorem opens_shown_iff (legal : root.Legal) (here : root.lookup location = some (.dir stat listing))
    (member : names ∈ files listing) :
    opens root (Path.join (pathOf [separator] location) (Path.trimEndSlashes (relativeString names))) =
        some (location ++ names) ↔
      (∀ name ∈ names, Clean name) ∨
        Detour root (Path.join (pathOf [separator] location) (Path.trimEndSlashes (relativeString names)))
          (location ++ names) := by
  constructor
  · intro arrives
    by_cases direct : Raas.walk root 0 [] ((Path.join (pathOf [separator] location)
        (Path.trimEndSlashes (relativeString names))).splitOn separator) = some (location ++ names)
    · exact .inl (clean_of_direct legal here direct)
    · exact .inr ⟨arrives, direct⟩
  · intro either
    rcases either with clean | detour
    · obtain ⟨nonempty, content, fileStat, reached⟩ := lookup_file legal here member
      have legalNames : ∀ name ∈ names, LegalName name :=
        fun name inside => (legal.lookup reached).2 name (List.mem_append_right _ inside)
      rw [relativeString_clean clean, trimEndSlashes_names legalNames, opens,
        walk_join legal here (intercalate_relative legalNames nonempty)]
      exact walk_names legal nonempty reached (file_plain content fileStat) maxLinks
    · exact detour.1

end Opening

/-- The regular entries of a tar are read from the very files that were scanned. -/
def ReadsScanned (root : Node) (archive : TarArchive) (scanned : List ScannedEntry) : Prop :=
  List.Forall₂ (fun item entry => item.isDir = false → ∃ found, opens root item.sourcePath = some found ∧
    opens root (sourceFilePath archive false entry) = some found) scanned archive.entries

/-- A tar and a zip of one directory carry the same files exactly when every regular
file is below names that are valid UTF-8 without a backslash, or its rewritten name
leads back to it through a symbolic link. -/
theorem tar_reads_scanned_files_iff {crate : HeaderCrate} {root : Node} (legal : root.Legal) {location : Location}
    {stat : Stat} {listing : Listing} (here : root.lookup location = some (.dir stat listing)) {archive : TarArchive}
    (created : TarArchive.createFrom crate (pathOf [separator] location)
      (scanDir (pathOf [separator] location) [] listing) = .ok archive) :
    ReadsScanned root archive (scanDir (pathOf [separator] location) [] listing) ↔
      ∀ names ∈ files listing, (∀ name ∈ names, Clean name) ∨
        Detour root (Path.join (pathOf [separator] location) (Path.trimEndSlashes (relativeString names)))
          (location ++ names) := by
  obtain ⟨source, described⟩ := TarArchive.createFrom_describes created
  let opened (shown : Bytes) (path : Path) : Prop := ∃ found, opens root path = some found ∧
    opens root (Path.join (pathOf [separator] location) (Path.trimEndSlashes shown)) = some found
  have entries : ∀ item entry, Describes crate item entry →
      ((item.isDir = false → ∃ found, opens root item.sourcePath = some found ∧
        opens root (sourceFilePath archive false entry) = some found) ↔
      (item.isDir = false → opened item.relativePath item.sourcePath)) := by
    intro item entry described
    have path : entry.info.path = item.relativePath := by
      rw [described.2]
      rfl
    rw [sourceFilePath, source, path, if_neg Bool.false_ne_true]
  rw [ReadsScanned, forall₂_iff_left described entries,
    scanDir_files (pathOf [separator] location) [] listing opened]
  refine forall₂_congr fun names member => ?_
  rw [List.nil_append, ← opens_shown_iff legal here member]
  have scanned := opens_scanned legal here member
  constructor
  · intro arrival
    obtain ⟨found, arrives, shown⟩ := arrival
    rw [scanned] at arrives
    cases arrives
    exact shown
  · exact fun shown => ⟨_, scanned, shown⟩

def plainListing : Listing := .cons [97] (.leaf (.file [1] smallStat)) .nil

/-- `/s` with the file `a\b`, and the file `b` in the directory `a`. -/
def backslashListing : Listing :=
  .cons [97, 92, 98] (.leaf (.file [1] smallStat))
    (.cons [97] (.dir smallStat (.cons [98] (.leaf (.file [2] smallStat)) .nil)) .nil)

def rootOf (listing : Listing) : Node := .dir smallStat (.cons [115] (.dir smallStat listing) .nil)

theorem tar_reads_scanned_files_plain : ∃ archive,
    TarArchive.createFrom blockCrate (pathOf [separator] [[115]])
      (scanDir (pathOf [separator] [[115]]) [] plainListing) = .ok archive ∧
    ReadsScanned (rootOf plainListing) archive (scanDir (pathOf [separator] [[115]]) [] plainListing) := by
  have legal : (rootOf plainListing).Legal := by decide
  refine ⟨_, rfl, (tar_reads_scanned_files_iff legal rfl
    (show TarArchive.createFrom blockCrate _ _ = .ok _ from rfl)).mpr ?_⟩
  intro names member
  rw [List.mem_singleton.mp member]
  exact .inl (by decide)

/-- The tar shows `a\b` as `a/b` and reads the other file under that name. -/
theorem backslash_name_reads_other_file : ∃ archive,
    TarArchive.createFrom blockCrate (pathOf [separator] [[115]])
      (scanDir (pathOf [separator] [[115]]) [] backslashListing) = .ok archive ∧
    archive.entries.head?.map (fun entry => opens (rootOf backslashListing) (sourceFilePath archive false entry)) =
      some (some [[115], [97], [98]]) ∧
    (scanDir (pathOf [separator] [[115]]) [] backslashListing).head?.map
      (fun item => opens (rootOf backslashListing) item.sourcePath) = some (some [[115], [97, 92, 98]]) := by
  refine ⟨_, rfl, ?_, ?_⟩
  · decide +kernel
  · decide +kernel

end Raas.Tar
