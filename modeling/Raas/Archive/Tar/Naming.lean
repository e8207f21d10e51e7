import Raas.Archive.Tar.Block
import Raas.Archive.Tar.Index

namespace Raas.Tar

open Data

/-! The paths that fit into a tar. -/

def storedName : Component → Option Bytes
  | .normal name => some name
  | _ => none

/-- A path as `set_path` stores it: its names between single separators, and the
separator at its end; `.` stands only for itself. -/
def normalized (path : Path) : Bytes :=
  let ending := if path.getLast? = some separator then [separator] else []
  if Path.components path = [.curDir] then [46] ++ ending
  else List.intercalate [separator] ((Path.components path).filterMap storedName) ++ ending

def Accepted (path : Path) : Prop :=
  Path.components path ≠ [] ∧ .parentDir ∉ Path.components path ∧ 0 ∉ path ∧ (normalized path).length ≤ nameLength

instance (path : Path) : Decidable (Accepted path) :=
  inferInstanceAs (Decidable (_ ∧ _ ∧ _ ∧ _))

/-- `set_path` takes a relative path exactly if it has a component, none of them is
`..`, there is no NUL in it, and its normalised form fits into the name field. -/
def HeaderCrate.Takes (crate : HeaderCrate) : Prop :=
  ∀ header path, Path.isAbsolute path = false →
    ((∃ done, (crate.setPath header path).1 = .ok done) ↔ Accepted path)

/-- The part of a long path that its own header keeps. -/
def truncatedPath (path : Bytes) : Bytes :=
  let front := path.take (min nameLength path.length)
  front.take (Utf8.validUpTo front)

/-- What decides whether a legal path can be put in a tar: no NUL where the header keeps
the path, and no `..` left at the end by the cut of a long one. -/
def Storable (path : Bytes) : Prop :=
  if path.length ≤ nameLength then 0 ∉ path
  else 0 ∉ truncatedPath path ∧ ((truncatedPath path).splitOn separator).getLast? ≠ some [46, 46]

instance (path : Bytes) : Decidable (Storable path) :=
  inferInstanceAs (Decidable (if path.length ≤ nameLength then 0 ∉ path
    else 0 ∉ truncatedPath path ∧ ((truncatedPath path).splitOn separator).getLast? ≠ some [46, 46]))

section Pieces

variable {path : Bytes} {components : List Bytes}

/-- A component that a legal path may have. -/
def Proper (component : Bytes) : Prop :=
  component ≠ [] ∧ separator ∉ component ∧ component ≠ [46] ∧ component ≠ [46, 46]

theorem Proper.parse {component : Bytes} (proper : Proper component) :
    Path.parseComponent component = some (.normal component) := by
  unfold Path.parseComponent
  split
  · exact absurd rfl proper.1
  · exact absurd rfl proper.2.2.1
  · exact absurd rfl proper.2.2.2
  · rfl

theorem parse_all (proper : ∀ component ∈ components, Proper component) :
    components.filterMap Path.parseComponent = components.map .normal := by
  rw [List.filterMap_congr fun component member => (proper component member).parse, List.filterMap_eq_map']

theorem stored_all (components : List Bytes) :
    (components.map Component.normal).filterMap storedName = components := by
  rw [List.filterMap_map]
  exact List.filterMap_some

theorem relative_of_pieces {first : Bytes} {others : List Bytes} (pieces : path.splitOn separator = first :: others)
    (nonempty : first ≠ []) : Path.isAbsolute path = false := by
  cases path with
  | nil => rfl
  | cons byte rest =>
      by_cases slash : byte = separator
      · subst slash
        rw [List.splitOn_cons_eq_if_modifyHead, if_pos (by simp)] at pieces
        exact absurd (List.cons.inj pieces).1.symm nonempty
      · simp [Path.isAbsolute, slash]

theorem components_of_pieces {first : Bytes} {others : List Bytes} (pieces : path.splitOn separator = first :: others)
    (nonempty : first ≠ []) (undotted : first ≠ [46]) :
    Path.components path = (first :: others).filterMap Path.parseComponent := by
  have relative := relative_of_pieces pieces nonempty
  have head : (first :: others).head? ≠ some [46] := by
    rw [List.head?_cons]
    exact fun dot => undotted (Option.some.inj dot)
  simp only [Path.components, relative, pieces, Bool.false_eq_true, if_false, if_neg head, List.nil_append]

theorem getLast?_of_pieces (pieces : path.splitOn separator = components ++ [[]]) (nonempty : components ≠ []) :
    path.getLast? = some separator := by
  have whole : path = List.intercalate [separator] (components ++ [[]]) := by
    rw [← pieces, List.intercalate_splitOn]
  rw [whole, intercalate_append nonempty, List.getLast?_concat]

/-- A path ends with a separator only if its last piece is empty. -/
theorem ends_of_pieces {last : Bytes} (pieces : path.splitOn separator = components ++ [last]) (filled : last ≠ []) :
    path.getLast? ≠ some separator := by
  intro ends
  obtain ⟨front, rfl⟩ := List.getLast?_eq_some_iff.mp ends
  rw [List.splitOn_append_cons_self, List.splitOn_nil] at pieces
  have same : [[]] = [last] := (List.append_inj' pieces rfl).2
  exact filled (List.cons.inj same).1.symm

/-- The pieces of a legal path: its components, and an empty one after a separator at the end. -/
theorem PlainPath.pieces (plain : PlainPath path) : ∃ components, components ≠ [] ∧
    (∀ component ∈ components, Proper component) ∧
    (path.splitOn separator = components ∨ path.splitOn separator = components ++ [[]]) := by
  obtain ⟨components, nonempty, proper, joined⟩ := plain
  refine ⟨components, nonempty, proper, ?_⟩
  rcases joined with rfl | rfl
  · exact .inl (List.splitOn_intercalate separator (fun component member => (proper component member).2.1) nonempty)
  · right
    have closed : List.intercalate [separator] components ++ [separator] =
        List.intercalate [separator] (components ++ [[]]) := (intercalate_append nonempty []).symm
    rw [closed]
    apply List.splitOn_intercalate
    · intro component member
      rcases List.mem_append.mp member with inside | last
      · exact (proper component inside).2.1
      · rw [List.mem_singleton.mp last]
        exact List.not_mem_nil
    · simp

theorem normalized_of_names (parsed : Path.components path = components.map .normal) :
    normalized path = List.intercalate [separator] components ++
      if path.getLast? = some separator then [separator] else [] := by
  have named : components.map Component.normal ≠ [.curDir] := by
    intro dot
    have member : Component.curDir ∈ components.map Component.normal := by rw [dot]; exact List.mem_singleton_self _
    simp at member
  simp only [normalized, parsed, if_neg named, stored_all]

theorem accepted_of_names (parsed : Path.components path = components.map .normal) (nonempty : components ≠ []) :
    Accepted path ↔ 0 ∉ path ∧ (normalized path).length ≤ nameLength := by
  have present : Path.components path ≠ [] := by
    rw [parsed]
    exact fun empty => nonempty (List.map_eq_nil_iff.mp empty)
  have rooted : .parentDir ∉ Path.components path := by simp [parsed]
  rw [Accepted, and_iff_right present, and_iff_right rooted]

theorem components_of_proper (pieces : path.splitOn separator = components) (nonempty : components ≠ [])
    (proper : ∀ component ∈ components, Proper component) : Path.components path = components.map .normal := by
  obtain ⟨first, others, rfl⟩ := List.exists_cons_of_ne_nil nonempty
  have head := proper first List.mem_cons_self
  rw [components_of_pieces pieces head.1 head.2.2.1, parse_all proper]

theorem components_of_last {last : Bytes} (pieces : path.splitOn separator = components ++ [last])
    (nonempty : components ≠ []) (proper : ∀ component ∈ components, Proper component) :
    Path.components path = components.map .normal ++ (Path.parseComponent last).toList := by
  obtain ⟨first, others, rfl⟩ := List.exists_cons_of_ne_nil nonempty
  have head := proper first List.mem_cons_self
  have parsed := components_of_pieces (List.cons_append ▸ pieces) head.1 head.2.2.1
  rw [parsed, ← List.cons_append, List.filterMap_append, parse_all proper]
  cases named : Path.parseComponent last <;> simp [named]

/-- A path whose pieces are all proper is stored as it is. -/
theorem normalized_of_proper (pieces : path.splitOn separator = components) (nonempty : components ≠ [])
    (proper : ∀ component ∈ components, Proper component) : normalized path = path := by
  obtain ⟨front, last, rfl⟩ : ∃ front last, components = front ++ [last] :=
    ⟨components.dropLast, components.getLast nonempty, (List.dropLast_append_getLast nonempty).symm⟩
  have filled := (proper last (by simp)).1
  rw [normalized_of_names (components_of_proper pieces nonempty proper), if_neg (ends_of_pieces pieces filled),
    List.append_nil, ← pieces, List.intercalate_splitOn]

theorem normalized_of_closed (pieces : path.splitOn separator = components ++ [[]]) (nonempty : components ≠ [])
    (proper : ∀ component ∈ components, Proper component) :
    Path.components path = components.map .normal ∧ normalized path = path := by
  have parsed := components_of_last pieces nonempty proper
  simp only [Path.parseComponent, Option.toList_none, List.append_nil] at parsed
  refine ⟨parsed, ?_⟩
  rw [normalized_of_names parsed, if_pos (getLast?_of_pieces pieces nonempty), ← intercalate_append nonempty, ← pieces,
    List.intercalate_splitOn]

/-- A short path of proper pieces and one more, which a cut may have left empty or with dots. -/
theorem accepted_of_pieces {last : Bytes} (pieces : path.splitOn separator = components ++ [last])
    (proper : ∀ component ∈ components, Proper component) (alone : components = [] → Proper last)
    (unmarked : separator ∉ last) (short : path.length ≤ nameLength) :
    Accepted path ↔ 0 ∉ path ∧ last ≠ [46, 46] := by
  by_cases whole : Proper last
  · have every : ∀ component ∈ components ++ [last], Proper component := by
      intro component member
      rcases List.mem_append.mp member with inside | last
      · exact proper component inside
      · exact List.mem_singleton.mp last ▸ whole
    have some : components ++ [last] ≠ [] := by simp
    rw [accepted_of_names (components_of_proper pieces some every) some, normalized_of_proper pieces some every,
      and_iff_left short, and_iff_left whole.2.2.2]
  · have nonempty : components ≠ [] := fun empty => whole (alone empty)
    have remains : last = [] ∨ last = [46] ∨ last = [46, 46] := by
      by_contra others
      simp only [not_or] at others
      exact whole ⟨others.1, unmarked, others.2.1, others.2.2⟩
    rcases remains with rfl | rfl | rfl
    · obtain ⟨parsed, stored⟩ := normalized_of_closed pieces nonempty proper
      rw [accepted_of_names parsed nonempty, stored]
      simp [short]
    · have parsed := components_of_last pieces nonempty proper
      simp only [Path.parseComponent, Option.toList_none, List.append_nil] at parsed
      have joined : path = List.intercalate [separator] components ++ separator :: [46] := by
        rw [← intercalate_append nonempty, ← pieces, List.intercalate_splitOn]
      have shorter : (normalized path).length ≤ nameLength := by
        rw [normalized_of_names parsed, if_neg (ends_of_pieces pieces (by simp)), List.append_nil]
        rw [joined, List.length_append] at short
        omega
      rw [accepted_of_names parsed nonempty]
      simp [shorter]
    · have parsed := components_of_last pieces nonempty proper
      have climbs : .parentDir ∈ Path.components path := by
        rw [parsed]
        simp [Path.parseComponent]
      simp [Accepted, climbs]

theorem PlainPath.accepted (plain : PlainPath path) : Accepted path ↔ 0 ∉ path ∧ path.length ≤ nameLength := by
  obtain ⟨components, nonempty, proper, bare | closed⟩ := plain.pieces
  · rw [accepted_of_names (components_of_proper bare nonempty proper) nonempty, normalized_of_proper bare nonempty proper]
  · obtain ⟨parsed, stored⟩ := normalized_of_closed closed nonempty proper
    rw [accepted_of_names parsed nonempty, stored]

theorem PlainPath.relative (plain : PlainPath path) : Path.isAbsolute path = false := by
  obtain ⟨components, nonempty, proper, bare | closed⟩ := plain.pieces <;>
    obtain ⟨first, others, rfl⟩ := List.exists_cons_of_ne_nil nonempty
  · exact relative_of_pieces bare (proper first List.mem_cons_self).1
  · exact relative_of_pieces closed (proper first List.mem_cons_self).1

theorem truncatedPath_eq_take (path : Bytes) :
    truncatedPath path = path.take (min (Utf8.validUpTo (path.take (min nameLength path.length)))
      (min nameLength path.length)) := by
  rw [truncatedPath, List.take_take]

theorem truncatedPath_length (valid : Utf8.Valid path) (long : nameLength < path.length) :
    96 < (truncatedPath path).length ∧ (truncatedPath path).length ≤ nameLength := by
  have kept := Utf8.validUpTo_take valid (Nat.min_le_right nameLength path.length)
  rw [truncatedPath_eq_take, List.length_take]
  simp only [nameLength] at long kept ⊢
  omega

theorem truncatedPath_pieces (plain : PlainPath path) (valid : Utf8.Valid path) (long : nameLength < path.length) :
    ∃ components last, (truncatedPath path).splitOn separator = components ++ [last] ∧
      (∀ component ∈ components, Proper component) ∧ (components = [] → Proper last) ∧ separator ∉ last := by
  obtain ⟨whole, last, full, pieces, kept, cut⟩ := splitOn_take separator path
    (min (Utf8.validUpTo (path.take (min nameLength path.length))) (min nameLength path.length))
  rw [← truncatedPath_eq_take] at pieces
  have unmarked : separator ∉ last := by
    obtain ⟨components, nonempty, proper, split⟩ := plain.pieces
    have member : full ∈ path.splitOn separator := kept.subset (by simp)
    intro marked
    have inside := cut.subset marked
    rcases split with bare | closed
    · rw [bare] at member
      exact (proper full member).2.1 inside
    · rw [closed, List.mem_append, List.mem_singleton] at member
      rcases member with member | rfl
      · exact (proper full member).2.1 inside
      · simp at inside
  refine ⟨whole, last, pieces, ?_, ?_, unmarked⟩
  · obtain ⟨components, nonempty, proper, split⟩ := plain.pieces
    have front : whole <+: components := by
      rcases split with bare | closed
      · rw [bare] at kept
        exact (List.prefix_append whole [full]).trans kept
      · rw [closed] at kept
        have shorter := kept.length_le
        simp only [List.length_append, List.length_singleton] at shorter
        exact List.prefix_of_prefix_length_le ((List.prefix_append whole [full]).trans kept)
          (List.prefix_append components [[]]) (by omega)
    exact fun component member => proper component (front.subset member)
  · intro same
    subst same
    have same : truncatedPath path = last := by
      have joined : List.intercalate [separator] ((truncatedPath path).splitOn separator) = truncatedPath path :=
        List.intercalate_splitOn separator
      rw [← joined, pieces]
      simp
    have length := (truncatedPath_length valid long).1
    rw [same] at length
    refine ⟨?_, unmarked, ?_, ?_⟩ <;>
    · intro same
      subst same
      simp at length

theorem truncatedPath_accepted (plain : PlainPath path) (valid : Utf8.Valid path) (long : nameLength < path.length) :
    Path.isAbsolute (truncatedPath path) = false ∧ (Accepted (truncatedPath path) ↔ Storable path) := by
  obtain ⟨components, last, pieces, proper, alone, unmarked⟩ := truncatedPath_pieces plain valid long
  refine ⟨?_, ?_⟩
  · cases components with
    | nil => exact relative_of_pieces pieces (alone rfl).1
    | cons first others => exact relative_of_pieces pieces (proper first List.mem_cons_self).1
  · have ending : ((truncatedPath path).splitOn separator).getLast? = some last := by
      rw [pieces, List.getLast?_concat]
    rw [accepted_of_pieces pieces proper alone unmarked (truncatedPath_length valid long).2, Storable,
      if_neg (Nat.not_le.mpr long), ending, ne_eq, ne_eq, Option.some.injEq]

end Pieces

section Headers

variable {crate : HeaderCrate} {info : FileInfo}

/-- What `create_header` accepts, path by path. -/
theorem createHeader_ok_iff (takes : crate.Takes) (plain : PlainPath info.path) (valid : Utf8.Valid info.path) :
    (∃ header, createHeader crate info = .ok header) ↔ Storable info.path := by
  have direct := takes (entryHeader crate info) info.path plain.relative
  rw [plain.accepted] at direct
  rcases placed : crate.setPath (entryHeader crate info) info.path with ⟨result, header⟩
  rw [placed] at direct
  cases result with
  | ok done =>
      obtain ⟨clean, short⟩ := direct.mp ⟨done, rfl⟩
      simp only [createHeader, setPathWithGnuExtension, placed, Storable, if_pos short]
      exact ⟨fun _ => clean, fun _ => ⟨_, rfl⟩⟩
  | error reason =>
      by_cases short : info.path.length ≤ nameLength
      · simp only [createHeader, setPathWithGnuExtension, placed, Storable, if_pos short]
        constructor
        · intro named
          obtain ⟨made, answer⟩ := named
          cases answer
        · intro clean
          obtain ⟨done, answer⟩ := direct.mpr ⟨clean, short⟩
          cases answer
      · obtain ⟨relative, accepted⟩ := truncatedPath_accepted plain valid (Nat.lt_of_not_le short)
        have again := takes header (truncatedPath info.path) relative
        rw [accepted] at again
        rw [← again]
        rcases stored : crate.setPath header (truncatedPath info.path) with ⟨result, last⟩
        simp only [truncatedPath] at stored
        simp only [createHeader, setPathWithGnuExtension, placed, if_neg short, longPathHeader, stored]
        cases result with
        | ok done => exact ⟨fun _ => ⟨done, rfl⟩, fun _ => ⟨_, rfl⟩⟩
        | error reason =>
            constructor
            · intro named
              obtain ⟨made, answer⟩ := named
              cases answer
            · intro named
              obtain ⟨done, answer⟩ := named
              cases answer

theorem createLoop_ok_iff {scanned : List ScannedEntry} {entries : List TarEntry} {pathIndex : List (Bytes × Nat)}
    {currentPos : Nat} : (∃ result, createLoop crate scanned entries pathIndex currentPos = .ok result) ↔
      ∀ item ∈ scanned, ∃ header, createHeader crate (FileInfo.ofScanned item) = .ok header := by
  induction scanned generalizing entries pathIndex currentPos with
  | nil => simp [createLoop]
  | cons item rest ih =>
      rw [createLoop, List.forall_mem_cons]
      cases created : createHeader crate (FileInfo.ofScanned item) with
      | error reason => simp
      | ok header => simp [ih]

end Headers

/-- A legal path gets a header, and a tree whose paths are legal an archive, if and only
if the paths are storable: a long path is not if the cut leaves `..` at its end. -/
theorem legal_paths_storable_iff {crate : HeaderCrate} (takes : crate.Takes) :
    (∀ info : FileInfo, PlainPath info.path → Utf8.Valid info.path →
      ((∃ header, createHeader crate info = .ok header) ↔ Storable info.path)) ∧
    ∀ (sourcePath : Path) (scanned : List ScannedEntry),
      (∀ item ∈ scanned, PlainPath item.relativePath ∧ Utf8.Valid item.relativePath) →
      ((∃ archive, TarArchive.createFrom crate sourcePath scanned = .ok archive) ↔
        ∀ item ∈ scanned, Storable item.relativePath) := by
  refine ⟨fun info plain valid => createHeader_ok_iff takes plain valid, ?_⟩
  intro sourcePath scanned legal
  have built : (∃ archive, TarArchive.createFrom crate sourcePath scanned = .ok archive) ↔
      ∃ result, createLoop crate scanned [] [] 0 = .ok result := by
    unfold TarArchive.createFrom
    cases createLoop crate scanned [] [] 0 with
    | error reason => simp
    | ok result => simp
  rw [built, createLoop_ok_iff]
  apply forall₂_congr
  intro item member
  exact createHeader_ok_iff takes (legal item member).1 (legal item member).2

/-- The tar crate over blocks, with the paths that it refuses. -/
def pathCrate : HeaderCrate where
  Header := Block
  newGnu := blockCrate.newGnu
  setSize := blockCrate.setSize
  setEntryType := blockCrate.setEntryType
  setMode := blockCrate.setMode
  setUid := blockCrate.setUid
  setGid := blockCrate.setGid
  setMtime := blockCrate.setMtime
  setCksum := blockCrate.setCksum
  setPath := fun block path =>
    if Accepted path then
      (.ok (), block.set .name ⟨paddedName (normalized path), paddedName_length (normalized path)⟩)
    else (.error { kind := .invalidInput, message := "paths in archives must be relative, short and without `..`" }, block)
  writeName := blockCrate.writeName
  asBytes := blockCrate.asBytes
  asBytes_length := blockCrate.asBytes_length

theorem pathCrate_takes : pathCrate.Takes := by
  intro block path _
  unfold pathCrate
  dsimp only
  by_cases accepted : Accepted path
  · simp only [accepted, iff_true]
    exact ⟨(), rfl⟩
  · simp [accepted]

/-- A directory name of 97 letters and a file named `..data` in it. -/
def dottedPath : Bytes := List.replicate 97 97 ++ [47, 46, 46, 100, 97, 116, 97]

def dottedInfo : FileInfo := { path := dottedPath, offset := 0, size := 1, isDir := false, mode := 0o644, mtime := 0 }

/-- A directory name of 97 letters and a file named `.data` in it. -/
def longEntry : ScannedEntry :=
  .file (List.replicate 97 97 ++ [47, 46, 100, 97, 116, 97])
    ([47, 115, 47] ++ List.replicate 97 97 ++ [47, 46, 100, 97, 116, 97]) [1] smallStat

/-- The cut of a path of 103 bytes ends in `.da`. -/
theorem legal_paths_storable_small :
    (∃ archive, TarArchive.createFrom pathCrate [47, 115] (longEntry :: smallScan) = .ok archive) ∧
      longEntry.relativePath.length = 103 := by
  have plain : ∀ item ∈ longEntry :: smallScan, PlainPath item.relativePath := by
    intro item member
    rcases List.mem_cons.mp member with rfl | member
    · exact ⟨[List.replicate 97 97, [46, 100, 97, 116, 97]], by decide, by decide, .inl rfl⟩
    · exact smallScan_plain item member
  have valid : ∀ item ∈ longEntry :: smallScan, Utf8.Valid item.relativePath := by decide +kernel
  have storable : ∀ item ∈ longEntry :: smallScan, Storable item.relativePath := by decide +kernel
  have stored := (legal_paths_storable_iff pathCrate_takes).2 [47, 115] (longEntry :: smallScan)
    fun item member => ⟨plain item member, valid item member⟩
  exact ⟨stored.mpr storable, rfl⟩

/-- The first hundred bytes of `…/..data` end in `..`, which the crate refuses. -/
theorem dotted_path_refused :
    pathCrate.Takes ∧ PlainPath dottedInfo.path ∧ Utf8.Valid dottedInfo.path ∧
      ¬ ∃ header, createHeader pathCrate dottedInfo = .ok header := by
  have plain : PlainPath dottedInfo.path := ⟨[List.replicate 97 97, [46, 46, 100, 97, 116, 97]], by decide, by decide, .inl rfl⟩
  have valid : Utf8.Valid dottedInfo.path := by decide +kernel
  refine ⟨pathCrate_takes, plain, valid, ?_⟩
  rw [createHeader_ok_iff pathCrate_takes plain valid]
  decide +kernel

end Raas.Tar
