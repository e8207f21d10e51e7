import Raas.Archive.Dispatch

namespace Raas

open Data

/-! How an archive depends on the order in which directories are enumerated.

A directory's scan is a row of blocks, one for each regular file or directory in
it. Every order of the blocks can occur, so the scan does not depend on the order
exactly when all blocks of each directory are recorded alike.
-/

structure Record where
  name : Bytes
  isDir : Bool
  size : Nat
  stat : Option (Nat × Nat)
  source : Option Path
deriving DecidableEq

/-- A tar has the metadata but not the path, a zip the path of a file but not the metadata. -/
def recorded : ArchiveFormat → ScannedEntry → Record
  | .tar, item =>
      { name := item.relativePath, isDir := item.isDir, size := item.size, stat := some (item.mode, item.mtime)
        source := none }
  | .zip, item =>
      { name := item.relativePath, isDir := item.isDir, size := item.size, stat := none
        source := if item.isDir then none else some item.sourcePath }

theorem recorded_name (format : ArchiveFormat) (item : ScannedEntry) :
    (recorded format item).name = item.relativePath := by
  cases format <;> rfl

def Tar.TarEntry.record (entry : Tar.TarEntry) : Record where
  name := entry.info.path
  isDir := entry.info.isDir
  size := entry.info.size
  stat := some (entry.info.mode, entry.info.mtime)
  source := none

def Zip.ZipEntry.record (entry : Zip.ZipEntry) : Raas.Record where
  name := entry.name
  isDir := entry.isDir
  size := entry.size
  stat := none
  source := entry.sourcePath

def Archive.records : Archive → List Record
  | .tar archive => archive.entries.map Tar.TarEntry.record
  | .zip archive => archive.entries.map Zip.ZipEntry.record

section Archives

variable {crate : Tar.HeaderCrate} {scanned other : List ScannedEntry}

theorem createLoop_congr {entries : List Tar.TarEntry} {pathIndex : List (Bytes × Nat)} {currentPos : Nat}
    (same : scanned.map (recorded .tar) = other.map (recorded .tar)) :
    Tar.createLoop crate scanned entries pathIndex currentPos =
      Tar.createLoop crate other entries pathIndex currentPos := by
  induction scanned generalizing other entries pathIndex currentPos with
  | nil =>
      rw [List.map_nil, eq_comm, List.map_eq_nil_iff] at same
      rw [same]
  | cons item rest ih =>
      cases other with
      | nil => simp at same
      | cons item' rest' =>
          rw [List.map_cons, List.map_cons, List.cons.injEq] at same
          obtain ⟨here, later⟩ := same
          have info : Tar.FileInfo.ofScanned item = Tar.FileInfo.ofScanned item' := by
            simp only [recorded, Record.mk.injEq, Option.some.injEq, Prod.mk.injEq] at here
            obtain ⟨name, isDir, size, ⟨mode, mtime⟩, _⟩ := here
            simp only [Tar.FileInfo.ofScanned, name, isDir, size, mode, mtime]
          simp only [Tar.createLoop, info]
          cases Tar.createHeader crate (Tar.FileInfo.ofScanned item') with
          | error reason => rfl
          | ok header => exact ih later

theorem describes_recorded {entries : List Tar.TarEntry}
    (described : List.Forall₂ (Tar.Describes crate) scanned entries) :
    scanned.map (recorded .tar) = entries.map Tar.TarEntry.record := by
  induction described with
  | nil => rfl
  | @cons item entry scanned entries here _ ih =>
      have size := Tar.FileInfo.ofScanned_size item
      rw [List.map_cons, List.map_cons, ih, Tar.TarEntry.record, here.2]
      simp only [recorded, size]
      rfl

theorem planned_recorded {entries : List Zip.ZipEntry} (planned : List.Forall₂ Zip.Planned scanned entries) :
    scanned.map (recorded .zip) = entries.map Zip.ZipEntry.record := by
  induction planned with
  | nil => rfl
  | cons here _ ih =>
      rw [List.map_cons, List.map_cons, ih, Zip.ZipEntry.record, here.name, here.isDir, here.size, here.sourcePath]
      rfl

theorem zip_createFrom_congr (same : scanned.map (recorded .zip) = other.map (recorded .zip)) :
    Zip.ZipArchive.createFrom scanned = Zip.ZipArchive.createFrom other := by
  let unplaced (record : Record) : Zip.ZipEntry :=
    { name := record.name, nameBytes := record.name, sourcePath := record.source, size := record.size
      isDir := record.isDir, localOffset := 0, localHeaderLen := 0, localZip64 := false
      centralSizeZip64 := false, centralOffsetZip64 := false, centralOffset := 0, centralLen := 0 }
  have through : ∀ items : List ScannedEntry,
      items.map Zip.ZipEntry.ofScanned = (items.map (recorded .zip)).map unplaced := by
    intro items
    rw [List.map_map]
    rfl
  rw [Zip.ZipArchive.createFrom, Zip.ZipArchive.createFrom, through, through, same]

theorem createFrom_records {format : ArchiveFormat} {source : Path} {archive : Archive}
    (created : Archive.createFrom crate format source scanned = .ok archive) :
    archive.records = scanned.map (recorded format) := by
  cases format with
  | tar =>
      obtain ⟨tar, built, rfl⟩ := Archive.createFrom_tar created
      exact (describes_recorded (Tar.TarArchive.createFrom_describes built).2).symm
  | zip =>
      simp only [Archive.createFrom, Except.ok.injEq] at created
      subst created
      exact (planned_recorded (Zip.ZipArchive.createFrom_planned scanned)).symm

/-- Scans make the same archive exactly when they are recorded alike. -/
theorem createFrom_eq_iff {format : ArchiveFormat} {source : Path} {archive : Archive}
    (created : Archive.createFrom crate format source scanned = .ok archive) :
    Archive.createFrom crate format source other = .ok archive ↔
      other.map (recorded format) = scanned.map (recorded format) := by
  cases format with
  | tar =>
      obtain ⟨tar, built, rfl⟩ := Archive.createFrom_tar created
      constructor
      · intro again
        rw [← createFrom_records again, ← createFrom_records created]
      · intro same
        rw [← created, Archive.createFrom, Archive.createFrom, Tar.TarArchive.createFrom, Tar.TarArchive.createFrom,
          createLoop_congr same]
  | zip =>
      rw [← created]
      simp only [Archive.createFrom, Except.ok.injEq, Archive.zip.injEq]
      constructor
      · intro same
        rw [planned_recorded (Zip.ZipArchive.createFrom_planned other), same,
          ← planned_recorded (Zip.ZipArchive.createFrom_planned scanned)]
      · exact zip_createFrom_congr

end Archives

/-! Blocks. -/

def nodeBlocks (basePath : Path) (here : Location) : Node → List (List ScannedEntry)
  | .leaf (.file content stat) => [[.file (relativeString here) (pathOf basePath here) content stat]]
  | .leaf _ => []
  | .dir stat children =>
      [.directory (relativeString here ++ [separator]) (pathOf basePath here) stat :: scanDir basePath here children]

def blocks (basePath : Path) (below : Location) : Listing → List (List ScannedEntry)
  | .nil => []
  | .leaf name kind rest => nodeBlocks basePath (below ++ [name]) (.leaf kind) ++ blocks basePath below rest
  | .dir name stat children rest =>
      nodeBlocks basePath (below ++ [name]) (.dir stat children) ++ blocks basePath below rest

def Alike (format : ArchiveFormat) (rows : List (List ScannedEntry)) : Prop :=
  ∀ left ∈ rows, ∀ right ∈ rows, left.map (recorded format) = right.map (recorded format)

instance (format : ArchiveFormat) (rows : List (List ScannedEntry)) : Decidable (Alike format rows) :=
  inferInstanceAs (Decidable (∀ left ∈ rows, ∀ right ∈ rows, left.map (recorded format) = right.map (recorded format)))

/-- In every directory below, all blocks are recorded alike. -/
def AlikeBelow (format : ArchiveFormat) (basePath : Path) (below : Location) : Listing → Prop
  | .nil => True
  | .leaf _ _ rest => AlikeBelow format basePath below rest
  | .dir name _ children rest =>
      Alike format (blocks basePath (below ++ [name]) children) ∧
        AlikeBelow format basePath (below ++ [name]) children ∧ AlikeBelow format basePath below rest

/-- In no directory of the tree are there two regular files or directories that the
archive records differently. -/
def Uniform (format : ArchiveFormat) (basePath : Path) (below : Location) (listing : Listing) : Prop :=
  Alike format (blocks basePath below listing) ∧ AlikeBelow format basePath below listing

def UniformNode (format : ArchiveFormat) (basePath : Path) (here : Location) : Node → Prop
  | .leaf _ => True
  | .dir _ children => Uniform format basePath here children

section Blocks

variable {format : ArchiveFormat} {basePath : Path} {below : Location} {listing order : Listing}

theorem blocks_cons (basePath : Path) (below : Location) (name : Bytes) (node : Node) (rest : Listing) :
    blocks basePath below (.cons name node rest) =
      nodeBlocks basePath (below ++ [name]) node ++ blocks basePath below rest := by
  cases node <;> rfl

theorem alikeBelow_cons {name : Bytes} {node : Node} {rest : Listing} :
    AlikeBelow format basePath below (.cons name node rest) ↔
      UniformNode format basePath (below ++ [name]) node ∧ AlikeBelow format basePath below rest := by
  cases node with
  | leaf kind => exact ⟨fun alike => ⟨trivial, alike⟩, And.right⟩
  | dir stat children => exact and_assoc.symm

theorem blocks_flatten (basePath : Path) (below : Location) (listing : Listing) :
    (blocks basePath below listing).flatten = scanDir basePath below listing := by
  induction listing with
  | nil => rfl
  | leaf name kind rest ih =>
      cases kind with
      | file content stat => simp [blocks, nodeBlocks, scanDir, ih]
      | symlink target => simp [blocks, nodeBlocks, scanDir, ih]
      | special => simp [blocks, nodeBlocks, scanDir, ih]
  | dir name stat children rest inside later => simp [blocks, nodeBlocks, scanDir, later]

theorem scanDir_recorded (format : ArchiveFormat) (basePath : Path) (below : Location) (listing : Listing) :
    (scanDir basePath below listing).map (recorded format) =
      ((blocks basePath below listing).map (List.map (recorded format))).flatten := by
  rw [← blocks_flatten, List.map_flatten]

theorem flatten_eq_of_perm {left right : List (List α)} (perm : left.Perm right)
    (same : ∀ one ∈ left, ∀ another ∈ left, one = another) : left.flatten = right.flatten := by
  cases left with
  | nil => rw [perm.nil_eq]
  | cons first rest =>
      have constant : first :: rest = List.replicate (first :: rest).length first :=
        List.eq_replicate_of_mem fun piece member => same piece member first (by simp)
      rw [constant] at perm ⊢
      rw [List.perm_replicate.mp perm.symm]

theorem Alike.perm {rows rows' : List (List ScannedEntry)} (alike : Alike format rows)
    (perm : (rows.map (List.map (recorded format))).Perm (rows'.map (List.map (recorded format)))) :
    Alike format rows' := by
  have back : ∀ row ∈ rows', ∃ original ∈ rows, original.map (recorded format) = row.map (recorded format) :=
    fun row member => List.mem_map.mp (perm.symm.subset (List.mem_map_of_mem member))
  intro left leftMember right rightMember
  obtain ⟨first, firstMember, firstSame⟩ := back left leftMember
  obtain ⟨second, secondMember, secondSame⟩ := back right rightMember
  rw [← firstSame, ← secondSame]
  exact alike first firstMember second secondMember

theorem Alike.flatten_eq {rows rows' : List (List ScannedEntry)} (alike : Alike format rows)
    (perm : (rows.map (List.map (recorded format))).Perm (rows'.map (List.map (recorded format)))) :
    (rows.map (List.map (recorded format))).flatten = (rows'.map (List.map (recorded format))).flatten := by
  apply flatten_eq_of_perm perm
  intro one oneMember another anotherMember
  obtain ⟨left, leftMember, rfl⟩ := List.mem_map.mp oneMember
  obtain ⟨right, rightMember, rfl⟩ := List.mem_map.mp anotherMember
  exact alike left leftMember right rightMember

/-- Another order has the same blocks, if what is below is uniform. -/
theorem reordered_blocks (reordered : listing.Reordered order) (alike : AlikeBelow format basePath below listing) :
    ((blocks basePath below listing).map (List.map (recorded format))).Perm
        ((blocks basePath below order).map (List.map (recorded format))) ∧
      AlikeBelow format basePath below order := by
  induction reordered generalizing below with
  | nil => exact ⟨.refl _, trivial⟩
  | leaf later ih =>
      obtain ⟨perm, after⟩ := ih alike
      rw [blocks, blocks, List.map_append, List.map_append]
      exact ⟨perm.append_left _, after⟩
  | @dir name stat children children' rest rest' inside later insideIH laterIH =>
      obtain ⟨uniform, deeper, alike⟩ := alike
      obtain ⟨insidePerm, insideAfter⟩ := insideIH deeper
      obtain ⟨perm, after⟩ := laterIH alike
      refine ⟨?_, uniform.perm insidePerm, insideAfter, after⟩
      have same := uniform.flatten_eq insidePerm
      rw [← scanDir_recorded, ← scanDir_recorded] at same
      simp only [blocks, nodeBlocks, List.map_append, List.map_cons, List.map_nil, same]
      exact perm.append_left _
  | swap name other node node' rest =>
      rw [alikeBelow_cons, alikeBelow_cons] at alike ⊢
      obtain ⟨here, there, alike⟩ := alike
      refine ⟨?_, there, here, alike⟩
      simp only [blocks_cons, List.map_append]
      exact List.perm_append_comm_assoc _ _ _
  | trans left right leftIH rightIH =>
      obtain ⟨perm, middle⟩ := leftIH alike
      obtain ⟨perm', after⟩ := rightIH middle
      exact ⟨perm.trans perm', after⟩

theorem scanDir_reordered (reordered : listing.Reordered order) :
    (scanDir basePath below listing).Perm (scanDir basePath below order) := by
  induction reordered generalizing below with
  | nil => exact .refl _
  | @leaf name kind rest rest' later ih =>
      cases kind with
      | file content stat => exact ih.cons _
      | symlink target => exact ih
      | special => exact ih
  | dir inside later insideIH laterIH => exact (insideIH.append laterIH).cons _
  | swap name other node node' rest =>
      rw [← blocks_flatten, ← blocks_flatten]
      simp only [blocks_cons, List.flatten_append]
      exact List.perm_append_comm_assoc _ _ _
  | trans left right leftIH rightIH => exact leftIH.trans rightIH

theorem nodeBlocks_eq_singleton {here : Location} {node : Node} {block : List ScannedEntry}
    (member : block ∈ nodeBlocks basePath here node) : nodeBlocks basePath here node = [block] := by
  cases node with
  | leaf kind =>
      cases kind with
      | file content stat => rw [List.mem_singleton.mp member]; rfl
      | symlink target => simp [nodeBlocks] at member
      | special => simp [nodeBlocks] at member
  | dir stat children => rw [List.mem_singleton.mp member]; rfl

theorem blocks_first {block : List ScannedEntry} (member : block ∈ blocks basePath below listing) :
    ∃ name node rest, listing.Reordered (.cons name node rest) ∧
      nodeBlocks basePath (below ++ [name]) node = [block] := by
  have step : ∀ (name : Bytes) (node : Node) (rest : Listing),
      (block ∈ blocks basePath below rest → ∃ name' node' rest', rest.Reordered (.cons name' node' rest') ∧
        nodeBlocks basePath (below ++ [name']) node' = [block]) →
      block ∈ blocks basePath below (.cons name node rest) →
      ∃ name' node' rest', (Listing.cons name node rest).Reordered (.cons name' node' rest') ∧
        nodeBlocks basePath (below ++ [name']) node' = [block] := by
    intro name node rest later member
    rw [blocks_cons, List.mem_append] at member
    rcases member with here | member
    · exact ⟨name, node, rest, .refl _, nodeBlocks_eq_singleton here⟩
    · obtain ⟨name', node', rest', reordered, is⟩ := later member
      exact ⟨name', node', .cons name node rest',
        .trans (.cons name node reordered) (.swap name name' node node' rest'), is⟩
  induction listing with
  | nil => simp [blocks] at member
  | leaf name kind rest ih => exact step name (.leaf kind) rest ih member
  | dir name stat children rest _ ih => exact step name (.dir stat children) rest ih member

end Blocks

/-! Blocks that can change places are equal. -/

def Headed (row : List Record) : Prop :=
  ∃ head tail, row = head :: tail ∧ ∀ record ∈ tail, head.name.length < record.name.length

theorem Headed.length_le {left right : List Record} (leftHeaded : Headed left) (rightHeaded : Headed right)
    (commute : left ++ right = right ++ left) : right.length ≤ left.length := by
  obtain ⟨head, tail, rfl, _⟩ := leftHeaded
  obtain ⟨head', tail', rfl, longer⟩ := rightHeaded
  by_contra longest
  simp only [List.length_cons, not_le, Nat.add_lt_add_iff_right] at longest
  -- behind the shorter row stands the head of the longer one, and also a record inside it
  have found := congrArg (fun row => row[(head :: tail).length]?) commute
  simp only [List.getElem?_append_right (Nat.le_refl _), Nat.sub_self, List.getElem?_cons_zero] at found
  rw [List.length_cons, List.cons_append, List.getElem?_cons_succ, List.getElem?_append_left longest] at found
  have inside := longer head' (List.mem_of_getElem? found.symm)
  omega

theorem Headed.eq_of_commute {left right : List Record} (leftHeaded : Headed left) (rightHeaded : Headed right)
    (commute : left ++ right = right ++ left) : left = right :=
  (List.append_inj commute (Nat.le_antisymm (rightHeaded.length_le leftHeaded commute.symm)
    (leftHeaded.length_le rightHeaded commute))).1

section Necessity

variable {format : ArchiveFormat} {basePath : Path} {below : Location} {listing : Listing}

theorem scanDir_longer (legal : listing.Legal) (inside : below ≠ []) :
    ∀ item ∈ scanDir basePath below listing, (relativeString below).length + 1 < item.relativePath.length := by
  induction listing generalizing below with
  | nil => simp [scanDir]
  | leaf name kind rest ih =>
      obtain ⟨named, _, legal⟩ := legal
      intro item member
      cases kind with
      | file content stat =>
          rcases List.mem_cons.mp member with rfl | member
          · exact relativeString_longer inside named
          · exact ih legal inside item member
      | symlink target => exact ih legal inside item member
      | special => exact ih legal inside item member
  | dir name stat children rest insideIH ih =>
      obtain ⟨named, _, legalInside, legal⟩ := legal
      intro item member
      have here := relativeString_longer inside named
      rcases List.mem_cons.mp member with rfl | member
      · simp only [ScannedEntry.directory, List.length_append, List.length_singleton]
        omega
      · rcases List.mem_append.mp member with deeper | member
        · have further := insideIH legalInside (by simp) item deeper
          omega
        · exact ih legal inside item member

theorem nodeBlocks_headed {here : Location} {node : Node} (inside : here ≠ [])
    (legal : ∀ stat children, node = .dir stat children → children.Legal) :
    ∀ block ∈ nodeBlocks basePath here node, Headed (block.map (recorded format)) := by
  intro block member
  cases node with
  | leaf kind =>
      cases kind with
      | file content stat =>
          rw [List.mem_singleton.mp member]
          exact ⟨_, [], rfl, by simp⟩
      | symlink target => simp [nodeBlocks] at member
      | special => simp [nodeBlocks] at member
  | dir stat children =>
      rw [List.mem_singleton.mp member]
      refine ⟨_, _, rfl, ?_⟩
      intro record recordMember
      obtain ⟨item, itemMember, rfl⟩ := List.mem_map.mp recordMember
      have longer := scanDir_longer (legal stat children rfl) inside item itemMember
      simpa only [recorded_name, ScannedEntry.directory, List.length_append, List.length_singleton] using longer

theorem blocks_headed (legal : listing.Legal) :
    ∀ block ∈ blocks basePath below listing, Headed (block.map (recorded format)) := by
  induction listing with
  | nil => simp [blocks]
  | leaf name kind rest ih =>
      intro block member
      rcases List.mem_append.mp member with here | later
      · exact nodeBlocks_headed (by simp) (fun _ _ same => by cases same) block here
      · exact ih legal.2.2 block later
  | dir name stat children rest _ ih =>
      intro block member
      rcases List.mem_append.mp member with here | later
      · refine nodeBlocks_headed (by simp) (fun _ _ same => ?_) block here
        cases same
        exact legal.2.2.1
      · exact ih legal.2.2.2 block later

/-- No order of the directories changes what is recorded. -/
def Settled (format : ArchiveFormat) (basePath : Path) (below : Location) (listing : Listing) : Prop :=
  ∀ order, listing.Reordered order →
    (scanDir basePath below order).map (recorded format) = (scanDir basePath below listing).map (recorded format)

theorem scanDir_cons (name : Bytes) (node : Node) (rest : Listing) :
    scanDir basePath below (.cons name node rest) =
      (nodeBlocks basePath (below ++ [name]) node).flatten ++ scanDir basePath below rest := by
  rw [← blocks_flatten, blocks_cons, List.flatten_append, blocks_flatten]

theorem Settled.rest {name : Bytes} {node : Node} {rest : Listing}
    (settled : Settled format basePath below (.cons name node rest)) : Settled format basePath below rest := by
  intro order reordered
  have whole := settled (.cons name node order) (.cons name node reordered)
  simp only [scanDir_cons, List.map_append] at whole
  exact List.append_cancel_left whole

theorem Settled.children {name : Bytes} {stat : Stat} {children rest : Listing}
    (settled : Settled format basePath below (.dir name stat children rest)) :
    Settled format basePath (below ++ [name]) children := by
  intro order reordered
  have whole := settled (.dir name stat order rest) (.dir reordered (.refl rest))
  simp only [scanDir, List.map_cons, List.map_append, List.cons.injEq, true_and] at whole
  exact List.append_cancel_right whole

theorem Settled.exchange {name : Bytes} {node : Node} {rest : Listing}
    (settled : Settled format basePath below (.cons name node rest)) (legal : rest.Legal)
    {own block : List ScannedEntry} (ownMember : own ∈ nodeBlocks basePath (below ++ [name]) node)
    (ownHeaded : Headed (own.map (recorded format))) (member : block ∈ blocks basePath below rest) :
    own.map (recorded format) = block.map (recorded format) := by
  obtain ⟨other, node', rest', reordered, single⟩ := blocks_first member
  have first := settled _ (.cons name node reordered)
  have second := settled _ (.trans (.cons name node reordered) (.swap name other node node' rest'))
  have same := first.trans second.symm
  simp only [scanDir_cons, single, nodeBlocks_eq_singleton ownMember, List.flatten_singleton, List.map_append, ← List.append_assoc] at same
  exact ownHeaded.eq_of_commute (blocks_headed legal block member) (List.append_cancel_right same)

theorem Settled.alike {name : Bytes} {node : Node} {rest : Listing}
    (settled : Settled format basePath below (.cons name node rest)) (legal : rest.Legal)
    (headed : ∀ block ∈ nodeBlocks basePath (below ++ [name]) node, Headed (block.map (recorded format)))
    (alike : Alike format (blocks basePath below rest)) :
    Alike format (nodeBlocks basePath (below ++ [name]) node ++ blocks basePath below rest) := by
  intro left leftMember right rightMember
  rcases List.mem_append.mp leftMember with leftHere | leftLater
  · rcases List.mem_append.mp rightMember with rightHere | rightLater
    · rw [nodeBlocks_eq_singleton leftHere] at rightHere
      rw [List.mem_singleton.mp rightHere]
    · exact settled.exchange legal leftHere (headed left leftHere) rightLater
  · rcases List.mem_append.mp rightMember with rightHere | rightLater
    · exact (settled.exchange legal rightHere (headed right rightHere) leftLater).symm
    · exact alike left leftLater right rightLater

theorem Settled.uniform (settled : Settled format basePath below listing) (legal : listing.Legal) :
    Uniform format basePath below listing := by
  induction listing generalizing below with
  | nil => exact ⟨by simp [Alike, blocks], trivial⟩
  | leaf name kind rest ih =>
      have whole : Settled format basePath below (.cons name (.leaf kind) rest) := settled
      obtain ⟨alike, deeper⟩ := ih whole.rest legal.2.2
      refine ⟨whole.alike legal.2.2 (nodeBlocks_headed (by simp) fun _ _ same => ?_) alike, deeper⟩
      cases same
  | dir name stat children rest inside ih =>
      have whole : Settled format basePath below (.cons name (.dir stat children) rest) := settled
      obtain ⟨alike, deeper⟩ := ih whole.rest legal.2.2.2
      obtain ⟨alikeInside, deeperInside⟩ := inside settled.children legal.2.2.1
      refine ⟨whole.alike legal.2.2.2 (nodeBlocks_headed (by simp) fun _ _ same => ?_) alike,
        alikeInside, deeperInside, deeper⟩
      cases same
      exact legal.2.2.1

theorem Uniform.settled (uniform : Uniform format basePath below listing) :
    Settled format basePath below listing := by
  intro order reordered
  rw [scanDir_recorded, scanDir_recorded]
  exact (uniform.1.flatten_eq (reordered_blocks reordered uniform.2).1).symm

end Necessity

/-- A directory gives the same archive in every order of enumeration exactly when it
is uniform. -/
theorem archive_ignores_order_iff {crate : Tar.HeaderCrate} {format : ArchiveFormat} {source : Path} {stat : Stat}
    {listing : Listing} (legal : listing.Legal) {archive : Archive}
    (created : Archive.create crate format source (some (.dir stat listing)) = .ok archive) :
    (∀ order, listing.Reordered order →
        Archive.create crate format source (some (.dir stat order)) = .ok archive) ↔
      Uniform format source [] listing := by
  constructor
  · intro ignores
    refine Settled.uniform (fun order reordered => ?_) legal
    exact (createFrom_eq_iff created).mp (ignores order reordered)
  · intro uniform order reordered
    exact (createFrom_eq_iff created).mpr (uniform.settled order reordered)

end Raas
