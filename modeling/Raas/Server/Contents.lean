import Raas.Archive.Tar.Mirrored
import Raas.Archive.Zip.Roundtrip
import Raas.Server.Serving

namespace Raas

open Data Server

/-! What is in a download: the directory as it is now. -/

namespace Entity

def content : Entity → Bytes
  | .file content _ => content
  | .directory _ => []

def stat : Entity → Stat
  | .file _ stat | .directory stat => stat

end Entity

/-- The content of a regular file. -/
def itemContent (paths : Path → Option Bytes) (item : ScannedEntry) : Bytes :=
  if item.isDir then [] else (paths item.sourcePath).getD []

section Scans

variable {paths : Path → Option Bytes} {root : Node} {location : Location} {stat : Stat} {listing order : Listing}

/-- A scan of a directory leads to what is there. -/
theorem scanned_there (legal : root.Legal) (mirrors : Mirrors root paths)
    (here : root.lookup location = some (.dir stat listing)) {found : Location × Entity}
    (member : found ∈ placed listing) (regular : found.2.isDir = false) :
    paths (pathOf [separator] (location ++ found.1)) = some found.2.content := by
  obtain ⟨names, entity⟩ := found
  have there := (mem_placed_iff (legal.lookup here).1 stat).mp member
  cases entity with
  | directory below => cases regular
  | file content below =>
      obtain ⟨nonempty, reached⟩ := Zip.entityAt_file there
      exact mirrors.reads here (List.append_ne_nil_of_right_ne_nil _ nonempty) reached

theorem scanned_path (names : Location) (entity : Entity) :
    (entity.scanned (pathOf [separator] location) names).sourcePath = pathOf [separator] (location ++ names) := by
  have path : pathOf (pathOf [separator] location) names = pathOf [separator] (location ++ names) := by
    rw [pathOf, pathOf, pathOf, List.foldl_append]
  cases entity <;> exact path

theorem scanned_itemContent (legal : root.Legal) (mirrors : Mirrors root paths)
    (here : root.lookup location = some (.dir stat listing)) {found : Location × Entity}
    (member : found ∈ placed listing) :
    itemContent paths (found.2.scanned (pathOf [separator] location) found.1) = found.2.content := by
  obtain ⟨names, entity⟩ := found
  cases entity with
  | directory below => rfl
  | file content below =>
      have read := scanned_there legal mirrors here member rfl
      rw [itemContent, scanned_path, read]
      rfl

/-- What is scanned, in whatever order, is in the listing. -/
theorem mem_scanned (basePath : Path) (inside : listing.Reordered order) {item : ScannedEntry}
    (member : item ∈ scanDir basePath [] order) :
    ∃ found ∈ placed listing, found.2.scanned basePath found.1 = item := by
  have again := (scanDir_reordered inside).mem_iff.mpr member
  rw [scanDir_eq_map] at again
  exact List.mem_map.mp again

theorem scanned_length (basePath : Path) (inside : listing.Reordered order) :
    (scanDir basePath [] order).length = (placed listing).length := by
  have perm : (scanDir basePath [] listing).Perm (scanDir basePath [] order) := scanDir_reordered inside
  rw [← perm.length_eq, scanDir_eq_map, List.length_map]

end Scans

namespace Zip

/-- What unpacking goes by: the name, the kind and the content. -/
def Member.view (member : Member) : Bytes × Bool × Bytes := (member.name, member.isDir, member.content)

def itemView (paths : Path → Option Bytes) (item : ScannedEntry) : Bytes × Bool × Bytes :=
  (item.relativePath, item.isDir, itemContent paths item)

def placedView (found : Location × Entity) : Bytes × Bool × Bytes :=
  (found.2.shownPath found.1, found.2.isDir, found.2.content)

section Views

variable {paths : Path → Option Bytes} {root : Node} {location : Location} {stat : Stat} {listing : Listing}

theorem Recovers.view {item : ScannedEntry} {member : Member} (recovers : Recovers paths item member) :
    member.view = itemView paths item := by
  rw [Member.view, itemView, recovers.name, recovers.isDir, itemContent]
  cases directory : item.isDir with
  | true =>
      have empty := recovers.contentLength.trans (item.dirSize directory)
      rw [List.eq_nil_of_length_eq_zero empty]
      rfl
  | false =>
      rw [recovers.content directory]
      rfl

theorem recovered_views {scanned : List ScannedEntry} {members : List Member}
    (recovered : List.Forall₂ (Recovers paths) scanned members) :
    members.map Member.view = scanned.map (itemView paths) := by
  induction recovered with
  | nil => rfl
  | cons here _ ih => rw [List.map_cons, List.map_cons, ih, here.view]

theorem scanned_views (legal : root.Legal) (mirrors : Mirrors root paths)
    (here : root.lookup location = some (.dir stat listing)) :
    (scanDir (pathOf [separator] location) [] listing).map (itemView paths) = (placed listing).map placedView := by
  rw [scanDir_eq_map, List.map_map]
  apply List.map_congr_left
  intro found member
  have content := scanned_itemContent legal mirrors here member
  obtain ⟨path, isDir⟩ := scanned_relativePath (pathOf [separator] location) found.1 found.2
  change itemView paths (found.2.scanned (pathOf [separator] location) found.1) = placedView found
  rw [itemView, placedView, path, isDir, content]

/-- What is read from an archive of a scan, once it is complete. -/
theorem decode_created {scanned : List ScannedEntry} (names : ∀ item ∈ scanned, item.relativePath.length ≤ 65535)
    (count : scanned.length ≠ 65535) (fits : (ZipArchive.createFrom scanned).extent < u64Size)
    (keeps : (ZipArchive.createFrom scanned).KeepsSizes paths) (feature : CrcFeature) :
    ∃ members directoryEnd endRecords,
      decode ((ZipArchive.createFrom scanned).reference (crcOf feature paths) (entryContent paths)) =
        some (members, directoryEnd, endRecords) ∧ members.map Member.view = scanned.map (itemView paths) := by
  obtain ⟨wellFormed, _⟩ := ZipArchive.createFrom_wellFormed fits
  have planned := ZipArchive.createFrom_planned scanned
  have sizes := wellFormed.entryContent_length keeps
  have decoded := wellFormed.decode_reference (crcOf feature paths) sizes (wellFormed.encodable planned names)
    (fun entry _ => crcOf_lt feature paths entry) (by rw [← planned.length_eq]; exact count)
  refine ⟨_, _, _, decoded, recovered_views ?_⟩
  rw [List.forall₂_map_right_iff]
  exact forall₂_imp_mem planned fun item _ entry member made => made.recovers (sizes entry member) (keeps entry member)

end Views

end Zip

namespace Tar

/-- What unpacking goes by: the name, the kind, the mode, the time and the content. -/
def Member.view (member : Member) : Bytes × Bool × Nat × Nat × Bytes :=
  (member.path, member.isDir, member.mode, member.mtime, member.content)

def itemView (paths : Path → Option Bytes) (item : ScannedEntry) : Bytes × Bool × Nat × Nat × Bytes :=
  (item.relativePath, item.isDir, item.mode, item.mtime, itemContent paths item)

def placedView (found : Location × Entity) : Bytes × Bool × Nat × Nat × Bytes :=
  (found.2.shownPath found.1, found.2.isDir, entryMode found.2.stat, entryMtime found.2.stat, found.2.content)

section Views

variable {paths : Path → Option Bytes} {root : Node} {location : Location} {stat : Stat} {listing order : Listing}
  {crate : HeaderCrate} {archive : TarArchive}

theorem Recovers.view {item : ScannedEntry} {member : Member} (recovers : Recovers paths item member) :
    member.view = itemView paths item := by
  rw [Member.view, itemView, recovers.path, recovers.isDir, recovers.mode, recovers.mtime, itemContent]
  cases directory : item.isDir with
  | true =>
      have empty := recovers.contentLength.trans (item.dirSize directory)
      rw [List.eq_nil_of_length_eq_zero empty]
      rfl
  | false =>
      rw [recovers.content directory]
      rfl

theorem recovered_views {scanned : List ScannedEntry} {members : List Member}
    (recovered : List.Forall₂ (Recovers paths) scanned members) :
    members.map Member.view = scanned.map (itemView paths) := by
  induction recovered with
  | nil => rfl
  | cons here _ ih => rw [List.map_cons, List.map_cons, ih, here.view]

theorem scanned_views (legal : root.Legal) (mirrors : Mirrors root paths)
    (here : root.lookup location = some (.dir stat listing)) :
    (scanDir (pathOf [separator] location) [] listing).map (itemView paths) = (placed listing).map placedView := by
  rw [scanDir_eq_map, List.map_map]
  apply List.map_congr_left
  intro found member
  have content := scanned_itemContent legal mirrors here member
  obtain ⟨path, isDir⟩ := scanned_relativePath (pathOf [separator] location) found.1 found.2
  have mode : (found.2.scanned (pathOf [separator] location) found.1).mode = entryMode found.2.stat := by
    cases found.2 <;> rfl
  have mtime : (found.2.scanned (pathOf [separator] location) found.1).mtime = entryMtime found.2.stat := by
    cases found.2 <;> rfl
  change itemView paths (found.2.scanned (pathOf [separator] location) found.1) = placedView found
  rw [itemView, placedView, path, isDir, mode, mtime, content]

/-- Names without surprises: each file is opened by the path that was scanned. -/
theorem scanned_opened (legal : root.Legal) (here : root.lookup location = some (.dir stat listing))
    (inside : listing.Reordered order) (clean : ∀ found ∈ placed listing, ∀ name ∈ found.1, Clean name) :
    ∀ item ∈ scanDir (pathOf [separator] location) [] order,
      PlainPath item.relativePath ∧
        (item.isDir = false → openedPath (pathOf [separator] location) false item = item.sourcePath) := by
  intro item member
  obtain ⟨found, inListing, rfl⟩ := mem_scanned _ inside member
  obtain ⟨nonempty, names⟩ := placed_names (legal.lookup here).1 found inListing
  obtain ⟨path, isDir⟩ := scanned_relativePath (pathOf [separator] location) found.1 found.2
  rw [path, isDir, scanned_path]
  exact ⟨clean_plain nonempty names (clean found inListing),
    opened_clean (legal.lookup here).2 nonempty names (clean found inListing)⟩

/-- Each regular file of an archive is read from where it is in the directory. -/
theorem created_sourced (legal : root.Legal) (here : root.lookup location = some (.dir stat listing))
    (inside : listing.Reordered order) (clean : ∀ found ∈ placed listing, ∀ name ∈ found.1, Clean name)
    (created : TarArchive.createFrom crate (pathOf [separator] location)
      (scanDir (pathOf [separator] location) [] order) = .ok archive) :
    ∀ entry ∈ archive.entries, entry.info.isDir = false → ∃ found ∈ placed listing, found.2.isDir = false ∧
      sourceFilePath archive false entry = pathOf [separator] (location ++ found.1) ∧
      entry.info.size = found.2.content.length := by
  obtain ⟨source, described⟩ := TarArchive.createFrom_describes created
  intro entry member regular
  obtain ⟨item, scanned, described⟩ := forall₂_mem_right described member
  obtain ⟨found, inListing, rfl⟩ := mem_scanned _ inside scanned
  obtain ⟨path, isDir⟩ := scanned_relativePath (pathOf [separator] location) found.1 found.2
  have plain : found.2.isDir = false := by
    rw [← isDir, ← regular, described.2]
    rfl
  have opened := (scanned_opened legal here inside clean _ scanned).2 (isDir.trans plain)
  have same : sourceFilePath archive false entry =
      openedPath (pathOf [separator] location) false (found.2.scanned (pathOf [separator] location) found.1) := by
    rw [sourceFilePath, openedPath, source, described.2]
    rfl
  refine ⟨found, inListing, plain, ?_, ?_⟩
  · rw [same, opened, scanned_path]
  · rw [described.2]
    cases entity : found.2 with
    | file content stat => rfl
    | directory stat => rfl

theorem created_keepsSizes (legal : root.Legal) (mirrors : Mirrors root paths)
    (here : root.lookup location = some (.dir stat listing)) (inside : listing.Reordered order)
    (clean : ∀ found ∈ placed listing, ∀ name ∈ found.1, Clean name)
    (created : TarArchive.createFrom crate (pathOf [separator] location)
      (scanDir (pathOf [separator] location) [] order) = .ok archive) : archive.KeepsSizes false paths := by
  intro entry member regular
  obtain ⟨found, inListing, plain, path, size⟩ := created_sourced legal here inside clean created entry member regular
  refine ⟨found.2.content, ?_, size.symm⟩
  rw [path]
  exact scanned_there legal mirrors here inListing plain

/-- What a reader finds in a complete archive of a scan. -/
theorem decode_created (gnu : crate.Gnu) (legal : root.Legal) (mirrors : Mirrors root paths)
    (here : root.lookup location = some (.dir stat listing)) (inside : listing.Reordered order)
    (clean : ∀ found ∈ placed listing, ∀ name ∈ found.1, Clean name)
    (created : TarArchive.createFrom crate (pathOf [separator] location)
      (scanDir (pathOf [separator] location) [] order) = .ok archive) (fits : archive.extent < u64Size) :
    ∃ members, decode (archive.reference (entryContent archive false paths)) = some (members, archive.totalSize - 1024) ∧
      members.map Member.view = (scanDir (pathOf [separator] location) [] order).map (itemView paths) := by
  obtain ⟨wellFormed, _⟩ := TarArchive.createFrom_wellFormed created fits
  obtain ⟨source, described⟩ := TarArchive.createFrom_describes created
  have keeps := created_keepsSizes legal mirrors here inside clean created
  have sizes := wellFormed.entryContent_length keeps
  have opened := scanned_opened legal here inside clean
  refine ⟨_, wellFormed.decode_reference gnu described (fun item member => (opened item member).1) sizes,
    recovered_views ?_⟩
  rw [List.forall₂_map_right_iff]
  apply forall₂_imp_mem described
  intro item itemMember entry entryMember made
  refine made.recovers (sizes entry entryMember) fun regular => ?_
  have isDir : entry.info.isDir = false := (congrArg FileInfo.isDir made.2).trans regular
  obtain ⟨bytes, found, _⟩ := keeps entry entryMember isDir
  have path := made.openedPath archive false
  rw [source, (opened item itemMember).2 regular] at path
  rw [entryContent, isDir, ← path, found]
  rfl

end Views

end Tar

namespace Site

section Unpacking

variable {site : Site} {state : State} {moment : Moment} {query : Query} {location : Location} {stat : Stat}
  {listing : Listing} {response : Response}

/-- A response comes of an archive of what the path leads to, in some order. -/
theorem Sound.answered (sound : Sound site state) (shown : moment.Shows site state.tree query) {format : ArchiveFormat}
    (asked : requestedFormat query.format = .ok format)
    (opened : opens moment.fs (Path.join site.root (utf8 query.path)) = some (site.dataRoot ++ location))
    {node : Node} (there : state.tree.lookup location = some node)
    (settled : state.Settled (pathOf [separator] (site.dataRoot ++ location)))
    (answered : (site.download moment query state.shared).1 = .ok response) :
    ∃ order cells archive, site.Enumerates node order ∧
      Archive.create site.crate format (pathOf [separator] (site.dataRoot ++ location)) (some order) = .ok archive ∧
      (downloadRandomAccessArchive (site.during moment) archive query.request { cells, now := moment.now }).1 =
        .ok response ∧
      ∀ zip, archive = .zip zip → ∀ fs paths, Around site.dataRoot state.tree.top fs → Mirrors fs paths →
        Zip.CellsHold site.env.feature paths zip cells := by
  rcases download_asks site moment query with ⟨reason, refused⟩ | ⟨path, other, askedOther, resolved, delivers⟩
  · have error := congrArg Prod.fst (refused moment.order state.shared)
    cases answered.symm.trans error
  · obtain rfl : format = other := Except.ok.inj (asked.symm.trans askedOther)
    obtain ⟨below, _, openedBelow, located, _⟩ := resolve_inside shown.around resolved
    obtain rfl : location = below := List.append_cancel_left (Option.some.inj (opened.symm.trans openedBelow))
    subst located
    obtain ⟨order, cells, served⟩ :=
      sound.served shown opened rfl there (delivers moment.order state.shared) settled
    have answer := served.answer.symm.trans answered
    have holds := served.holds
    unfold serve at answer
    unfold built at answer holds
    cases created : Archive.create site.crate format (pathOf [separator] (site.dataRoot ++ location)) (some order) with
    | error reason =>
        rw [created] at answer
        cases answer
    | ok archive =>
        rw [created] at answer holds
        refine ⟨order, cells, archive, served.enumerated, created, answer, ?_⟩
        intro zip same
        subst same
        exact holds zip rfl

variable {paths : Path → Option Bytes}

theorem Sound.zip_answers (sound : Sound site state) (wide : site.env.pointerBits = 64)
    (shown : moment.Shows site state.tree query) (steady : moment.Steady site query)
    (unchanged : moment.os.Unchanged paths) (mirrors : Mirrors moment.fs paths)
    (asked : requestedFormat query.format = .ok .zip)
    (opened : opens moment.fs (Path.join site.root (utf8 query.path)) = some (site.dataRoot ++ location))
    {node : Node} (there : state.tree.lookup location = some node)
    (settled : state.Settled (pathOf [separator] (site.dataRoot ++ location)))
    (answered : (site.download moment query state.shared).1 = .ok response) :
    ∃ order archive, site.Enumerates node order ∧
      Archive.create site.crate .zip (pathOf [separator] (site.dataRoot ++ location)) (some order) =
        .ok (.zip archive) ∧
      archive.extent < u64Size ∧ archive.KeepsSizes paths ∧
      response.Answers site.env (archive.reference (Zip.crcOf site.env.feature paths) (Zip.entryContent paths))
        query.request := by
  obtain ⟨order, cells, archive, enumerates, created, served, holds⟩ :=
    sound.answered shown asked opened there settled answered
  have inFs := around_below shown.around there
  obtain ⟨scanned, made⟩ := created_from created
  obtain rfl := Except.ok.inj made
  obtain ⟨fits, sound⟩ := zip_sound wide shown.around.legal steady unchanged mirrors opened inFs
    (site.reorders _ _ enumerates) created
  have hold : (Archive.zip _).Holds site.env.feature paths { cells, now := moment.now } :=
    holds _ rfl moment.fs paths shown.around mirrors
  have answers := (download_answers made fits sound hold query.request).2
  rw [download_widened] at answers
  exact ⟨order, _, enumerates, created, fits, sound.keeps, answers response served⟩

theorem Sound.tar_answers (sound : Sound site state) (wide : site.env.pointerBits = 64)
    (shown : moment.Shows site state.tree query) (unchanged : moment.os.Unchanged paths)
    (mirrors : Mirrors moment.fs paths) (enough : (site.during moment).bufferSize < moment.fuel)
    (asked : requestedFormat query.format = .ok .tar)
    (opened : opens moment.fs (Path.join site.root (utf8 query.path)) = some (site.dataRoot ++ location))
    (there : state.tree.lookup location = some (.dir stat listing))
    (directory : moment.os.isFile 0 (pathOf [separator] (site.dataRoot ++ location)) = false)
    (clean : ∀ found ∈ placed listing, ∀ name ∈ found.1, Tar.Clean name)
    (light : Tar.weight (scanDir (pathOf [separator] (site.dataRoot ++ location)) [] listing) < u64Size)
    (settled : state.Settled (pathOf [separator] (site.dataRoot ++ location)))
    (answered : (site.download moment query state.shared).1 = .ok response) :
    ∃ order tar, site.Enumerates (.dir stat listing) (.dir stat order) ∧ listing.Reordered order ∧
      Tar.TarArchive.createFrom site.crate (pathOf [separator] (site.dataRoot ++ location))
        (scanDir (pathOf [separator] (site.dataRoot ++ location)) [] order) = .ok tar ∧
      tar.extent < u64Size ∧
        response.Answers site.env (tar.reference (Tar.entryContent tar false paths)) query.request := by
  obtain ⟨order, cells, archive, enumerates, created, served, _⟩ :=
    sound.answered shown asked opened there settled answered
  have inFs := around_below shown.around there
  cases site.reorders _ _ enumerates with
  | @dir _ children _ inside =>
      have made : Archive.createFrom site.crate .tar (pathOf [separator] (site.dataRoot ++ location))
          (scanDir (pathOf [separator] (site.dataRoot ++ location)) [] children) = .ok archive := created
      obtain ⟨tar, madeTar, rfl⟩ := Archive.createFrom_tar made
      have source := (Tar.TarArchive.createFrom_describes madeTar).1
      have kind : moment.os.isFile 0 tar.sourcePath = false := source ▸ directory
      have keeps := Tar.created_keepsSizes shown.around.legal mirrors inFs inside clean madeTar
      have fits : tar.extent < u64Size :=
        Nat.lt_of_le_of_lt (Tar.extent_le_weight madeTar) (Tar.weight_perm (scanDir_reordered inside) ▸ light)
      have sound : Server.Sound (site.during moment).widened paths (.tar tar) := {
        pointers := wide
        buffer := Nat.lt_of_lt_of_le (show 0 < minStreamReadBufferSize by decide) (Nat.le_max_right _ _)
        fuel := widened_fuel enough
        hashable := trivial
        unchanged
        keeps := by
          change tar.KeepsSizes (moment.os.isFile 0 tar.sourcePath) paths
          rw [kind]
          exact keeps }
      have hold : (Archive.tar tar).Holds site.env.feature paths { cells, now := moment.now } := trivial
      have answers := (download_answers made fits sound hold query.request).2
      rw [download_widened] at answers
      refine ⟨children, tar, enumerates, inside, madeTar, fits, ?_⟩
      rw [← kind]
      exact answers response served

end Unpacking

/-- A complete zip download of a directory unpacks to what is in the directory now: its
regular files with their present contents and its directories, each once, and nothing
else. -/
theorem zip_download_unpacks {site : Site} (wide : site.env.pointerBits = 64) {tree : Tree} {maxCapacity : Nat}
    {state : State} (reached : Run site tree maxCapacity state) {moment : Moment} {query : Query}
    (shown : moment.Shows site state.tree query) (steady : moment.Steady site query) {location : Location} {stat : Stat}
    {listing : Listing} (opened : opens moment.fs (Path.join site.root (utf8 query.path)) = some (site.dataRoot ++ location))
    (there : state.tree.lookup location = some (.dir stat listing))
    (settled : state.Settled (pathOf [separator] (site.dataRoot ++ location)))
    (asked : requestedFormat query.format = .ok .zip)
    (names : ∀ found ∈ placed listing, (found.2.shownPath found.1).length ≤ 65535)
    (count : (placed listing).length ≠ 65535) {response : Response} {bytes : Bytes}
    (answered : (site.download moment query state.shared).1 = .ok response) (whole : response.status = .ok)
    (complete : response.body = .ended bytes) :
    ∃ members directoryEnd endRecords, Zip.decode bytes = some (members, directoryEnd, endRecords) ∧
      (members.map Zip.Member.view).Perm ((placed listing).map Zip.placedView) := by
  obtain ⟨paths, unchanged, mirrors⟩ := steady.unchanged
  obtain ⟨order, archive, enumerates, created, fits, keeps, answers⟩ :=
    (reached.sound wide).zip_answers wide shown steady unchanged mirrors asked opened there settled answered
  have honest := answers.honest
  rw [Response.Honest, whole, complete] at honest
  obtain ⟨_, _, content⟩ := honest
  have inFs := around_below shown.around there
  cases site.reorders _ _ enumerates with
  | @dir _ children _ inside =>
      have made : Archive.createFrom site.crate .zip (pathOf [separator] (site.dataRoot ++ location))
          (scanDir (pathOf [separator] (site.dataRoot ++ location)) [] children) = .ok (.zip archive) := created
      obtain rfl := createFrom_zip made
      have short : ∀ item ∈ scanDir (pathOf [separator] (site.dataRoot ++ location)) [] children,
          item.relativePath.length ≤ 65535 := by
        intro item member
        obtain ⟨found, inListing, rfl⟩ := mem_scanned _ inside member
        rw [(scanned_relativePath _ _ _).1]
        exact names found inListing
      obtain ⟨members, directoryEnd, endRecords, decoded, views⟩ :=
        Zip.decode_created short (by rwa [scanned_length _ inside]) fits keeps site.env.feature
      refine ⟨members, directoryEnd, endRecords, ?_, ?_⟩
      · rw [← decoded]
        exact congrArg Zip.decode content
      · rw [views, ← Zip.scanned_views shown.around.legal mirrors inFs]
        exact (scanDir_reordered inside).symm.map _

theorem zip_download_unpacks_small : ∃ bytes members directoryEnd endRecords,
    Zip.decode bytes = some (members, directoryEnd, endRecords) ∧
      (members.map Zip.Member.view).Perm [([120], false, [1, 2])] := by
  obtain ⟨state, run, tree, empty, waits, _, landed, _⟩ := small_run
  cases answered : (smallSite.download (smallMoment [1, 2] laterStat) smallQuery state.shared).1 with
  | error reason =>
      rw [answered] at landed
      cases landed
  | ok response =>
      rw [answered] at landed
      obtain ⟨whole, complete⟩ := of_decide_eq_true landed
      have shown : (smallMoment [1, 2] laterStat).Shows smallSite state.tree smallQuery := tree ▸ smallMoment_shows _ _
      have there : state.tree.lookup [] = some (oneFile [1, 2] laterStat) := by
        rw [tree]
        rfl
      exact ⟨_, zip_download_unpacks rfl run shown (smallMoment_steady [1, 2] laterStat (by decide))
        (smallMoment_opens [1, 2] laterStat) there (.inl ⟨empty, waits⟩) rfl (List.forall_mem_singleton.mpr (by decide))
        (by decide) answered whole complete⟩

/-- A complete tar download of a directory, all of whose names are shown as they are,
unpacks to what is in the directory now: its regular files with their present contents and
its directories, with their modes and times, each once, and nothing else. -/
theorem tar_download_unpacks {site : Site} (gnu : site.crate.Gnu) (wide : site.env.pointerBits = 64) {tree : Tree}
    {maxCapacity : Nat} {state : State} (reached : Run site tree maxCapacity state) {moment : Moment} {query : Query}
    (shown : moment.Shows site state.tree query)
    (unchanged : ∃ paths, moment.os.Unchanged paths ∧ Mirrors moment.fs paths)
    (enough : (site.during moment).bufferSize < moment.fuel) {location : Location} {stat : Stat} {listing : Listing}
    (opened : opens moment.fs (Path.join site.root (utf8 query.path)) = some (site.dataRoot ++ location))
    (there : state.tree.lookup location = some (.dir stat listing))
    (directory : moment.os.isFile 0 (pathOf [separator] (site.dataRoot ++ location)) = false)
    (settled : state.Settled (pathOf [separator] (site.dataRoot ++ location)))
    (asked : requestedFormat query.format = .ok .tar)
    (clean : ∀ found ∈ placed listing, ∀ name ∈ found.1, Tar.Clean name)
    (light : Tar.weight (scanDir (pathOf [separator] (site.dataRoot ++ location)) [] listing) < u64Size)
    {response : Response} {bytes : Bytes} (answered : (site.download moment query state.shared).1 = .ok response)
    (whole : response.status = .ok) (complete : response.body = .ended bytes) :
    ∃ members, Tar.decode bytes = some (members, bytes.length - 1024) ∧
      (members.map Tar.Member.view).Perm ((placed listing).map Tar.placedView) := by
  obtain ⟨paths, unchanged, mirrors⟩ := unchanged
  obtain ⟨children, tar, _, inside, made, fits, answers⟩ := (reached.sound wide).tar_answers wide shown unchanged mirrors
    enough asked opened there directory clean light settled answered
  have honest := answers.honest
  rw [Response.Honest, whole, complete] at honest
  obtain ⟨_, _, same⟩ := honest
  have inFs := around_below shown.around there
  have keeps := Tar.created_keepsSizes shown.around.legal mirrors inFs inside clean made
  obtain ⟨wellFormed, _⟩ := Tar.TarArchive.createFrom_wellFormed made fits
  have length : bytes.length = tar.totalSize :=
    same ▸ wellFormed.reference_length (wellFormed.entryContent_length keeps)
  obtain ⟨members, decoded, views⟩ :=
    Tar.decode_created gnu shown.around.legal mirrors inFs inside clean made fits
  refine ⟨members, ?_, ?_⟩
  · rw [length, same]
    exact decoded
  · rw [views, ← Tar.scanned_views shown.around.legal mirrors inFs]
    exact (scanDir_reordered inside).symm.map _

theorem tar_download_unpacks_small : ∃ bytes members, Tar.decode bytes = some (members, bytes.length - 1024) ∧
    (members.map Tar.Member.view).Perm [([120], false, 0o600, 1700000003, [1, 2])] := by
  obtain ⟨state, run, tree, empty, waits, _, _, landed, _⟩ := small_run
  cases answered : (smallSite.download (smallMoment [1, 2] laterStat) { smallQuery with format := none } state.shared).1 with
  | error reason =>
      rw [answered] at landed
      cases landed
  | ok response =>
      rw [answered] at landed
      obtain ⟨whole, complete⟩ := of_decide_eq_true landed
      have shows_ := smallMoment_shows [1, 2] laterStat
      rw [← tree] at shows_
      have shown : (smallMoment [1, 2] laterStat).Shows smallSite state.tree { smallQuery with format := none } :=
        ⟨shows_.around, shows_.enumerated⟩
      have there : state.tree.lookup [] = some (oneFile [1, 2] laterStat) := by
        rw [tree]
        rfl
      have steady := smallMoment_steady [1, 2] laterStat (by decide)
      exact ⟨_, tar_download_unpacks Tar.blockCrate_gnu rfl run shown steady.unchanged steady.fuel
        (smallMoment_opens [1, 2] laterStat) there rfl (.inl ⟨empty, waits⟩) rfl
        (List.forall_mem_singleton.mpr (by decide)) (by decide) answered whole complete⟩

end Site

end Raas
