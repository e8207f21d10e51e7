import Raas.Server.Contents

namespace Raas

open Data Server

/-! Downloads in parts: whatever happens between two requests for a directory, their
responses are cut from the same archive. -/

section Sources

variable {root other : Node} {location : Location} {paths others : Path → Option Bytes}
  {crate : Tar.HeaderCrate} {order node : Node}

/-- A zip depends on the files below its location only. -/
theorem Zip.reference_mirrored {archive : ZipArchive} (feature : CrcFeature) (legal : node.Legal)
    (mirrors : Mirrors root paths) (here : root.lookup location = some node)
    (mirrorsOther : Mirrors other others) (there : other.lookup location = some node) (enumerated : node.Reordered order)
    (created : Archive.create crate .zip (pathOf [separator] location) (some order) = .ok (.zip archive)) :
    archive.reference (crcOf feature paths) (entryContent paths) =
      archive.reference (crcOf feature others) (entryContent others) := by
  have sourced := created_sourced legal enumerated created
  have content : ∀ entry ∈ archive.entries, entryContent paths entry = entryContent others entry :=
    fun entry member => sourced_content mirrors here mirrorsOther there (sourced entry member)
  have crc : ∀ entry ∈ archive.entries, crcOf feature paths entry = crcOf feature others entry := by
    intro entry member
    rw [crcOf, crcOf, content entry member]
  have locals : archive.entries.flatMap (fun entry => entry.image (crcOf feature paths entry) (entryContent paths entry)) =
      archive.entries.flatMap (fun entry => entry.image (crcOf feature others entry) (entryContent others entry)) := by
    apply List.flatMap_congr
    intro entry member
    rw [content entry member, crc entry member]
  have central : archive.entries.flatMap (fun entry => writeCentralEntry entry (crcOf feature paths entry) []) =
      archive.entries.flatMap (fun entry => writeCentralEntry entry (crcOf feature others entry) []) := by
    apply List.flatMap_congr
    intro entry member
    rw [crc entry member]
  rw [ZipArchive.reference, ZipArchive.reference, locals, central]

/-- So does a tar, when its names are shown as they are. -/
theorem Tar.reference_mirrored {archive : TarArchive} {stat : Stat} {listing children : Listing} (legal : root.Legal)
    (mirrors : Mirrors root paths) (here : root.lookup location = some (.dir stat listing)) (legalOther : other.Legal)
    (mirrorsOther : Mirrors other others) (there : other.lookup location = some (.dir stat listing))
    (inside : listing.Reordered children) (clean : ∀ found ∈ placed listing, ∀ name ∈ found.1, Clean name)
    (created : TarArchive.createFrom crate (pathOf [separator] location)
      (scanDir (pathOf [separator] location) [] children) = .ok archive) :
    archive.reference (entryContent archive false paths) = archive.reference (entryContent archive false others) := by
  have images : archive.entries.flatMap (fun entry => entry.image (entryContent archive false paths entry)) =
      archive.entries.flatMap (fun entry => entry.image (entryContent archive false others entry)) := by
    apply List.flatMap_congr
    intro entry member
    rw [entryContent, entryContent]
    cases regular : entry.info.isDir with
    | true => rfl
    | false =>
        obtain ⟨found, inListing, plain, path, _⟩ := created_sourced legal here inside clean created entry member regular
        rw [path, scanned_there legal mirrors here inListing plain,
          scanned_there legalOther mirrorsOther there inListing plain]
  rw [TarArchive.reference, TarArchive.reference, images]

end Sources

namespace Site

/-- A response, of any run, to a request for what is at a location, once every report about
it has been received. -/
inductive Serves (site : Site) (location : Location) (node : Node) (format : ArchiveFormat) (query : Query)
    (response : Response) : Prop
  | of {tree : Tree} {maxCapacity : Nat} {state : State} {moment : Moment} (reached : Run site tree maxCapacity state)
      (shown : moment.Shows site state.tree query) (steady : moment.Steady site query)
      (asked : requestedFormat query.format = .ok format)
      (opened : opens moment.fs (Path.join site.root (utf8 query.path)) = some (site.dataRoot ++ location))
      (there : state.tree.lookup location = some node)
      (directory : moment.os.isFile 0 (pathOf [separator] (site.dataRoot ++ location)) = false)
      (settled : state.Settled (pathOf [separator] (site.dataRoot ++ location)))
      (answered : (site.download moment query state.shared).1 = .ok response)

/-- The bytes of an archive of a directory that is enumerated in this order. -/
def archiveBytes (site : Site) (format : ArchiveFormat) (source : Path) (paths : Path → Option Bytes)
    (order : Node) : Bytes :=
  match Archive.create site.crate format source (some order) with
  | .ok (.zip archive) => archive.reference (Zip.crcOf site.env.feature paths) (Zip.entryContent paths)
  | .ok (.tar archive) => archive.reference (Tar.entryContent archive false paths)
  | .error _ => []

section Slices

variable {site : Site} {location : Location} {stat : Stat} {listing : Listing} {query : Query} {response : Response}
  {root : Node}

theorem Serves.zip (wide : site.env.pointerBits = 64) {node : Node} (legal : root.Legal)
    (here : root.lookup (site.dataRoot ++ location) = some node)
    (served : Serves site location node .zip query response) :
    ∃ order, site.Enumerates node order ∧
      response.Answers site.env
        (site.archiveBytes .zip (pathOf [separator] (site.dataRoot ++ location)) (readFile root) order) query.request := by
  obtain ⟨reached, shown, steady, asked, opened, there, _, settled, answered⟩ := served
  obtain ⟨paths, unchanged, mirrors⟩ := steady.unchanged
  obtain ⟨order, archive, enumerates, created, _, _, answers⟩ :=
    (reached.sound wide).zip_answers wide shown steady unchanged mirrors asked opened there settled answered
  refine ⟨order, enumerates, ?_⟩
  have same := Zip.reference_mirrored site.env.feature (legal.lookup here).1 (Zip.readFile_mirrors legal) here mirrors
    (around_below shown.around there) (site.reorders _ _ enumerates) created
  rw [archiveBytes, created]
  dsimp only
  rw [same]
  exact answers

theorem Serves.tar (wide : site.env.pointerBits = 64) (legal : root.Legal)
    (here : root.lookup (site.dataRoot ++ location) = some (.dir stat listing))
    (clean : ∀ found ∈ placed listing, ∀ name ∈ found.1, Tar.Clean name)
    (light : Tar.weight (scanDir (pathOf [separator] (site.dataRoot ++ location)) [] listing) < u64Size)
    (served : Serves site location (.dir stat listing) .tar query response) :
    ∃ order, site.Enumerates (.dir stat listing) order ∧
      response.Answers site.env
        (site.archiveBytes .tar (pathOf [separator] (site.dataRoot ++ location)) (readFile root) order) query.request := by
  obtain ⟨reached, shown, steady, asked, opened, there, directory, settled, answered⟩ := served
  obtain ⟨paths, unchanged, mirrors⟩ := steady.unchanged
  obtain ⟨children, tar, enumerates, inside, made, _, answers⟩ := (reached.sound wide).tar_answers wide shown unchanged
    mirrors steady.fuel asked opened there directory clean light settled answered
  refine ⟨.dir stat children, enumerates, ?_⟩
  have same := Tar.reference_mirrored legal (Zip.readFile_mirrors legal) here shown.around.legal mirrors
    (around_below shown.around there) inside clean made
  have created : Archive.create site.crate .tar (pathOf [separator] (site.dataRoot ++ location))
      (some (.dir stat children)) = .ok (.tar tar) := by
    change (Tar.TarArchive.createFrom site.crate _ _).map Archive.tar = _
    rw [made]
    rfl
  rw [archiveBytes, created]
  dsimp only
  rw [same]
  exact answers

end Slices

end Site

end Raas
