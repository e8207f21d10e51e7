import Mathlib.Data.List.Infix
import Raas.Archive.Ordering
import Raas.Cache.ArchiveCache
import Raas.Server.Stitching

namespace Raas.Server

open Data

/-! Downloads of one directory while its archive comes and goes in the cache. -/

structure Session where
  archiveCache : ArchiveCache ArchiveCache.Loaded
  world : Zip.World

def mentions (message part : String) : Bool := decide (part.toList <:+: message.toList)

def creationError (message : String) : ArchiveApiError :=
  if mentions message "不存在" || mentions message "not found" || mentions message "No such file" then
    .badRequest message
  else .internalError message

inductive Event where
  | evict (path : Path) (format : ArchiveFormat)
  | invalidate (changedPath : Path)
  /-- A request; `order` is how `read_dir` enumerates the directory if it has to be scanned. -/
  | download (order : Listing) (request : Request)

section Sessions

variable (crate : Tar.HeaderCrate) (format : ArchiveFormat) (env : Environment) (source : Path) (stat : Stat)

def Session.download (session : Session) (order : Listing) (request : Request) :
    Except ArchiveApiError Response × Session :=
  let built := Archive.create crate format source (some (.dir stat order))
  let world :=
    if (session.archiveCache.lookup source format).isSome then session.world
    else { session.world with cells := fun _ => none }
  match session.archiveCache.getOrCreate source format built with
  | (.error message, archiveCache) => (.error (creationError message), { archiveCache, world })
  | (.ok archive, archiveCache) =>
      let (answer, world) := downloadRandomAccessArchive env archive request world
      (answer, { archiveCache, world })

/-- The requests of a run with their answers. -/
def Session.run : Session → List Event → List (Request × Except ArchiveApiError Response)
  | _, [] => []
  | session, .evict path format :: rest =>
      Session.run { session with archiveCache := session.archiveCache.remove path format } rest
  | session, .invalidate changedPath :: rest =>
      Session.run { session with archiveCache := (session.archiveCache.invalidate changedPath).2 } rest
  | session, .download order request :: rest =>
      let (answer, session) := session.download crate format env source stat order request
      (request, answer) :: session.run rest

end Sessions

def Event.Scans (listing : Listing) : Event → Prop
  | .download order _ => listing.Reordered order
  | _ => True

section Runs

variable {crate : Tar.HeaderCrate} {format : ArchiveFormat} {env : Environment} {source : Path} {stat : Stat}
  {listing : Listing} {archive : Archive} {paths : Path → Option Bytes}

/-- The cache has this archive for the directory or none, and its checksums are good. -/
def Session.Steady (format : ArchiveFormat) (env : Environment) (source : Path) (archive : Archive)
    (paths : Path → Option Bytes) (session : Session) : Prop :=
  ∀ loaded, session.archiveCache.lookup source format = some loaded →
    loaded = .ok archive ∧ archive.Holds env.feature paths session.world

theorem create_scanned (created : Archive.create crate format source (some (.dir stat listing)) = .ok archive) :
    Archive.createFrom crate format source (scanDir source [] listing) = .ok archive := created

theorem Session.Steady.download
    (created : Archive.create crate format source (some (.dir stat listing)) = .ok archive)
    (fits : archive.extent < u64Size) (sound : Sound env paths archive) {session : Session}
    (steady : session.Steady format env source archive paths) {order : Listing}
    (again : Archive.create crate format source (some (.dir stat order)) = .ok archive) (request : Request) :
    (∀ response, (session.download crate format env source stat order request).1 = .ok response →
      response.Honest (archive.reference env.feature env.os paths) request.patience) ∧
    (session.download crate format env source stat order request).2.Steady format env source archive paths := by
  unfold Session.download ArchiveCache.getOrCreate
  rw [again]
  cases held : session.archiveCache.lookup source format with
  | some loaded =>
      obtain ⟨rfl, hold⟩ := steady loaded held
      obtain ⟨after, honest⟩ := download_honest (create_scanned created) fits sound hold request
      simp only [ArchiveCache.getWith, held, Option.isSome_some, if_true, Except.mapError]
      refine ⟨honest, ?_⟩
      intro loaded found
      have same : session.archiveCache.lookup source format = some loaded := found
      rw [held, Option.some.injEq] at same
      exact ⟨same.symm, after⟩
  | none =>
      obtain ⟨after, honest⟩ := download_honest (create_scanned created) fits sound
        (archive.holds_fresh env.feature paths session.world.now) request
      simp only [ArchiveCache.getWith, held, Option.isSome_none, Bool.false_eq_true, if_false, Except.mapError]
      refine ⟨honest, ?_⟩
      intro loaded found
      have inserted : (session.archiveCache.insert source format (.ok archive)).lookup source format = some loaded :=
        found
      rw [ArchiveCache.lookup_insert, Option.some.injEq] at inserted
      exact ⟨inserted.symm, after⟩

theorem Session.Steady.run
    (created : Archive.create crate format source (some (.dir stat listing)) = .ok archive)
    (fits : archive.extent < u64Size) (sound : Sound env paths archive)
    (ignores : ∀ order, listing.Reordered order →
      Archive.create crate format source (some (.dir stat order)) = .ok archive) {session : Session}
    (steady : session.Steady format env source archive paths) {events : List Event}
    (scans : ∀ event ∈ events, event.Scans listing) :
    ∀ answered ∈ session.run crate format env source stat events, ∀ response, answered.2 = .ok response →
      response.Honest (archive.reference env.feature env.os paths) answered.1.patience := by
  induction events generalizing session with
  | nil => simp [Session.run]
  | cons event rest ih =>
      have later := fun other member => scans other (List.mem_cons_of_mem _ member)
      cases event with
      | evict path evicted =>
          refine ih (fun loaded found => ?_) later
          exact steady loaded (ArchiveCache.cache_remove found).1
      | invalidate changedPath =>
          refine ih (fun loaded found => ?_) later
          exact steady loaded (ArchiveCache.cache_invalidate found).1
      | download order request =>
          have reordered : listing.Reordered order := scans _ List.mem_cons_self
          obtain ⟨honest, after⟩ := steady.download created fits sound (ignores order reordered) request
          intro answered member
          rcases List.mem_cons.mp member with rfl | member
          · exact honest
          · exact ih after later answered member

end Runs

/-- However often the archive is dropped and rebuilt, and however its directories are
then enumerated, the answers of a run are about one byte string. -/
def RunsAgree (crate : Tar.HeaderCrate) (format : ArchiveFormat) (source : Path) (stat : Stat) (listing : Listing)
    (archive : Archive) : Prop :=
  ∀ (env : Environment) (paths : Path → Option Bytes), archive.extent < u64Size → Sound env paths archive →
    ∃ full : Bytes, full.length = archive.totalSize ∧
      ∀ (maxCapacity now : Nat) (events : List Event), (∀ event ∈ events, event.Scans listing) →
        ∀ answered ∈ Session.run crate format env source stat
            { archiveCache := .new maxCapacity, world := { cells := fun _ => none, now } } events,
          ∀ response, answered.2 = .ok response → response.Honest full answered.1.patience

/-- Enumeration order. A directory gives the same archive, and every run of downloads
over it the same bytes, exactly when it is uniform: the scanner keeps the order of
`read_dir`, so that two entries of one directory that are recorded differently can
trade places between one build and the next. -/
theorem enumeration_order_iff {crate : Tar.HeaderCrate} {format : ArchiveFormat} {source : Path} {stat : Stat}
    {listing : Listing} (legal : listing.Legal) {archive : Archive}
    (created : Archive.create crate format source (some (.dir stat listing)) = .ok archive) :
    ((∀ order, listing.Reordered order → Archive.create crate format source (some (.dir stat order)) = .ok archive) ∧
        RunsAgree crate format source stat listing archive) ↔
      Uniform format source [] listing := by
  rw [← archive_ignores_order_iff legal created]
  refine ⟨And.left, fun ignores => ⟨ignores, ?_⟩⟩
  intro env paths fits sound
  have length := (Archive.reference_length env.feature (create_scanned created) fits sound.keeps).1
  refine ⟨archive.reference env.feature env.os paths, length, ?_⟩
  intro maxCapacity now events scans
  refine Session.Steady.run created fits sound ignores (fun loaded found => ?_) scans
  simp [ArchiveCache.lookup, ArchiveCache.new] at found

def fileA : Node := .leaf (.file [1] smallStat)
def fileB : Node := .leaf (.file [2] smallStat)

/-- Two equal files in a directory, whose names a tar cannot tell from one another. -/
def alikeListing : Listing :=
  .cons [100] (.dir smallStat (.cons [254] fileA (.cons [255] fileA .nil))) (.cons [108] (.leaf (.symlink [102])) .nil)

def swappedListing : Listing :=
  .cons [108] (.leaf (.symlink [102])) (.cons [100] (.dir smallStat (.cons [255] fileA (.cons [254] fileA .nil))) .nil)

theorem enumeration_order_alike_files : ∃ archive,
    Archive.create Tar.blockCrate .tar [47, 115] (some (.dir smallStat alikeListing)) = .ok archive ∧
      alikeListing.Reordered swappedListing ∧ alikeListing ≠ swappedListing ∧
      Archive.create Tar.blockCrate .tar [47, 115] (some (.dir smallStat swappedListing)) = .ok archive ∧
      RunsAgree Tar.blockCrate .tar [47, 115] smallStat alikeListing archive := by
  have uniform : Uniform .tar [47, 115] [] alikeListing := by
    refine ⟨?_, ?_, trivial, trivial⟩
    · decide
    · decide
  have reordered : alikeListing.Reordered swappedListing :=
    .trans (.dir (.swap [254] [255] fileA fileA .nil) (.refl _))
      (.swap [100] [108] (.dir smallStat (.cons [255] fileA (.cons [254] fileA .nil))) (.leaf (.symlink [102])) .nil)
  obtain ⟨archive, created⟩ : ∃ archive, Archive.create Tar.blockCrate .tar [47, 115]
      (some (.dir smallStat alikeListing)) = .ok archive := ⟨_, rfl⟩
  obtain ⟨ignores, agree⟩ := (enumeration_order_iff (by decide) created).mpr uniform
  exact ⟨archive, created, reordered, by decide, ignores swappedListing reordered, agree⟩

/-- Two files in one directory: in one order the tar begins with the name of the one,
in the other with the name of the other. -/
theorem two_files_depend_on_order :
    (Listing.cons [97] fileA (.cons [98] fileB .nil)).Reordered (.cons [98] fileB (.cons [97] fileA .nil)) ∧
    ∃ first second : Tar.TarArchive,
      Archive.create Tar.blockCrate .tar [47, 115]
        (some (.dir smallStat (.cons [97] fileA (.cons [98] fileB .nil)))) = .ok (.tar first) ∧
      Archive.create Tar.blockCrate .tar [47, 115]
        (some (.dir smallStat (.cons [98] fileB (.cons [97] fileA .nil)))) = .ok (.tar second) ∧
      (first.reference fun _ => [1]).head? = some 97 ∧ (second.reference fun _ => [1]).head? = some 98 := by
  refine ⟨.swap [97] [98] fileA fileB .nil, _, _, rfl, rfl, ?_, ?_⟩
  · decide +kernel
  · decide +kernel

end Raas.Server
