import Raas.Archive.Format
import Raas.Archive.Scanned
import Raas.Data.Utf8
import Raas.Os.Tree

namespace Raas

open Data

def entryMode (stat : Stat) : Nat := (stat.mode &&& 0o7777).toNat

/-- Seconds since the epoch, zero for a time before it. -/
def entryMtime (stat : Stat) : Nat := stat.mtime.toInt.toNat

theorem entryMode_lt (stat : Stat) : entryMode stat < 4096 := by
  rw [entryMode, UInt32.toNat_and]
  exact Nat.and_lt_two_pow (n := 12) _ (by decide)

theorem entryMtime_lt (stat : Stat) : entryMtime stat < u64Size := by
  have small := stat.mtime.toInt_lt
  rw [entryMtime, u64Size]
  omega

namespace ScannedEntry

def file (relativePath : Bytes) (sourcePath : Path) (content : Bytes) (stat : Stat) : ScannedEntry where
  relativePath
  sourcePath
  size := content.length
  isDir := false
  mode := entryMode stat
  mtime := entryMtime stat
  dirSize := nofun
  modeMasked := entryMode_lt stat
  mtimeFits := entryMtime_lt stat

def directory (relativePath : Bytes) (sourcePath : Path) (stat : Stat) : ScannedEntry where
  relativePath
  sourcePath
  size := 0
  isDir := true
  mode := entryMode stat
  mtime := entryMtime stat
  dirSize := fun _ => rfl
  modeMasked := entryMode_lt stat
  mtimeFits := entryMtime_lt stat

end ScannedEntry

/-- `'\\'` to `'/'` -/
def slashed (byte : UInt8) : UInt8 := if byte = 92 then separator else byte

/-- The archive's name for a path below the source. The paths of a directory's
entries start with the directory's own path, so `strip_prefix` leaves the names
from the source on. -/
def relativeString (names : Location) : Bytes :=
  (Utf8.lossy (List.intercalate [separator] names)).map slashed

/-- `scan_dir` of the directory that is `below` the base path. -/
def scanDir (basePath : Path) (below : Location) : Listing → List ScannedEntry
  | .nil => []
  | .leaf name kind rest =>
      let here := below ++ [name]
      match kind with
      | .file content stat =>
          .file (relativeString here) (pathOf basePath here) content stat :: scanDir basePath below rest
      | .symlink _ | .special => scanDir basePath below rest
  | .dir name stat children rest =>
      let here := below ++ [name]
      .directory (relativeString here ++ [separator]) (pathOf basePath here) stat ::
        (scanDir basePath here children ++ scanDir basePath below rest)

/-- `scan_source` of a path that leads to this node. -/
def scanSource (source : Path) : Option Node → Except ArchiveError (List ScannedEntry)
  | some (.leaf (.file content stat)) =>
      match Path.fileName source with
      | none => .error (.io { kind := .invalidData, message := "无法获取文件名" })
      | some name => .ok [.file (Utf8.lossy name) source content stat]
  | some (.dir _ children) => .ok (scanDir source [] children)
  | some (.leaf _) => .error (.io { kind := .notADirectory, message := "Not a directory (os error 20)" })
  | none => .error (.io { kind := .notFound, message := "No such file or directory (os error 2)" })

def smallStat : Stat where
  mode := 0o644
  mtime := 1700000000

/-- A directory with a file of three bytes, as a scan of `/s` reports them. -/
def smallScan : List ScannedEntry :=
  [.directory [100, 47] [47, 115, 47, 100] { mode := 0o755, mtime := 1700000000 },
   .file [100, 47, 102] [47, 115, 47, 100, 47, 102] [97, 98, 99] { mode := 0o644, mtime := 1700000001 }]

def smallFiles : List (Path × Bytes) := [([47, 115, 47, 100, 47, 102], [97, 98, 99])]

/-! Names in the archive. -/

def archivedName (name : Bytes) : Bytes := (Utf8.lossy name).map slashed

theorem relativeString_eq (names : Location) :
    relativeString names = List.intercalate [separator] (names.map archivedName) := by
  induction names with
  | nil => rfl
  | cons name rest ih =>
      cases rest with
      | nil => simp [relativeString, archivedName]
      | cons next rest =>
          have split : Utf8.lossy (name ++ separator :: List.intercalate [separator] (next :: rest)) =
              Utf8.lossy name ++ separator :: Utf8.lossy (List.intercalate [separator] (next :: rest)) :=
            Utf8.lossy_append (by decide) name _
          rw [relativeString] at ih ⊢
          rw [List.map_cons, List.map_cons, List.intercalate_cons_cons, List.intercalate_cons_cons,
            ← List.map_cons, ← ih, List.append_assoc, List.singleton_append, split, List.map_append, List.map_cons,
            List.append_assoc]
          rfl

theorem relativeString_append {names : Location} (nonempty : names ≠ []) (name : Bytes) :
    relativeString (names ++ [name]) = relativeString names ++ separator :: archivedName name := by
  rw [relativeString_eq, relativeString_eq, List.map_append]
  exact intercalate_append (by simpa using nonempty) _

theorem archivedName_ne_nil {name : Bytes} (nonempty : name ≠ []) : archivedName name ≠ [] := by
  intro empty
  rw [archivedName, List.map_eq_nil_iff] at empty
  exact nonempty (Utf8.lossy_eq_nil.mp empty)

theorem relativeString_longer {names : Location} (nonempty : names ≠ []) {name : Bytes} (legal : LegalName name) :
    (relativeString names).length + 1 < (relativeString (names ++ [name])).length := by
  have positive := List.length_pos_iff.mpr (archivedName_ne_nil legal.1)
  rw [relativeString_append nonempty, List.length_append, List.length_cons]
  omega

end Raas
