import Mathlib.Data.List.DropRight
import Raas.Machine
import Raas.Data.Pieces

namespace Raas

abbrev Path := Bytes

def separator : UInt8 := 47

/-- `std::path::Component` on Unix. -/
inductive Component where
  | rootDir
  | curDir
  | parentDir
  | normal (name : Bytes)
deriving DecidableEq, Repr

namespace Path

def isAbsolute (path : Path) : Bool := path.head? == some separator

/-- A piece between separators; empty pieces and `.` are skipped. -/
def parseComponent : Bytes → Option Component
  | [] => none
  | [46] => none
  | [46, 46] => some .parentDir
  | name => some (.normal name)

/-- `Path::components`. A `.` survives only at the front of a relative path. -/
def components (path : Path) : List Component :=
  let pieces := path.splitOn separator
  let front :=
    if isAbsolute path then [Component.rootDir]
    else if pieces.head? = some [46] then [.curDir]
    else []
  front ++ pieces.filterMap parseComponent

/-- `Path::join`: an absolute argument replaces the base. -/
def join (base path : Path) : Path :=
  if isAbsolute path then path
  else if base = [] ∨ base.getLast? = some separator then base ++ path
  else base ++ separator :: path

def fileName (path : Path) : Option Bytes :=
  match (components path).getLast? with
  | some (.normal name) => some name
  | _ => none

/-- `Path` equality compares components, not bytes. -/
def same (left right : Path) : Bool := decide (components left = components right)

/-- `Path::starts_with` compares components. -/
def startsWith (path base : Path) : Bool := decide (components base <+: components path)

/-- `str::trim_end_matches('/')`. -/
def trimEndSlashes (path : Path) : Path := path.rdropWhile (· == separator)

end Path

/-- The front of a path keeps its pieces but for the last, which may be cut. -/
theorem splitOn_take (mark : UInt8) (path : Bytes) (count : Nat) :
    ∃ whole last full, (path.take count).splitOn mark = whole ++ [last] ∧
      whole ++ [full] <+: path.splitOn mark ∧ last <+: full := by
  induction path generalizing count with
  | nil => exact ⟨[], [], [], by simp, by simp, List.prefix_refl _⟩
  | cons byte rest ih =>
      cases count with
      | zero =>
          obtain ⟨full, others, pieces⟩ := List.exists_cons_of_ne_nil (List.splitOn_ne_nil mark (byte :: rest))
          exact ⟨[], [], full, by simp, by rw [pieces]; simp, List.nil_prefix⟩
      | succ count =>
          obtain ⟨whole, last, full, pieces, front, cut⟩ := ih count
          rw [List.take_succ_cons, List.splitOn_cons_eq_if_modifyHead, List.splitOn_cons_eq_if_modifyHead, pieces]
          by_cases marked : (byte == mark) = true
          · rw [if_pos marked, if_pos marked]
            exact ⟨[] :: whole, last, full, rfl, List.cons_prefix_cons.mpr ⟨rfl, front⟩, cut⟩
          · rw [if_neg marked, if_neg marked]
            obtain ⟨others, split⟩ := front
            rw [← split]
            cases whole with
            | nil => exact ⟨[], byte :: last, byte :: full, rfl, by simp, List.cons_prefix_cons.mpr ⟨rfl, cut⟩⟩
            | cons first whole => exact ⟨(byte :: first) :: whole, last, full, rfl, by simp, cut⟩

theorem intercalate_append {pieces : List Bytes} (nonempty : pieces ≠ []) (piece : Bytes) :
    List.intercalate [separator] (pieces ++ [piece]) = List.intercalate [separator] pieces ++ separator :: piece := by
  rw [Data.intercalate_join nonempty (List.cons_ne_nil _ _), List.intercalate_singleton]

end Raas
