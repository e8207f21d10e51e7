import Raas.Os.Arrival
import Raas.Server.Rebuilding
import Raas.Server.Resolve

namespace Raas

open Data

/-! What a request asks for: a format by its name, and a path below the data root. -/

/-- `ArchiveFormat::from_name` -/
def ArchiveFormat.fromName (name : String) : Option ArchiveFormat :=
  match (Server.trim name.toList).map Char.toLower with
  | [] | ['t', 'a', 'r'] => some .tar
  | ['z', 'i', 'p'] => some .zip
  | _ => none

namespace Server

def requestedFormat (format : Option String) : Except ArchiveApiError ArchiveFormat :=
  match format with
  | none => .ok .tar
  | some value =>
      match ArchiveFormat.fromName value with
      | some format => .ok format
      | none => .error (.badRequest ("不支持的归档格式: " ++ value))

section Resolving

variable {fs inside : Node} {dataRoot below : Location} {relativePath : String} {path : Path}

theorem startsWith_location {root found : Location} (rootLegal : ∀ name ∈ root, LegalName name)
    (legal : ∀ name ∈ found, LegalName name) :
    (pathOf [separator] found).startsWith (pathOf [separator] root) = true ↔ root <+: found := by
  rw [Path.startsWith, decide_eq_true_iff, components_pathOf rootLegal, components_pathOf legal, componentsOf,
    componentsOf, List.cons_prefix_cons, List.prefix_map_iff_of_injective fun _ _ => Component.normal.inj]
  exact and_iff_right rfl

/-- What a request is resolved to is a location in the data root. -/
theorem resolve_inside (around : Around dataRoot inside fs)
    (answered : resolveAndValidatePath fs (pathOf [separator] dataRoot) relativePath = .ok path) :
    ∃ below node, opens fs (Path.join (pathOf [separator] dataRoot) (utf8 relativePath)) = some (dataRoot ++ below) ∧
      path = pathOf [separator] (dataRoot ++ below) ∧ inside.lookup below = some node ∧
      ∀ target, node ≠ .leaf (.symlink target) := by
  rw [resolveAndValidatePath_eq] at answered
  split at answered
  · cases opened : opens fs (Path.join (pathOf [separator] dataRoot) (utf8 relativePath)) with
    | none => simp [opened] at answered
    | some found =>
        obtain ⟨node, reached, plain⟩ := opens_arrives opened
        rw [opened] at answered
        dsimp only at answered
        split at answered
        · rename_i within
          rw [startsWith_location (around.legal.lookup around.lookup).2 (around.legal.lookup reached).2] at within
          obtain ⟨below, rfl⟩ := within
          cases answered
          rw [Node.lookup_append, around.lookup] at reached
          exact ⟨below, node, rfl, rfl, reached, plain⟩
        · cases answered
  · cases answered

theorem join_spelled {root : Location} (rootLegal : ∀ name ∈ root, LegalName name)
    (legal : ∀ name ∈ below, LegalName name) (nonempty : below ≠ []) :
    Path.join (pathOf [separator] root) (List.intercalate [separator] below) = pathOf [separator] (root ++ below) := by
  rw [Path.join, intercalate_relative legal nonempty, if_neg Bool.false_ne_true,
    pathOf_root (List.forall_mem_append.mpr ⟨rootLegal, legal⟩) (List.append_ne_nil_of_right_ne_nil _ nonempty)]
  by_cases top : root = []
  · subst top
    rfl
  · rw [pathOf_root rootLegal top, if_neg (separator_intercalate_ends rootLegal top), intercalate_join top nonempty]
    rfl

/-- A path spelt out below the data root is resolved to itself. -/
theorem resolve_spelled (around : Around dataRoot inside fs) {node : Node} (reached : inside.lookup below = some node)
    (plain : ∀ target, node ≠ .leaf (.symlink target)) (nonempty : below ≠ [])
    (spelled : utf8 relativePath = List.intercalate [separator] below) :
    resolveAndValidatePath fs (pathOf [separator] dataRoot) relativePath = .ok (pathOf [separator] (dataRoot ++ below)) := by
  have there : fs.lookup (dataRoot ++ below) = some node := by
    rw [Node.lookup_append, around.lookup]
    exact reached
  have names := (around.legal.lookup there).2
  rw [List.forall_mem_append] at names
  have full : Path.join (pathOf [separator] dataRoot) (utf8 relativePath) = pathOf [separator] (dataRoot ++ below) := by
    rw [spelled, join_spelled names.1 names.2 nonempty]
  have within := (startsWith_location names.1 (List.forall_mem_append.mpr names)).mpr (List.prefix_append dataRoot below)
  rw [resolveAndValidatePath_eq, full, if_pos within,
    opens_pathOf around.legal (List.append_ne_nil_of_right_ne_nil _ nonempty) there plain]
  exact if_pos within

end Resolving

end Server

end Raas
