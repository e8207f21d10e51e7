import Raas.Os.Surroundings

namespace Raas

/-! Where walks arrive, and what is read there. -/

/-- Something is here, and it is no symbolic link. -/
def Arrival (root : Node) (here : Location) : Prop :=
  ∃ node, root.lookup here = some node ∧ ∀ target, node ≠ .leaf (.symlink target)

section Arriving

variable {root : Node} {here found : Location} {pieces : List Bytes} {links : Nat}

theorem arrival_directory {stat : Stat} {children : Listing} (place : root.lookup here = some (.dir stat children)) :
    Arrival root here :=
  ⟨_, place, directory_plain stat children⟩

theorem walkWithin_arrives {follow : Location → List Bytes → Option Location}
    (followed : ∀ here pieces found, Arrival root here → follow here pieces = some found → Arrival root found)
    (start : Arrival root here) (arrived : walkWithin follow root here pieces = some found) : Arrival root found := by
  induction pieces generalizing here with
  | nil => exact Option.some.inj arrived ▸ start
  | cons piece rest ih =>
      obtain ⟨stat, children, place⟩ := walkWithin_directory arrived
      by_cases stays : piece = [] ∨ piece = [46]
      · rw [walkWithin_stay place stays] at arrived
        exact ih start arrived
      · by_cases up : piece = [46, 46]
        · subst up
          obtain ⟨stat', children', above⟩ := lookup_upward place (List.dropLast_prefix here)
          rw [walkWithin_up place] at arrived
          exact ih (arrival_directory above) arrived
        · cases next : root.lookup (here ++ [piece]) with
          | none =>
              rw [walkWithin_lost place next stays up] at arrived
              cases arrived
          | some child =>
              rcases child.link_or_plain with ⟨target, rfl⟩ | plain
              · obtain ⟨stat', children', top⟩ := lookup_upward place List.nil_prefix
                rw [walkWithin_link next stays up] at arrived
                split at arrived
                · exact followed _ _ _ (arrival_directory top) arrived
                · exact followed _ _ _ start arrived
              · rw [walkWithin_enter next plain stays up] at arrived
                exact ih ⟨child, next, plain⟩ arrived

theorem walk_arrives (start : Arrival root here) (arrived : walk root links here pieces = some found) :
    Arrival root found := by
  induction links generalizing here pieces found with
  | zero => exact walkWithin_arrives (fun _ _ _ _ lost => by cases lost) start arrived
  | succ links ih => exact walkWithin_arrives (fun _ _ _ start arrived => ih start arrived) start arrived

/-- What a path leads to is there, and every symbolic link has been followed. -/
theorem opens_arrives {path : Path} (arrived : opens root path = some found) : Arrival root found := by
  cases root with
  | dir stat children => exact walk_arrives ⟨_, Node.lookup_nil _, directory_plain stat children⟩ arrived
  | leaf kind =>
      obtain ⟨first, rest, pieces⟩ := List.exists_cons_of_ne_nil (List.splitOn_ne_nil separator path)
      rw [opens, pieces] at arrived
      obtain ⟨_, _, place⟩ := walkWithin_directory arrived
      cases place

end Arriving

/-- The files of a tree can be read by their own paths. -/
def Mirrors (root : Node) (paths : Path → Option Bytes) : Prop :=
  ∀ location content stat, location ≠ [] → root.lookup location = some (.leaf (.file content stat)) →
    paths (pathOf [separator] location) = some content

theorem Mirrors.reads {root node : Node} {location names : Location} {paths : Path → Option Bytes}
    (mirrors : Mirrors root paths) (here : root.lookup location = some node) {content : Bytes} {stat : Stat}
    (top : location ++ names ≠ []) (reached : node.lookup names = some (.leaf (.file content stat))) :
    paths (pathOf [separator] (location ++ names)) = some content := by
  apply mirrors _ content stat top
  rw [Node.lookup_append, here]
  exact reached

end Raas
