import Mathlib.Data.List.Nodup
import Raas.Archive.Scanner

namespace Raas

open Data

/-! The regular files and directories below a directory, as a scan meets them. -/

inductive Entity where
  | file (content : Bytes) (stat : Stat)
  | directory (stat : Stat)
deriving DecidableEq

namespace Entity

def isDir : Entity → Bool
  | .file _ _ => false
  | .directory _ => true

/-- The path of an entity below the source, a directory's with a slash at its end. -/
def rawPath (names : Location) : Entity → Bytes
  | .file _ _ => List.intercalate [separator] names
  | .directory _ => List.intercalate [separator] names ++ [separator]

def shownPath (names : Location) : Entity → Bytes
  | .file _ _ => relativeString names
  | .directory _ => relativeString names ++ [separator]

def scanned (basePath : Path) (names : Location) : Entity → ScannedEntry
  | .file content stat => .file (relativeString names) (pathOf basePath names) content stat
  | .directory stat => .directory (relativeString names ++ [separator]) (pathOf basePath names) stat

end Entity

def placed : Listing → List (Location × Entity)
  | .nil => []
  | .leaf name (.file content stat) rest => ([name], .file content stat) :: placed rest
  | .leaf _ _ rest => placed rest
  | .dir name stat children rest =>
      ([name], .directory stat) ::
        ((placed children).map (fun found => (name :: found.1, found.2)) ++ placed rest)

section Placed

variable {listing : Listing}

theorem scanDir_eq_map (basePath : Path) (below : Location) (listing : Listing) :
    scanDir basePath below listing =
      (placed listing).map fun found => found.2.scanned basePath (below ++ found.1) := by
  induction listing generalizing below with
  | nil => rfl
  | leaf name kind rest ih =>
      cases kind with
      | file content stat => rw [scanDir, placed, List.map_cons, ih]; rfl
      | symlink target => exact ih below
      | special => exact ih below
  | dir name stat children rest inside later =>
      rw [scanDir, placed, List.map_cons, List.map_append, List.map_map, inside, later]
      simp only [Function.comp_def, List.append_assoc, List.singleton_append]
      rfl

theorem scanSource_directory (source : Path) (stat : Stat) (listing : Listing) :
    scanSource source (some (.dir stat listing)) =
      .ok ((placed listing).map fun found => found.2.scanned source found.1) := by
  rw [scanSource, scanDir_eq_map]
  rfl

theorem placed_names (legal : listing.Legal) :
    ∀ found ∈ placed listing, found.1 ≠ [] ∧ ∀ name ∈ found.1, LegalName name := by
  induction listing with
  | nil => simp [placed]
  | leaf name kind rest ih =>
      have later := ih legal.2.2
      cases kind with
      | file content stat =>
          rw [placed, List.forall_mem_cons]
          exact ⟨⟨List.cons_ne_nil _ _, by simpa using legal.1⟩, later⟩
      | symlink target => exact later
      | special => exact later
  | dir name stat children rest inside later =>
      rw [placed, List.forall_mem_cons, List.forall_mem_append, List.forall_mem_map]
      refine ⟨⟨List.cons_ne_nil _ _, by simpa using legal.1⟩, ?_, later legal.2.2.2⟩
      intro found member
      obtain ⟨_, names⟩ := inside legal.2.2.1 found member
      exact ⟨List.cons_ne_nil _ _, by simpa using ⟨legal.1, names⟩⟩

theorem scanned_relativePath (basePath : Path) (names : Location) (entity : Entity) :
    (entity.scanned basePath names).relativePath = entity.shownPath names ∧
      (entity.scanned basePath names).isDir = entity.isDir := by
  cases entity <;> exact ⟨rfl, rfl⟩

end Placed

def Node.entity : Node → Option Entity
  | .leaf (.file content stat) => some (.file content stat)
  | .leaf _ => none
  | .dir stat _ => some (.directory stat)

/-- The regular file or the directory at a place below a directory. -/
def Node.entityAt (tree : Node) (names : Location) : Option Entity :=
  if names = [] then none else (tree.lookup names).bind Node.entity

section Lookup

variable {listing children rest : Listing} {name first : Bytes} {names : Location} {node : Node}

theorem entityAt_cons_other (stat : Stat) (other : name ≠ first) :
    (Node.dir stat (.cons name node rest)).entityAt (first :: names) = (Node.dir stat rest).entityAt (first :: names) := by
  have found : (Listing.cons name node rest).find? first = rest.find? first := by
    cases node with
    | leaf kind => exact if_neg other
    | dir stat children => exact if_neg other
  rw [Node.entityAt, Node.entityAt, Node.lookup, Node.lookup, found]

theorem placed_heads : ∀ found ∈ placed listing, ∃ name ∈ listing.names, ∃ names, found.1 = name :: names := by
  induction listing with
  | nil => simp [placed]
  | leaf name kind rest ih =>
      have later : ∀ found ∈ placed rest, ∃ first ∈ (Listing.leaf name kind rest).names, ∃ names, found.1 = first :: names := by
        intro found member
        obtain ⟨first, inside, whole⟩ := ih found member
        exact ⟨first, List.mem_cons_of_mem _ inside, whole⟩
      cases kind with
      | file content stat =>
          rw [placed, List.forall_mem_cons]
          exact ⟨⟨name, List.mem_cons_self, [], rfl⟩, later⟩
      | symlink target => exact later
      | special => exact later
  | dir name stat children rest _ ih =>
      rw [placed, List.forall_mem_cons, List.forall_mem_append, List.forall_mem_map]
      refine ⟨⟨name, List.mem_cons_self, [], rfl⟩, fun found _ => ⟨name, List.mem_cons_self, found.1, rfl⟩, ?_⟩
      intro found member
      obtain ⟨first, inside, whole⟩ := ih found member
      exact ⟨first, List.mem_cons_of_mem _ inside, whole⟩

theorem placed_apart (fresh : name ∉ listing.names) (names : Location) :
    ∀ found ∈ placed listing, ¬ name :: names <+: found.1 ∧ ¬ found.1 <+: name :: names := by
  intro found member
  obtain ⟨first, inside, more, whole⟩ := placed_heads found member
  rw [whole, List.cons_prefix_cons, List.cons_prefix_cons]
  exact ⟨fun front => fresh (front.1 ▸ inside), fun front => fresh (front.1 ▸ inside)⟩

theorem placed_nodup (legal : listing.Legal) : ((placed listing).map Prod.fst).Nodup := by
  induction listing with
  | nil => exact List.nodup_nil
  | leaf name kind rest ih =>
      have later := ih legal.2.2
      cases kind with
      | file content stat =>
          rw [placed, List.map_cons, List.nodup_cons]
          refine ⟨?_, later⟩
          intro member
          obtain ⟨found, inside, same⟩ := List.mem_map.mp member
          exact (placed_apart legal.2.1 [] found inside).1 (same ▸ List.prefix_refl _)
      | symlink target => exact later
      | special => exact later
  | dir name stat children rest inside later =>
      have prefixed : ((placed children).map fun found => (name :: found.1, found.2)).map Prod.fst =
          ((placed children).map Prod.fst).map (name :: ·) := by
        rw [List.map_map, List.map_map]
        rfl
      rw [placed, List.map_cons, List.map_append, prefixed, List.nodup_cons, List.nodup_append]
      refine ⟨?_, List.Nodup.map List.cons_injective (inside legal.2.2.1), later legal.2.2.2, ?_⟩
      · rw [List.mem_append, not_or]
        constructor
        · intro member
          obtain ⟨names, deeper, same⟩ := List.mem_map.mp member
          obtain ⟨found, here, whole⟩ := List.mem_map.mp deeper
          exact (placed_names legal.2.2.1 found here).1 (whole.trans (List.cons.inj same).2)
        · intro member
          obtain ⟨found, here, same⟩ := List.mem_map.mp member
          exact (placed_apart legal.2.1 [] found here).1 (same ▸ List.prefix_refl _)
      · intro names deeper other member same
        obtain ⟨inner, _, whole⟩ := List.mem_map.mp deeper
        obtain ⟨found, here, place⟩ := List.mem_map.mp member
        have alike : name :: inner = found.1 := by rw [whole, same, place]
        exact (placed_apart legal.2.1 inner found here).1 (alike ▸ List.prefix_refl _)

theorem entityAt_leaf (stat : Stat) (kind : Leaf) : (Node.dir stat (.leaf name kind rest)).entityAt (name :: names) =
    if names = [] then (Node.leaf kind).entity else none := by
  rw [Node.entityAt, if_neg (List.cons_ne_nil _ _), Node.lookup, Listing.find?, if_pos rfl]
  cases names with
  | nil => rfl
  | cons next names => rfl

theorem entityAt_dir (stat below : Stat) :
    (Node.dir stat (.dir name below children rest)).entityAt (name :: names) =
      if names = [] then some (.directory below) else (Node.dir below children).entityAt names := by
  rw [Node.entityAt, if_neg (List.cons_ne_nil _ _), Node.lookup, Listing.find?, if_pos rfl]
  cases names with
  | nil => rfl
  | cons next names => rfl

theorem not_mem_rest {entity : Entity} (fresh : name ∉ listing.names) : (name :: names, entity) ∉ placed listing :=
  fun member => (placed_apart fresh names _ member).1 (List.prefix_refl _)

/-- What a scan meets is what is there. -/
theorem mem_placed_iff (legal : listing.Legal) (stat : Stat) {entity : Entity} :
    (names, entity) ∈ placed listing ↔ (Node.dir stat listing).entityAt names = some entity := by
  induction listing generalizing names stat with
  | nil =>
      cases names with
      | nil => simp [placed, Node.entityAt]
      | cons first names => simp [placed, Node.entityAt, Node.lookup, Listing.find?]
  | leaf name kind rest ih =>
      cases names with
      | nil => exact iff_of_false (fun member => (placed_names legal _ member).1 rfl) (by simp [Node.entityAt])
      | cons first names =>
          have tail : (first :: names, entity) ∈ placed rest ↔
              (Node.dir stat rest).entityAt (first :: names) = some entity := ih legal.2.2 stat
          by_cases same : name = first
          · subst same
            have absent : (name :: names, entity) ∉ placed rest := not_mem_rest legal.2.1
            rw [entityAt_leaf]
            cases kind with
            | file content stat => cases names <;> simp [placed, absent, Node.entity, eq_comm]
            | symlink target => cases names <;> simp [placed, absent, Node.entity]
            | special => cases names <;> simp [placed, absent, Node.entity]
          · rw [show Listing.leaf name kind rest = .cons name (.leaf kind) rest from rfl, entityAt_cons_other stat same,
              ← tail]
            have apart : first ≠ name := fun equal => same equal.symm
            cases kind <;> simp [Listing.cons, placed, apart]
  | dir name below children rest inside later =>
      cases names with
      | nil => exact iff_of_false (fun member => (placed_names legal _ member).1 rfl) (by simp [Node.entityAt])
      | cons first names =>
          have tail : (first :: names, entity) ∈ placed rest ↔
              (Node.dir stat rest).entityAt (first :: names) = some entity := later legal.2.2.2 stat
          by_cases same : name = first
          · subst same
            have absent : (name :: names, entity) ∉ placed rest := not_mem_rest legal.2.1
            have inner : (names, entity) ∈ placed children ↔
                (Node.dir below children).entityAt names = some entity := inside legal.2.2.1 below
            rw [entityAt_dir]
            by_cases top : names = []
            · subst top
              have noTop : ([], entity) ∉ placed children :=
                fun member => (placed_names legal.2.2.1 _ member).1 rfl
              simp [placed, absent, noTop, eq_comm]
            · simp [placed, absent, top, inner]
          · rw [show Listing.dir name below children rest = .cons name (.dir below children) rest from rfl,
              entityAt_cons_other stat same, ← tail]
            have apart : first ≠ name := fun equal => same equal.symm
            simp [Listing.cons, placed, apart, same]

end Lookup

end Raas
