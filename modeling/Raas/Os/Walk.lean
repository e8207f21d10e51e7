import Raas.Os.Tree

namespace Raas

/-! How the system walks a path to a node. -/

namespace Listing

theorem find?_names {name : Bytes} {node : Node} {listing : Listing} (found : listing.find? name = some node) :
    name ∈ listing.names := by
  induction listing with
  | nil => simp [find?] at found
  | leaf other kind rest ih =>
      rw [find?] at found
      split at found
      · rename_i same
        simp [names, same]
      · exact List.mem_cons_of_mem _ (ih found)
  | dir other stat children rest _ ih =>
      rw [find?] at found
      split at found
      · rename_i same
        simp [names, same]
      · exact List.mem_cons_of_mem _ (ih found)

theorem Legal.names {listing : Listing} (legal : listing.Legal) : ∀ name ∈ listing.names, LegalName name := by
  induction listing with
  | nil => simp [Listing.names]
  | leaf name kind rest ih =>
      intro other member
      rcases List.mem_cons.mp member with rfl | later
      · exact legal.1
      · exact ih legal.2.2 other later
  | dir name stat children rest _ ih =>
      intro other member
      rcases List.mem_cons.mp member with rfl | later
      · exact legal.1
      · exact ih legal.2.2.2 other later

theorem Legal.find? {listing : Listing} (legal : listing.Legal) {name : Bytes} {stat : Stat} {children : Listing}
    (found : listing.find? name = some (.dir stat children)) : children.Legal := by
  induction listing with
  | nil => simp [Listing.find?] at found
  | leaf other kind rest ih =>
      rw [Listing.find?] at found
      split at found
      · simp at found
      · exact ih legal.2.2 found
  | dir other stat' children' rest _ ih =>
      rw [Listing.find?] at found
      split at found
      · cases found
        exact legal.2.2.1
      · exact ih legal.2.2.2 found

end Listing

def Node.Legal : Node → Prop
  | .leaf _ => True
  | .dir _ children => children.Legal

instance : (node : Node) → Decidable node.Legal
  | .leaf _ => .isTrue trivial
  | .dir _ children => Listing.decidableLegal children

theorem Node.lookup_append (node : Node) (front back : Location) :
    node.lookup (front ++ back) = (node.lookup front).bind fun inner => inner.lookup back := by
  induction front generalizing node with
  | nil => cases node <;> rfl
  | cons name front ih =>
      cases node with
      | leaf kind => rfl
      | dir stat children =>
          rw [List.cons_append, Node.lookup, Node.lookup]
          cases children.find? name with
          | none => rfl
          | some inner => exact ih inner

theorem Node.lookup_nil (tree : Node) : tree.lookup [] = some tree := by cases tree <;> rfl

theorem Node.lookup_cons (stat : Stat) (children : Listing) (name : Bytes) (rest : Location) :
    (Node.dir stat children).lookup (name :: rest) = (children.find? name).bind fun child => child.lookup rest := by
  rw [lookup]
  cases children.find? name <;> rfl

theorem Node.lookup_child {tree : Node} {here : Location} {stat : Stat} {children : Listing}
    (place : tree.lookup here = some (.dir stat children)) (name : Bytes) :
    tree.lookup (here ++ [name]) = children.find? name := by
  rw [lookup_append, place, Option.bind_some, lookup_cons]
  cases children.find? name with
  | none => rfl
  | some node => exact node.lookup_nil

theorem lookup_prefix {tree node : Node} {here more : Location} (reached : tree.lookup (here ++ more) = some node) :
    ∃ inner, tree.lookup here = some inner := by
  rw [Node.lookup_append, Option.bind_eq_some_iff] at reached
  obtain ⟨inner, found, _⟩ := reached
  exact ⟨inner, found⟩

theorem lookup_parent {tree node : Node} {here : Location} {name : Bytes}
    (reached : tree.lookup (here ++ [name]) = some node) :
    ∃ stat children, tree.lookup here = some (.dir stat children) := by
  rw [Node.lookup_append, Option.bind_eq_some_iff] at reached
  obtain ⟨inner, found, below⟩ := reached
  cases inner with
  | leaf kind => cases below
  | dir stat children => exact ⟨stat, children, found⟩

theorem Node.Legal.lookup {node inner : Node} (legal : node.Legal) {location : Location}
    (found : node.lookup location = some inner) : inner.Legal ∧ ∀ name ∈ location, LegalName name := by
  induction location generalizing node with
  | nil =>
      cases node <;>
        · simp only [Node.lookup, Option.some.injEq] at found
          subst found
          exact ⟨legal, by simp⟩
  | cons name location ih =>
      cases node with
      | leaf kind => simp [Node.lookup] at found
      | dir stat children =>
          rw [Node.lookup] at found
          cases here : children.find? name with
          | none => simp [here] at found
          | some next =>
              rw [here] at found
              have nextLegal : next.Legal := by
                cases next with
                | leaf kind => trivial
                | dir stat' children' => exact Listing.Legal.find? legal here
              obtain ⟨innerLegal, others⟩ := ih nextLegal found
              refine ⟨innerLegal, ?_⟩
              intro other member
              rcases List.mem_cons.mp member with rfl | later
              · exact Listing.Legal.names legal other (Listing.find?_names here)
              · exact others other later

/-- One component after the other; every piece but the last result must be a directory.
`follow` continues where a symbolic link points. -/
def walkWithin (follow : Location → List Bytes → Option Location) (root : Node) :
    Location → List Bytes → Option Location
  | here, [] => some here
  | here, piece :: rest =>
      match root.lookup here with
      | some (.dir _ children) =>
          if piece = [] ∨ piece = [46] then walkWithin follow root here rest
          else if piece = [46, 46] then walkWithin follow root here.dropLast rest
          else
            match children.find? piece with
            | none => none
            | some (.leaf (.symlink target)) =>
                follow (if Path.isAbsolute target then [] else here) (target.splitOn separator ++ rest)
            | some _ => walkWithin follow root (here ++ [piece]) rest
      | _ => none

def walk (root : Node) : Nat → Location → List Bytes → Option Location
  | 0 => walkWithin (fun _ _ => none) root
  | links + 1 => walkWithin (walk root links) root

def maxLinks : Nat := 40

/-- Where `open` of an absolute path arrives. A path may be of any length here. -/
def opens (root : Node) (path : Path) : Option Location := walk root maxLinks [] (path.splitOn separator)

theorem file_plain (content : Bytes) (stat : Stat) (target : Path) :
    Node.leaf (.file content stat) ≠ .leaf (.symlink target) := by
  intro same
  cases same

theorem directory_plain (stat : Stat) (children : Listing) (target : Path) :
    Node.dir stat children ≠ .leaf (.symlink target) := by
  intro same
  cases same

theorem Node.link_or_plain (node : Node) :
    (∃ target, node = .leaf (.symlink target)) ∨ ∀ target, node ≠ .leaf (.symlink target) :=
  (Classical.em _).imp_right not_exists.mp

theorem LegalName.named {name : Bytes} (legal : LegalName name) : ¬ (name = [] ∨ name = [46]) :=
  not_or.mpr ⟨legal.1, legal.2.2.2.1⟩

section Walks

variable {root node : Node} {follow : Location → List Bytes → Option Location} {here found : Location}
  {piece : Bytes} {pieces rest : List Bytes} {stat : Stat} {children : Listing}

theorem walkWithin_stay (place : root.lookup here = some (.dir stat children)) (stays : piece = [] ∨ piece = [46]) :
    walkWithin follow root here (piece :: rest) = walkWithin follow root here rest := by
  rw [walkWithin, place]
  exact if_pos stays

theorem walkWithin_up (place : root.lookup here = some (.dir stat children)) :
    walkWithin follow root here ([46, 46] :: rest) = walkWithin follow root here.dropLast rest := by
  rw [walkWithin, place]
  rfl

/-- A step of a walk along a name. -/
theorem walkWithin_name (place : root.lookup here = some (.dir stat children)) (named : ¬ (piece = [] ∨ piece = [46]))
    (down : piece ≠ [46, 46]) :
    walkWithin follow root here (piece :: rest) =
      match root.lookup (here ++ [piece]) with
      | none => none
      | some (.leaf (.symlink target)) =>
          follow (if Path.isAbsolute target then [] else here) (target.splitOn separator ++ rest)
      | some _ => walkWithin follow root (here ++ [piece]) rest := by
  rw [walkWithin, place, Node.lookup_child place]
  refine (if_neg named).trans ((if_neg down).trans ?_)
  cases children.find? piece with
  | none => rfl
  | some node =>
      cases node with
      | dir stat children => rfl
      | leaf kind => cases kind <;> rfl

theorem walkWithin_enter (reached : root.lookup (here ++ [piece]) = some node)
    (plain : ∀ target, node ≠ .leaf (.symlink target)) (named : ¬ (piece = [] ∨ piece = [46]))
    (down : piece ≠ [46, 46]) :
    walkWithin follow root here (piece :: rest) = walkWithin follow root (here ++ [piece]) rest := by
  obtain ⟨stat, children, place⟩ := lookup_parent reached
  rw [walkWithin_name place named down, reached]
  cases node with
  | dir stat children => rfl
  | leaf kind =>
      cases kind with
      | symlink target => exact absurd rfl (plain target)
      | file content stat => rfl
      | special => rfl

theorem walkWithin_link {target : Path} (reached : root.lookup (here ++ [piece]) = some (.leaf (.symlink target)))
    (named : ¬ (piece = [] ∨ piece = [46])) (down : piece ≠ [46, 46]) :
    walkWithin follow root here (piece :: rest) =
      follow (if Path.isAbsolute target then [] else here) (target.splitOn separator ++ rest) := by
  obtain ⟨stat, children, place⟩ := lookup_parent reached
  rw [walkWithin_name place named down, reached]

theorem walkWithin_lost (place : root.lookup here = some (.dir stat children))
    (absent : root.lookup (here ++ [piece]) = none) (named : ¬ (piece = [] ∨ piece = [46])) (down : piece ≠ [46, 46]) :
    walkWithin follow root here (piece :: rest) = none := by
  rw [walkWithin_name place named down, absent]

theorem walkWithin_directory (arrived : walkWithin follow root here (piece :: rest) = some found) :
    ∃ stat children, root.lookup here = some (.dir stat children) := by
  rw [walkWithin] at arrived
  split at arrived
  · exact ⟨_, _, by assumption⟩
  · cases arrived

theorem walkWithin_names (legal : root.Legal) {names : Location} (reached : root.lookup (here ++ names) = some node)
    (plain : ∀ target, node ≠ .leaf (.symlink target)) (rest : List Bytes) :
    walkWithin follow root here (names ++ rest) = walkWithin follow root (here ++ names) rest := by
  induction names generalizing here with
  | nil => rw [List.nil_append, List.append_nil]
  | cons name names ih =>
      have legalName := (legal.lookup reached).2 name (by simp)
      have joined : here ++ name :: names = here ++ [name] ++ names := by simp
      rw [joined] at reached ⊢
      obtain ⟨inner, found⟩ := lookup_prefix reached
      have plainInner : ∀ target, inner ≠ .leaf (.symlink target) := by
        intro target link
        rw [Node.lookup_append, found, Option.bind_some, link] at reached
        cases names with
        | nil => exact plain target (Option.some.inj reached).symm
        | cons further names => cases reached
      rw [List.cons_append, walkWithin_enter found plainInner legalName.named legalName.2.2.2.2]
      exact ih reached

/-- Without symbolic links, a walk keeps a front of where it began and goes on along
pieces of the path. -/
theorem walkWithin_pieces (arrived : walkWithin (fun _ _ => none) root here pieces = some found) :
    ∃ kept pushed, kept ≤ here.length ∧ found = here.take kept ++ pushed ∧ ∀ name ∈ pushed, name ∈ pieces := by
  induction pieces generalizing here with
  | nil =>
      rw [walkWithin, Option.some.injEq] at arrived
      exact ⟨here.length, [], Nat.le_refl _, by rw [List.take_length, List.append_nil, arrived], by simp⟩
  | cons piece rest ih =>
      rw [walkWithin] at arrived
      split at arrived
      · split at arrived
        · obtain ⟨kept, pushed, fits, whole, within⟩ := ih arrived
          exact ⟨kept, pushed, fits, whole, fun name member => List.mem_cons_of_mem _ (within name member)⟩
        · split at arrived
          · obtain ⟨kept, pushed, fits, whole, within⟩ := ih arrived
            rw [List.length_dropLast] at fits
            refine ⟨kept, pushed, by omega, ?_, fun name member => List.mem_cons_of_mem _ (within name member)⟩
            rw [whole, List.dropLast_eq_take, List.take_take, Nat.min_eq_left fits]
          · split at arrived
            · simp at arrived
            · simp at arrived
            · obtain ⟨kept, pushed, fits, whole, within⟩ := ih arrived
              rw [List.length_append, List.length_singleton] at fits
              by_cases before : kept ≤ here.length
              · refine ⟨kept, pushed, before, ?_, fun name member => List.mem_cons_of_mem _ (within name member)⟩
                rw [whole, List.take_append_of_le_length before]
              · refine ⟨here.length, piece :: pushed, Nat.le_refl _, ?_, ?_⟩
                · rw [whole, List.take_of_length_le (by simp; omega), List.take_length]
                  simp
                · intro name member
                  rcases List.mem_cons.mp member with rfl | later
                  · exact List.mem_cons_self
                  · exact List.mem_cons_of_mem _ (within name later)
      · simp at arrived

end Walks

/-! Paths of locations. -/

section Paths

variable {path : Path} {name : Bytes} {location : Location}

theorem LegalName.relative (legal : LegalName name) : Path.isAbsolute name = false := by
  cases name with
  | nil => rfl
  | cons first rest =>
      have other : first ≠ separator := fun same => legal.2.1 (by simp [same])
      simp [Path.isAbsolute, other]

theorem LegalName.ends (legal : LegalName name) (front : Bytes) : (front ++ name).getLast? ≠ some separator := by
  rw [List.getLast?_append_of_ne_nil _ legal.1]
  exact fun last => legal.2.1 (List.mem_of_getLast? last)

theorem intercalate_relative (legal : ∀ name ∈ location, LegalName name) (nonempty : location ≠ []) :
    Path.isAbsolute (List.intercalate [separator] location) = false := by
  cases location with
  | nil => exact absurd rfl nonempty
  | cons name rest =>
      have first := legal name (by simp)
      cases name with
      | nil => exact absurd rfl first.1
      | cons byte name =>
          rw [List.intercalate_cons_cons_left]
          exact first.relative

theorem intercalate_ends (legal : ∀ name ∈ location, LegalName name) :
    (List.intercalate [separator] location).getLast? ≠ some separator := by
  cases location using List.reverseRecOn with
  | nil => simp
  | append_singleton location name =>
      have last := legal name (by simp)
      by_cases first : location = []
      · subst first
        simpa using last.ends []
      · have ends := last.ends (List.intercalate [separator] location ++ [separator])
        rw [intercalate_append first]
        simpa using ends

theorem splitOn_names (legal : ∀ name ∈ location, LegalName name) (nonempty : location ≠ []) :
    (List.intercalate [separator] location).splitOn separator = location :=
  List.splitOn_intercalate separator (fun name member => (legal name member).2.1) nonempty

theorem separator_intercalate_ends (legal : ∀ name ∈ location, LegalName name) (nonempty : location ≠ []) :
    ¬ (separator :: List.intercalate [separator] location = [] ∨
      (separator :: List.intercalate [separator] location).getLast? = some separator) := by
  intro either
  rcases either with empty | last
  · simp at empty
  · have inner : List.intercalate [separator] location ≠ [] := by
      intro empty
      have pieces := splitOn_names legal nonempty
      rw [empty] at pieces
      exact (legal [] (by rw [← pieces]; simp)).1 rfl
    rw [List.getLast?_cons_of_ne_nil inner] at last
    exact intercalate_ends legal last

theorem pathOf_append (basePath : Path) (below : Location) (name : Bytes) :
    pathOf basePath (below ++ [name]) = Path.join (pathOf basePath below) name := by
  rw [pathOf, List.foldl_append]
  rfl

theorem pathOf_root (legal : ∀ name ∈ location, LegalName name) (nonempty : location ≠ []) :
    pathOf [separator] location = separator :: List.intercalate [separator] location := by
  induction location using List.reverseRecOn with
  | nil => exact absurd rfl nonempty
  | append_singleton location name ih =>
      have legalName := legal name (by simp)
      have legalFront : ∀ name ∈ location, LegalName name := fun other member => legal other (by simp [member])
      rw [pathOf_append, Path.join, legalName.relative, if_neg Bool.false_ne_true]
      by_cases first : location = []
      · subst first
        simp [pathOf]
      · rw [ih legalFront first, if_neg (separator_intercalate_ends legalFront first), intercalate_append first, List.cons_append]

theorem splitOn_pathOf (legal : ∀ name ∈ location, LegalName name) (nonempty : location ≠ []) :
    (pathOf [separator] location).splitOn separator = [] :: location := by
  have head : (separator :: List.intercalate [separator] location).splitOn separator =
      [] :: (List.intercalate [separator] location).splitOn separator :=
    List.splitOn_append_cons_self_of_not_mem List.not_mem_nil _
  rw [pathOf_root legal nonempty, head, splitOn_names legal nonempty]

def componentsOf (location : Location) : List Component := .rootDir :: location.map .normal

theorem LegalName.parseComponent (legal : LegalName name) : Path.parseComponent name = some (.normal name) := by
  unfold Path.parseComponent
  split
  · exact absurd rfl legal.1
  · exact absurd rfl legal.2.2.2.1
  · exact absurd rfl legal.2.2.2.2
  · rfl

theorem components_pathOf (legal : ∀ name ∈ location, LegalName name) :
    Path.components (pathOf [separator] location) = componentsOf location := by
  have parsed : location.filterMap Path.parseComponent = location.map .normal := by
    rw [List.filterMap_congr fun name member => (legal name member).parseComponent, List.filterMap_eq_map']
  by_cases top : location = []
  · subst top
    rfl
  · have absolute : Path.isAbsolute (pathOf [separator] location) = true := by
      rw [pathOf_root legal top]
      rfl
    rw [Path.components, absolute, splitOn_pathOf legal top, List.filterMap_cons]
    simp only [Path.parseComponent, parsed]
    rfl

theorem componentsOf_injective {other : Location} (same : componentsOf location = componentsOf other) :
    location = other :=
  List.map_injective_iff.mpr (fun _ _ => Component.normal.inj) (List.cons.inj same).2

theorem splitOn_join (legal : ∀ name ∈ location, LegalName name) (relative : Path.isAbsolute path = false) :
    (Path.join (pathOf [separator] location) path).splitOn separator =
      [] :: (location ++ path.splitOn separator) := by
  rw [Path.join, relative, if_neg Bool.false_ne_true]
  by_cases top : location = []
  · subst top
    have root : pathOf [separator] [] = [separator] := rfl
    rw [root, if_pos (by simp), List.singleton_append]
    exact List.splitOn_append_cons_self_of_not_mem List.not_mem_nil path
  · have front := pathOf_root legal top
    have pieces := splitOn_pathOf legal top
    rw [front] at pieces ⊢
    rw [if_neg (separator_intercalate_ends legal top), List.splitOn_append_cons_self, pieces, List.cons_append]

end Paths

section Opening

variable {root node : Node} {location names : Location}

theorem walkWithin_top {stat : Stat} {children : Listing} {follow : Location → List Bytes → Option Location}
    (rest : List Bytes) : walkWithin follow (.dir stat children) [] ([] :: rest) =
      walkWithin follow (.dir stat children) [] rest := by
  rw [walkWithin, Node.lookup]
  simp only [true_or, if_true]

theorem walk_join (legal : root.Legal) {stat : Stat} {listing : Listing}
    (here : root.lookup location = some (.dir stat listing)) {path : Path} (relative : Path.isAbsolute path = false)
    (links : Nat) :
    walk root links [] ((Path.join (pathOf [separator] location) path).splitOn separator) =
      walk root links location (path.splitOn separator) := by
  rw [splitOn_join (legal.lookup here).2 relative]
  cases root with
  | leaf kind => cases location <;> simp [Node.lookup] at here
  | dir topStat children =>
      have fromTop : (Node.dir topStat children).lookup ([] ++ location) = some (.dir stat listing) := here
      cases links with
      | zero => exact (walkWithin_top _).trans (walkWithin_names legal fromTop nofun _)
      | succ links => exact (walkWithin_top _).trans (walkWithin_names legal fromTop nofun _)

theorem walk_names (legal : root.Legal) (nonempty : names ≠ [])
    (reached : root.lookup (location ++ names) = some node) (plain : ∀ target, node ≠ .leaf (.symlink target))
    (links : Nat) :
    walk root links location ((List.intercalate [separator] names).splitOn separator) =
      some (location ++ names) := by
  have legalNames : ∀ name ∈ names, LegalName name :=
    fun name member => (legal.lookup reached).2 name (List.mem_append_right _ member)
  have within : ∀ follow, walkWithin follow root location names = some (location ++ names) := by
    intro follow
    have whole : walkWithin follow root location (names ++ []) = walkWithin follow root (location ++ names) [] :=
      walkWithin_names legal reached plain []
    rw [List.append_nil] at whole
    rw [whole, walkWithin]
  rw [splitOn_names legalNames nonempty]
  cases links with
  | zero => exact within _
  | succ links => exact within _

theorem opens_pathOf (legal : root.Legal) (nonempty : location ≠ []) (reached : root.lookup location = some node)
    (plain : ∀ target, node ≠ .leaf (.symlink target)) :
    opens root (pathOf [separator] location) = some location := by
  have names := (legal.lookup reached).2
  rw [opens, splitOn_pathOf names nonempty]
  cases root with
  | leaf kind => cases location <;> simp [Node.lookup] at nonempty reached
  | dir topStat children =>
      have fromTop : (Node.dir topStat children).lookup ([] ++ location) = some node := reached
      have arrives := walk_names legal nonempty fromTop plain maxLinks
      rw [splitOn_names names nonempty] at arrives
      exact (walkWithin_top _).trans arrives

end Opening

end Raas
