import Raas.Data.Blocks
import Raas.Archive.Entities
import Raas.Archive.Tar.Sources

namespace Raas

open Data

/-! Unpacking the entries of a scan, one after the other. -/

/-- A regular file or a directory as it is unpacked. -/
inductive Item where
  | file (content : Bytes) (mode mtime : Nat)
  | directory (mode mtime : Nat)
deriving DecidableEq

/-- What is below the directory that the entries are unpacked into. -/
abbrev Unpacked := Location → Option Item

def Unpacked.isDirectory (unpacked : Unpacked) (names : Location) : Bool :=
  if names = [] then true
  else
    match unpacked names with
    | some (.directory _ _) => true
    | _ => false

/-- Where an entry goes whose name has these pieces between its slashes. A name with
two dots is not unpacked. -/
def landing (pieces : List Bytes) : Option Location :=
  let names := pieces.filter fun piece => piece ≠ [] ∧ piece ≠ [46]
  if names = [] ∨ [46, 46] ∈ pieces then none else some names

def ScannedEntry.landing (item : ScannedEntry) : Option Location := Raas.landing (item.relativePath.splitOn separator)

def readFile (root : Node) (path : Path) : Option Bytes :=
  match (opens root path).bind root.lookup with
  | some (.leaf (.file content _)) => some content
  | _ => none

def ScannedEntry.unpacked (root : Node) (item : ScannedEntry) : Option Item :=
  if item.isDir then some (.directory item.mode item.mtime)
  else (readFile root item.sourcePath).map fun content => .file content item.mode item.mtime

/-- Makes the directory or writes the file of an entry. The directory that it goes
into must be there, and nothing in its place. -/
def unpackEntry (root : Node) (unpacked : Unpacked) (item : ScannedEntry) : Option Unpacked :=
  match item.landing, item.unpacked root with
  | some names, some made =>
      if unpacked.isDirectory names.dropLast ∧ unpacked names = none then
        some (Function.update unpacked names (some made))
      else none
  | _, _ => none

def unpack (root : Node) (scanned : List ScannedEntry) : Option Unpacked :=
  scanned.foldlM (unpackEntry root) fun _ => none

namespace Entity

def item : Entity → Item
  | .file content stat => .file content (entryMode stat) (entryMtime stat)
  | .directory stat => .directory (entryMode stat) (entryMtime stat)

end Entity

/-- The directories and regular files of a tree. -/
def Node.restricted (tree : Node) : Unpacked := fun names => (tree.entityAt names).map Entity.item

/-- One entry is a directory's, and the other's name is below it. -/
def ScannedEntry.Contains (item other : ScannedEntry) : Prop :=
  item.isDir = true ∧ item.relativePath <+: other.relativePath ∧ item.relativePath ≠ other.relativePath

/-- No name of a tree needs rewriting. -/
def Listing.Clean : Listing → Prop
  | .nil => True
  | .leaf name _ rest => Tar.Clean name ∧ rest.Clean
  | .dir name _ children rest => Tar.Clean name ∧ children.Clean ∧ rest.Clean

instance Listing.decidableClean : (listing : Listing) → Decidable listing.Clean
  | .nil => .isTrue trivial
  | .leaf name _ rest =>
      have := decidableClean rest
      inferInstanceAs (Decidable (Tar.Clean name ∧ rest.Clean))
  | .dir name _ children rest =>
      have := decidableClean children
      have := decidableClean rest
      inferInstanceAs (Decidable (Tar.Clean name ∧ children.Clean ∧ rest.Clean))

section Order

variable {listing : Listing} {names : Location} {entity : Entity}

/-- One of two placed entities is a directory, and the other is below it. -/
def Below (one other : Location × Entity) : Prop :=
  one.2.isDir = true ∧ one.1 <+: other.1 ∧ one.1 ≠ other.1

theorem placed_blocked (legal : listing.Legal) : Blocked Below (placed listing) := by
  induction listing with
  | nil => exact .nil
  | leaf name kind rest ih =>
      have later := ih legal.2.2
      cases kind with
      | file content stat =>
          have single : Blocked Below [([name], Entity.file content stat)] := Blocked.nil.cons (by simp) (by simp)
          apply single.append later
          rw [List.forall_mem_singleton]
          intro other member
          obtain ⟨ahead, behind⟩ := placed_apart legal.2.1 [] other member
          exact ⟨fun below => ahead below.2.1, fun below => behind below.2.1⟩
      | symlink target => exact later
      | special => exact later
  | dir name stat children rest inside later =>
      have deeper : Blocked Below ((placed children).map fun found => (name :: found.1, found.2)) := by
        refine (inside legal.2.2.1).map fun one _ other _ => ?_
        simp only [Below, List.cons_prefix_cons, ne_eq, List.cons.injEq, true_and]
      have subtree : Blocked Below
          (([name], Entity.directory stat) :: (placed children).map fun found => (name :: found.1, found.2)) := by
        refine deeper.cons ?_ ?_
        · rw [List.forall_mem_map]
          intro found member
          have nonempty := (placed_names legal.2.2.1 found member).1
          exact ⟨rfl, ⟨found.1, rfl⟩, fun same => nonempty (List.cons.inj same).2.symm⟩
        · rw [List.forall_mem_map]
          intro found member below
          have nonempty := (placed_names legal.2.2.1 found member).1
          exact nonempty (List.prefix_nil.mp (List.cons_prefix_cons.mp below.2.1).2)
      apply subtree.append (later legal.2.2.2)
      have apart (names : Location) (one : Entity) (other : Location × Entity) (member : other ∈ placed rest) :
          ¬ Below (name :: names, one) other ∧ ¬ Below other (name :: names, one) := by
        obtain ⟨ahead, behind⟩ := placed_apart legal.2.1 names other member
        exact ⟨fun below => ahead below.2.1, fun below => behind below.2.1⟩
      rw [List.forall_mem_cons, List.forall_mem_map]
      exact ⟨apart [] _, fun found _ => apart found.1 _⟩

theorem placed_parent (legal : listing.Legal) (member : (names, entity) ∈ placed listing) (deep : names.dropLast ≠ []) :
    ∃ stat, (names.dropLast, Entity.directory stat) ∈ placed listing := by
  have nonempty := (placed_names legal _ member).1
  have there := (mem_placed_iff legal smallStat).mp member
  have reached : ∃ node, (Node.dir smallStat listing).lookup (names.dropLast ++ [names.getLast nonempty]) = some node := by
    rw [List.dropLast_append_getLast nonempty]
    rw [Node.entityAt, if_neg nonempty, Option.bind_eq_some_iff] at there
    obtain ⟨node, found, _⟩ := there
    exact ⟨node, found⟩
  obtain ⟨node, reached⟩ := reached
  rw [Node.lookup_append, Option.bind_eq_some_iff] at reached
  obtain ⟨parent, found, below⟩ := reached
  cases parent with
  | leaf kind => cases below
  | dir stat children =>
      refine ⟨stat, (mem_placed_iff legal smallStat).mpr ?_⟩
      rw [Node.entityAt, if_neg deep, found]
      rfl

/-- A directory is met before what is in it. -/
theorem placed_grounded (legal : listing.Legal) {front back : List (Location × Entity)}
    (split : placed listing = front ++ (names, entity) :: back) (deep : names.dropLast ≠ []) :
    ∃ stat, (names.dropLast, Entity.directory stat) ∈ front := by
  have member : (names, entity) ∈ placed listing := by simp [split]
  obtain ⟨stat, parent⟩ := placed_parent legal member deep
  have shorter : names.dropLast ≠ names := by
    intro same
    have nonempty : names ≠ [] := (placed_names legal _ member).1
    have length := congrArg List.length same
    have positive := List.length_pos_iff.mpr nonempty
    rw [List.length_dropLast] at length
    omega
  have under : Below (names.dropLast, Entity.directory stat) (names, entity) :=
    ⟨rfl, List.dropLast_prefix names, shorter⟩
  have other : (names, entity) ≠ (names.dropLast, Entity.directory stat) :=
    fun same => shorter (congrArg Prod.fst same).symm
  exact ⟨stat, (placed_blocked legal).mem_front (placed_nodup legal).of_map parent under other split⟩

end Order

theorem lookup_of_mem [BEq κ] [LawfulBEq κ] {items : List (κ × ν)} (distinct : (items.map Prod.fst).Nodup) {key : κ}
    {value : ν} (member : (key, value) ∈ items) : items.lookup key = some value := by
  obtain ⟨front, back, rfl⟩ := List.append_of_mem member
  refine List.lookup_eq_some_iff.mpr ⟨front, back, rfl, ?_⟩
  intro other before
  rw [List.map_append, List.map_cons, List.nodup_append] at distinct
  have apart := distinct.2.2 other.1 (List.mem_map_of_mem before) key List.mem_cons_self
  exact bne_iff_ne.mpr fun same => apart same.symm

section Unpack

variable {root : Node} {found : List (Location × Entity)} {image : Location × Entity → ScannedEntry}

def rebuilt (found : List (Location × Entity)) : Unpacked := fun names => (found.lookup names).map Entity.item

/-- A list in which every entity comes after the directory that it is in unpacks to itself. -/
theorem unpack_map (distinct : (found.map Prod.fst).Nodup)
    (grounded : ∀ front names entity back, found = front ++ (names, entity) :: back → names.dropLast ≠ [] →
      ∃ stat, (names.dropLast, Entity.directory stat) ∈ front)
    (lands : ∀ placed ∈ found, (image placed).landing = some placed.1 ∧
      (image placed).unpacked root = some placed.2.item) :
    unpack root (found.map image) = some (rebuilt found) := by
  induction found using List.reverseRecOn with
  | nil => rfl
  | append_singleton found last ih =>
      obtain ⟨names, entity⟩ := last
      have before : ∀ placed ∈ found, (image placed).landing = some placed.1 ∧
          (image placed).unpacked root = some placed.2.item :=
        fun placed member => lands placed (List.mem_append_left _ member)
      have groundedFront : ∀ front names entity back, found = front ++ (names, entity) :: back → names.dropLast ≠ [] →
          ∃ stat, (names.dropLast, Entity.directory stat) ∈ front := by
        intro front names entity back split
        exact grounded front names entity (back ++ [_]) (by rw [split, List.append_assoc, List.cons_append])
      rw [List.map_append, List.nodup_append] at distinct
      obtain ⟨distinctFront, _, apart⟩ := distinct
      have made := ih distinctFront groundedFront before
      obtain ⟨place, unpacked⟩ := lands (names, entity) (by simp)
      have absent : found.lookup names = none := by
        rw [List.lookup_eq_none_iff]
        intro other member
        exact bne_iff_ne.mpr fun same => apart other.1 (List.mem_map_of_mem member) names (by simp) same.symm
      have free : rebuilt found names = none := by rw [rebuilt, absent, Option.map_none]
      have parent : (rebuilt found).isDirectory names.dropLast = true := by
        unfold Unpacked.isDirectory
        by_cases top : names.dropLast = []
        · rw [if_pos top]
        · obtain ⟨stat, member⟩ := grounded found names entity [] rfl top
          rw [if_neg top, rebuilt, lookup_of_mem distinctFront member]
          rfl
      rw [unpack, List.map_append, List.foldlM_append, ← unpack, made, List.map_singleton]
      have extended : Function.update (rebuilt found) names (some entity.item) = rebuilt (found ++ [(names, entity)]) := by
        funext other
        rw [rebuilt, List.lookup_append]
        by_cases same : other = names
        · subst same
          rw [Function.update_self, absent, Option.none_or, List.lookup_cons_self, Option.map_some]
        · have missing : [(names, entity)].lookup other = none := by
            rw [List.lookup_eq_none_iff, List.forall_mem_singleton]
            exact bne_iff_ne.mpr same
          rw [Function.update_of_ne same, missing, Option.or_none, rebuilt]
      have step : unpackEntry root (rebuilt found) (image (names, entity)) =
          some (rebuilt (found ++ [(names, entity)])) := by
        rw [unpackEntry, place, unpacked]
        dsimp only
        rw [if_pos ⟨parent, free⟩, extended]
      rw [Option.bind_eq_bind, Option.bind_some, List.foldlM_cons, step]
      rfl

end Unpack

section Names

variable {names other : Location} {entity : Entity}

theorem rawPath_pieces (nonempty : names ≠ []) (legal : ∀ name ∈ names, LegalName name) :
    (entity.rawPath names).splitOn separator = names ++ if entity.isDir then [[]] else [] := by
  have pieces := splitOn_names legal nonempty
  cases entity with
  | file content stat => exact pieces.trans (List.append_nil names).symm
  | directory stat =>
      rw [Entity.rawPath, List.splitOn_append_cons_self, pieces]
      rfl

theorem landing_names (nonempty : names ≠ []) (legal : ∀ name ∈ names, LegalName name) (directory : Bool) :
    landing (names ++ if directory then [[]] else []) = some names := by
  have kept : (names ++ if directory then [[]] else []).filter (fun piece => piece ≠ [] ∧ piece ≠ [46]) = names := by
    have whole : names.filter (fun piece => piece ≠ [] ∧ piece ≠ [46]) = names :=
      List.filter_eq_self.mpr fun name member => decide_eq_true ⟨(legal name member).1, (legal name member).2.2.2.1⟩
    rw [List.filter_append, whole]
    cases directory <;> simp
  have noDots : [46, 46] ∉ names ++ if directory then [[]] else [] := by
    rw [List.mem_append, not_or]
    constructor
    · intro member
      exact (legal _ member).2.2.2.2 rfl
    · cases directory <;> simp
  unfold landing
  dsimp only
  rw [kept, if_neg (by simp [nonempty, noDots])]

theorem shownPath_clean (clean : ∀ name ∈ names, Tar.Clean name) : entity.shownPath names = entity.rawPath names := by
  cases entity with
  | file content stat => exact Tar.relativeString_clean clean
  | directory stat => exact congrArg (· ++ [separator]) (Tar.relativeString_clean clean)

/-- A path starts with a directory's exactly if it is of something below it. -/
theorem rawPath_prefix_iff (nonempty : names ≠ []) (legal : ∀ name ∈ names, LegalName name) {under : Entity}
    (filled : other ≠ []) (legalOther : ∀ name ∈ other, LegalName name) (directory : entity.isDir = true) :
    entity.rawPath names <+: under.rawPath other ∧ entity.rawPath names ≠ under.rawPath other ↔
      names <+: other ∧ names ≠ other := by
  have inner := splitOn_names legal nonempty
  have own : (entity.rawPath names).splitOn separator = names ++ [[]] := by
    rw [rawPath_pieces nonempty legal, if_pos directory]
  have pieces : (under.rawPath other).splitOn separator = other ++ if under.isDir then [[]] else [] :=
    rawPath_pieces filled legalOther
  have marked : entity.rawPath names = List.intercalate [separator] names ++ [separator] := by
    cases entity with
    | file content stat => cases directory
    | directory stat => rfl
  have goesOn : entity.rawPath names <+: under.rawPath other ↔
      ∃ more, more ≠ [] ∧ (other ++ if under.isDir then [[]] else []) = names ++ more := by
    rw [marked, marked_prefix_iff, inner, pieces]
  rw [goesOn]
  constructor
  · intro below
    obtain ⟨⟨more, proper, whole⟩, differs⟩ := below
    constructor
    · have short : (if under.isDir then [([] : Bytes)] else []).length ≤ 1 := by split <;> simp
      have lengths := congrArg List.length whole
      have positive := List.length_pos_iff.mpr proper
      rw [List.length_append, List.length_append] at lengths
      exact List.prefix_of_prefix_length_le ⟨more, whole.symm⟩ (List.prefix_append _ _) (by omega)
    · intro same
      subst same
      have tail := List.append_cancel_left whole
      split at tail
      · rename_i alike
        apply differs
        rw [marked]
        cases under with
        | file content stat => cases alike
        | directory stat => rfl
      · exact proper tail.symm
  · intro below
    obtain ⟨⟨rest, rfl⟩, differs⟩ := below
    have proper : rest ≠ [] := by
      intro same
      subst same
      exact differs (List.append_nil names).symm
    refine ⟨⟨rest ++ if under.isDir then [[]] else [], by simp [proper], List.append_assoc _ _ _⟩, ?_⟩
    intro same
    rw [same, pieces, List.append_assoc] at own
    have tail := List.append_cancel_left own
    have first : rest.head? = some [] := by
      cases rest with
      | nil => exact absurd rfl proper
      | cons name rest => exact congrArg some (List.cons.inj tail).1
    exact (legalOther [] (List.mem_append_right _ (List.mem_of_head? first))).1 rfl

end Names

/-- What unpacking a scan of a directory takes to rebuild it. -/
structure RebuildsTree (root tree : Node) (source : Path) (scanned : List ScannedEntry) : Prop where
  once : (scanned.map fun item => item.relativePath).Nodup
  complete : ∀ item, item ∈ scanned ↔
    ∃ names entity, tree.entityAt names = some entity ∧ item = entity.scanned source names
  named : ∀ names entity, tree.entityAt names = some entity →
    (entity.scanned source names).relativePath = entity.rawPath names
  blocks : Blocked ScannedEntry.Contains scanned
  rebuilt : unpack root scanned = some tree.restricted

section Rebuilding

variable {root : Node} {location names : Location} {stat : Stat} {listing : Listing} {entity : Entity}

theorem placed_clean (clean : listing.Clean) : ∀ found ∈ placed listing, ∀ name ∈ found.1, Tar.Clean name := by
  induction listing with
  | nil => simp [placed]
  | leaf name kind rest ih =>
      have later := ih clean.2
      cases kind with
      | file content stat =>
          rw [placed, List.forall_mem_cons]
          exact ⟨List.forall_mem_singleton.mpr clean.1, later⟩
      | symlink target => exact later
      | special => exact later
  | dir name stat children rest inside later =>
      rw [placed, List.forall_mem_cons, List.forall_mem_append, List.forall_mem_map]
      refine ⟨List.forall_mem_singleton.mpr clean.1, ?_, later clean.2.2⟩
      intro found member
      exact List.forall_mem_cons.mpr ⟨clean.1, inside clean.2.1 found member⟩

theorem placed_functional (legal : listing.Legal) {one other : Location × Entity} (member : one ∈ placed listing)
    (found : other ∈ placed listing) (same : one.1 = other.1) : one = other := by
  have left := (mem_placed_iff legal smallStat).mp member
  have right := (mem_placed_iff legal smallStat).mp found
  rw [same, right, Option.some.injEq] at left
  exact Prod.ext same left.symm

theorem rebuilt_placed (legal : listing.Legal) (stat : Stat) :
    rebuilt (placed listing) = (Node.dir stat listing).restricted := by
  funext names
  rw [rebuilt, Node.restricted]
  congr 1
  cases there : (Node.dir stat listing).entityAt names with
  | some entity => exact lookup_of_mem (placed_nodup legal) ((mem_placed_iff legal stat).mpr there)
  | none =>
      rw [List.lookup_eq_none_iff]
      intro other member
      apply bne_iff_ne.mpr
      intro same
      subst same
      rw [(mem_placed_iff legal stat).mp member] at there
      cases there

theorem readFile_scanned (legal : root.Legal) (here : root.lookup location = some (.dir stat listing)) {content : Bytes}
    {fileStat : Stat} (member : (names, Entity.file content fileStat) ∈ placed listing) :
    readFile root (pathOf (pathOf [separator] location) names) = some content := by
  have nonempty := (placed_names (legal.lookup here).1 _ member).1
  have there := (mem_placed_iff (legal.lookup here).1 stat).mp member
  have reached : root.lookup (location ++ names) = some (.leaf (.file content fileStat)) := by
    rw [Node.lookup_append, here, Option.bind_some]
    rw [Node.entityAt, if_neg nonempty, Option.bind_eq_some_iff] at there
    obtain ⟨node, found, shown⟩ := there
    rw [found]
    cases node with
    | dir stat children => cases shown
    | leaf kind =>
        cases kind with
        | file content stat => cases shown; rfl
        | symlink target => cases shown
        | special => cases shown
  have path : pathOf (pathOf [separator] location) names = pathOf [separator] (location ++ names) := by
    rw [pathOf, pathOf, pathOf, List.foldl_append]
  have opened := opens_pathOf legal (List.append_ne_nil_of_right_ne_nil _ nonempty) reached (file_plain content fileStat)
  rw [readFile, path, opened, Option.bind_some, reached]

/-- Unpacking a scan, in its order, rebuilds the tree. -/
theorem scan_rebuilds_tree (legal : root.Legal) (here : root.lookup location = some (.dir stat listing))
    (clean : listing.Clean) : ∃ scanned,
      scanSource (pathOf [separator] location) (root.lookup location) = .ok scanned ∧
        RebuildsTree root (.dir stat listing) (pathOf [separator] location) scanned := by
  have legalListing : listing.Legal := (legal.lookup here).1
  refine ⟨_, by rw [here]; exact scanSource_directory _ stat listing, ?_⟩
  have named : ∀ found ∈ placed listing,
      (found.2.scanned (pathOf [separator] location) found.1).relativePath = found.2.rawPath found.1 := by
    intro found member
    rw [(scanned_relativePath _ found.1 found.2).1, shownPath_clean (placed_clean clean found member)]
  have lands : ∀ found ∈ placed listing,
      (found.2.scanned (pathOf [separator] location) found.1).landing = some found.1 := by
    intro found member
    obtain ⟨nonempty, names⟩ := placed_names legalListing found member
    rw [ScannedEntry.landing, named found member, rawPath_pieces nonempty names, landing_names nonempty names]
  have unpacks : ∀ found ∈ placed listing,
      (found.2.scanned (pathOf [separator] location) found.1).unpacked root = some found.2.item := by
    intro names member
    obtain ⟨names, entity⟩ := names
    cases entity with
    | directory stat => rfl
    | file content stat =>
        have contents := readFile_scanned legal here member
        simp only [ScannedEntry.unpacked, Entity.scanned, ScannedEntry.file, contents]
        rfl
  constructor
  · rw [List.map_map]
    refine List.Nodup.map_on ?_ (placed_nodup legalListing).of_map
    intro one member other found same
    have left := lands one member
    rw [ScannedEntry.landing, show (one.2.scanned _ one.1).relativePath = _ from same] at left
    exact placed_functional legalListing member found (Option.some.inj (left.symm.trans (lands other found)))
  · intro item
    constructor
    · intro member
      obtain ⟨⟨names, entity⟩, there, rfl⟩ := List.mem_map.mp member
      exact ⟨names, entity, (mem_placed_iff legalListing stat).mp there, rfl⟩
    · intro names
      obtain ⟨names, entity, there, rfl⟩ := names
      exact List.mem_map.mpr ⟨(names, entity), (mem_placed_iff legalListing stat).mpr there, rfl⟩
  · intro names entity there
    exact named (names, entity) ((mem_placed_iff legalListing stat).mpr there)
  · refine (placed_blocked legalListing).map fun one member other found => ?_
    obtain ⟨nonempty, names⟩ := placed_names legalListing one member
    obtain ⟨filled, others⟩ := placed_names legalListing other found
    rw [ScannedEntry.Contains, (scanned_relativePath _ one.1 one.2).2, named one member, named other found]
    exact and_congr_right fun directory => rawPath_prefix_iff nonempty names filled others directory
  · have grounded : ∀ front names entity back, placed listing = front ++ (names, entity) :: back → names.dropLast ≠ [] →
        ∃ stat, (names.dropLast, Entity.directory stat) ∈ front :=
      fun front names entity back split deep => placed_grounded legalListing split deep
    rw [unpack_map (placed_nodup legalListing) grounded fun found member => ⟨lands found member, unpacks found member⟩,
      rebuilt_placed legalListing stat]

end Rebuilding

/-- A file, a directory with an empty directory and a symbolic link in it, and a socket. -/
def nestedListing : Listing :=
  .cons [98] (.leaf (.file [1, 2] smallStat))
    (.cons [97] (.dir smallStat (.cons [101] (.dir smallStat .nil) (.cons [108] (.leaf (.symlink [98])) .nil)))
      (.cons [115] (.leaf .special) .nil))

theorem scan_rebuilds_nested_tree : ∃ scanned,
    scanSource (pathOf [separator] [[115]]) ((Tar.rootOf nestedListing).lookup [[115]]) = .ok scanned ∧
      RebuildsTree (Tar.rootOf nestedListing) (.dir smallStat nestedListing) (pathOf [separator] [[115]]) scanned := by
  have legal : (Tar.rootOf nestedListing).Legal := by decide
  exact scan_rebuilds_tree legal rfl (by decide)

end Raas
