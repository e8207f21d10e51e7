import Raas.Os.Mutation

namespace Raas

/-! File systems around a part that is known. -/

/-- A file system in which something is at a location. -/
structure Around (location : Location) (inside fs : Node) : Prop where
  legal : fs.Legal
  lookup : fs.lookup location = some inside

def plainStat : Stat where
  mode := 0o755
  mtime := 0

/-- The file system that has only the way to a location and what is there. -/
def bare : Location → Node → Node
  | [], inside => inside
  | name :: rest, inside => .dir plainStat (.cons name (bare rest inside) .nil)

/-- Directories may get more entries, all else stays. -/
def Node.Grown : Node → Node → Prop
  | .leaf kind, later => later = .leaf kind
  | .dir _ _, later => ∃ stat children, later = .dir stat children

def Node.Extends (fs later : Node) : Prop :=
  ∀ location node, fs.lookup location = some node → ∃ node', later.lookup location = some node' ∧ node.Grown node'

def emptyDirectory : Node := .dir plainStat .nil

theorem emptyDirectory_legal : emptyDirectory.Legal := trivial

/-- Makes the directories that a path asks for outside a location and that are not
there. There is no file system then if the path cannot be walked, or only through a
symbolic link. -/
def grow (location : Location) : Node → Location → List Bytes → Option Node
  | fs, _, [] => some fs
  | fs, here, piece :: rest =>
      match fs.lookup here with
      | some (.dir _ _) =>
          if piece = [] ∨ piece = [46] then grow location fs here rest
          else if piece = [46, 46] then grow location fs here.dropLast rest
          else
            match fs.lookup (here ++ [piece]) with
            | none =>
                if location <+: here then none
                else
                  match fs.place here piece (some emptyDirectory) plainStat.mtime with
                  | some fs => grow location fs (here ++ [piece]) rest
                  | none => none
            | some (.leaf (.symlink _)) => none
            | some _ => grow location fs (here ++ [piece]) rest
      | _ => none

/-- A piece of a path that can be a file's name, dots aside. -/
def Nameable (piece : Bytes) : Prop := separator ∉ piece ∧ 0 ∉ piece

instance (piece : Bytes) : Decidable (Nameable piece) := inferInstanceAs (Decidable (_ ∧ _))

theorem Nameable.legal {piece : Bytes} (nameable : Nameable piece) (named : ¬ (piece = [] ∨ piece = [46]))
    (down : piece ≠ [46, 46]) : LegalName piece := by
  rw [not_or] at named
  exact ⟨named.1, nameable.1, nameable.2, named.2, down⟩

/-- At some locations there are only directories. -/
def Thin (region : Location → Prop) (fs : Node) : Prop :=
  ∀ other node, region other → fs.lookup other = some node → ∃ stat children, node = .dir stat children

/-- A path that does not climb above where it begins, if that is so many directories deep. -/
def Fits : Nat → List Bytes → Prop
  | _, [] => True
  | depth, piece :: rest =>
      if piece = [] ∨ piece = [46] then Fits depth rest
      else if piece = [46, 46] then 0 < depth ∧ Fits (depth - 1) rest
      else Fits (depth + 1) rest

theorem fits_of_length {depth : Nat} {pieces : List Bytes} (short : pieces.length ≤ depth) : Fits depth pieces := by
  induction pieces generalizing depth with
  | nil => trivial
  | cons piece rest ih =>
      rw [List.length_cons] at short
      rw [Fits]
      split
      · exact ih (by omega)
      · split
        · exact ⟨by omega, ih (by omega)⟩
        · exact ih (by omega)

theorem fits_replicate {name : Bytes} (legal : LegalName name) (count depth : Nat) (rest : List Bytes) :
    Fits depth (List.replicate count name ++ rest) ↔ Fits (depth + count) rest := by
  induction count generalizing depth with
  | zero => rfl
  | succ count ih =>
      rw [List.replicate_succ, List.cons_append, Fits, if_neg legal.named, if_neg legal.2.2.2.2, ih, Nat.add_right_comm]
      rfl

section Lookups

variable {fs later inside node : Node} {location here : Location} {name : Bytes}

theorem lookup_above (reached : fs.lookup location = some node) (above : here <+: location) (differs : ¬ location <+: here) :
    ∃ stat children, fs.lookup here = some (.dir stat children) := by
  obtain ⟨name, rest, rfl⟩ := Node.lookup_below above differs
  rw [← List.singleton_append, ← List.append_assoc] at reached
  obtain ⟨inner, found⟩ := lookup_prefix reached
  exact lookup_parent found

theorem lookup_upward {stat : Stat} {children : Listing} (place : fs.lookup location = some (.dir stat children))
    (above : here <+: location) : ∃ stat children, fs.lookup here = some (.dir stat children) := by
  by_cases same : location <+: here
  · exact ⟨stat, children, (above.eq_of_length_le same.length_le).symm ▸ place⟩
  · exact lookup_above place above same

theorem bare_lookup (location : Location) (inside : Node) : (bare location inside).lookup location = some inside := by
  induction location with
  | nil => exact Node.lookup_nil inside
  | cons name rest ih =>
      rw [bare, Node.lookup_cons, Listing.find?_cons, if_pos rfl]
      exact ih

theorem bare_outside (apart : ¬ location <+: here) (away : ¬ here <+: location) :
    (bare location inside).lookup here = none := by
  induction location generalizing here with
  | nil => exact absurd List.nil_prefix apart
  | cons name rest ih =>
      cases here with
      | nil => exact absurd List.nil_prefix away
      | cons first here =>
          rw [bare, Node.lookup_cons, Listing.find?_cons]
          by_cases same : name = first
          · subst same
            rw [List.cons_prefix_cons, not_and] at apart away
            rw [if_pos rfl]
            exact ih (apart rfl) (away rfl)
          · rw [if_neg same]
            rfl

theorem bare_around (names : ∀ name ∈ location, LegalName name) (legal : inside.Legal) :
    Around location inside (bare location inside) := by
  refine ⟨?_, bare_lookup location inside⟩
  induction location with
  | nil => exact legal
  | cons name rest ih =>
      rw [List.forall_mem_cons] at names
      exact Listing.legal_cons.mpr ⟨names.1, List.not_mem_nil, ih names.2, trivial⟩

theorem bare_thin (location : Location) (inside : Node) : Thin (¬ location <+: ·) (bare location inside) := by
  intro other node out reached
  by_cases above : other <+: location
  · obtain ⟨stat, children, place⟩ := lookup_above (bare_lookup location inside) above out
    rw [place] at reached
    cases reached
    exact ⟨stat, children, rfl⟩
  · rw [bare_outside out above] at reached
    cases reached

theorem Around.within (around : Around location inside fs) (below : location <+: here) :
    fs.lookup here = (bare location inside).lookup here := by
  obtain ⟨rest, rfl⟩ := below
  rw [Node.lookup_append, Node.lookup_append, around.lookup, bare_lookup]

end Lookups

section Growing

variable {fs later further node : Node} {location here : Location} {name : Bytes}

theorem Node.grown_self (node : Node) : node.Grown node := by
  cases node with
  | leaf kind => rfl
  | dir stat children => exact ⟨stat, children, rfl⟩

theorem Node.Grown.trans (first : node.Grown later) (second : later.Grown further) : node.Grown further := by
  cases node with
  | leaf kind =>
      cases first
      exact second
  | dir stat children =>
      obtain ⟨stat', children', rfl⟩ := first
      exact second

theorem Node.Grown.plain (grown : node.Grown later) (plain : ∀ target, node ≠ .leaf (.symlink target)) (target : Path) :
    later ≠ .leaf (.symlink target) := by
  intro same
  subst same
  cases node with
  | leaf kind =>
      cases grown
      exact plain target rfl
  | dir stat children =>
      obtain ⟨stat', children', same⟩ := grown
      cases same

theorem Node.Extends.refl (fs : Node) : fs.Extends fs := fun _ node reached => ⟨node, reached, node.grown_self⟩

theorem Node.Extends.trans (first : fs.Extends later) (second : later.Extends further) : fs.Extends further := by
  intro location node reached
  obtain ⟨middle, there, grown⟩ := first location node reached
  obtain ⟨last, arrived, grows⟩ := second location middle there
  exact ⟨last, arrived, grown.trans grows⟩

theorem Node.Extends.directory (extends_ : fs.Extends later) {stat : Stat} {children : Listing}
    (place : fs.lookup here = some (.dir stat children)) :
    ∃ stat children, later.lookup here = some (.dir stat children) := by
  obtain ⟨node, reached, stat', children', rfl⟩ := extends_ here _ place
  exact ⟨stat', children', reached⟩

/-- A new entry of a directory changes nothing else. -/
theorem place_extends (legal : fs.Legal) (absent : fs.lookup (here ++ [name]) = none) {now : Int64}
    (placed : fs.place here name (some node) now = some later) :
    later.lookup (here ++ [name]) = some node ∧ fs.Extends later := by
  obtain ⟨directory, below, elsewhere⟩ := Node.place_cases legal placed
  have made : later.lookup (here ++ [name]) = some node := (below []).trans (Node.lookup_nil node)
  refine ⟨made, ?_⟩
  intro location old reached
  by_cases inside : here ++ [name] <+: location
  · obtain ⟨rest, rfl⟩ := inside
    rw [Node.lookup_append, absent] at reached
    cases reached
  · by_cases above : location <+: here ++ [name]
    · obtain ⟨stat, children, after⟩ := lookup_above made above inside
      obtain ⟨stat', children', place⟩ := directory
      have upward : location <+: here := (List.prefix_concat_iff.mp above).resolve_left fun same => inside (same ▸ List.prefix_refl _)
      obtain ⟨stat'', children'', before⟩ := lookup_upward place upward
      rw [before] at reached
      cases reached
      exact ⟨_, after, stat, children, rfl⟩
    · exact ⟨old, (elsewhere location above inside).trans reached, old.grown_self⟩

variable {inside : Node} {pieces : List Bytes}

theorem Around.place (around : Around location inside fs) (out : ¬ location <+: here)
    (absent : fs.lookup (here ++ [name]) = none) (legalName : LegalName name) (legal : node.Legal) {now : Int64}
    (placed : fs.place here name (some node) now = some later) : Around location inside later := by
  obtain ⟨_, _, elsewhere⟩ := Node.place_cases around.legal placed
  refine ⟨around.legal.place legalName (fun entry held => ?_) placed, ?_⟩
  · cases held
    exact legal
  · have above : ¬ location <+: here ++ [name] := by
      intro front
      rcases List.prefix_concat_iff.mp front with same | front
      · have there := around.lookup
        rw [same, absent] at there
        cases there
      · exact out front
    have below : ¬ here ++ [name] <+: location := by
      intro front
      obtain ⟨rest, whole⟩ := front
      have there := around.lookup
      rw [← whole] at there
      obtain ⟨inner, found⟩ := lookup_prefix there
      rw [absent] at found
      cases found
    rw [elsewhere location above below, around.lookup]

section Steps

variable {piece : Bytes} {rest : List Bytes} {stat : Stat} {children : Listing} {made : Node}

theorem grow_stay (place : fs.lookup here = some (.dir stat children)) (stays : piece = [] ∨ piece = [46]) :
    grow location fs here (piece :: rest) = grow location fs here rest := by
  rw [grow, place]
  exact if_pos stays

theorem grow_up (place : fs.lookup here = some (.dir stat children)) :
    grow location fs here ([46, 46] :: rest) = grow location fs here.dropLast rest := by
  rw [grow, place]
  rfl

theorem grow_name (place : fs.lookup here = some (.dir stat children)) (named : ¬ (piece = [] ∨ piece = [46]))
    (down : piece ≠ [46, 46]) :
    grow location fs here (piece :: rest) =
      match fs.lookup (here ++ [piece]) with
      | none =>
          if location <+: here then none
          else
            match fs.place here piece (some emptyDirectory) plainStat.mtime with
            | some fs => grow location fs (here ++ [piece]) rest
            | none => none
      | some (.leaf (.symlink _)) => none
      | some _ => grow location fs (here ++ [piece]) rest := by
  rw [grow, place]
  exact (if_neg named).trans (if_neg down)

theorem grow_enter (reached : fs.lookup (here ++ [piece]) = some node)
    (plain : ∀ target, node ≠ .leaf (.symlink target)) (named : ¬ (piece = [] ∨ piece = [46]))
    (down : piece ≠ [46, 46]) : grow location fs here (piece :: rest) = grow location fs (here ++ [piece]) rest := by
  obtain ⟨stat, children, place⟩ := lookup_parent reached
  rw [grow_name place named down, reached]
  cases node with
  | dir stat children => rfl
  | leaf kind =>
      cases kind with
      | symlink target => exact absurd rfl (plain target)
      | file content stat => rfl
      | special => rfl

theorem grow_make (place : fs.lookup here = some (.dir stat children)) (absent : fs.lookup (here ++ [piece]) = none)
    (out : ¬ location <+: here) (placed : fs.place here piece (some emptyDirectory) plainStat.mtime = some made)
    (named : ¬ (piece = [] ∨ piece = [46])) (down : piece ≠ [46, 46]) :
    grow location fs here (piece :: rest) = grow location made (here ++ [piece]) rest := by
  rw [grow_name place named down, absent]
  simp only [if_neg out, placed]

theorem grow_directory (grown : grow location fs here (piece :: rest) = some later) :
    ∃ stat children, fs.lookup here = some (.dir stat children) := by
  rw [grow] at grown
  split at grown
  · exact ⟨_, _, by assumption⟩
  · cases grown

end Steps

/-- In the file system that is made for a path, the path can be walked. -/
theorem grow_sound (around : Around location inside fs) (nameable : ∀ piece ∈ pieces, Nameable piece)
    (grown : grow location fs here pieces = some later) :
    Around location inside later ∧ fs.Extends later ∧
      ∀ follow, ∃ found, walkWithin follow later here pieces = some found := by
  induction pieces generalizing fs here with
  | nil =>
      cases grown
      exact ⟨around, .refl _, fun follow => ⟨here, rfl⟩⟩
  | cons piece rest ih =>
      rw [List.forall_mem_cons] at nameable
      obtain ⟨stat, children, place⟩ := grow_directory grown
      by_cases stays : piece = [] ∨ piece = [46]
      · rw [grow_stay place stays] at grown
        obtain ⟨kept, more, walks⟩ := ih around nameable.2 grown
        obtain ⟨_, _, there⟩ := more.directory place
        refine ⟨kept, more, fun follow => ?_⟩
        rw [walkWithin_stay there stays]
        exact walks follow
      · by_cases up : piece = [46, 46]
        · subst up
          rw [grow_up place] at grown
          obtain ⟨kept, more, walks⟩ := ih around nameable.2 grown
          obtain ⟨_, _, there⟩ := more.directory place
          refine ⟨kept, more, fun follow => ?_⟩
          rw [walkWithin_up there]
          exact walks follow
        · have legalName := nameable.1.legal stays up
          cases next : fs.lookup (here ++ [piece]) with
          | none =>
              rw [grow_name place stays up, next] at grown
              dsimp only at grown
              split at grown
              · cases grown
              · rename_i out
                split at grown
                · rename_i made placed
                  obtain ⟨reached, first⟩ := place_extends around.legal next placed
                  obtain ⟨kept, more, walks⟩ :=
                    ih (around.place out next legalName emptyDirectory_legal placed) nameable.2 grown
                  obtain ⟨_, _, there⟩ := more.directory reached
                  refine ⟨kept, first.trans more, fun follow => ?_⟩
                  rw [walkWithin_enter there (directory_plain _ _) stays up]
                  exact walks follow
                · cases grown
          | some child =>
              rcases child.link_or_plain with ⟨target, rfl⟩ | plain
              · rw [grow_name place stays up, next] at grown
                cases grown
              · rw [grow_enter next plain stays up] at grown
                obtain ⟨kept, more, walks⟩ := ih around nameable.2 grown
                obtain ⟨node, there, kind⟩ := more _ child next
                refine ⟨kept, more, fun follow => ?_⟩
                rw [walkWithin_enter there (kind.plain plain) stays up]
                exact walks follow

theorem Thin.place {region : Location → Prop} (thin : Thin region fs) (legal : fs.Legal) {now : Int64}
    (placed : fs.place here name (some emptyDirectory) now = some later) : Thin region later := by
  obtain ⟨_, below, elsewhere⟩ := Node.place_cases legal placed
  intro other node out reached
  by_cases inside : here ++ [name] <+: other
  · obtain ⟨rest, rfl⟩ := inside
    rw [List.append_assoc, List.singleton_append, below, Option.bind_some] at reached
    cases rest with
    | nil =>
        cases reached
        exact ⟨_, _, rfl⟩
    | cons first rest => cases reached
  · by_cases above : other <+: here ++ [name]
    · have made : later.lookup (here ++ [name]) = some emptyDirectory := (below []).trans (Node.lookup_nil _)
      obtain ⟨stat, children, place⟩ := lookup_above made above inside
      rw [place] at reached
      cases reached
      exact ⟨stat, children, rfl⟩
    · rw [elsewhere other above inside] at reached
      exact thin other node out reached

/-- A path that can be walked without symbolic links in some file system can be made. -/
theorem grow_complete {found : Location} {grown : Node} (around : Around location inside fs)
    (known : Around location inside grown) (thin : Thin (¬ location <+: ·) grown)
    (start : ∃ node, grown.lookup here = some node)
    (arrived : walkWithin (fun _ _ => none) fs here pieces = some found) :
    ∃ later, grow location grown here pieces = some later := by
  induction pieces generalizing grown here with
  | nil => exact ⟨grown, rfl⟩
  | cons piece rest ih =>
      obtain ⟨stat, children, place⟩ := walkWithin_directory arrived
      have same (other : Location) (below : location <+: other) : grown.lookup other = fs.lookup other := by
        rw [known.within below, around.within below]
      have directory : ∃ stat children, grown.lookup here = some (.dir stat children) := by
        by_cases below : location <+: here
        · exact ⟨stat, children, (same here below).trans place⟩
        · obtain ⟨node, reached⟩ := start
          obtain ⟨stat', children', rfl⟩ := thin here node below reached
          exact ⟨stat', children', reached⟩
      obtain ⟨stat', children', standing⟩ := directory
      by_cases stays : piece = [] ∨ piece = [46]
      · rw [walkWithin_stay place stays] at arrived
        rw [grow_stay standing stays]
        exact ih known thin start arrived
      · by_cases up : piece = [46, 46]
        · subst up
          rw [walkWithin_up place] at arrived
          obtain ⟨_, _, upward⟩ := lookup_upward standing (List.dropLast_prefix here)
          rw [grow_up standing]
          exact ih known thin ⟨_, upward⟩ arrived
        · cases next : fs.lookup (here ++ [piece]) with
          | none =>
              rw [walkWithin_lost place next stays up] at arrived
              cases arrived
          | some child =>
              have legalName : LegalName piece := (around.legal.lookup next).2 piece (by simp)
              have plain : ∀ target, child ≠ .leaf (.symlink target) := by
                intro target link
                rw [link] at next
                rw [walkWithin_link next stays up] at arrived
                cases arrived
              rw [walkWithin_enter next plain stays up] at arrived
              cases held : grown.lookup (here ++ [piece]) with
              | none =>
                  have out : ¬ location <+: here := by
                    intro below
                    rw [same _ (below.trans (List.prefix_append _ _)), next] at held
                    cases held
                  obtain ⟨later, placed⟩ := Node.place_exists standing piece (some emptyDirectory) plainStat.mtime
                  have reached := (place_extends known.legal held placed).1
                  rw [grow_make standing held out placed stays up]
                  exact ih (known.place out held legalName emptyDirectory_legal placed)
                    (thin.place known.legal placed) ⟨_, reached⟩ arrived
              | some inner =>
                  have plainInner : ∀ target, inner ≠ .leaf (.symlink target) := by
                    by_cases below : location <+: here ++ [piece]
                    · rw [same _ below, next] at held
                      exact Option.some.inj held ▸ plain
                    · obtain ⟨_, _, rfl⟩ := thin _ _ below held
                      exact directory_plain _ _
                  rw [grow_enter held plainInner stays up]
                  exact ih known thin ⟨inner, held⟩ arrived

/-- Below a directory of directories only, every path can be made that stays below it. -/
theorem grow_fits {top : Bytes} {deep : Location} (around : Around location inside fs)
    (apart : ∀ other, ¬ location <+: top :: other) (thin : Thin ([top] <+: ·) fs)
    (place : ∃ stat children, fs.lookup (top :: deep) = some (.dir stat children))
    (nameable : ∀ piece ∈ pieces, Nameable piece) (fits : Fits deep.length pieces) :
    ∃ later, grow location fs (top :: deep) pieces = some later := by
  induction pieces generalizing fs deep with
  | nil => exact ⟨fs, rfl⟩
  | cons piece rest ih =>
      rw [List.forall_mem_cons] at nameable
      obtain ⟨stat, children, standing⟩ := place
      rw [Fits] at fits
      by_cases stays : piece = [] ∨ piece = [46]
      · rw [if_pos stays] at fits
        rw [grow_stay standing stays]
        exact ih around thin ⟨stat, children, standing⟩ nameable.2 fits
      · rw [if_neg stays] at fits
        by_cases up : piece = [46, 46]
        · subst up
          rw [if_pos rfl] at fits
          have nonempty : deep ≠ [] := List.length_pos_iff.mp fits.1
          have upward := lookup_upward standing (List.dropLast_prefix (top :: deep))
          rw [grow_up standing]
          rw [List.dropLast_cons_of_ne_nil nonempty] at upward ⊢
          exact ih around thin upward nameable.2 (by rw [List.length_dropLast]; exact fits.2)
        · rw [if_neg up] at fits
          have deeper : Fits (deep ++ [piece]).length rest := by
            rw [List.length_append, List.length_singleton]
            exact fits
          cases next : fs.lookup (top :: deep ++ [piece]) with
          | none =>
              obtain ⟨later, placed⟩ := Node.place_exists standing piece (some emptyDirectory) plainStat.mtime
              have reached := (place_extends around.legal next placed).1
              have made := around.place (apart deep) next (nameable.1.legal stays up) emptyDirectory_legal placed
              rw [grow_make standing next (apart deep) placed stays up]
              exact ih made (thin.place around.legal placed) ⟨_, _, reached⟩ nameable.2 deeper
          | some child =>
              obtain ⟨stat', children', rfl⟩ := thin _ _ ⟨deep ++ [piece], rfl⟩ next
              rw [grow_enter next (directory_plain _ _) stays up]
              exact ih around thin ⟨stat', children', next⟩ nameable.2 deeper

end Growing

end Raas
