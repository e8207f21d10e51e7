import Raas.Os.Surroundings

namespace Raas

/-! Walks that leave what is known of a file system. -/

/-- Where a walk asks for a name that is not known: the links that it may still follow,
the directory, and what is left of its path. -/
structure Stray where
  links : Nat
  here : Location
  pieces : List Bytes
deriving DecidableEq

/-- The first name that a walk asks for outside a location and that is not there. -/
def strayWithin (follow : Location → List Bytes → Option Stray) (links : Nat) (location : Location) (root : Node) :
    Location → List Bytes → Option Stray
  | _, [] => none
  | here, piece :: rest =>
      match root.lookup here with
      | some (.dir _ _) =>
          if piece = [] ∨ piece = [46] then strayWithin follow links location root here rest
          else if piece = [46, 46] then strayWithin follow links location root here.dropLast rest
          else
            match root.lookup (here ++ [piece]) with
            | none => if location <+: here then none else some { links, here, pieces := piece :: rest }
            | some (.leaf (.symlink target)) =>
                follow (if Path.isAbsolute target then [] else here) (target.splitOn separator ++ rest)
            | some _ => strayWithin follow links location root (here ++ [piece]) rest
      | _ => none

def stray (location : Location) (root : Node) : Nat → Location → List Bytes → Option Stray
  | 0 => strayWithin (fun _ _ => none) 0 location root
  | links + 1 => strayWithin (stray location root links) (links + 1) location root

/-- A walk strays on the way to a location, at a name that leads elsewhere. -/
structure Stray.Astray (location : Location) (inside : Node) (point : Stray) : Prop where
  out : ¬ location <+: point.here
  directory : ∃ stat children, (bare location inside).lookup point.here = some (.dir stat children)
  asks : ∃ piece rest, point.pieces = piece :: rest ∧ ¬ (piece = [] ∨ piece = [46]) ∧ piece ≠ [46, 46] ∧
    (bare location inside).lookup (point.here ++ [piece]) = none

/-- Nothing but what is known decides a walk until it strays. -/
def Decided (location : Location) (inside fs : Node) (walks known : Location → List Bytes → Option Location)
    (strays : Location → List Bytes → Option Stray) : Prop :=
  ∀ here pieces, (∃ node, (bare location inside).lookup here = some node) →
    match strays here pieces with
    | none => walks here pieces = known here pieces
    | some point => walks here pieces = walk fs point.links point.here point.pieces ∧ point.Astray location inside

section Walks

variable {fs inside : Node} {location : Location} {links : Nat}

theorem walk_within (fs : Node) (links : Nat) : ∃ follow, walk fs links = walkWithin follow fs := by
  cases links with
  | zero => exact ⟨_, rfl⟩
  | succ links => exact ⟨_, rfl⟩

/-- What is known of a place: all that is there, or that it is a directory on the way. -/
theorem known_lookup (around : Around location inside fs) {here : Location} {node : Node}
    (known : (bare location inside).lookup here = some node) :
    fs.lookup here = some node ∨
      ¬ location <+: here ∧ (∃ stat children, node = .dir stat children) ∧
        ∃ stat children, fs.lookup here = some (.dir stat children) := by
  by_cases below : location <+: here
  · exact .inl ((around.within below).trans known)
  · have above : here <+: location := by
      by_contra away
      rw [bare_outside below away] at known
      cases known
    exact .inr ⟨below, bare_thin location inside here node below known, lookup_above around.lookup above below⟩

theorem known_directory (around : Around location inside fs) {here : Location} {stat : Stat} {children : Listing}
    (known : (bare location inside).lookup here = some (.dir stat children)) :
    ∃ stat children, fs.lookup here = some (.dir stat children) := by
  rcases known_lookup around known with same | ⟨_, _, directory⟩
  · exact ⟨stat, children, same⟩
  · exact directory

section Steps

variable {follow : Location → List Bytes → Option Stray} {root node : Node} {here : Location} {piece : Bytes}
  {rest : List Bytes} {stat : Stat} {children : Listing}

theorem strayWithin_stay (place : root.lookup here = some (.dir stat children)) (stays : piece = [] ∨ piece = [46]) :
    strayWithin follow links location root here (piece :: rest) = strayWithin follow links location root here rest := by
  rw [strayWithin, place]
  exact if_pos stays

theorem strayWithin_up (place : root.lookup here = some (.dir stat children)) :
    strayWithin follow links location root here ([46, 46] :: rest) =
      strayWithin follow links location root here.dropLast rest := by
  rw [strayWithin, place]
  rfl

theorem strayWithin_name (place : root.lookup here = some (.dir stat children)) (named : ¬ (piece = [] ∨ piece = [46]))
    (down : piece ≠ [46, 46]) :
    strayWithin follow links location root here (piece :: rest) =
      match root.lookup (here ++ [piece]) with
      | none => if location <+: here then none else some { links, here, pieces := piece :: rest }
      | some (.leaf (.symlink target)) =>
          follow (if Path.isAbsolute target then [] else here) (target.splitOn separator ++ rest)
      | some _ => strayWithin follow links location root (here ++ [piece]) rest := by
  rw [strayWithin, place]
  exact (if_neg named).trans (if_neg down)

theorem strayWithin_enter (reached : root.lookup (here ++ [piece]) = some node)
    (plain : ∀ target, node ≠ .leaf (.symlink target)) (named : ¬ (piece = [] ∨ piece = [46]))
    (down : piece ≠ [46, 46]) :
    strayWithin follow links location root here (piece :: rest) =
      strayWithin follow links location root (here ++ [piece]) rest := by
  obtain ⟨stat, children, place⟩ := lookup_parent reached
  rw [strayWithin_name place named down, reached]
  cases node with
  | dir stat children => rfl
  | leaf kind =>
      cases kind with
      | symlink target => exact absurd rfl (plain target)
      | file content stat => rfl
      | special => rfl

end Steps

theorem decided_within (around : Around location inside fs) {follow known : Location → List Bytes → Option Location}
    {strays : Location → List Bytes → Option Stray} (decided : Decided location inside fs follow known strays)
    (whole : walk fs links = walkWithin follow fs) :
    Decided location inside fs (walkWithin follow fs) (walkWithin known (bare location inside))
      (strayWithin strays links location (bare location inside)) := by
  intro here pieces
  induction pieces generalizing here with
  | nil =>
      intro start
      rfl
  | cons piece rest ih =>
      intro starts
      obtain ⟨node, start⟩ := starts
      cases node with
      | leaf kind =>
          rcases known_lookup around start with same | ⟨_, ⟨_, _, directory⟩, _⟩
          · rw [strayWithin, start, walkWithin, walkWithin, start, same]
          · cases directory
      | dir stat children =>
          obtain ⟨_, _, place⟩ := known_directory around start
          by_cases stays : piece = [] ∨ piece = [46]
          · rw [strayWithin_stay start stays, walkWithin_stay place stays, walkWithin_stay start stays]
            exact ih here ⟨_, start⟩
          · by_cases up : piece = [46, 46]
            · subst up
              obtain ⟨_, _, upward⟩ := lookup_upward start (List.dropLast_prefix here)
              rw [strayWithin_up start, walkWithin_up place, walkWithin_up start]
              exact ih here.dropLast ⟨_, upward⟩
            · cases next : (bare location inside).lookup (here ++ [piece]) with
              | none =>
                  rw [strayWithin_name start stays up, next]
                  dsimp only
                  by_cases below : location <+: here
                  · have missing : fs.lookup (here ++ [piece]) = none :=
                      (around.within (below.trans (List.prefix_append _ _))).trans next
                    rw [if_pos below, walkWithin_lost place missing stays up, walkWithin_lost start next stays up]
                  · rw [if_neg below]
                    exact ⟨by rw [whole], below, ⟨stat, children, start⟩, piece, rest, rfl, stays, up, next⟩
              | some child =>
                  rcases child.link_or_plain with ⟨target, rfl⟩ | plain
                  · rcases known_lookup around next with same | ⟨_, ⟨_, _, directory⟩, _⟩
                    · have base : ∃ node, (bare location inside).lookup (if Path.isAbsolute target then [] else here) =
                          some node := by
                        split
                        · exact ⟨_, Node.lookup_nil _⟩
                        · exact ⟨_, start⟩
                      rw [strayWithin_name start stays up, next, walkWithin_link same stays up,
                        walkWithin_link next stays up]
                      exact decided _ _ base
                    · cases directory
                  · have entered : walkWithin follow fs here (piece :: rest) =
                        walkWithin follow fs (here ++ [piece]) rest := by
                      rcases known_lookup around next with same | ⟨_, _, _, _, directory⟩
                      · exact walkWithin_enter same plain stays up
                      · exact walkWithin_enter directory (directory_plain _ _) stays up
                    rw [strayWithin_enter next plain stays up, entered, walkWithin_enter next plain stays up]
                    exact ih (here ++ [piece]) ⟨_, next⟩

/-- Nothing but what is known decides a walk until it strays. -/
theorem decided_walk (around : Around location inside fs) (links : Nat) :
    Decided location inside fs (walk fs links) (walk (bare location inside) links)
      (stray location (bare location inside) links) := by
  induction links with
  | zero => exact decided_within around (fun _ _ _ => rfl) rfl
  | succ links ih => exact decided_within around ih rfl

theorem Stray.Astray.lost {point : Stray} (astray : point.Astray location inside) :
    walk (bare location inside) point.links point.here point.pieces = none := by
  obtain ⟨stat, children, place⟩ := astray.directory
  obtain ⟨piece, rest, pieces, named, down, absent⟩ := astray.asks
  obtain ⟨follow, whole⟩ := walk_within (bare location inside) point.links
  rw [whole, pieces, walkWithin_lost place absent named down]

theorem nameable_within {follow : Location → List Bytes → Option Location} {here found : Location} {pieces : List Bytes}
    (legal : fs.Legal) (followed : ∀ here pieces found, follow here pieces = some found → ∀ piece ∈ pieces, Nameable piece)
    (arrived : walkWithin follow fs here pieces = some found) : ∀ piece ∈ pieces, Nameable piece := by
  induction pieces generalizing here with
  | nil => simp
  | cons piece rest ih =>
      obtain ⟨stat, children, place⟩ := walkWithin_directory arrived
      rw [List.forall_mem_cons]
      by_cases stays : piece = [] ∨ piece = [46]
      · rw [walkWithin_stay place stays] at arrived
        refine ⟨?_, ih arrived⟩
        rcases stays with rfl | rfl <;> decide
      · by_cases up : piece = [46, 46]
        · subst up
          rw [walkWithin_up place] at arrived
          exact ⟨by decide, ih arrived⟩
        · cases next : fs.lookup (here ++ [piece]) with
          | none =>
              rw [walkWithin_lost place next stays up] at arrived
              cases arrived
          | some child =>
              have legalName : LegalName piece := (legal.lookup next).2 piece (by simp)
              refine ⟨⟨legalName.2.1, legalName.2.2.1⟩, ?_⟩
              rcases child.link_or_plain with ⟨target, rfl⟩ | plain
              · rw [walkWithin_link next stays up] at arrived
                exact fun other member => followed _ _ _ arrived other (List.mem_append_right _ member)
              · rw [walkWithin_enter next plain stays up] at arrived
                exact ih arrived

/-- A walk arrives only along pieces that are names. -/
theorem nameable_walk {here found : Location} {pieces : List Bytes} (legal : fs.Legal)
    (arrived : walk fs links here pieces = some found) : ∀ piece ∈ pieces, Nameable piece := by
  induction links generalizing here found pieces with
  | zero => exact nameable_within legal (fun _ _ _ lost => by cases lost) arrived
  | succ links ih => exact nameable_within legal (fun _ _ _ followed => ih followed) arrived

end Walks

section Completing

variable {inside : Node} {location here : Location} {piece : Bytes} {rest : List Bytes}

theorem legalName_replicate (count : Nat) : LegalName (List.replicate (count + 1) 97) := by
  have only : ∀ byte ∈ List.replicate (count + 1) (97 : UInt8), byte = 97 := fun _ => List.eq_of_mem_replicate
  refine ⟨List.cons_ne_nil _ _, fun member => ?_, fun member => ?_, fun same => ?_, fun same => ?_⟩
  · exact absurd (only _ member) (by decide)
  · exact absurd (only _ member) (by decide)
  · exact absurd (only 46 (same ▸ List.mem_cons_self)) (by decide)
  · exact absurd (only 46 (same ▸ List.mem_cons_self)) (by decide)

theorem other_name (first second : Bytes) : ∃ top, LegalName top ∧ top ≠ first ∧ top ≠ second := by
  have longer : ∀ name : Bytes, name.length ≤ first.length + second.length →
      List.replicate (first.length + second.length + 1) 97 ≠ name := by
    intro name short same
    have length := congrArg List.length same
    rw [List.length_replicate] at length
    omega
  exact ⟨_, legalName_replicate _, longer first (Nat.le_add_right _ _), longer second (Nat.le_add_left _ _)⟩

theorem nameable_padded {top : Bytes} (legal : LegalName top) (nameable : ∀ name ∈ rest, Nameable name) :
    ∀ name ∈ top :: (List.replicate rest.length top ++ rest), Nameable name := by
  have nameableTop : Nameable top := ⟨legal.2.1, legal.2.2.1⟩
  rw [List.forall_mem_cons, List.forall_mem_append]
  exact ⟨nameableTop, fun name member => List.eq_of_mem_replicate member ▸ nameableTop, nameable⟩

/-- Below a name that the root does not have, every path can be made that goes down far
enough before it may come up again. -/
theorem grow_fresh {fs : Node} {top : Bytes} {stat : Stat} {children : Listing} (known : Around location inside fs)
    (legal : LegalName top) (root : fs.lookup [] = some (.dir stat children)) (outside : ¬ location <+: [])
    (apart : ∀ other, ¬ location <+: top :: other) (free : ∀ other, fs.lookup (top :: other) = none)
    (nameable : ∀ name ∈ rest, Nameable name) :
    ∃ later, grow location fs [] ([] :: top :: (List.replicate rest.length top ++ rest)) = some later := by
  obtain ⟨opened, placed⟩ := Node.place_exists root top (some emptyDirectory) plainStat.mtime
  have absent : fs.lookup ([] ++ [top]) = none := free []
  have thin : Thin ([top] <+: ·) fs := by
    intro _ node rest reached
    obtain ⟨other, rfl⟩ := rest
    rw [List.singleton_append, free] at reached
    cases reached
  rw [grow_stay root (.inl rfl), grow_make root absent outside placed legal.named legal.2.2.2.2]
  refine grow_fits (known.place outside absent legal emptyDirectory_legal placed) apart
    (thin.place known.legal placed) ⟨_, _, (place_extends known.legal absent placed).1⟩
    (List.forall_mem_cons.mp (nameable_padded legal nameable)).2 ?_
  rw [fits_replicate legal]
  exact fits_of_length (by simp)

/-- With a symbolic link in the place of the name that it asks for, a walk that has
strayed arrives somewhere. -/
theorem walk_link (names : ∀ name ∈ location, LegalName name) (legal : inside.Legal) (out : ¬ location <+: here)
    (directory : ∃ stat children, (bare location inside).lookup here = some (.dir stat children))
    (absent : (bare location inside).lookup (here ++ [piece]) = none) (named : ¬ (piece = [] ∨ piece = [46]))
    (down : piece ≠ [46, 46]) (nameable : ∀ name ∈ piece :: rest, Nameable name) (links : Nat) :
    ∃ fs found, Around location inside fs ∧ walk fs (links + 1) here (piece :: rest) = some found := by
  have nonempty : location ≠ [] := by
    intro same
    subst same
    exact out List.nil_prefix
  obtain ⟨first, way, rfl⟩ := List.exists_cons_of_ne_nil nonempty
  obtain ⟨top, legalTop, notFirst, notPiece⟩ := other_name first piece
  have around := bare_around names legal
  have thinTop : ∀ other, (bare (first :: way) inside).lookup (top :: other) = none := by
    intro other
    apply bare_outside
    · rw [List.cons_prefix_cons, not_and]
      exact fun same => absurd same.symm notFirst
    · rw [List.cons_prefix_cons, not_and]
      exact fun same => absurd same notFirst
  obtain ⟨head, tail, whole, differs⟩ : ∃ head tail, here ++ [piece] = head :: tail ∧ top ≠ head := by
    obtain ⟨stat, children, place⟩ := directory
    cases here with
    | nil => exact ⟨piece, [], rfl, notPiece⟩
    | cons head here =>
        refine ⟨head, here ++ [piece], rfl, ?_⟩
        intro same
        subst same
        rw [thinTop] at place
        cases place
  let target := pathOf [separator] (List.replicate (rest.length + 1) top)
  obtain ⟨stat, children, place⟩ := directory
  obtain ⟨linked, placed⟩ := Node.place_exists place piece (some (.leaf (.symlink target))) plainStat.mtime
  have legalLink : (Node.leaf (.symlink target)).Legal := trivial
  rw [List.forall_mem_cons] at nameable
  obtain ⟨reached, kept⟩ := place_extends around.legal absent placed
  have known : Around (first :: way) inside linked :=
    around.place out absent (nameable.1.legal named down) legalLink placed
  have free : ∀ other, linked.lookup (top :: other) = none := by
    intro other
    obtain ⟨_, _, elsewhere⟩ := Node.place_cases around.legal placed
    rw [elsewhere, thinTop]
    · rw [whole, List.cons_prefix_cons, not_and]
      exact fun same => absurd same differs
    · rw [whole, List.cons_prefix_cons, not_and]
      exact fun same => absurd same.symm differs
  obtain ⟨stat, children, root⟩ := kept.directory (show (bare (first :: way) inside).lookup [] = some _ from rfl)
  have apart : ∀ other, ¬ first :: way <+: top :: other := by
    intro other
    rw [List.cons_prefix_cons, not_and]
    exact fun same => absurd same.symm notFirst
  have outside : ¬ first :: way <+: [] := fun front => nonempty (List.prefix_nil.mp front)
  obtain ⟨later, made⟩ := grow_fresh known legalTop root outside apart free nameable.2
  have nameablePath : ∀ name ∈ [] :: top :: (List.replicate rest.length top ++ rest), Nameable name := by
    rw [List.forall_mem_cons]
    exact ⟨by decide, nameable_padded legalTop nameable.2⟩
  obtain ⟨aroundLater, more, walks⟩ := grow_sound known nameablePath made
  obtain ⟨node, there, kind⟩ := more _ _ reached
  obtain rfl : node = .leaf (.symlink target) := kind
  have legalTarget : ∀ name ∈ List.replicate (rest.length + 1) top, LegalName name :=
    fun name member => List.eq_of_mem_replicate member ▸ legalTop
  have split : target.splitOn separator = [] :: List.replicate (rest.length + 1) top :=
    splitOn_pathOf legalTarget (List.cons_ne_nil _ _)
  have absolute : Path.isAbsolute target = true := by
    rw [show target = _ from pathOf_root legalTarget (List.cons_ne_nil _ _)]
    rfl
  obtain ⟨follow, onward⟩ := walk_within later links
  obtain ⟨found, arrived⟩ := walks follow
  refine ⟨later, found, aroundLater, ?_⟩
  have linkedWalk : walk later (links + 1) here (piece :: rest) =
      walk later links [] (target.splitOn separator ++ rest) := by
    rw [walk, walkWithin_link there named down, if_pos absolute]
  rw [linkedWalk, split, onward]
  exact arrived

/-- A walk that has strayed arrives in some file system exactly if what is left of its
path are names, and it may follow a link or only asks for directories that can be made. -/
theorem Stray.Astray.arrives_iff {point : Stray} (astray : point.Astray location inside)
    (names : ∀ name ∈ location, LegalName name) (legal : inside.Legal) :
    (∃ fs found, Around location inside fs ∧ walk fs point.links point.here point.pieces = some found) ↔
      (∀ piece ∈ point.pieces, Nameable piece) ∧
        (0 < point.links ∨ (grow location (bare location inside) point.here point.pieces).isSome) := by
  have known := bare_around names legal
  constructor
  · intro arrival
    obtain ⟨fs, found, around, arrives⟩ := arrival
    refine ⟨nameable_walk around.legal arrives, ?_⟩
    cases links : point.links with
    | succ links => exact .inl (Nat.succ_pos _)
    | zero =>
        obtain ⟨stat, children, place⟩ := astray.directory
        rw [links] at arrives
        obtain ⟨later, made⟩ := grow_complete around known (bare_thin location inside) ⟨_, place⟩ arrives
        exact .inr (Option.isSome_iff_exists.mpr ⟨later, made⟩)
  · intro strays
    obtain ⟨nameable, linking | making⟩ := strays
    · obtain ⟨links, count⟩ := Nat.exists_eq_succ_of_ne_zero (Nat.ne_of_gt linking)
      obtain ⟨piece, rest, pieces, named, down, absent⟩ := astray.asks
      rw [pieces] at nameable
      rw [count, pieces]
      exact walk_link names legal astray.out astray.directory absent named down nameable links
    · obtain ⟨later, made⟩ := Option.isSome_iff_exists.mp making
      obtain ⟨around, _, walks⟩ := grow_sound known nameable made
      obtain ⟨follow, whole⟩ := walk_within later point.links
      obtain ⟨found, arrives⟩ := walks follow
      exact ⟨later, found, around, whole ▸ arrives⟩

end Completing

end Raas
