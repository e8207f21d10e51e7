import Raas.Os.Walk

namespace Raas

/-! Changes of a tree, and the paths that the system reports for them. -/

namespace Listing

def add (name : Bytes) (entry : Option Node) (rest : Listing) : Listing :=
  match entry with
  | some node => .cons name node rest
  | none => rest

/-- The entry of this name becomes `entry`; a new one goes to the end. -/
def set (name : Bytes) (entry : Option Node) : Listing → Listing
  | .nil => add name entry .nil
  | .leaf other kind rest => if other = name then add name entry rest else .leaf other kind (rest.set name entry)
  | .dir other stat children rest =>
      if other = name then add name entry rest else .dir other stat children (rest.set name entry)

variable {name other : Bytes} {node : Node} {entry : Option Node} {listing rest : Listing}

theorem find?_cons (name other : Bytes) (node : Node) (rest : Listing) :
    (Listing.cons name node rest).find? other = if name = other then some node else rest.find? other := by
  cases node <;> rfl

theorem names_cons (name : Bytes) (node : Node) (rest : Listing) :
    (Listing.cons name node rest).names = name :: rest.names := by
  cases node <;> rfl

theorem legal_cons : (Listing.cons name node rest).Legal ↔
    LegalName name ∧ name ∉ rest.names ∧ node.Legal ∧ rest.Legal := by
  cases node with
  | leaf kind => exact ⟨fun ⟨named, new, legal⟩ => ⟨named, new, trivial, legal⟩, fun ⟨named, new, _, legal⟩ => ⟨named, new, legal⟩⟩
  | dir stat children => exact Iff.rfl

theorem induction {motive : Listing → Prop} (nil : motive .nil)
    (cons : ∀ name node rest, motive rest → motive (.cons name node rest)) (listing : Listing) : motive listing := by
  induction listing with
  | nil => exact nil
  | leaf name kind rest ih => exact cons name (.leaf kind) rest ih
  | dir name stat children rest _ ih => exact cons name (.dir stat children) rest ih

theorem set_cons_same (name : Bytes) (node : Node) (entry : Option Node) (rest : Listing) :
    (Listing.cons name node rest).set name entry = add name entry rest := by
  cases node <;> exact if_pos rfl

theorem set_cons_other (different : name ≠ other) (node : Node) (entry : Option Node) (rest : Listing) :
    (Listing.cons name node rest).set other entry = .cons name node (rest.set other entry) := by
  cases node <;> exact if_neg different

theorem find?_add_other (different : name ≠ other) (entry : Option Node) (rest : Listing) :
    (add name entry rest).find? other = rest.find? other := by
  cases entry with
  | none => rfl
  | some node => exact (find?_cons name other node rest).trans (if_neg different)

theorem find?_add (absent : rest.find? name = none) (entry : Option Node) :
    (add name entry rest).find? name = entry := by
  cases entry with
  | none => exact absent
  | some node => exact (find?_cons name name node rest).trans (if_pos rfl)

theorem names_add (member : other ∈ (add name entry rest).names) : other = name ∨ other ∈ rest.names := by
  cases entry with
  | none => exact .inr member
  | some node => exact List.mem_cons.mp (names_cons name node rest ▸ member)

theorem Legal.add (legal : rest.Legal) (legalName : LegalName name) (new : name ∉ rest.names)
    (legalEntry : ∀ node ∈ entry, node.Legal) : (add name entry rest).Legal := by
  cases entry with
  | none => exact legal
  | some node => exact legal_cons.mpr ⟨legalName, new, legalEntry node rfl, legal⟩

theorem find?_set_other (different : name ≠ other) (entry : Option Node) (listing : Listing) :
    (listing.set name entry).find? other = listing.find? other := by
  induction listing using Listing.induction with
  | nil => exact find?_add_other different entry .nil
  | cons first node rest ih =>
      by_cases same : first = name
      · subst same
        rw [set_cons_same, find?_cons, if_neg different, find?_add_other different]
      · rw [set_cons_other same, find?_cons, find?_cons, ih]

theorem find?_set (legal : listing.Legal) (name : Bytes) (entry : Option Node) :
    (listing.set name entry).find? name = entry := by
  induction listing using Listing.induction with
  | nil => exact find?_add rfl entry
  | cons first node rest ih =>
      obtain ⟨_, new, _, legalRest⟩ := legal_cons.mp legal
      by_cases same : first = name
      · subst same
        rw [set_cons_same]
        cases found : rest.find? first with
        | none => exact find?_add found entry
        | some node => exact absurd (find?_names found) new
      · rw [set_cons_other same, find?_cons, if_neg same, ih legalRest]

theorem find?_set_some (name : Bytes) (node : Node) (listing : Listing) :
    (listing.set name (some node)).find? name = some node := by
  induction listing using Listing.induction with
  | nil => exact find?_add rfl (some node)
  | cons first other rest ih =>
      by_cases same : first = name
      · subst same
        rw [set_cons_same]
        exact (find?_cons _ _ _ _).trans (if_pos rfl)
      · rw [set_cons_other same, find?_cons, if_neg same, ih]

theorem names_set (member : other ∈ (listing.set name entry).names) : other = name ∨ other ∈ listing.names := by
  induction listing using Listing.induction with
  | nil => exact names_add member
  | cons first node rest ih =>
      rw [names_cons]
      by_cases same : first = name
      · subst same
        rw [set_cons_same] at member
        exact (names_add member).imp_right (List.mem_cons_of_mem _)
      · rw [set_cons_other same, names_cons] at member
        rcases List.mem_cons.mp member with rfl | later
        · exact .inr List.mem_cons_self
        · exact (ih later).imp_right (List.mem_cons_of_mem _)

theorem Legal.set (legal : listing.Legal) (legalName : LegalName name) (legalEntry : ∀ node ∈ entry, node.Legal) :
    (listing.set name entry).Legal := by
  induction listing using Listing.induction with
  | nil => exact legal.add legalName List.not_mem_nil legalEntry
  | cons first node rest ih =>
      obtain ⟨named, new, legalNode, legalRest⟩ := legal_cons.mp legal
      by_cases same : first = name
      · subst same
        rw [set_cons_same]
        exact legalRest.add named new legalEntry
      · rw [set_cons_other same, legal_cons]
        refine ⟨named, ?_, legalNode, ih legalRest⟩
        intro member
        exact (names_set member).elim same new

end Listing

namespace Node

/-- The tree in which the node at a location has changed, if there is one that can so change. -/
def modify (change : Node → Option Node) : Location → Node → Option Node
  | [], node => change node
  | _ :: _, .leaf _ => none
  | name :: rest, .dir stat children =>
      match children.find? name with
      | none => none
      | some child =>
          match modify change rest child with
          | none => none
          | some changed => some (.dir stat (children.set name (some changed)))

def place (directory : Location) (name : Bytes) (entry : Option Node) (now : Int64) : Node → Option Node :=
  modify (fun
    | .dir stat children => some (.dir { stat with mtime := now } (children.set name entry))
    | .leaf _ => none) directory

/-- What can be made, and taken away, at once. -/
def childless : Node → Bool
  | .leaf _ => true
  | .dir _ children => decide (children = .nil)

/-- What a rename can put a node in the place of. -/
def replaces : Node → Option Node → Bool
  | _, none => true
  | .leaf _, some (.leaf _) => true
  | .dir _ _, some (.dir _ children) => decide (children = .nil)
  | _, some _ => false

end Node

inductive Mutation where
  | create (directory : Location) (name : Bytes) (entry : Node) (now : Int64)
  | write (location : Location) (content : Bytes) (stat : Stat)
  | chmod (location : Location) (mode : UInt32)
  | delete (directory : Location) (name : Bytes) (now : Int64)
  | rename (oldDirectory : Location) (oldName : Bytes) (newDirectory : Location) (newName : Bytes) (now : Int64)

namespace Mutation

def apply (tree : Node) : Mutation → Option Node
  | .create directory name entry now =>
      if LegalName name ∧ entry.childless ∧ tree.lookup (directory ++ [name]) = none then
        tree.place directory name (some entry) now
      else none
  | .write location content stat =>
      tree.modify (fun
        | .leaf (.file _ _) => some (.leaf (.file content stat))
        | _ => none) location
  | .chmod location mode =>
      tree.modify (fun
        | .leaf (.file content stat) => some (.leaf (.file content { stat with mode }))
        | .leaf kind => some (.leaf kind)
        | .dir stat children => some (.dir { stat with mode } children)) location
  | .delete directory name now =>
      match tree.lookup (directory ++ [name]) with
      | none => none
      | some node => if node.childless then tree.place directory name none now else none
  | .rename oldDirectory oldName newDirectory newName now =>
      let old := oldDirectory ++ [oldName]
      let new := newDirectory ++ [newName]
      match tree.lookup old with
      | none => none
      | some node =>
          if old = new then some tree
          else if LegalName newName ∧ ¬ old <+: new ∧ node.replaces (tree.lookup new) then
            match tree.place oldDirectory oldName none now with
            | none => none
            | some without => without.place newDirectory newName (some node) now
          else none

/-- The locations whose paths the system reports. -/
def reports : Mutation → List Location
  | .create directory name _ _ | .delete directory name _ => [directory ++ [name]]
  | .write location _ _ | .chmod location _ => [location]
  | .rename oldDirectory oldName newDirectory newName _ => [oldDirectory ++ [oldName], newDirectory ++ [newName]]

/-- The location from which a node moves away with all that is below it. -/
def moves : Mutation → Option Location
  | .rename oldDirectory oldName newDirectory newName _ =>
      if oldDirectory ++ [oldName] = newDirectory ++ [newName] then none else some (oldDirectory ++ [oldName])
  | _ => none

end Mutation

/-! What a mutation changes. -/

namespace Node

variable {change : Node → Option Node} {tree tree' inner node : Node} {location directory other rest : Location}
  {name : Bytes} {entry : Option Node} {now : Int64}

theorem modify_cases (modified : tree.modify change location = some tree') :
    ∃ before after, tree.lookup location = some before ∧ change before = some after ∧
      (∀ rest, tree'.lookup (location ++ rest) = after.lookup rest) ∧
      ∀ other, ¬ other <+: location → ¬ location <+: other → tree'.lookup other = tree.lookup other := by
  induction location generalizing tree tree' with
  | nil =>
      refine ⟨tree, tree', lookup_nil tree, ?_, fun rest => rfl, fun other _ apart => absurd List.nil_prefix apart⟩
      cases tree <;> exact modified
  | cons name location ih =>
      cases tree with
      | leaf kind => simp [modify] at modified
      | dir stat children =>
          rw [modify] at modified
          cases found : children.find? name with
          | none => simp [found] at modified
          | some child =>
              cases deeper : child.modify change location with
              | none => simp [found, deeper] at modified
              | some changed =>
                  simp only [found, deeper, Option.some.injEq] at modified
                  subst modified
                  obtain ⟨before, after, lookedUp, changes, below, elsewhere⟩ := ih deeper
                  have here : (children.set name (some changed)).find? name = some changed :=
                    Listing.find?_set_some _ _ _
                  refine ⟨before, after, ?_, changes, ?_, ?_⟩
                  · rw [lookup_cons, found]
                    exact lookedUp
                  · intro rest
                    rw [List.cons_append, lookup_cons, here]
                    exact below rest
                  · intro other above inside
                    cases other with
                    | nil => exact absurd List.nil_prefix above
                    | cons first other =>
                        rw [lookup_cons, lookup_cons]
                        by_cases same : first = name
                        · subst same
                          rw [List.cons_prefix_cons, not_and] at above inside
                          rw [here, found]
                          exact elsewhere other (above rfl) (inside rfl)
                        · rw [Listing.find?_set_other (Ne.symm same)]

theorem Legal.modify (legal : tree.Legal) (keeps : ∀ before after, before.Legal → change before = some after → after.Legal)
    (modified : tree.modify change location = some tree') : tree'.Legal := by
  induction location generalizing tree tree' with
  | nil =>
      apply keeps tree tree' legal
      cases tree <;> exact modified
  | cons name location ih =>
      cases tree with
      | leaf kind => simp [Node.modify] at modified
      | dir stat children =>
          rw [Node.modify] at modified
          cases found : children.find? name with
          | none => simp [found] at modified
          | some child =>
              cases deeper : child.modify change location with
              | none => simp [found, deeper] at modified
              | some changed =>
                  simp only [found, deeper, Option.some.injEq] at modified
                  subst modified
                  have named := Listing.Legal.names legal name (Listing.find?_names found)
                  have there : (Node.dir stat children).lookup [name] = some child := by
                    rw [lookup_cons, found]
                    exact lookup_nil child
                  have inner := (legal.lookup there).1
                  refine Listing.Legal.set legal named fun node held => ?_
                  cases held
                  exact ih inner deeper

theorem place_cases (legal : tree.Legal) (placed : tree.place directory name entry now = some tree') :
    (∃ stat children, tree.lookup directory = some (.dir stat children)) ∧
      (∀ rest, tree'.lookup (directory ++ name :: rest) = entry.bind fun node => node.lookup rest) ∧
      ∀ other, ¬ other <+: directory ++ [name] → ¬ directory ++ [name] <+: other →
        tree'.lookup other = tree.lookup other := by
  obtain ⟨before, after, lookedUp, changes, below, elsewhere⟩ := modify_cases placed
  cases before with
  | leaf kind => simp at changes
  | dir stat children =>
      simp only [Option.some.injEq] at changes
      subst changes
      have legalHere : children.Legal := (legal.lookup lookedUp).1
      refine ⟨⟨stat, children, lookedUp⟩, ?_, ?_⟩
      · intro rest
        rw [below, lookup_cons, Listing.find?_set legalHere]
      · intro other above inside
        have notAbove : ¬ other <+: directory := fun up => above (up.trans (List.prefix_append _ _))
        by_cases within : directory <+: other
        · obtain ⟨rest, rfl⟩ := within
          cases rest with
          | nil =>
              rw [List.append_nil] at notAbove
              exact absurd (List.prefix_refl _) notAbove
          | cons first rest =>
              have different : name ≠ first := by
                intro same
                subst same
                exact inside ⟨rest, by simp⟩
              rw [below, lookup_append, lookedUp, lookup_cons, Listing.find?_set_other different]
              exact (lookup_cons stat children first rest).symm
        · exact elsewhere other notAbove within

theorem modify_exists {before after : Node} (reached : tree.lookup location = some before)
    (changes : change before = some after) : ∃ tree', tree.modify change location = some tree' := by
  induction location generalizing tree with
  | nil =>
      rw [lookup_nil, Option.some.injEq] at reached
      subst reached
      exact ⟨after, by cases tree <;> exact changes⟩
  | cons name location ih =>
      cases tree with
      | leaf kind => cases reached
      | dir stat children =>
          rw [lookup_cons, Option.bind_eq_some_iff] at reached
          obtain ⟨child, found, below⟩ := reached
          obtain ⟨changed, modified⟩ := ih below
          exact ⟨.dir stat (children.set name (some changed)), by simp only [modify, found, modified]⟩

theorem place_exists {stat : Stat} {children : Listing} (here : tree.lookup directory = some (.dir stat children))
    (name : Bytes) (entry : Option Node) (now : Int64) : ∃ tree', tree.place directory name entry now = some tree' :=
  modify_exists here rfl

theorem Legal.place (legal : tree.Legal) (legalName : LegalName name) (legalEntry : ∀ node ∈ entry, node.Legal)
    (placed : tree.place directory name entry now = some tree') : tree'.Legal := by
  refine legal.modify ?_ placed
  intro before after legalBefore changes
  cases before with
  | leaf kind => simp at changes
  | dir stat children =>
      simp only [Option.some.injEq] at changes
      subst changes
      exact Listing.Legal.set legalBefore legalName legalEntry

/-- The names that lead to a placed entry are legal. -/
theorem Legal.names_placed (legal : tree.Legal) (legalName : LegalName name)
    (placed : tree.place directory name entry now = some tree') : ∀ other ∈ directory ++ [name], LegalName other := by
  obtain ⟨⟨stat, children, above⟩, _⟩ := place_cases legal placed
  intro other inside
  rw [List.mem_append, List.mem_singleton] at inside
  rcases inside with inside | rfl
  · exact (legal.lookup above).2 other inside
  · exact legalName

theorem childless_below (childless : node.childless) (name : Bytes) (rest : Location) :
    node.lookup (name :: rest) = none := by
  cases node with
  | leaf kind => rfl
  | dir stat children =>
      rw [Node.childless, decide_eq_true_iff] at childless
      rw [childless]
      rfl

theorem replaces_below {target : Option Node} (replaces : node.replaces target) (name : Bytes) (rest : Location) :
    (target.bind fun replaced => replaced.lookup (name :: rest)) = none := by
  cases target with
  | none => rfl
  | some replaced =>
      refine childless_below ?_ name rest
      cases node <;> cases replaced
      · rfl
      · simp [Node.replaces] at replaces
      · simp [Node.replaces] at replaces
      · exact replaces

theorem lookup_below (above : location <+: other) (different : ¬ other <+: location) :
    ∃ name rest, other = location ++ name :: rest := by
  obtain ⟨rest, rfl⟩ := above
  cases rest with
  | nil =>
      rw [List.append_nil] at different
      exact absurd (List.prefix_refl _) different
  | cons name rest => exact ⟨name, rest, rfl⟩

end Node

namespace Mutation

variable {tree tree' node entry : Node} {mutation : Mutation} {location directory oldDirectory newDirectory : Location}
  {name oldName newName : Bytes} {now : Int64}

theorem apply_create (applied : (create directory name entry now).apply tree = some tree') :
    LegalName name ∧ entry.childless ∧ tree.lookup (directory ++ [name]) = none ∧
      tree.place directory name (some entry) now = some tree' := by
  simp only [apply] at applied
  split at applied
  · rename_i allowed
    exact ⟨allowed.1, allowed.2.1, allowed.2.2, applied⟩
  · simp at applied

theorem apply_delete (applied : (delete directory name now).apply tree = some tree') :
    ∃ node, tree.lookup (directory ++ [name]) = some node ∧ node.childless ∧
      tree.place directory name none now = some tree' := by
  simp only [apply] at applied
  cases found : tree.lookup (directory ++ [name]) with
  | none => simp [found] at applied
  | some node =>
      simp only [found] at applied
      split at applied
      · rename_i childless
        exact ⟨node, rfl, childless, applied⟩
      · simp at applied

theorem apply_rename (applied : (rename oldDirectory oldName newDirectory newName now).apply tree = some tree') :
    ∃ node, tree.lookup (oldDirectory ++ [oldName]) = some node ∧
      (oldDirectory ++ [oldName] = newDirectory ++ [newName] ∧ tree' = tree ∨
        ∃ without, oldDirectory ++ [oldName] ≠ newDirectory ++ [newName] ∧ LegalName newName ∧
          node.replaces (tree.lookup (newDirectory ++ [newName])) ∧
          tree.place oldDirectory oldName none now = some without ∧ without.place newDirectory newName (some node) now = some tree') := by
  simp only [apply] at applied
  cases found : tree.lookup (oldDirectory ++ [oldName]) with
  | none => simp [found] at applied
  | some node =>
      simp only [found] at applied
      refine ⟨node, rfl, ?_⟩
      split at applied
      · rename_i same
        exact .inl ⟨same, (Option.some.inj applied).symm⟩
      · rename_i different
        split at applied
        · rename_i allowed
          cases taken : tree.place oldDirectory oldName none now with
          | none => simp [taken] at applied
          | some without =>
              simp only [taken] at applied
              exact .inr ⟨without, different, allowed.1, allowed.2.2, rfl, applied⟩
        · simp at applied

theorem childless_legal (childless : node.childless) : node.Legal := by
  cases node with
  | leaf kind => trivial
  | dir stat children =>
      have empty : children = .nil := of_decide_eq_true childless
      rw [empty]
      trivial

theorem apply_legal (legal : tree.Legal) (applied : mutation.apply tree = some tree') :
    tree'.Legal ∧ ∀ reported ∈ mutation.reports, ∀ name ∈ reported, LegalName name := by
  cases mutation with
  | create directory name entry now =>
      obtain ⟨named, childless, _, placed⟩ := apply_create applied
      refine ⟨legal.place named (fun node held => ?_) placed, ?_⟩
      · cases held
        exact childless_legal childless
      · intro reported member
        rw [List.mem_singleton.mp member]
        exact legal.names_placed named placed
  | write location content stat =>
      obtain ⟨before, after, above, _⟩ := Node.modify_cases applied
      refine ⟨legal.modify ?_ applied, ?_⟩
      · intro before after legalBefore changes
        split at changes
        · cases changes
          trivial
        · simp at changes
      · intro reported member
        rw [List.mem_singleton.mp member]
        exact (legal.lookup above).2
  | chmod location mode =>
      obtain ⟨before, after, above, _⟩ := Node.modify_cases applied
      refine ⟨legal.modify ?_ applied, ?_⟩
      · intro before after legalBefore changes
        split at changes
        · cases changes
          trivial
        · cases changes
          trivial
        · cases changes
          exact legalBefore
      · intro reported member
        rw [List.mem_singleton.mp member]
        exact (legal.lookup above).2
  | delete directory name now =>
      obtain ⟨node, found, _, placed⟩ := apply_delete applied
      have named := (legal.lookup found).2
      refine ⟨legal.place (named name (by simp)) (by simp) placed, ?_⟩
      intro reported member
      rw [List.mem_singleton.mp member]
      exact named
  | rename oldDirectory oldName newDirectory newName now =>
      obtain ⟨node, found, same | ⟨without, _, newNamed, _, taken, placed⟩⟩ := apply_rename applied
      · have named := (legal.lookup found).2
        rw [same.2]
        refine ⟨legal, ?_⟩
        intro reported member
        simp only [reports, same.1, List.mem_cons, List.not_mem_nil, or_false, or_self] at member
        rw [member, ← same.1]
        exact named
      · have legalNode := legal.lookup found
        have legalWithout := legal.place (legalNode.2 oldName (by simp)) (by simp) taken
        refine ⟨legalWithout.place newNamed (fun moved held => ?_) placed, ?_⟩
        · cases held
          exact legalNode.1
        · intro reported member
          simp only [reports, List.mem_cons, List.not_mem_nil, or_false] at member
          rcases member with rfl | rfl
          · exact legalNode.2
          · exact legalWithout.names_placed newNamed placed

theorem moves_reported (moved : location ∈ mutation.moves) : location ∈ mutation.reports := by
  cases mutation with
  | rename oldDirectory oldName newDirectory newName now =>
      simp only [moves] at moved
      split at moved
      · simp at moved
      · rw [← Option.some.inj moved]
        exact List.mem_cons_self
  | create directory name entry now => simp [moves] at moved
  | write other content stat => simp [moves] at moved
  | chmod other mode => simp [moves] at moved
  | delete directory name now => simp [moves] at moved

/-- A node stays as it is if nothing at or below it is reported and it does not move
along with a directory. -/
theorem apply_keeps (legal : tree.Legal) (applied : mutation.apply tree = some tree')
    (present : tree.lookup location = some node) (unreported : ∀ reported ∈ mutation.reports, ¬ location <+: reported)
    (unmoved : ∀ old ∈ mutation.moves, ¬ old <+: location) : tree'.lookup location = some node := by
  have absent : ∀ {above : Location}, ¬ location <+: above →
      (∀ name rest, tree.lookup (above ++ name :: rest) = none) → ¬ above <+: location := by
    intro above apart empty inside
    obtain ⟨name, rest, rfl⟩ := Node.lookup_below inside apart
    rw [empty] at present
    simp at present
  cases mutation with
  | create directory name entry now =>
      obtain ⟨_, _, new, placed⟩ := apply_create applied
      have apart := unreported _ List.mem_cons_self
      rw [(Node.place_cases legal placed).2.2 location apart (absent apart fun name rest => ?_), present]
      rw [Node.lookup_append, new]
      rfl
  | write other content stat =>
      obtain ⟨before, after, here, changes, _, elsewhere⟩ := Node.modify_cases applied
      have apart := unreported _ List.mem_cons_self
      rw [elsewhere location apart (absent apart fun name rest => ?_), present]
      rw [Node.lookup_append, here]
      cases before with
      | leaf kind => rfl
      | dir stat children => simp at changes
  | chmod other mode =>
      obtain ⟨before, after, here, changes, below, elsewhere⟩ := Node.modify_cases applied
      have apart := unreported _ List.mem_cons_self
      by_cases inside : other <+: location
      · obtain ⟨name, rest, rfl⟩ := Node.lookup_below inside apart
        rw [below, ← present, Node.lookup_append, here]
        -- the entries of a directory stay, whatever its mode
        cases before with
        | leaf kind => cases kind <;> (cases changes; rfl)
        | dir stat children =>
            cases changes
            rfl
      · rw [elsewhere location apart inside, present]
  | delete directory name now =>
      obtain ⟨gone, found, childless, placed⟩ := apply_delete applied
      have apart := unreported _ List.mem_cons_self
      rw [(Node.place_cases legal placed).2.2 location apart (absent apart fun name rest => ?_), present]
      rw [Node.lookup_append, found]
      exact Node.childless_below childless name rest
  | rename oldDirectory oldName newDirectory newName now =>
      obtain ⟨moved, found, same | ⟨without, different, newNamed, replaces, taken, placed⟩⟩ := apply_rename applied
      · rw [same.2, present]
      · have legalWithout := legal.place ((legal.lookup found).2 oldName (by simp)) (by simp) taken
        have apart := unreported _ List.mem_cons_self
        have apartNew := unreported _ (List.mem_cons_of_mem _ List.mem_cons_self)
        have stays := (Node.place_cases legal taken).2.2 location apart (unmoved _ (if_neg different))
        rw [(Node.place_cases legalWithout placed).2.2 location apartNew (absent apartNew fun name rest => ?_), stays,
          present]
        rw [Node.lookup_append]
        exact Node.replaces_below replaces name rest

end Mutation

/-- A tree in which every entry has a legal name of its own. -/
structure Tree where
  top : Node
  legal : top.Legal

namespace Tree

def lookup (self : Tree) (location : Location) : Option Node := self.top.lookup location

def apply (self : Tree) (mutation : Mutation) : Option Tree :=
  match applied : mutation.apply self.top with
  | none => none
  | some top => some { top, legal := (Mutation.apply_legal self.legal applied).1 }

theorem apply_some {self after : Tree} {mutation : Mutation} (applied : self.apply mutation = some after) :
    mutation.apply self.top = some after.top := by
  unfold apply at applied
  split at applied
  · simp at applied
  · rename_i top changed
    cases applied
    exact changed

end Tree

end Raas
