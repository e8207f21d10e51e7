import Raas.Os.Path

namespace Raas

/-! Directory trees as the system shows them to the program. -/

/-- The metadata that the program reads: `st_mode`, and whole seconds of `st_mtime`. -/
structure Stat where
  mode : UInt32
  mtime : Int64
deriving DecidableEq

inductive Leaf where
  | file (content : Bytes) (stat : Stat)
  | symlink (target : Path)
  /-- A socket, a pipe or a device. -/
  | special
deriving DecidableEq

/-- A directory, in the order in which `read_dir` enumerates it. -/
inductive Listing where
  | nil
  | leaf (name : Bytes) (kind : Leaf) (rest : Listing)
  | dir (name : Bytes) (stat : Stat) (children rest : Listing)
deriving DecidableEq

inductive Node where
  | leaf (kind : Leaf)
  | dir (stat : Stat) (children : Listing)
deriving DecidableEq

/-- Where a node is: the names on the way from the root of its tree. -/
abbrev Location := List Bytes

/-- A file name on Unix. -/
def LegalName (name : Bytes) : Prop :=
  name ≠ [] ∧ separator ∉ name ∧ 0 ∉ name ∧ name ≠ [46] ∧ name ≠ [46, 46]

def pathOf (basePath : Path) (below : Location) : Path := below.foldl Path.join basePath

instance (name : Bytes) : Decidable (LegalName name) := inferInstanceAs (Decidable (_ ∧ _))

namespace Listing

def cons (name : Bytes) : Node → Listing → Listing
  | .leaf kind, rest => .leaf name kind rest
  | .dir stat children, rest => .dir name stat children rest

def names : Listing → List Bytes
  | .nil => []
  | .leaf name _ rest => name :: rest.names
  | .dir name _ _ rest => name :: rest.names

def Legal : Listing → Prop
  | .nil => True
  | .leaf name _ rest => LegalName name ∧ name ∉ rest.names ∧ rest.Legal
  | .dir name _ children rest => LegalName name ∧ name ∉ rest.names ∧ children.Legal ∧ rest.Legal

instance decidableLegal : (listing : Listing) → Decidable listing.Legal
  | .nil => .isTrue trivial
  | .leaf name _ rest =>
      have := decidableLegal rest
      inferInstanceAs (Decidable (LegalName name ∧ name ∉ rest.names ∧ rest.Legal))
  | .dir name _ children rest =>
      have := decidableLegal children
      have := decidableLegal rest
      inferInstanceAs (Decidable (LegalName name ∧ name ∉ rest.names ∧ children.Legal ∧ rest.Legal))

def find? (name : Bytes) : Listing → Option Node
  | .nil => none
  | .leaf other kind rest => if other = name then some (.leaf kind) else rest.find? name
  | .dir other stat children rest => if other = name then some (.dir stat children) else rest.find? name

/-- The same directories, each enumerated in an order of its own. -/
inductive Reordered : Listing → Listing → Prop
  | nil : Reordered .nil .nil
  | leaf {name : Bytes} {kind : Leaf} {rest rest' : Listing} (later : Reordered rest rest') :
      Reordered (.leaf name kind rest) (.leaf name kind rest')
  | dir {name : Bytes} {stat : Stat} {children children' rest rest' : Listing}
      (inside : Reordered children children') (later : Reordered rest rest') :
      Reordered (.dir name stat children rest) (.dir name stat children' rest')
  | swap (name other : Bytes) (node node' : Node) (rest : Listing) :
      Reordered (.cons name node (.cons other node' rest)) (.cons other node' (.cons name node rest))
  | trans {first second third : Listing} (left : Reordered first second) (right : Reordered second third) :
      Reordered first third

theorem Reordered.refl (listing : Listing) : Reordered listing listing := by
  induction listing with
  | nil => exact .nil
  | leaf name kind rest ih => exact .leaf ih
  | dir name stat children rest inside later => exact .dir inside later

theorem Reordered.cons {rest rest' : Listing} (name : Bytes) (node : Node) (later : Reordered rest rest') :
    Reordered (.cons name node rest) (.cons name node rest') := by
  cases node with
  | leaf kind => exact .leaf later
  | dir stat children => exact .dir (.refl children) later

end Listing

inductive Node.Reordered : Node → Node → Prop
  | leaf (kind : Leaf) : Reordered (.leaf kind) (.leaf kind)
  | dir {children children' : Listing} (stat : Stat) (inside : children.Reordered children') :
      Reordered (.dir stat children) (.dir stat children')

theorem Node.Reordered.refl (node : Node) : node.Reordered node := by
  cases node with
  | leaf kind => exact .leaf kind
  | dir stat children => exact .dir stat (.refl children)

/-- The node at a location, no symbolic link being followed. -/
def Node.lookup : Node → Location → Option Node
  | node, [] => some node
  | .leaf _, _ :: _ => none
  | .dir _ children, name :: rest =>
      match children.find? name with
      | some node => node.lookup rest
      | none => none

end Raas
