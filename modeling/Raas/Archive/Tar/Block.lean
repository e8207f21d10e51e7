import Raas.Archive.Tar.Gnu
import Raas.Data.Tiling

namespace Raas.Tar

open Data

/-! A header block as its fields, and the setters of the tar crate over it. -/

namespace Field

def width (field : Field) : Nat := field.stop - field.start

def all : List Field :=
  [.name, .mode, .uid, .gid, .size, .mtime, .cksum, .typeflag, .linkname, .magic, .tail]

theorem mem_all (field : Field) : field ∈ all := by
  cases field <;> decide

theorem all_tiles : Tiles start width 0 all blockSize := by
  repeat' constructor

theorem stop_eq (field : Field) : field.start + field.width = field.stop := by
  cases field <;> rfl

end Field

/-- Every field has the width that the format gives it. -/
structure Block where
  content : Field → Bytes
  widths : ∀ field, (content field).length = field.width

namespace Block

def zero : Block where
  content := fun field => List.replicate field.width 0
  widths := fun _ => List.length_replicate

def set (block : Block) (field : Field) (value : { value : Bytes // value.length = field.width }) : Block where
  content := fun other => if other = field then value.val else block.content other
  widths := fun other => by
    split
    · rename_i same
      rw [same]
      exact value.property
    · exact block.widths other

def bytes (block : Block) : Bytes := Field.all.flatMap block.content

theorem bytes_length (block : Block) : block.bytes.length = blockSize := by
  have length := Field.all_tiles.length_flatMap block.content fun field _ => block.widths field
  rw [Nat.zero_add] at length
  exact length

theorem of_bytes (block : Block) (field : Field) : field.of block.bytes = block.content field := by
  obtain ⟨index, found⟩ := List.mem_iff_getElem?.mp field.mem_all
  have placed := Field.all_tiles.window_item (fun field _ => block.widths field) found 0 field.width
    (Nat.le_refl _)
  rw [Nat.sub_zero, Nat.add_zero, field.stop_eq, ← block.widths field, window_all] at placed
  exact placed

theorem of_set (block : Block) (target field : Field) (value : { value : Bytes // value.length = target.width }) :
    field.of (block.set target value).bytes = if field = target then value.val else field.of block.bytes := by
  rw [of_bytes, of_bytes]
  rfl

end Block

theorem octalField_length {width : Nat} (wide : 0 < width) (value : Nat) :
    (octalField width value).length = width := by
  rw [octalField, List.length_append, octalDigits_length, List.length_singleton]
  omega

theorem extendedField_length {width : Nat} (wide : 8 ≤ width) (value : Nat) :
    (extendedField width value).length = width := by
  have length : (List.replicate (width - 8) 0 ++ (leBytes 8 value).reverse).length = width := by
    rw [List.length_append, List.length_replicate, List.length_reverse, leBytes_length]
    omega
  unfold extendedField
  split
  · rename_i empty
    rw [empty] at length
    exact length
  · rename_i first rest whole
    rw [whole] at length
    exact length

theorem numberField_length {width : Nat} (wide : 8 ≤ width) (value : Nat) :
    (numberField width value).length = width := by
  unfold numberField
  split
  · exact extendedField_length wide value
  · exact octalField_length (by omega) value

def nameOver (old name : Bytes) : Bytes := name.take nameLength ++ old.drop name.length

theorem nameOver_length {old : Bytes} (width : old.length = nameLength) (name : Bytes) :
    (nameOver old name).length = nameLength := by
  rw [nameOver, List.length_append, List.length_take, List.length_drop, width]
  omega

def paddedName (path : Bytes) : Bytes := path.take nameLength ++ List.replicate (nameLength - path.length) 0

theorem paddedName_length (path : Bytes) : (paddedName path).length = nameLength := by
  rw [paddedName, List.length_append, List.length_take, List.length_replicate]
  omega

/-- The tar crate over blocks. -/
def blockCrate : HeaderCrate where
  Header := Block
  newGnu := Block.zero.set .magic ⟨gnuMagic, rfl⟩
  setSize := fun block value => block.set .size ⟨numberField 12 value, numberField_length (by decide) value⟩
  setEntryType := fun block value => block.set .typeflag ⟨[value], rfl⟩
  setMode := fun block value => block.set .mode ⟨octalField 8 value, octalField_length (by decide) value⟩
  setUid := fun block value => block.set .uid ⟨numberField 8 value, numberField_length (by decide) value⟩
  setGid := fun block value => block.set .gid ⟨numberField 8 value, numberField_length (by decide) value⟩
  setMtime := fun block value => block.set .mtime ⟨numberField 12 value, numberField_length (by decide) value⟩
  setCksum := fun block =>
    block.set .cksum ⟨octalField 8 (checksum block.bytes), octalField_length (by decide) (checksum block.bytes)⟩
  setPath := fun block path =>
    if nameLength < path.length ∨ 0 ∈ path then
      (.error { kind := .invalidInput, message := "provided value is too long or contains a nul byte" }, block)
    else (.ok (), block.set .name ⟨paddedName path, paddedName_length path⟩)
  writeName := fun block name => block.set .name ⟨nameOver (block.content .name) name,
    nameOver_length (block.widths .name) name⟩
  asBytes := Block.bytes
  asBytes_length := Block.bytes_length

theorem blockCrate_gnu : blockCrate.Gnu where
  newGnu := Block.of_set _ _ _ _
  setSize := fun _ _ _ => Block.of_set _ _ _ _
  setEntryType := fun _ _ _ => Block.of_set _ _ _ _
  setMode := fun _ _ _ => Block.of_set _ _ _ _
  setUid := fun _ _ _ => Block.of_set _ _ _ _
  setGid := fun _ _ _ => Block.of_set _ _ _ _
  setMtime := fun _ _ _ => Block.of_set _ _ _ _
  setCksum := fun _ _ => Block.of_set _ _ _ _
  writeName := fun _ _ _ other => (Block.of_set _ _ _ _).trans (if_neg other)
  setPath := fun block path field other => by
    unfold blockCrate
    dsimp only
    split
    · rfl
    · exact (Block.of_set _ _ _ _).trans (if_neg other)
  stores := fun block path _ short clean => by
    unfold blockCrate
    dsimp only
    have accepted : ¬ (nameLength < path.length ∨ 0 ∈ path) := by
      rw [not_or]
      exact ⟨Nat.not_lt.mpr short, clean⟩
    have stored := block.of_set .name .name ⟨paddedName path, paddedName_length path⟩
    have padded : paddedName path = path ++ List.replicate (nameLength - path.length) 0 := by
      rw [paddedName, List.take_of_length_le short]
    rw [if_neg accepted]
    exact ⟨rfl, (stored.trans (if_pos rfl)).trans padded⟩
  refuses := fun block path _ refused => by
    unfold blockCrate
    dsimp only
    rw [if_pos refused]
    exact ⟨_, rfl⟩

end Raas.Tar
