import Raas.Archive.Tar.Header
import Raas.Data.LittleEndian
import Raas.Data.Window

namespace Raas.Tar

open Data

/-! The GNU header block: its fields, its number formats, and its checksum. -/

inductive Field where
  | name
  | mode
  | uid
  | gid
  | size
  | mtime
  | cksum
  | typeflag
  | linkname
  | magic
  | tail
deriving DecidableEq, Repr

namespace Field

def start : Field → Nat
  | .name => 0
  | .mode => 100
  | .uid => 108
  | .gid => 116
  | .size => 124
  | .mtime => 136
  | .cksum => 148
  | .typeflag => 156
  | .linkname => 157
  | .magic => 257
  | .tail => 265

def stop : Field → Nat
  | .name => 100
  | .mode => 108
  | .uid => 116
  | .gid => 124
  | .size => 136
  | .mtime => 148
  | .cksum => 156
  | .typeflag => 157
  | .linkname => 257
  | .magic => 265
  | .tail => 512

def of (field : Field) (block : Bytes) : Bytes := window block field.start field.stop

end Field

/-- `b"ustar "` and `b" \0"` -/
def gnuMagic : Bytes := [117, 115, 116, 97, 114, 32, 32, 0]

/-- The low `width` octal digits of `value`. -/
def octalDigits : Nat → Nat → Bytes
  | 0, _ => []
  | width + 1, value => octalDigits width (value / 8) ++ [UInt8.ofNat (48 + value % 8)]

/-- Octal digits up to a closing NUL. -/
def octalField (width value : Nat) : Bytes := octalDigits (width - 1) value ++ [0]

/-- Eight bytes, most significant first, in a field whose top bit marks the form. -/
def extendedField (width value : Nat) : Bytes :=
  match List.replicate (width - 8) 0 ++ (leBytes 8 value).reverse with
  | [] => []
  | first :: rest => (first ||| 0x80) :: rest

/-- Octal where that has room, the extended form otherwise. -/
def numberField (width value : Nat) : Bytes :=
  if 8589934592 ≤ value ∨ (2097152 ≤ value ∧ width = 8) then extendedField width value
  else octalField width value

def isOctalDigit (byte : UInt8) : Bool := 48 ≤ byte && byte ≤ 55

def readOctal (bytes : Bytes) : Nat :=
  (bytes.takeWhile isOctalDigit).foldl (fun value byte => value * 8 + (byte.toNat - 48)) 0

def readNumber : Bytes → Nat
  | [] => 0
  | first :: rest =>
      if 0x80 ≤ first then leValue ((first &&& 0x7F) :: rest).reverse else readOctal (first :: rest)

/-- The sum of the block's bytes, its checksum field read as blanks. -/
def checksum (block : Bytes) : Nat :=
  ((window block 0 148 ++ List.replicate 8 32 ++ window block 156 512).map UInt8.toNat).sum

/-- A path of components between single separators, none of them `.` or `..`,
with at most one separator after the last. -/
def PlainPath (path : Bytes) : Prop :=
  ∃ components : List Bytes, components ≠ [] ∧
    (∀ component ∈ components, component ≠ [] ∧ separator ∉ component ∧ component ≠ [46] ∧ component ≠ [46, 46]) ∧
    (path = List.intercalate [separator] components ∨ path = List.intercalate [separator] components ++ [separator])

theorem smallScan_plain : ∀ item ∈ smallScan, PlainPath item.relativePath := by
  intro item member
  simp only [smallScan, List.mem_cons, List.not_mem_nil, or_false] at member
  rcases member with rfl | rfl
  · exact ⟨[[100]], by decide, by decide, .inr rfl⟩
  · exact ⟨[[100], [102]], by decide, by decide, .inl rfl⟩

/-- The tar crate writes headers as GNU tar does: each setter fills its own field and
leaves the others, numbers and checksum have GNU's form, and `set_path` stores a
plain path of at most 100 bytes as it is and refuses a plain path that it cannot store. -/
structure HeaderCrate.Gnu (crate : HeaderCrate) : Prop where
  newGnu : Field.magic.of (crate.asBytes crate.newGnu) = gnuMagic
  setSize : ∀ header value (field : Field), field.of (crate.asBytes (crate.setSize header value)) =
    if field = .size then numberField 12 value else field.of (crate.asBytes header)
  setEntryType : ∀ header value (field : Field), field.of (crate.asBytes (crate.setEntryType header value)) =
    if field = .typeflag then [value] else field.of (crate.asBytes header)
  setMode : ∀ header value (field : Field), field.of (crate.asBytes (crate.setMode header value)) =
    if field = .mode then octalField 8 value else field.of (crate.asBytes header)
  setUid : ∀ header value (field : Field), field.of (crate.asBytes (crate.setUid header value)) =
    if field = .uid then numberField 8 value else field.of (crate.asBytes header)
  setGid : ∀ header value (field : Field), field.of (crate.asBytes (crate.setGid header value)) =
    if field = .gid then numberField 8 value else field.of (crate.asBytes header)
  setMtime : ∀ header value (field : Field), field.of (crate.asBytes (crate.setMtime header value)) =
    if field = .mtime then numberField 12 value else field.of (crate.asBytes header)
  setCksum : ∀ header (field : Field), field.of (crate.asBytes (crate.setCksum header)) =
    if field = .cksum then octalField 8 (checksum (crate.asBytes header)) else field.of (crate.asBytes header)
  writeName : ∀ header name (field : Field), field ≠ .name →
    field.of (crate.asBytes (crate.writeName header name)) = field.of (crate.asBytes header)
  setPath : ∀ header path (field : Field), field ≠ .name →
    field.of (crate.asBytes (crate.setPath header path).2) = field.of (crate.asBytes header)
  stores : ∀ header path, PlainPath path → path.length ≤ nameLength → 0 ∉ path →
    (crate.setPath header path).1 = .ok () ∧
      Field.name.of (crate.asBytes (crate.setPath header path).2) =
        path ++ List.replicate (nameLength - path.length) 0
  refuses : ∀ header path, PlainPath path → nameLength < path.length ∨ 0 ∈ path →
    ∃ reason, (crate.setPath header path).1 = .error reason

/-! Numbers come back. -/

theorem octalDigits_length (width value : Nat) : (octalDigits width value).length = width := by
  induction width generalizing value with
  | zero => rfl
  | succ width ih => rw [octalDigits, List.length_append, ih, List.length_singleton]

theorem octalDigits_digit (width value : Nat) : ∀ byte ∈ octalDigits width value, isOctalDigit byte = true := by
  induction width generalizing value with
  | zero => simp [octalDigits]
  | succ width ih =>
      intro byte member
      rw [octalDigits, List.mem_append, List.mem_singleton] at member
      rcases member with earlier | rfl
      · exact ih _ byte earlier
      · have digit : ∀ digit < 8, isOctalDigit (UInt8.ofNat (48 + digit)) = true := by decide
        exact digit (value % 8) (Nat.mod_lt _ (by decide))

theorem octalDigits_value {width value : Nat} (fits : value < 8 ^ width) :
    (octalDigits width value).foldl (fun value byte => value * 8 + (byte.toNat - 48)) 0 = value := by
  induction width generalizing value with
  | zero =>
      rw [Nat.pow_zero] at fits
      have empty : value = 0 := by omega
      rw [empty]
      rfl
  | succ width ih =>
      have quotient : value / 8 < 8 ^ width := by
        rw [Nat.pow_succ] at fits
        omega
      have digit : ∀ digit < 8, (UInt8.ofNat (48 + digit)).toNat - 48 = digit := by decide
      rw [octalDigits, List.foldl_append, ih quotient, List.foldl_cons, List.foldl_nil,
        digit (value % 8) (Nat.mod_lt _ (by decide))]
      omega

theorem readOctal_octalField (width : Nat) {value : Nat} (fits : value < 8 ^ (width - 1)) :
    readOctal (octalField width value) = value := by
  have digits := octalDigits_digit (width - 1) value
  rw [readOctal, octalField, List.takeWhile_append_of_pos digits]
  rw [List.takeWhile_cons_of_neg (by decide), List.append_nil]
  exact octalDigits_value fits

theorem readNumber_octalField {width value : Nat} (wide : 1 < width) (fits : value < 8 ^ (width - 1)) :
    readNumber (octalField width value) = value := by
  have back := readOctal_octalField width fits
  cases digits : octalDigits (width - 1) value with
  | nil =>
      have length := octalDigits_length (width - 1) value
      rw [digits, List.length_nil] at length
      omega
  | cons first rest =>
      have low := octalDigits_digit (width - 1) value first (by rw [digits]; exact List.mem_cons_self)
      have small : ¬ (0x80 : UInt8) ≤ first := by
        simp only [isOctalDigit, Bool.and_eq_true, decide_eq_true_eq] at low
        intro large
        have contradiction := UInt8.le_trans large low.2
        exact absurd contradiction (by decide)
      rw [octalField, digits, List.cons_append] at back ⊢
      rw [readNumber, if_neg small]
      exact back

theorem readNumber_numberField {value : Nat} (fits : value < u64Size) :
    readNumber (numberField 12 value) = value := by
  unfold numberField
  split
  · have bytes : extendedField 12 value = 0x80 :: ([0, 0, 0] ++ (leBytes 8 value).reverse) := rfl
    rw [bytes, readNumber, if_pos (by decide)]
    have masked : (0x80 : UInt8) &&& 0x7F = 0 := by decide
    have reversed : (0 :: ([0, 0, 0] ++ (leBytes 8 value).reverse)).reverse = leBytes 8 value ++ [0, 0, 0, 0] := by
      simp
    rw [masked, reversed, leValue_append, leValue_leBytes fits]
    rfl
  · rename_i small
    exact readNumber_octalField (by decide) (by simp only [not_or] at small; omega)

/-! Fields of a block. -/

theorem checksum_congr {left right : Bytes} (same : ∀ field : Field, field ≠ .cksum → field.of left = field.of right) :
    checksum left = checksum right := by
  have piece : ∀ (block : Bytes) (start middle stop : Nat), start ≤ middle → middle ≤ stop →
      window block start stop = window block start middle ++ window block middle stop :=
    fun block start middle stop lower upper => (window_append lower upper).symm
  have front : ∀ block : Bytes, window block 0 148 = Field.name.of block ++ (Field.mode.of block ++
      (Field.uid.of block ++ (Field.gid.of block ++ (Field.size.of block ++ Field.mtime.of block)))) := by
    intro block
    rw [piece block 0 100 148 (by decide) (by decide), piece block 100 108 148 (by decide) (by decide),
      piece block 108 116 148 (by decide) (by decide), piece block 116 124 148 (by decide) (by decide),
      piece block 124 136 148 (by decide) (by decide)]
    rfl
  have back : ∀ block : Bytes, window block 156 512 = Field.typeflag.of block ++ (Field.linkname.of block ++
      (Field.magic.of block ++ Field.tail.of block)) := by
    intro block
    rw [piece block 156 157 512 (by decide) (by decide), piece block 157 257 512 (by decide) (by decide),
      piece block 257 265 512 (by decide) (by decide)]
    rfl
  rw [checksum, checksum, front, front, back, back]
  simp only [same _ (by decide : Field.name ≠ .cksum), same _ (by decide : Field.mode ≠ .cksum),
    same _ (by decide : Field.uid ≠ .cksum), same _ (by decide : Field.gid ≠ .cksum),
    same _ (by decide : Field.size ≠ .cksum), same _ (by decide : Field.mtime ≠ .cksum),
    same _ (by decide : Field.typeflag ≠ .cksum), same _ (by decide : Field.linkname ≠ .cksum),
    same _ (by decide : Field.magic ≠ .cksum), same _ (by decide : Field.tail ≠ .cksum)]

theorem sum_toNat_le (bytes : Bytes) : (bytes.map UInt8.toNat).sum ≤ 255 * bytes.length := by
  induction bytes with
  | nil => simp
  | cons byte rest ih =>
      have small := byte.toNat_lt
      simp only [List.map_cons, List.sum_cons, List.length_cons]
      omega

theorem checksum_lt (block : Bytes) : checksum block < 8 ^ 7 := by
  have bound := sum_toNat_le (window block 0 148 ++ List.replicate 8 32 ++ window block 156 512)
  have length : (window block 0 148 ++ List.replicate 8 32 ++ window block 156 512).length ≤ 512 := by
    simp only [List.length_append, List.length_replicate, window_length]
    omega
  rw [checksum]
  omega

end Raas.Tar
